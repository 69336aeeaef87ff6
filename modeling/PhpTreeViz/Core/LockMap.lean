import PhpTreeViz.Core.Run
import Mathlib.Logic.Function.Basic
import Mathlib.Tactic.Lemma

/-!
# A map of locks

Tasks that work on the resource of a key under a mutex of that key. The mutexes are created on
demand: a task looks its key up, and only if there is no mutex yet does it look again with exclusive
access to the map and insert one. Between the two steps other tasks may have inserted it.

The main result reduces the interleaved runs to sequential ones: what a task does between taking a
mutex and releasing it is a run of its critical section alone, but for changes from the outside.
-/

namespace Core

variable {ι κ ρ α ε : Type*}

/-- Where a task is. Mutexes are numbered in the order in which they are created. -/
inductive Phase (κ α : Type*) where
  | idle
  | lookup (k : κ)
  | missed (k : κ)
  | waiting (k : κ) (m : ℕ)
  | holding (k : κ) (m : ℕ) (a : α)

/-- The mutex that a task has been handed for its key. -/
def Phase.lock : Phase κ α → Option (κ × ℕ)
  | .idle | .lookup _ | .missed _ => none
  | .waiting k m | .holding k m _ => some (k, m)

/-- What a task does with the resource `ρ` under the mutex. `env` are the changes that others make
without it. -/
structure Section (ρ α ε : Type*) where
  entry : α
  step : ρ → α → ε → ρ → α → Prop
  exit : α → Prop
  env : ρ → ρ → Prop

/-- The course of one critical section: its own steps, and the changes from the outside. -/
inductive Section.Trace (c : Section ρ α ε) : List ε → ρ → α → Prop where
  | entry (r : ρ) : c.Trace [] r c.entry
  | step {es : List ε} {e : ε} {r r' : ρ} {a a' : α} :
      c.Trace es r a → c.step r a e r' a' → c.Trace (es ++ [e]) r' a'
  | env {es : List ε} {r r' : ρ} {a : α} : c.Trace es r a → c.env r r' → c.Trace es r' a

namespace LockMap

structure State (ι κ ρ α : Type*) where
  locks : κ → Option ℕ
  created : ℕ
  owner : ℕ → Option ι
  tasks : ι → Phase κ α
  shared : κ → ρ

/-- Nothing has been requested yet. -/
def State.start (shared : κ → ρ) : State ι κ ρ α where
  locks _ := none
  created := 0
  owner _ := none
  tasks _ := .idle
  shared := shared

/-! ### Mutual exclusion -/

/-- Each key has at most one mutex and no two keys share one, the tasks have been handed the mutex
of their key, and a task in its critical section owns it. -/
structure Exclusive (s : State ι κ ρ α) : Prop where
  lt_created : ∀ k m, s.locks k = some m → m < s.created
  locks_inj : ∀ k k' m, s.locks k = some m → s.locks k' = some m → k = k'
  handed : ∀ i k m, (s.tasks i).lock = some (k, m) → s.locks k = some m
  owned : ∀ i k m a, s.tasks i = .holding k m a → s.owner m = some i

lemma Exclusive.start (shared : κ → ρ) : Exclusive (State.start shared : State ι κ ρ α) where
  lt_created := nofun
  locks_inj := nofun
  handed := nofun
  owned := nofun

/-- The mutex of a key excludes all tasks but one. -/
theorem Exclusive.eq_of_holding {s : State ι κ ρ α} (h : Exclusive s) {i j : ι} {k : κ} {m m' : ℕ}
    {a a' : α} (hi : s.tasks i = .holding k m a) (hj : s.tasks j = .holding k m' a') :
    m = m' ∧ i = j := by
  have hm : s.locks k = some m := h.handed i k m (by rw [hi]; rfl)
  have hm' : s.locks k = some m' := h.handed j k m' (by rw [hj]; rfl)
  obtain rfl : m = m' := Option.some.inj (hm.symm.trans hm')
  exact ⟨rfl, Option.some.inj ((h.owned i k m a hi).symm.trans (h.owned j k m a' hj))⟩

/-! ### Steps -/

inductive Event (ι κ ε : Type*) where
  | request (i : ι) (k : κ)
  | lookup (i : ι)
  | insert (i : ι)
  | acquire (i : ι)
  | work (i : ι) (k : κ) (e : ε)
  | release (i : ι)
  | change (k : κ)

def State.setTask [DecidableEq ι] (s : State ι κ ρ α) (i : ι) (p : Phase κ α) : State ι κ ρ α :=
  { s with tasks := Function.update s.tasks i p }

def State.setShared [DecidableEq κ] (s : State ι κ ρ α) (k : κ) (r : ρ) : State ι κ ρ α :=
  { s with shared := Function.update s.shared k r }

def State.setOwner (s : State ι κ ρ α) (m : ℕ) (i : Option ι) : State ι κ ρ α :=
  { s with owner := Function.update s.owner m i }

/-- Create the mutex of `k`. -/
def State.insertLock [DecidableEq κ] (s : State ι κ ρ α) (k : κ) : State ι κ ρ α :=
  { s with locks := Function.update s.locks k (some s.created), created := s.created + 1 }

/-- One step of a task, or a change from the outside. -/
inductive Step [DecidableEq ι] [DecidableEq κ] (c : Section ρ α ε) :
    State ι κ ρ α → Event ι κ ε → State ι κ ρ α → Prop where
  | request {s : State ι κ ρ α} {i : ι} {k : κ} :
      s.tasks i = .idle → Step c s (.request i k) (s.setTask i (.lookup k))
  | hit {s : State ι κ ρ α} {i : ι} {k : κ} {m : ℕ} :
      s.tasks i = .lookup k → s.locks k = some m →
      Step c s (.lookup i) (s.setTask i (.waiting k m))
  | miss {s : State ι κ ρ α} {i : ι} {k : κ} :
      s.tasks i = .lookup k → s.locks k = none → Step c s (.lookup i) (s.setTask i (.missed k))
  | found {s : State ι κ ρ α} {i : ι} {k : κ} {m : ℕ} :
      s.tasks i = .missed k → s.locks k = some m →
      Step c s (.insert i) (s.setTask i (.waiting k m))
  | insert {s : State ι κ ρ α} {i : ι} {k : κ} :
      s.tasks i = .missed k → s.locks k = none →
      Step c s (.insert i) ((s.insertLock k).setTask i (.waiting k s.created))
  | acquire {s : State ι κ ρ α} {i : ι} {k : κ} {m : ℕ} :
      s.tasks i = .waiting k m → s.owner m = none →
      Step c s (.acquire i) ((s.setOwner m (some i)).setTask i (.holding k m c.entry))
  | work {s : State ι κ ρ α} {i : ι} {k : κ} {m : ℕ} {a a' : α} {e : ε} {r : ρ} :
      s.tasks i = .holding k m a → c.step (s.shared k) a e r a' →
      Step c s (.work i k e) ((s.setShared k r).setTask i (.holding k m a'))
  | release {s : State ι κ ρ α} {i : ι} {k : κ} {m : ℕ} {a : α} :
      s.tasks i = .holding k m a → c.exit a →
      Step c s (.release i) ((s.setOwner m none).setTask i .idle)
  | change {s : State ι κ ρ α} {k : κ} {r : ρ} :
      c.env (s.shared k) r → Step c s (.change k) (s.setShared k r)

namespace Exclusive

variable {c : Section ρ α ε} {s t : State ι κ ρ α} {e : Event ι κ ε} {i : ι} {k : κ} {m : ℕ}

lemma setTask [DecidableEq ι] (h : Exclusive s) {p : Phase κ α}
    (hlock : ∀ k m, p.lock = some (k, m) → s.locks k = some m)
    (howned : ∀ k m a, p = .holding k m a → s.owner m = some i) : Exclusive (s.setTask i p) where
  lt_created := h.lt_created
  locks_inj := h.locks_inj
  handed j k m hj := by
    simp only [State.setTask, Function.update_apply] at hj
    split_ifs at hj
    exacts [hlock k m hj, h.handed j k m hj]
  owned j k m a hj := by
    simp only [State.setTask, Function.update_apply] at hj
    split_ifs at hj with hji
    exacts [hji ▸ howned k m a hj, h.owned j k m a hj]

/-- The owner of a mutex that nobody holds does not matter. -/
lemma setOwner (h : Exclusive s) (hfree : ∀ i k a, s.tasks i ≠ .holding k m a) (o : Option ι) :
    Exclusive (s.setOwner m o) where
  lt_created := h.lt_created
  locks_inj := h.locks_inj
  handed := h.handed
  owned j k m' a hj := by
    have hne : m' ≠ m := by
      rintro rfl
      exact hfree j k a hj
    simpa only [State.setOwner, Function.update_of_ne hne] using h.owned j k m' a hj

/-- The new mutex differs from all others. -/
lemma insertLock [DecidableEq κ] (h : Exclusive s) (hnone : s.locks k = none) :
    Exclusive (s.insertLock k) where
  lt_created k' m hm := by
    simp only [State.insertLock, Function.update_apply] at hm ⊢
    split_ifs at hm
    · obtain rfl := Option.some.inj hm
      exact Nat.lt_succ_self _
    · exact Nat.lt_succ_of_lt (h.lt_created k' m hm)
  locks_inj k₁ k₂ m h₁ h₂ := by
    simp only [State.insertLock, Function.update_apply] at h₁ h₂
    split_ifs at h₁ h₂ with hk₁ hk₂ hk₂
    · exact hk₁.trans hk₂.symm
    · obtain rfl := Option.some.inj h₁
      exact absurd (h.lt_created k₂ _ h₂) (Nat.lt_irrefl _)
    · obtain rfl := Option.some.inj h₂
      exact absurd (h.lt_created k₁ _ h₁) (Nat.lt_irrefl _)
    · exact h.locks_inj k₁ k₂ m h₁ h₂
  handed j k' m hj := by
    have hlock := h.handed j k' m hj
    have hne : k' ≠ k := by
      rintro rfl
      rw [hnone] at hlock
      cases hlock
    simpa only [State.insertLock, Function.update_of_ne hne] using hlock
  owned := h.owned

lemma setShared [DecidableEq κ] (h : Exclusive s) (r : ρ) : Exclusive (s.setShared k r) :=
  ⟨h.lt_created, h.locks_inj, h.handed, h.owned⟩

variable [DecidableEq ι] [DecidableEq κ]

theorem step (h : Exclusive s) (hstep : Step c s e t) : Exclusive t := by
  cases hstep with
  | request => exact h.setTask nofun nofun
  | miss => exact h.setTask nofun nofun
  | hit _ hm | found _ hm =>
    refine h.setTask ?_ nofun
    rintro _ _ ⟨⟩
    exact hm
  | insert _ hnone =>
    refine (h.insertLock hnone).setTask ?_ nofun
    rintro _ _ ⟨⟩
    exact Function.update_self ..
  | acquire hwait hfree =>
    refine Exclusive.setTask (h.setOwner (fun j k a hj => ?_) _) ?_ ?_
    · rw [h.owned j k _ a hj] at hfree
      cases hfree
    · rintro _ _ ⟨⟩
      exact h.handed _ _ _ (by rw [hwait]; rfl)
    · rintro _ _ _ ⟨⟩
      exact Function.update_self ..
  | work hhold _ =>
    refine (h.setShared _).setTask ?_ ?_
    · rintro _ _ ⟨⟩
      exact h.handed _ _ _ (by rw [hhold]; rfl)
    · rintro _ _ _ ⟨⟩
      exact h.owned _ _ _ _ hhold
  | @release i _ m _ hhold _ =>
    refine (h.setTask (i := i) (p := .idle) nofun nofun).setOwner (fun j k a hj => ?_) none
    simp only [State.setTask, Function.update_apply] at hj
    split_ifs at hj with hji
    exact hji (Option.some.inj ((h.owned j k m a hj).symm.trans (h.owned i _ m _ hhold)))
  | change => exact h.setShared _

end Exclusive

variable [DecidableEq ι] [DecidableEq κ]

lemma exclusive_of_run {c : Section ρ α ε} {shared : κ → ρ} {s : State ι κ ρ α}
    {es : List (Event ι κ ε)} (hrun : Run (Step c) (State.start shared) es s) : Exclusive s :=
  hrun.invariant (P := fun _ => True) (fun _ _ _ _ hstep h => h.step hstep) (fun _ _ => trivial)
    (Exclusive.start shared)

/-! ### Critical sections -/

/-- What `i` has done since it last took a mutex, after one more event. -/
def recordWork (i : ι) (es : List ε) : Event ι κ ε → List ε
  | .acquire j  => if j = i then [] else es
  | .work j _ e => if j = i then es ++ [e] else es
  | _           => es

def sinceAcquire (i : ι) (es : List (Event ι κ ε)) : List ε := es.foldl (recordWork i) []

section trace

variable {c : Section ρ α ε} {s t : State ι κ ρ α} {i : ι} {k : κ} {m : ℕ} {a : α}

/-- The tasks other than `i` leave its phase alone and, while it holds the mutex of `k`, also the
resource of `k`. -/
lemma trace_step {e : Event ι κ ε} {h : List ε} (hex : Exclusive s) (hstep : Step c s e t)
    (hs : ∀ k m a, s.tasks i = .holding k m a → c.Trace h (s.shared k) a) :
    ∀ k m a, t.tasks i = .holding k m a → c.Trace (recordWork i h e) (t.shared k) a := by
  intro k m a hi
  cases hstep with
  | request | hit | miss | found | insert | release =>
    simp only [State.setTask, Function.update_apply] at hi
    split_ifs at hi
    exact hs k m a hi
  | acquire _ _ =>
    simp only [State.setTask, Function.update_apply] at hi
    rw [recordWork]
    split_ifs at hi with hij
    · cases hi
      rw [if_pos hij.symm]
      exact .entry _
    · rw [if_neg (Ne.symm hij)]
      exact hs k m a hi
  | @work j k' m' _ _ _ _ hj hsec =>
    simp only [State.setTask, Function.update_apply] at hi
    rw [recordWork]
    split_ifs at hi with hij
    · subst hij
      cases hi
      rw [if_pos rfl]
      simpa [State.setTask, State.setShared] using (hs _ _ _ hj).step hsec
    · have hne : k ≠ k' := by
        rintro rfl
        exact hij (hex.eq_of_holding hi hj).2
      rw [if_neg (Ne.symm hij)]
      simpa [State.setTask, State.setShared, hne] using hs k m a hi
  | @change k' r henv =>
    by_cases hk : k = k'
    · subst hk
      simpa [State.setShared, recordWork] using (hs k m a hi).env henv
    · simpa [State.setShared, recordWork, hk] using hs k m a hi

/-- A critical section that is interleaved with the other tasks is one that runs by itself. -/
theorem trace_of_run {shared : κ → ρ} {es : List (Event ι κ ε)}
    (hrun : Run (Step c) (State.start shared) es s) (hi : s.tasks i = .holding k m a) :
    c.Trace (sinceAcquire i es) (s.shared k) a := by
  have hinv := hrun.ghost (P := fun _ => True) (f := recordWork i) (g := [])
    (I := fun s h => Exclusive s ∧
      ∀ k m a, s.tasks i = .holding k m a → c.Trace h (s.shared k) a)
    (fun s e t h _ hstep hs => ⟨hs.1.step hstep, trace_step hs.1 hstep hs.2⟩) (fun _ _ => trivial)
    ⟨Exclusive.start shared, nofun⟩
  exact hinv.2 k m a hi

end trace

end LockMap

end Core
