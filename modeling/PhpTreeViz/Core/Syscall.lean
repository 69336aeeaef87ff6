import Mathlib.Logic.Function.Basic
import Mathlib.Tactic.Lemma

/-!
# Programs over system calls that may fail

A program acts on a state by system calls. Each call is done, fails, or is the one in which the
process dies, as a list of fates has it; a call that is not done may still have had a part of its
effect. `Ensures` is the program logic: what holds at the end of a program, whatever the fates are.
-/

namespace Core

/-- What becomes of a system call. A call that is cut off comes with how far it got. -/
inductive Fate (ρ : Type) where
  | done
  | fail (cut : ρ)
  | crash (cut : ρ)

/-- The error of a system call. `other` stands for all that no program tells apart. -/
inductive IoError where
  | notFound
  | other
  deriving DecidableEq

/-- The state, and the fates of the calls to come. Calls beyond the end of the list are done. -/
structure World (ρ σ : Type) where
  state : σ
  fates : List (Fate ρ) := []

/-- How a program stops before its end: it returns an error or the process dies. -/
inductive Stop (ε : Type) where
  | error (e : ε)
  | crash
  deriving DecidableEq

abbrev Sys (ρ σ ε : Type) := EStateM (Stop ε) (World ρ σ)

variable {ρ σ ε α β : Type}

/-- A system call with the effect `run`, of which only `cut` is left when it is cut off. -/
def syscall (run : σ → Except IoError α × σ) (cut : ρ → σ → σ) : Sys ρ σ ε (Except IoError α) :=
  fun w => match w.fates with
  | []               => .ok (run w.state).1 ⟨(run w.state).2, []⟩
  | .done :: fates   => .ok (run w.state).1 ⟨(run w.state).2, fates⟩
  | .fail c :: fates => .ok (.error .other) ⟨cut c w.state, fates⟩
  | .crash c :: fates => .error .crash ⟨cut c w.state, fates⟩

/-- A system call that only reads the state. -/
def query (read : σ → Except IoError α) : Sys ρ σ ε (Except IoError α) :=
  syscall (fun s => (read s, s)) (fun _ s => s)

/-- Leave the program with an error. -/
def fail (e : ε) : Sys ρ σ ε α := throw (.error e)

/-- Pass the error of a system call on as `e`. -/
def orFail (e : ε) : Except IoError α → Sys ρ σ ε α
  | .ok a    => pure a
  | .error _ => fail e

/-- An action on the memory of the process, which is done whatever the fates are. -/
def act (f : σ → α × σ) : Sys ρ σ ε α :=
  fun w => .ok (f w.state).1 { w with state := (f w.state).2 }

/-- Take the error of a program as its result. -/
def attempt {ε' : Type} (m : Sys ρ σ ε α) : Sys ρ σ ε' (Except ε α) :=
  fun w => match m w with
  | .ok a w'             => .ok (.ok a) w'
  | .error (.error e) w' => .ok (.error e) w'
  | .error .crash w'     => .error .crash w'

/-- From `s` the program ends with `Q` or is cut off with `E`, whatever the fates of its calls. -/
def Ensures (s : σ) (m : Sys ρ σ ε α) (Q : α → σ → Prop) (E : Stop ε → σ → Prop) : Prop :=
  ∀ fates, match m ⟨s, fates⟩ with
    | .ok a w    => Q a w.state
    | .error e w => E e w.state

namespace Ensures

variable {s : σ} {Q Q' : α → σ → Prop} {E E' : Stop ε → σ → Prop}

lemma pure {a : α} (h : Q a s) : Ensures s (Pure.pure a : Sys ρ σ ε α) Q E := fun _ => h

lemma fail {e : ε} (h : E (.error e) s) : Ensures s (Core.fail e : Sys ρ σ ε α) Q E := fun _ => h

lemma bind {m : Sys ρ σ ε α} {f : α → Sys ρ σ ε β} {R : β → σ → Prop}
    (hm : Ensures s m Q E) (hf : ∀ a t, Q a t → Ensures t (f a) R E) :
    Ensures s (m >>= f) R E := by
  intro fates
  have hm := hm fates
  change match EStateM.bind m f ⟨s, fates⟩ with | .ok a w => R a w.state | .error e w => E e w.state
  rw [EStateM.bind]
  cases hrun : m ⟨s, fates⟩ with
  | ok a w =>
    rw [hrun] at hm
    exact hf a w.state hm w.fates
  | error e w =>
    rw [hrun] at hm
    exact hm

lemma mono {m : Sys ρ σ ε α} (hm : Ensures s m Q E) (hQ : ∀ a t, Q a t → Q' a t)
    (hE : ∀ e t, E e t → E' e t) : Ensures s m Q' E' := by
  intro fates
  have hm := hm fates
  cases hrun : m ⟨s, fates⟩ with
  | ok a w =>
    rw [hrun] at hm
    exact hQ a _ hm
  | error e w =>
    rw [hrun] at hm
    exact hE e _ hm

/-- The rule of a system call: it is done, it fails, or the process dies in it. -/
lemma syscall_cases {run : σ → Except IoError α × σ} {cut : ρ → σ → σ}
    {Q : Except IoError α → σ → Prop} (hrun : Q (run s).1 (run s).2)
    (hfail : ∀ c, Q (.error .other) (cut c s)) (hcrash : ∀ c, E .crash (cut c s)) :
    Ensures s (Core.syscall run cut : Sys ρ σ ε _) Q E := by
  rintro (_ | ⟨_ | c | c, fates⟩)
  · exact hrun
  · exact hrun
  · exact hfail c
  · exact hcrash c

/-- `P` holds whatever becomes of a system call, and it has its effect unless it is cut off. -/
lemma syscall {run : σ → Except IoError α × σ} {cut : ρ → σ → σ} {P : σ → Prop}
    (hrun : P (run s).2) (hcut : ∀ c, P (cut c s)) :
    Ensures s (Core.syscall run cut : Sys ρ σ ε _)
      (fun r t => P t ∧ (r = .error .other ∨ r = (run s).1 ∧ t = (run s).2)) fun _ => P :=
  syscall_cases ⟨hrun, .inr ⟨rfl, rfl⟩⟩ (fun c => ⟨hcut c, .inl rfl⟩) hcut

lemma query {read : σ → Except IoError α} :
    Ensures s (Core.query read : Sys ρ σ ε _)
      (fun r t => t = s ∧ (r = .error .other ∨ r = read s)) fun _ t => t = s :=
  (syscall (P := (· = s)) rfl fun _ => rfl).mono (fun _ _ h => ⟨h.1, h.2.imp_right And.left⟩)
    fun _ _ h => h

/-- A system call with its error passed on. -/
lemma syscall_orFail {run : σ → Except IoError α × σ} {cut : ρ → σ → σ} {e : ε}
    (hok : ∀ a, (run s).1 = .ok a → Q a (run s).2)
    (herr : ∀ err, (run s).1 = .error err → E (.error e) (run s).2)
    (hfail : ∀ c, E (.error e) (cut c s)) (hcrash : ∀ c, E .crash (cut c s)) :
    Ensures s (Core.syscall run cut >>= Core.orFail e : Sys ρ σ ε α) Q E := by
  have hrun : Ensures (run s).2 (Core.orFail e (run s).1 : Sys ρ σ ε α) Q E := by
    cases hr : (run s).1 with
    | ok a => exact .pure (hok a hr)
    | error err => exact .fail (herr err hr)
  rintro (_ | ⟨_ | c | c, fates⟩)
  · exact hrun []
  · exact hrun fates
  · exact hfail c
  · exact hcrash c

/-- A call that only reads, with its error passed on. -/
lemma query_orFail {read : σ → Except IoError α} {e : ε} (hok : ∀ a, read s = .ok a → Q a s)
    (herr : E (.error e) s) (hcrash : E .crash s) :
    Ensures s (Core.query read >>= Core.orFail e : Sys ρ σ ε α) Q E :=
  syscall_orFail hok (fun _ _ => herr) (fun _ => herr) fun _ => hcrash

lemma act {f : σ → α × σ} (h : Q (f s).1 (f s).2) : Ensures s (Core.act f : Sys ρ σ ε α) Q E :=
  fun _ => h

lemma attempt {ε' : Type} {m : Sys ρ σ ε α} {R : Except ε α → σ → Prop} {E' : Stop ε' → σ → Prop}
    (hm : Ensures s m Q E) (hok : ∀ a t, Q a t → R (.ok a) t)
    (herr : ∀ e t, E (.error e) t → R (.error e) t) (hcrash : ∀ t, E .crash t → E' .crash t) :
    Ensures s (Core.attempt m) R E' := by
  intro fates
  have hm := hm fates
  rw [Core.attempt]
  match hrun : m ⟨s, fates⟩ with
  | .ok a w =>
    rw [hrun] at hm
    exact hok a _ hm
  | .error (.error e) w =>
    rw [hrun] at hm
    exact herr e _ hm
  | .error .crash w =>
    rw [hrun] at hm
    exact hcrash _ hm

/-- What a program ensures holds of each of its runs. -/
lemma ok {m : Sys ρ σ ε α} (h : Ensures s m Q E) {fates : List (Fate ρ)} {a : α} {w : World ρ σ}
    (hrun : m ⟨s, fates⟩ = .ok a w) : Q a w.state := by
  have h := h fates
  rwa [hrun] at h

lemma error {m : Sys ρ σ ε α} (h : Ensures s m Q E) {fates : List (Fate ρ)} {e : Stop ε}
    {w : World ρ σ} (hrun : m ⟨s, fates⟩ = .error e w) : E e w.state := by
  have h := h fates
  rwa [hrun] at h

end Ensures

/-- From `s` the program ends with `Q` if each of its calls is done. -/
def Completes (s : σ) (m : Sys ρ σ ε α) (Q : α → σ → Prop) : Prop :=
  ∃ a t, m ⟨s, []⟩ = .ok a ⟨t, []⟩ ∧ Q a t

namespace Completes

variable {s : σ} {Q : α → σ → Prop}

lemma pure {a : α} (h : Q a s) : Completes s (Pure.pure a : Sys ρ σ ε α) Q := ⟨a, s, rfl, h⟩

lemma bind {m : Sys ρ σ ε α} {f : α → Sys ρ σ ε β} {R : β → σ → Prop}
    (hm : Completes s m Q) (hf : ∀ a t, Q a t → Completes t (f a) R) :
    Completes s (m >>= f) R := by
  obtain ⟨a, t, hrun, hQ⟩ := hm
  obtain ⟨b, u, hrun', hR⟩ := hf a t hQ
  refine ⟨b, u, ?_, hR⟩
  change EStateM.bind m f ⟨s, []⟩ = _
  rw [EStateM.bind, hrun]
  exact hrun'

lemma syscall {run : σ → Except IoError α × σ} {cut : ρ → σ → σ} :
    Completes s (Core.syscall run cut : Sys ρ σ ε _)
      fun r t => r = (run s).1 ∧ t = (run s).2 :=
  ⟨_, _, rfl, rfl, rfl⟩

lemma query {read : σ → Except IoError α} :
    Completes s (Core.query read : Sys ρ σ ε _) fun r t => r = read s ∧ t = s :=
  syscall

end Completes

end Core
