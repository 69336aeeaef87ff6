import Mathlib.Data.List.Basic
import Mathlib.Tactic.Lemma

/-!
# Labelled runs

The runs of a transition system whose steps carry a label, and the two ways to reason about them:
an invariant of the states, and an invariant that relates the state to a ghost value computed from
the labels.
-/

namespace Core

variable {σ ε γ : Type*} {step : σ → ε → σ → Prop}

/-- `Run step s es t`: the steps labelled `es` lead from `s` to `t`. -/
inductive Run (step : σ → ε → σ → Prop) : σ → List ε → σ → Prop where
  | nil (s : σ) : Run step s [] s
  | cons {s t u : σ} {e : ε} {es : List ε} :
      step s e t → Run step t es u → Run step s (e :: es) u

namespace Run

lemma single {s t : σ} {e : ε} (h : step s e t) : Run step s [e] t := .cons h (.nil t)

lemma append {s t u : σ} {es es' : List ε} (h : Run step s es t) (h' : Run step t es' u) :
    Run step s (es ++ es') u := by
  induction h with
  | nil => exact h'
  | cons hstep _ ih => exact .cons hstep (ih h')

/-- A run of a concatenation passes through a state in between. -/
lemma split {s u : σ} {es es' : List ε} (h : Run step s (es ++ es') u) :
    ∃ t, Run step s es t ∧ Run step t es' u := by
  induction es generalizing s with
  | nil => exact ⟨s, .nil s, h⟩
  | cons e es ih =>
    cases h with
    | cons hstep hrest =>
      obtain ⟨t, h₁, h₂⟩ := ih hrest
      exact ⟨t, .cons hstep h₁, h₂⟩

@[simp] lemma nil_iff {s t : σ} : Run step s [] t ↔ s = t := by
  constructor
  · intro h
    cases h
    rfl
  · rintro rfl
    exact .nil s

lemma cons_iff {s u : σ} {e : ε} {es : List ε} :
    Run step s (e :: es) u ↔ ∃ t, step s e t ∧ Run step t es u := by
  constructor
  · intro h
    cases h with
    | cons hstep hrest => exact ⟨_, hstep, hrest⟩
  · rintro ⟨t, hstep, hrest⟩
    exact .cons hstep hrest

/-- An invariant kept by every step whose label satisfies `P` is kept by the runs of such steps. -/
lemma invariant {I : σ → Prop} {P : ε → Prop}
    (hI : ∀ s e t, P e → step s e t → I s → I t) {s t : σ} {es : List ε}
    (h : Run step s es t) (hP : ∀ e ∈ es, P e) (hs : I s) : I t := by
  induction h with
  | nil => exact hs
  | cons hstep _ ih =>
    simp only [List.mem_cons, forall_eq_or_imp] at hP
    exact ih hP.2 (hI _ _ _ hP.1 hstep hs)

/-- An invariant between the state and a ghost value that each label updates. -/
lemma ghost {I : σ → γ → Prop} {f : γ → ε → γ} {P : ε → Prop}
    (hI : ∀ s e t g, P e → step s e t → I s g → I t (f g e)) {s t : σ} {es : List ε} {g : γ}
    (h : Run step s es t) (hP : ∀ e ∈ es, P e) (hs : I s g) : I t (es.foldl f g) := by
  induction h generalizing g with
  | nil => exact hs
  | cons hstep _ ih =>
    simp only [List.mem_cons, forall_eq_or_imp] at hP
    exact ih hP.2 (hI _ _ _ _ hP.1 hstep hs)

/-- A system that keeps up with every step keeps up with every run. -/
lemma simulate {τ : Type*} {step' : τ → ε → τ → Prop} {R : σ → τ → Prop}
    (hR : ∀ s e t a, step s e t → R s a → ∃ b, step' a e b ∧ R t b) {s t : σ} {a : τ}
    {es : List ε} (h : Run step s es t) (hs : R s a) : ∃ b, Run step' a es b ∧ R t b := by
  induction h generalizing a with
  | nil s => exact ⟨a, .nil a, hs⟩
  | cons hstep _ ih =>
    obtain ⟨b, hstep', hb⟩ := hR _ _ _ _ hstep hs
    obtain ⟨b', hrun', hb'⟩ := ih hb
    exact ⟨b', .cons hstep' hrun', hb'⟩

/-- The states that a deterministic run passes through all satisfy `P` exactly when all its steps
satisfy `G`, if that is so for each single step. -/
theorem all_reached_iff {I P : σ → Prop} {Q : ε → Prop} {G : σ → ε → Prop}
    (hdet : ∀ s e t t', step s e t → step s e t' → t = t')
    (hstep : ∀ s e t, Q e → I s → P s → step s e t → I t ∧ (P t ↔ G s e))
    {s t : σ} {es : List ε} (h : Run step s es t) (hQ : ∀ e ∈ es, Q e) (hI : I s) (hP : P s) :
    (∀ es' u, es' <+: es → Run step s es' u → P u) ↔
      Run (fun s e t => step s e t ∧ G s e) s es t := by
  induction h with
  | nil s =>
    refine iff_of_true (fun es' u hpre hrun => ?_) (.nil s)
    rw [List.prefix_nil.mp hpre, nil_iff] at hrun
    exact hrun ▸ hP
  | @cons s t u e es hfirst _ ih =>
    simp only [List.mem_cons, forall_eq_or_imp] at hQ
    obtain ⟨hIt, hPt⟩ := hstep s e t hQ.1 hI hP hfirst
    have hcons : Run (fun s e t => step s e t ∧ G s e) s (e :: es) u ↔
        G s e ∧ Run (fun s e t => step s e t ∧ G s e) t es u := by
      rw [cons_iff]
      constructor
      · rintro ⟨t', ⟨hstep', hgood⟩, hrest⟩
        exact ⟨hgood, hdet s e t' t hstep' hfirst ▸ hrest⟩
      · rintro ⟨hgood, hrest⟩
        exact ⟨t, ⟨hfirst, hgood⟩, hrest⟩
    rw [hcons]
    constructor
    · intro hall
      have hgood := hPt.mp (hall [e] t (by simp) (.single hfirst))
      refine ⟨hgood, (ih hQ.2 hIt (hPt.mpr hgood)).mp fun es' v hpre hrun => ?_⟩
      exact hall (e :: es') v (by simpa using hpre) (.cons hfirst hrun)
    · rintro ⟨hgood, hrest⟩ es' v hpre hrun
      cases hrun with
      | nil => exact hP
      | @cons _ t' _ e' es' hfirst' hrun' =>
        obtain ⟨rfl, hpre'⟩ := List.cons_prefix_cons.mp hpre
        obtain rfl := hdet s e' t' t hfirst' hfirst
        exact (ih hQ.2 hIt (hPt.mpr hgood)).mpr hrest es' v hpre' hrun'

/-- Steps of one system that are steps of another map runs to runs. -/
lemma map {τ : Type*} {step' : τ → ε → τ → Prop} {f : σ → τ}
    (hf : ∀ s e t, step s e t → step' (f s) e (f t)) {s t : σ} {es : List ε}
    (h : Run step s es t) : Run step' (f s) es (f t) := by
  induction h with
  | nil => exact .nil _
  | cons hstep _ ih => exact .cons (hf _ _ _ hstep) ih

end Run

end Core
