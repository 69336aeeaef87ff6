import PhpTreeViz.Core.Run

/-!
# Sweeps

A sweep goes through a list of items and applies an operation to the state for each of them. When
the operation touches only what belongs to the key of its item, and no two items share a key, each
item sees its key as it was before the sweep, and leaves it as it will be after.
-/

namespace Core

variable {σ α κ ρ ε : Type*}

/-- Apply `op` to each item in turn, and keep the results. `none` passes over the item. -/
def sweep (op : σ → α → Option (σ × ρ)) : List α → σ → σ × List (α × ρ)
  | [], s      => (s, [])
  | a :: as, s =>
    match op s a with
    | none        => sweep op as s
    | some (t, r) => ((sweep op as t).1, (a, r) :: (sweep op as t).2)

/-- An operation that touches only the key of its item: `Same k s t` says that nothing of `k`
differs between `s` and `t`. -/
structure Framed (key : α → κ) (Same : κ → σ → σ → Prop) (op : σ → α → Option (σ × ρ)) : Prop where
  refl : ∀ k s, Same k s s
  trans : ∀ k s t u, Same k s t → Same k t u → Same k s u
  op : ∀ s a t r k, op s a = some (t, r) → k ≠ key a → Same k s t

variable {key : α → κ} {Same : κ → σ → σ → Prop} {op : σ → α → Option (σ × ρ)} {items : List α}

lemma mem_of_mem_sweep {a : α} {r : ρ} {s : σ} (h : (a, r) ∈ (sweep op items s).2) :
    a ∈ items := by
  induction items generalizing s with
  | nil => simp [sweep] at h
  | cons b items ih =>
    rw [sweep] at h
    cases hb : op s b with
    | none =>
      simp only [hb] at h
      exact List.mem_cons_of_mem _ (ih h)
    | some p =>
      simp only [hb, List.mem_cons, Prod.mk.injEq] at h
      rcases h with ⟨rfl, -⟩ | h
      · exact List.mem_cons_self
      · exact List.mem_cons_of_mem _ (ih h)

/-- A sweep is a run of the steps that its operations take. -/
lemma run_of_sweep {step : σ → ε → σ → Prop} (label : α → ρ → ε)
    (hop : ∀ s a t r, op s a = some (t, r) → step s (label a r) t) (items : List α) (s : σ) :
    Run step s ((sweep op items s).2.map fun e => label e.1 e.2) (sweep op items s).1 := by
  induction items generalizing s with
  | nil => exact .nil s
  | cons a items ih =>
    rw [sweep]
    cases ha : op s a with
    | none => exact ih s
    | some p => exact .cons (hop s a p.1 p.2 ha) (ih p.1)

namespace Framed

lemma sweep_of_not_mem (h : Framed key Same op) {k : κ} (hk : k ∉ items.map key) (s : σ) :
    Same k s (sweep op items s).1 := by
  induction items generalizing s with
  | nil => exact h.refl k s
  | cons a items ih =>
    rw [List.map_cons, List.mem_cons, not_or] at hk
    rw [sweep]
    cases ha : op s a with
    | none => exact ih hk.2 s
    | some p => exact h.trans k _ _ _ (h.op s a p.1 p.2 k ha hk.1) (ih hk.2 p.1)

/-- Each item is handled once, on its key as it was before the sweep. -/
theorem sweep_of_mem (h : Framed key Same op) (hnodup : (items.map key).Nodup) {a : α}
    (ha : a ∈ items) (s : σ) : ∃ u, Same (key a) s u ∧
      ((op u a = none ∧ (∀ r, (a, r) ∉ (sweep op items s).2) ∧
          Same (key a) u (sweep op items s).1) ∨
        ∃ v r, op u a = some (v, r) ∧ (∀ r', (a, r') ∈ (sweep op items s).2 ↔ r' = r) ∧
          Same (key a) v (sweep op items s).1) := by
  induction items generalizing s with
  | nil => simp at ha
  | cons b items ih =>
    rw [List.map_cons, List.nodup_cons] at hnodup
    rcases List.mem_cons.mp ha with rfl | ha
    · have hlog : ∀ t r, (a, r) ∉ (sweep op items t).2 := fun t r hr =>
        hnodup.1 (List.mem_map_of_mem (mem_of_mem_sweep hr))
      refine ⟨s, h.refl _ s, ?_⟩
      rw [sweep]
      cases hb : op s a with
      | none => exact Or.inl ⟨rfl, hlog s, h.sweep_of_not_mem hnodup.1 s⟩
      | some p =>
        refine Or.inr ⟨p.1, p.2, rfl, fun r' => ?_, h.sweep_of_not_mem hnodup.1 p.1⟩
        simp [hlog]
    · have hne : key a ≠ key b := by
        intro he
        exact hnodup.1 (he ▸ List.mem_map_of_mem ha)
      have hab : a ≠ b := fun he => hne (congrArg key he)
      rw [sweep]
      cases hb : op s b with
      | none => exact ih hnodup.2 ha s
      | some p =>
        obtain ⟨u, hu, hend⟩ := ih hnodup.2 ha p.1
        refine ⟨u, h.trans _ _ _ _ (h.op s b p.1 p.2 _ hb hne) hu, ?_⟩
        simpa [hab] using hend

end Framed

end Core
