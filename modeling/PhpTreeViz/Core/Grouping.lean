import Mathlib.Data.List.Perm.Basic
import Mathlib.Data.List.Perm.Subperm
import Mathlib.Data.List.Nodup
import Mathlib.Algebra.BigOperators.Group.List.Basic
import Mathlib.Algebra.Ring.Nat
import Mathlib.Tactic.Lemma

/-!
# Grouping a list by a key

Every element of a list lies in the group of its key, so the list is a permutation of its groups.
-/

namespace Core

variable {α κ : Type*} [DecidableEq κ] {g : α → κ}

lemma filter_filter_of_ne {k k' : κ} (hk : k' ≠ k) (l : List α) :
    (l.filter (g · ≠ k)).filter (g · = k') = l.filter (g · = k') := by
  rw [List.filter_filter]
  apply List.filter_congr
  intro a _
  by_cases ha : g a = k'
  · simp [ha, hk]
  · simp [ha]

/-- A list is the concatenation of its groups, up to order. -/
theorem perm_flatMap_groups {l : List α} {ks : List κ} (hks : ks.Nodup) (hl : ∀ a ∈ l, g a ∈ ks) :
    l.Perm (ks.flatMap fun k => l.filter (g · = k)) := by
  induction ks generalizing l with
  | nil =>
    obtain rfl : l = [] := List.eq_nil_iff_forall_not_mem.mpr fun a ha => by simpa using hl a ha
    simp
  | cons k ks ih =>
    rw [List.nodup_cons] at hks
    have hrest : (l.filter (g · ≠ k)).Perm (ks.flatMap fun k' => l.filter (g · = k')) := by
      have := ih (l := l.filter (g · ≠ k)) hks.2 fun a ha => by
        obtain ⟨ha, hne⟩ := List.mem_filter.mp ha
        exact (List.mem_cons.mp (hl a ha)).resolve_left (by simpa using hne)
      refine this.trans (List.Perm.of_eq ?_)
      apply List.flatMap_congr
      intro k' hk'
      exact filter_filter_of_ne (by rintro rfl; exact hks.1 hk') l
    have hsplit := (List.filter_append_perm (fun a => decide (g a = k)) l).symm
    rw [List.flatMap_cons]
    refine hsplit.trans (List.Perm.append_left _ ?_)
    simpa using hrest

lemma subperm_map {β : Type*} {l l' : List α} (h : l.Subperm l') (f : α → β) :
    (l.map f).Subperm (l'.map f) := by
  obtain ⟨s, hperm, hsub⟩ := h
  exact ⟨s.map f, hperm.map f, hsub.map f⟩

lemma subperm_filterMap {β : Type*} {l l' : List α} (h : l.Subperm l') (f : α → Option β) :
    (l.filterMap f).Subperm (l'.filterMap f) := by
  obtain ⟨s, hperm, hsub⟩ := h
  exact ⟨s.filterMap f, hperm.filterMap f, hsub.filterMap f⟩

/-- Some groups of a list are a part of it. -/
lemma flatMap_groups_subperm (l : List α) {ks : List κ} (hks : ks.Nodup) :
    (ks.flatMap fun k => l.filter (g · = k)).Subperm l := by
  have hgroups : (ks.flatMap fun k => (l.filter (g · ∈ ks)).filter (g · = k)) =
      ks.flatMap fun k => l.filter (g · = k) := by
    apply List.flatMap_congr
    intro k hk
    rw [List.filter_filter]
    apply List.filter_congr
    intro a _
    by_cases ha : g a = k
    · simp [ha, hk]
    · simp [ha]
  rw [← hgroups]
  refine (perm_flatMap_groups hks fun a ha => ?_).symm.subperm.trans
    List.filter_sublist.subperm
  simpa using (List.mem_filter.mp ha).2

lemma length_eq_sum_groups {l : List α} {ks : List κ} (hks : ks.Nodup) (hl : ∀ a ∈ l, g a ∈ ks) :
    l.length = (ks.map fun k => l.countP (g · = k)).sum := by
  rw [(perm_flatMap_groups hks hl).length_eq, List.length_flatMap]
  simp only [List.countP_eq_length_filter]

end Core
