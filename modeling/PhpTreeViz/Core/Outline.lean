import Mathlib.Data.List.Basic
import Mathlib.Data.List.Nodup
import Mathlib.Tactic.Lemma

/-!
# Outlines

A tree that is shown as a list of indented rows, each row under its parent. A list is such an
outline if every row that is not at the top comes after its parent, which is indented by one less,
with only deeper rows in between. An outline remains one when the rows below a row are removed, and
the place where the children of a row can be inserted is right after that row.
-/

namespace Core

/-- What the rows of an outline say about themselves. -/
structure Outline (ρ κ : Type*) where
  key : ρ → κ
  parent : ρ → κ
  indent : ρ → ℕ
  IsTop : ρ → Prop

namespace Outline

variable {ρ κ : Type*} (o : Outline ρ κ)

/-- The parent of `r` is among the rows before it, and only deeper rows have come since. -/
def Under (before : List ρ) (r : ρ) : Prop :=
  ∃ above p between, before = above ++ p :: between ∧ o.key p = o.parent r ∧
    o.indent r = o.indent p + 1 ∧ ∀ x ∈ between, o.indent p < o.indent x

def Preorder (rows : List ρ) : Prop :=
  ∀ before r after, rows = before ++ r :: after → o.IsTop r ∨ o.Under before r

/-- A preorder in which no row occurs twice. -/
structure WellFormed (rows : List ρ) : Prop where
  preorder : o.Preorder rows
  nodup : (rows.map o.key).Nodup

variable {o} {rows before after : List ρ} {p r : ρ}

/-! ### The parent of a row -/

/-- The parent is among the rows that have come last, or before them if none of them is less deep
than `r`. -/
lemma under_append_iff {l l' : List ρ} :
    o.Under (l ++ l') r ↔ o.Under l' r ∨ o.Under l r ∧ ∀ x ∈ l', o.indent r ≤ o.indent x := by
  constructor
  · rintro ⟨above, p, between, heq, hkey, hindent, hdeep⟩
    rcases List.append_eq_append_iff.mp heq with ⟨u, rfl, rfl⟩ | ⟨u, hu, hl'⟩
    · exact .inl ⟨u, p, between, rfl, hkey, hindent, hdeep⟩
    · cases u with
      | nil =>
        refine .inl ⟨[], p, between, by simpa using hl'.symm, hkey, hindent, hdeep⟩
      | cons q u =>
        obtain ⟨rfl, rfl⟩ := List.cons_eq_cons.mp hl'
        refine .inr ⟨⟨above, p, u, hu, hkey, hindent, fun x hx => hdeep x (by simp [hx])⟩, ?_⟩
        intro x hx
        have := hdeep x (by simp [hx])
        omega
  · rintro (⟨above, p, between, rfl, h⟩ | ⟨⟨above, p, between, rfl, hkey, hindent, hdeep⟩, hl'⟩)
    · exact ⟨l ++ above, p, between, by simp, h⟩
    · refine ⟨above, p, between ++ l', by simp, hkey, hindent, fun x hx => ?_⟩
      rcases List.mem_append.mp hx with hx | hx
      · exact hdeep x hx
      · have := hl' x hx
        omega

@[simp] lemma under_singleton_iff :
    o.Under [p] r ↔ o.key p = o.parent r ∧ o.indent r = o.indent p + 1 := by
  constructor
  · rintro ⟨above, q, between, heq, hkey, hindent, -⟩
    cases above with
    | nil =>
      obtain ⟨rfl, -⟩ := List.cons_eq_cons.mp heq
      exact ⟨hkey, hindent⟩
    | cons a above => simp at heq
  · rintro ⟨hkey, hindent⟩
    exact ⟨[], p, [], rfl, hkey, hindent, by simp⟩

lemma Under.exists_mem (h : o.Under before r) :
    ∃ p ∈ before, o.key p = o.parent r ∧ o.indent r = o.indent p + 1 := by
  obtain ⟨above, p, between, rfl, hkey, hindent, -⟩ := h
  exact ⟨p, by simp, hkey, hindent⟩

/-! ### Preorders -/

lemma preorder_append_iff {l l' : List ρ} :
    o.Preorder (l ++ l') ↔ o.Preorder l ∧
      ∀ before r after, l' = before ++ r :: after → o.IsTop r ∨ o.Under (l ++ before) r := by
  constructor
  · intro h
    refine ⟨fun before r after heq => h before r (after ++ l') (by simp [heq]), ?_⟩
    intro before r after heq
    exact h (l ++ before) r after (by simp [heq])
  · rintro ⟨hl, hl'⟩ before r after heq
    rcases List.append_eq_append_iff.mp heq with ⟨u, rfl, hu⟩ | ⟨u, hu, heq'⟩
    · exact hl' u r after hu
    · cases u with
      | nil =>
        have := hl' [] r after (by simpa using heq'.symm)
        simpa [hu] using this
      | cons q u =>
        obtain ⟨rfl, -⟩ := List.cons_eq_cons.mp heq'
        exact hl before _ u hu

@[simp] lemma preorder_nil : o.Preorder [] := by
  rintro before r after h
  simp at h

lemma Preorder.concat (h : o.Preorder rows) (hr : o.IsTop r ∨ o.Under rows r) :
    o.Preorder (rows ++ [r]) := by
  refine preorder_append_iff.mpr ⟨h, fun before x after heq => ?_⟩
  cases before with
  | nil =>
    obtain ⟨rfl, -⟩ := List.cons_eq_cons.mp heq
    simpa using hr
  | cons y before => simp at heq

/-- A preorder is built by appending subtrees, each a row and what is below it. -/
theorem Preorder.append_subtrees {ι : Type*} {is : List ι} {head : ι → ρ} {below : ι → List ρ}
    {d : ℕ} (h : o.Preorder rows)
    (hhead : ∀ i ∈ is, ∀ l, (∀ x ∈ l, d ≤ o.indent x) →
      o.IsTop (head i) ∨ o.Under (rows ++ l) (head i))
    (hdeep : ∀ i ∈ is, ∀ x ∈ head i :: below i, d ≤ o.indent x)
    (hbelow : ∀ i ∈ is, ∀ l, o.Preorder (l ++ [head i]) → o.Preorder (l ++ head i :: below i)) :
    o.Preorder (rows ++ is.flatMap fun i => head i :: below i) := by
  induction is generalizing rows with
  | nil => simpa using h
  | cons i is ih =>
    have hrow := h.concat (by simpa using hhead i (by simp) [] (by simp))
    rw [List.flatMap_cons, ← List.append_assoc]
    refine ih (hbelow i (by simp) rows hrow) (fun j hj l hl => ?_)
      (fun j hj => hdeep j (by simp [hj])) fun j hj => hbelow j (by simp [hj])
    rw [List.append_assoc]
    refine hhead j (by simp [hj]) _ fun x hx => ?_
    rcases List.mem_append.mp hx with hx | hx
    · exact hdeep i (by simp) x hx
    · exact hl x hx

/-- The rows that are deeper than `r` and follow it can be removed. -/
theorem Preorder.remove {below : List ρ} (h : o.Preorder (before ++ r :: (below ++ after)))
    (hbelow : ∀ x ∈ below, o.indent r < o.indent x)
    (hafter : ∀ x ∈ after.head?, o.indent x ≤ o.indent r) :
    o.Preorder (before ++ r :: after) := by
  have hsplit : before ++ r :: (below ++ after) = before ++ [r] ++ below ++ after := by simp
  rw [hsplit, preorder_append_iff, preorder_append_iff] at h
  obtain ⟨⟨hrow, -⟩, hrest⟩ := h
  rw [show before ++ r :: after = before ++ [r] ++ after by simp, preorder_append_iff]
  refine ⟨hrow, fun u x v heq => (hrest u x v heq).imp_right fun hx => ?_⟩
  rw [under_append_iff] at hx ⊢
  refine hx.imp_right fun ⟨hx, hu⟩ => ⟨?_, hu⟩
  rw [under_append_iff] at hx
  rcases hx with hx | hx
  · -- A parent in `below` is deeper than `r`, but `after` begins with a row that is not.
    exfalso
    obtain ⟨p, hp, -, hindent⟩ := hx.exists_mem
    have hpr := hbelow p hp
    cases u with
    | nil =>
      have := hafter x (by simp [heq])
      omega
    | cons y u =>
      have := hafter y (by simp [heq])
      have := hu y (by simp)
      omega
  · exact hx.1

/-- The children of the last row of `before` can be inserted after it. -/
theorem Preorder.insert {children : List ρ} (h : o.Preorder (before ++ p :: after))
    (hparent : ∀ x ∈ children, o.parent x = o.key p)
    (hindent : ∀ x ∈ children, o.indent x = o.indent p + 1) :
    o.Preorder (before ++ p :: (children ++ after)) := by
  rw [show before ++ p :: after = before ++ [p] ++ after by simp, preorder_append_iff] at h
  obtain ⟨hbefore, hafter⟩ := h
  rw [show before ++ p :: (children ++ after) = before ++ [p] ++ children ++ after by simp,
    preorder_append_iff, preorder_append_iff]
  refine ⟨⟨hbefore, fun u x v heq => .inr ?_⟩, fun u x v heq => ?_⟩
  · have hx : x ∈ children := by simp [heq]
    refine under_append_iff.mpr (.inr ⟨under_append_iff.mpr (.inl ?_), fun y hy => ?_⟩)
    · exact under_singleton_iff.mpr ⟨(hparent x hx).symm, hindent x hx⟩
    · have := hindent x hx
      have := hindent y (by simp [heq, hy])
      omega
  · refine (hafter u x v heq).imp_right fun hx => ?_
    rw [under_append_iff] at hx ⊢
    refine hx.imp_right fun ⟨hx, hu⟩ => ⟨under_append_iff.mpr (.inr ⟨hx, fun y hy => ?_⟩), hu⟩
    rw [hindent y hy]
    rcases under_append_iff.mp hx with hx | hx
    · exact Nat.le_of_eq (under_singleton_iff.mp hx).2
    · exact Nat.le_succ_of_le (hx.2 p (by simp))

/-- If the children of `k` can be inserted at all, and none is there, the row before them is `k`. -/
theorem Preorder.eq_of_insert {x : ρ} {rest : List ρ} (h : o.Preorder (before ++ x :: rest))
    (hx : ¬ o.IsTop x) (htop : ∀ y ∈ before, o.IsTop y → o.indent y = 0)
    (hnone : ∀ y ∈ before, o.parent y ≠ o.parent x) :
    ∃ above p, before = above ++ [p] ∧ o.key p = o.parent x := by
  obtain ⟨above, p, between, rfl, hkey, -, hdeep⟩ := (h before x rest rfl).resolve_left hx
  cases between with
  | nil => exact ⟨above, p, rfl, hkey⟩
  | cons y between =>
    -- The first row in between would be a child of `p`.
    exfalso
    have hpy := hdeep y (by simp)
    rcases h (above ++ [p]) y (between ++ x :: rest) (by simp) with hy | hy
    · have := htop y (by simp) hy
      omega
    · rcases under_append_iff.mp hy with hy | hy
      · exact hnone y (by simp) ((under_singleton_iff.mp hy).1.symm.trans hkey)
      · have := hy.2 p (by simp)
        omega

/-- If a row has children in the list, the row after it is the first of them. -/
theorem Preorder.next_child {c : ρ} (h : o.Preorder (before ++ r :: after))
    (hnodup : ((before ++ r :: after).map o.key).Nodup)
    (htop : ∀ y ∈ before ++ r :: after, o.IsTop y → o.indent y = 0)
    (hc : c ∈ before ++ r :: after) (hc' : ¬ o.IsTop c) (hparent : o.parent c = o.key r) :
    ∃ y rest, after = y :: rest ∧ o.parent y = o.key r := by
  rw [List.map_append, List.map_cons, List.nodup_append, List.nodup_cons] at hnodup
  obtain ⟨-, ⟨hafter, -⟩, hbefore⟩ := hnodup
  have hnot : ∀ l ⊆ before, ¬ o.Under l c := by
    intro l hl hu
    obtain ⟨p, hp, hkey, -⟩ := hu.exists_mem
    exact hbefore _ (List.mem_map_of_mem (hl hp)) _ List.mem_cons_self (hkey.trans hparent)
  have hsplit : before ++ r :: after = before ++ [r] ++ after := by simp
  have hmem : c ∈ after := by
    rcases List.mem_append.mp hc with hc | hc
    · obtain ⟨l, l', rfl⟩ := List.append_of_mem hc
      exact absurd ((h l c (l' ++ r :: after) (by simp)).resolve_left hc')
        (hnot l (List.subset_append_left _ _))
    · rcases List.mem_cons.mp hc with rfl | hc
      · exact absurd ((h before c after rfl).resolve_left hc') (hnot before (List.Subset.refl _))
      · exact hc
  obtain ⟨between, rest, rfl⟩ := List.append_of_mem hmem
  -- What stands between the row and this child is deeper than the row.
  have hu := (h (before ++ [r] ++ between) c rest (by simp)).resolve_left hc'
  have hdeep : ∀ x ∈ between, o.indent r < o.indent x := by
    rcases under_append_iff.mp hu with hu | ⟨hu, hle⟩
    · obtain ⟨p, hp, hkey, -⟩ := hu.exists_mem
      exact absurd (List.mem_map.mpr ⟨p, by simp [hp], hkey.trans hparent⟩) hafter
    · rcases under_append_iff.mp hu with hu | hu
      · have := (under_singleton_iff.mp hu).2
        intro x hx
        have := hle x hx
        omega
      · exact absurd hu.1 (hnot before (List.Subset.refl _))
  cases between with
  | nil => exact ⟨c, rest, rfl, hparent⟩
  | cons y between =>
    have hy := hdeep y (by simp)
    refine ⟨y, between ++ c :: rest, rfl, ?_⟩
    rcases h (before ++ [r]) y (between ++ c :: rest) (by simp) with hytop | hu
    · have := htop y (by simp) hytop
      omega
    · rcases under_append_iff.mp hu with hu | ⟨-, hle⟩
      · exact (under_singleton_iff.mp hu).1.symm
      · have := hle r (by simp)
        omega

/-! ### Changes of an outline -/

theorem WellFormed.remove {below : List ρ} (h : o.WellFormed (before ++ r :: (below ++ after)))
    (hbelow : ∀ x ∈ below, o.indent r < o.indent x)
    (hafter : ∀ x ∈ after.head?, o.indent x ≤ o.indent r) :
    o.WellFormed (before ++ r :: after) where
  preorder := h.preorder.remove hbelow hafter
  nodup := by
    refine h.nodup.sublist (List.Sublist.map _ ?_)
    exact .append_left (.cons_cons r (List.sublist_append_right below after)) before

theorem WellFormed.insert {children : List ρ} (h : o.WellFormed (before ++ p :: after))
    (hparent : ∀ x ∈ children, o.parent x = o.key p)
    (hindent : ∀ x ∈ children, o.indent x = o.indent p + 1)
    (hnodup : (children.map o.key).Nodup)
    (hnew : ∀ x ∈ children, ∀ y ∈ before ++ p :: after, o.key x ≠ o.key y) :
    o.WellFormed (before ++ p :: (children ++ after)) where
  preorder := h.preorder.insert hparent hindent
  nodup := by
    have hperm : (before ++ p :: (children ++ after)).Perm
        (children ++ (before ++ p :: after)) := by
      rw [List.append_cons before p after, List.append_cons]
      exact List.perm_append_comm_assoc _ children after
    rw [(hperm.map _).nodup_iff, List.map_append, List.nodup_append]
    refine ⟨hnodup, h.nodup, fun k hk k' hk' => ?_⟩
    obtain ⟨x, hx, rfl⟩ := List.mem_map.mp hk
    obtain ⟨y, hy, rfl⟩ := List.mem_map.mp hk'
    exact hnew x hx y hy

/-- What has been inserted was not there before. -/
lemma WellFormed.key_ne {new : List ρ} (h : o.WellFormed (before ++ new ++ after)) {x y : ρ}
    (hx : x ∈ new) (hy : y ∈ before ++ after) : o.key x ≠ o.key y := by
  have hperm : (before ++ new ++ after).Perm (new ++ (before ++ after)) := by
    rw [List.append_assoc]
    exact List.perm_append_comm_assoc before new after
  have hnodup := (hperm.map o.key).nodup_iff.mp h.nodup
  rw [List.map_append, List.nodup_append] at hnodup
  exact hnodup.2.2 _ (List.mem_map_of_mem hx) _ (List.mem_map_of_mem hy)

end Outline

end Core
