import Mathlib.Algebra.BigOperators.Group.List.Basic
import Mathlib.Data.List.Nodup
import Mathlib.Data.Set.Insert
import Mathlib.Logic.Relation
import Mathlib.Order.Basic
import Mathlib.Tactic.Lemma

/-!
# Forests with open nodes

A forest, of which a reader has opened some nodes, is shown as a list of keys with their indents:
below each open node its children, one step further in. To open a node inserts its children after
it, to close one removes what is deeper, and the rest of the list stays as it is.
-/

namespace Core

/-- The children of each node in their order. No node has two parents, and there is a bound on how
far one can descend. -/
structure Forest (κ : Type*) where
  kids : κ → List κ
  nodup : ∀ k, (kids k).Nodup
  unique : ∀ {j k c}, c ∈ kids j → c ∈ kids k → j = k
  height : κ → ℕ
  height_lt : ∀ {k c}, c ∈ kids k → height c < height k

namespace Forest

variable {κ : Type*} (f : Forest κ)

/-- `c` is `k` or below it. -/
def Below (k c : κ) : Prop := Relation.ReflTransGen (fun j c => c ∈ f.kids j) k c

open Classical in
/-- The rows below `k` if its children are indented by `d` and the nodes in `s` are open. -/
noncomputable def rows (s : Set κ) (k : κ) (d : ℕ) : List (κ × ℕ) :=
  (f.kids k).attach.flatMap fun ⟨c, _⟩ => (c, d) :: if c ∈ s then rows s c (d + 1) else []
termination_by f.height k
decreasing_by exact f.height_lt ‹_›

open Classical in
/-- The row of `c` and the rows below it. -/
noncomputable def subtree (s : Set κ) (d : ℕ) (c : κ) : List (κ × ℕ) :=
  (c, d) :: if c ∈ s then f.rows s c (d + 1) else []

variable {f} {s t : Set κ} {j k c x y : κ} {d e : ℕ}

lemma rows_eq (s : Set κ) (k : κ) (d : ℕ) :
    f.rows s k d = (f.kids k).flatMap (f.subtree s d) := by
  conv_rhs => rw [← List.attach_map_subtype_val (f.kids k), List.flatMap_map]
  rw [rows]
  rfl

lemma subtree_of_mem (h : c ∈ s) : f.subtree s d c = (c, d) :: f.rows s c (d + 1) := by
  rw [subtree, if_pos h]

lemma subtree_of_notMem (h : c ∉ s) : f.subtree s d c = [(c, d)] := by rw [subtree, if_neg h]

/-! ### Descent -/

lemma Below.height_le (h : f.Below k c) : f.height c ≤ f.height k := by
  induction h with
  | refl => exact le_rfl
  | tail _ hc ih => exact (f.height_lt hc).le.trans ih

/-- Two nodes above the same node are above one another. -/
lemma Below.total (hj : f.Below j x) (hk : f.Below k x) : f.Below j k ∨ f.Below k j := by
  have hunique : Relator.RightUnique fun c j : κ => c ∈ f.kids j := fun _ _ _ => f.unique
  rcases Relation.ReflTransGen.total_of_right_unique hunique
    (Relation.reflTransGen_swap.mpr hj) (Relation.reflTransGen_swap.mpr hk) with h | h
  · exact .inr (Relation.reflTransGen_swap.mp h)
  · exact .inl (Relation.reflTransGen_swap.mp h)

/-- The parent of a node is not below it. -/
lemma not_below_of_mem_kids (h : c ∈ f.kids k) : ¬ f.Below c k := fun hb =>
  absurd hb.height_le (f.height_lt h).not_ge

/-- Siblings are not below one another. -/
lemma eq_of_below_siblings (hj : j ∈ f.kids k) (hc : c ∈ f.kids k) (h : f.Below j c) : j = c := by
  rcases Relation.ReflTransGen.cases_tail h with heq | ⟨p, hp, hcp⟩
  · exact heq.symm
  · obtain rfl := f.unique hcp hc
    exact absurd hp (not_below_of_mem_kids hj)

/-! ### Rows -/

lemma mem_subtree_self (s : Set κ) (d : ℕ) (c : κ) : (c, d) ∈ f.subtree s d c :=
  List.mem_cons_self

/-- A row of a subtree is its root or stands below it. -/
lemma mem_subtree_iff : (x, e) ∈ f.subtree s d c ↔
    (x = c ∧ e = d) ∨ (c ∈ s ∧ (x, e) ∈ f.rows s c (d + 1)) := by
  rw [subtree, List.mem_cons, Prod.mk.injEq]
  split_ifs with h <;> simp [h]

lemma mem_rows_iff : (x, e) ∈ f.rows s k d ↔ ∃ c ∈ f.kids k, (x, e) ∈ f.subtree s d c := by
  rw [rows_eq, List.mem_flatMap]

/-- Rows are below their node, and no less indented than its children. -/
lemma below_of_mem_rows (h : (x, e) ∈ f.rows s k d) :
    (∃ c ∈ f.kids k, f.Below c x) ∧ d ≤ e := by
  induction hn : f.height k using Nat.strong_induction_on generalizing k d with
  | _ n ih =>
    obtain ⟨c, hc, hx⟩ := mem_rows_iff.mp h
    rcases mem_subtree_iff.mp hx with ⟨rfl, rfl⟩ | ⟨-, hx⟩
    · exact ⟨⟨x, hc, .refl⟩, le_rfl⟩
    · obtain ⟨⟨c', hc', hb⟩, hle⟩ := ih _ (hn ▸ f.height_lt hc) hx rfl
      exact ⟨⟨c, hc, .head hc' hb⟩, by omega⟩

lemma below_of_mem_subtree (h : (x, e) ∈ f.subtree s d c) : f.Below c x ∧ d ≤ e := by
  rcases mem_subtree_iff.mp h with ⟨rfl, rfl⟩ | ⟨-, h⟩
  · exact ⟨.refl, le_rfl⟩
  · obtain ⟨⟨c', hc', hb⟩, hle⟩ := below_of_mem_rows h
    exact ⟨.head hc' hb, by omega⟩

/-- What is open elsewhere does not matter. -/
lemma rows_congr (h : ∀ x, (∃ c ∈ f.kids k, f.Below c x) → (x ∈ s ↔ x ∈ t)) :
    f.rows s k d = f.rows t k d := by
  induction hn : f.height k using Nat.strong_induction_on generalizing k d with
  | _ n ih =>
    rw [rows_eq, rows_eq]
    refine List.flatMap_congr fun c hc => ?_
    have hrows : f.rows s c (d + 1) = f.rows t c (d + 1) :=
      ih _ (hn ▸ f.height_lt hc) (fun x ⟨c', hc', hb⟩ => h x ⟨c, hc, .head hc' hb⟩) rfl
    by_cases hs : c ∈ s
    · rw [subtree_of_mem hs, subtree_of_mem ((h c ⟨c, hc, .refl⟩).mp hs), hrows]
    · rw [subtree_of_notMem hs, subtree_of_notMem fun ht => hs ((h c ⟨c, hc, .refl⟩).mpr ht)]

lemma subtree_congr (h : ∀ x, f.Below c x → (x ∈ s ↔ x ∈ t)) :
    f.subtree s d c = f.subtree t d c := by
  have hrows : f.rows s c (d + 1) = f.rows t c (d + 1) :=
    rows_congr fun x ⟨c', hc', hb⟩ => h x (.head hc' hb)
  by_cases hs : c ∈ s
  · rw [subtree_of_mem hs, subtree_of_mem ((h c .refl).mp hs), hrows]
  · rw [subtree_of_notMem hs, subtree_of_notMem fun ht => hs ((h c .refl).mpr ht)]

/-- The order of the children matters only where they are listed. -/
lemma rows_eq_of_kids {g : Forest κ} (hk : f.kids k = g.kids k)
    (hs : ∀ x ∈ s, f.kids x = g.kids x) : f.rows s k d = g.rows s k d := by
  induction hn : f.height k using Nat.strong_induction_on generalizing k d with
  | _ n ih =>
    rw [rows_eq, rows_eq, ← hk]
    refine List.flatMap_congr fun c hc => ?_
    by_cases hcs : c ∈ s
    · rw [subtree_of_mem hcs, subtree_of_mem hcs, ih _ (hn ▸ f.height_lt hc) (hs c hcs) rfl]
    · rw [subtree_of_notMem hcs, subtree_of_notMem hcs]

/-- All nodes above a listed one are open. -/
lemma mem_of_below_of_mem_rows (h : (y, e) ∈ f.rows s k d) (hx : f.Below x y) (hne : x ≠ y)
    (hk : ¬ f.Below x k) : x ∈ s := by
  induction hn : f.height k using Nat.strong_induction_on generalizing k d with
  | _ n ih =>
    obtain ⟨c, hc, hy⟩ := mem_rows_iff.mp h
    -- what is above `c` is `c` itself, or above `k`
    have hxc : f.Below x c → x = c := by
      intro hb
      rcases Relation.ReflTransGen.cases_tail hb with heq | ⟨p, hp, hcp⟩
      · exact heq.symm
      · obtain rfl := f.unique hcp hc
        exact absurd hp hk
    rcases mem_subtree_iff.mp hy with ⟨rfl, -⟩ | ⟨hcs, hy⟩
    · exact absurd (hxc hx) hne
    · by_cases hb : f.Below x c
      · exact hxc hb ▸ hcs
      · exact ih _ (hn ▸ f.height_lt hc) hy hb rfl

/-- No node is listed twice. -/
lemma nodup_rows (s : Set κ) (k : κ) (d : ℕ) : ((f.rows s k d).map Prod.fst).Nodup := by
  induction hn : f.height k using Nat.strong_induction_on generalizing k d with
  | _ n ih =>
    rw [rows_eq, List.map_flatMap]
    refine List.nodup_flatMap.mpr ⟨fun c hc => ?_, ?_⟩
    · by_cases hs : c ∈ s
      · rw [subtree_of_mem hs, List.map_cons, List.nodup_cons]
        refine ⟨fun hmem => ?_, ih _ (hn ▸ f.height_lt hc) _ _ rfl⟩
        obtain ⟨⟨x, e⟩, hx, hxc⟩ := List.mem_map.mp hmem
        obtain rfl : x = c := hxc
        obtain ⟨⟨c', hc', hb⟩, -⟩ := below_of_mem_rows hx
        exact not_below_of_mem_kids hc' hb
      · rw [subtree_of_notMem hs]
        exact List.nodup_singleton _
    · refine (f.nodup k).imp_of_mem fun {a b} ha hb hne y hya hyb => hne ?_
      obtain ⟨⟨x, e⟩, hx, rfl⟩ := List.mem_map.mp hya
      obtain ⟨⟨x', e'⟩, hx', heq⟩ := List.mem_map.mp hyb
      obtain rfl : x' = x := heq
      rcases (below_of_mem_subtree hx).1.total (below_of_mem_subtree hx').1 with h | h
      · exact eq_of_below_siblings ha hb h
      · exact (eq_of_below_siblings hb ha h).symm

/-! ### One row of the list -/

/-- Two ways to cut a list where `P` ends are the same. -/
lemma append_inj_of_head {α : Type*} {P : α → Prop} {l₁ l₂ r₁ r₂ : List α}
    (h : l₁ ++ r₁ = l₂ ++ r₂) (hl₁ : ∀ x ∈ l₁, P x) (hl₂ : ∀ x ∈ l₂, P x)
    (hr₁ : ∀ x ∈ r₁.head?, ¬ P x) (hr₂ : ∀ x ∈ r₂.head?, ¬ P x) : l₁ = l₂ ∧ r₁ = r₂ := by
  induction l₁ generalizing l₂ with
  | nil =>
    cases l₂ with
    | nil => exact ⟨rfl, h⟩
    | cons x l₂ =>
      obtain rfl : r₁ = x :: (l₂ ++ r₂) := h
      exact absurd (hl₂ x List.mem_cons_self) (hr₁ x rfl)
  | cons x l₁ ih =>
    cases l₂ with
    | nil =>
      obtain rfl : x :: (l₁ ++ r₁) = r₂ := h
      exact absurd (hl₁ x List.mem_cons_self) (hr₂ x rfl)
    | cons y l₂ =>
      obtain ⟨rfl, hrest⟩ : x = y ∧ l₁ ++ r₁ = l₂ ++ r₂ := List.cons_eq_cons.mp h
      obtain ⟨rfl, hr⟩ := ih hrest (fun z hz => hl₁ z (List.mem_cons_of_mem x hz))
        fun z hz => hl₂ z (List.mem_cons_of_mem x hz)
      exact ⟨rfl, hr⟩

/-- Around the subtree of a row, the list is the same whatever is open in that subtree, and what
follows is not deeper than the row. -/
theorem exists_rows_eq (h : (x, e) ∈ f.rows s k d) :
    ∃ before after, (∀ y ∈ after.head?, y.2 ≤ e) ∧
      ∀ t, (∀ y, ¬ f.Below x y → (y ∈ t ↔ y ∈ s)) →
        f.rows t k d = before ++ (f.subtree t e x ++ after) := by
  induction hn : f.height k using Nat.strong_induction_on generalizing k d with
  | _ n ih =>
    obtain ⟨c, hc, hx⟩ := mem_rows_iff.mp h
    obtain ⟨hcx, hle⟩ := below_of_mem_subtree hx
    obtain ⟨l, r, hkids⟩ := List.append_of_mem hc
    have hnodup := f.nodup k
    rw [hkids, List.nodup_append, List.nodup_cons] at hnodup
    obtain ⟨-, ⟨hcr, -⟩, hlr⟩ := hnodup
    -- the subtrees of the siblings of `c` do not meet that of `x`
    have hother : ∀ t, (∀ y, ¬ f.Below x y → (y ∈ t ↔ y ∈ s)) → ∀ b ∈ f.kids k, b ≠ c →
        f.subtree t d b = f.subtree s d b := by
      intro t ht b hb hne
      refine subtree_congr fun y hby => ht y fun hxy => hne ?_
      have hcy : f.Below c y := Relation.ReflTransGen.trans hcx hxy
      rcases hcy.total hby with hcb | hbc
      · exact (eq_of_below_siblings hc hb hcb).symm
      · exact eq_of_below_siblings hb hc hbc
    have hsplit : ∀ t, (∀ y, ¬ f.Below x y → (y ∈ t ↔ y ∈ s)) → f.rows t k d =
        l.flatMap (f.subtree s d) ++ (f.subtree t d c ++ r.flatMap (f.subtree s d)) := by
      intro t ht
      rw [rows_eq, hkids, List.flatMap_append, List.flatMap_cons]
      congr 1
      · refine List.flatMap_congr fun b hb => hother t ht b ?_ ?_
        · simp [hkids, hb]
        · exact hlr b hb c List.mem_cons_self
      · congr 1
        refine List.flatMap_congr fun b hb => hother t ht b ?_ ?_
        · simp [hkids, hb]
        · exact fun hbc => hcr (hbc ▸ hb)
    have hright : ∀ y ∈ (r.flatMap (f.subtree s d)).head?, y.2 = d := by
      cases r with
      | nil => simp
      | cons b r => simp [subtree]
    rcases mem_subtree_iff.mp hx with ⟨rfl, rfl⟩ | ⟨hopen, hx⟩
    · exact ⟨l.flatMap (f.subtree s e), r.flatMap (f.subtree s e), fun y hy => (hright y hy).le,
        hsplit⟩
    · obtain ⟨before, after, hafter, hrows⟩ := ih _ (hn ▸ f.height_lt hc) hx rfl
      refine ⟨l.flatMap (f.subtree s d) ++ (c, d) :: before, after ++ r.flatMap (f.subtree s d),
        fun y hy => ?_, fun t ht => ?_⟩
      · cases after with
        | nil => exact (hright y hy).le.trans hle
        | cons a after => exact hafter y hy
      · obtain ⟨⟨c', hc', hb⟩, -⟩ := below_of_mem_rows hx
        have hct : c ∈ t := by
          refine (ht c fun hxc => ?_).mpr hopen
          exact not_below_of_mem_kids hc' (Relation.ReflTransGen.trans hb hxc)
        rw [hsplit t ht, subtree_of_mem hct, hrows t ht]
        simp

/-- Where an open node is listed its children are. -/
lemma mem_rows_of_mem_kids (h : (x, e) ∈ f.rows s k d) (hx : x ∈ s) (hc : c ∈ f.kids x) :
    (c, e + 1) ∈ f.rows s k d := by
  obtain ⟨before, after, -, hrows⟩ := exists_rows_eq h
  rw [hrows s fun _ _ => Iff.rfl, subtree_of_mem hx]
  have hmem : (c, e + 1) ∈ f.rows s x (e + 1) := mem_rows_iff.mpr ⟨c, hc, mem_subtree_self s _ c⟩
  simp [hmem]

/-- To open a node below which nothing is open shows its children after it. -/
theorem rows_open (h : (x, e) ∈ f.rows s k d) (hs : ∀ y ∈ s, ¬ f.Below x y) :
    ∃ before after, f.rows s k d = before ++ (x, e) :: after ∧
      f.rows (insert x s) k d =
        before ++ (x, e) :: ((f.kids x).map (·, e + 1) ++ after) := by
  obtain ⟨before, after, -, hrows⟩ := exists_rows_eq h
  refine ⟨before, after, ?_, ?_⟩
  · rw [hrows s fun _ _ => Iff.rfl, subtree_of_notMem fun hx => hs x hx .refl]
    rfl
  · have hne : ∀ y, ¬ f.Below x y → (y ∈ insert x s ↔ y ∈ s) := by
      intro y hy
      rw [Set.mem_insert_iff, or_iff_right_iff_imp]
      rintro rfl
      exact absurd Relation.ReflTransGen.refl hy
    rw [hrows _ hne, subtree_of_mem (Set.mem_insert x s), rows_eq, List.cons_append]
    have hkids : (f.kids x).flatMap (f.subtree (insert x s) (e + 1)) =
        (f.kids x).map (·, e + 1) := by
      rw [List.map_eq_flatMap]
      refine List.flatMap_congr fun c hc => subtree_of_notMem fun hopen => ?_
      rcases Set.mem_insert_iff.mp hopen with rfl | hopen
      · exact (f.height_lt hc).false
      · exact hs c hopen (.single hc)
    rw [hkids]

/-- To close a node and all below it removes the rows that follow it and are deeper. -/
theorem rows_close (h : (x, e) ∈ f.rows s k d) :
    ∃ before below after, f.rows s k d = before ++ (x, e) :: (below ++ after) ∧
      (∀ y ∈ below, e < y.2 ∧ f.Below x y.1) ∧ (∀ y ∈ after.head?, y.2 ≤ e) ∧
      f.rows {y ∈ s | ¬ f.Below x y} k d = before ++ (x, e) :: after := by
  obtain ⟨before, after, hafter, hrows⟩ := exists_rows_eq h
  have hclosed : f.rows {y ∈ s | ¬ f.Below x y} k d = before ++ (x, e) :: after := by
    rw [hrows {y ∈ s | ¬ f.Below x y} fun y hy => and_iff_left hy,
      subtree_of_notMem fun hx : x ∈ {y ∈ s | ¬ f.Below x y} => hx.2 .refl]
    rfl
  by_cases hx : x ∈ s
  · refine ⟨before, f.rows s x (e + 1), after, ?_, ?_, hafter, hclosed⟩
    · rw [hrows s fun _ _ => Iff.rfl, subtree_of_mem hx]
      rfl
    · rintro ⟨y, e'⟩ hy
      obtain ⟨⟨c, hc, hb⟩, hle⟩ := below_of_mem_rows hy
      exact ⟨hle, .head hc hb⟩
  · refine ⟨before, [], after, ?_, by simp, hafter, hclosed⟩
    rw [hrows s fun _ _ => Iff.rfl, subtree_of_notMem hx]
    rfl

/-- A node is listed if all nodes above it, up to `k`, are open. -/
lemma mem_rows_of_open (hk : f.Below k x) (hc : c ∈ f.kids x)
    (hopen : ∀ y, f.Below k y → f.Below y x → y ≠ k → y ∈ s) : ∃ e, (c, e) ∈ f.rows s k d := by
  induction hk using Relation.ReflTransGen.head_induction_on generalizing d with
  | refl => exact ⟨d, mem_rows_iff.mpr ⟨c, hc, mem_subtree_self s d c⟩⟩
  | @head k j hj hjx ih =>
    have hne : j ≠ k := fun heq => (f.height_lt hj).ne (congrArg f.height heq)
    obtain ⟨e, he⟩ := ih (d := d + 1) fun y hjy hyx _ => by
      refine hopen y (.head hj hjy) hyx fun hyk => ?_
      exact not_below_of_mem_kids hj (hyk ▸ hjy)
    have hjs := hopen j (.single hj) hjx hne
    exact ⟨e, mem_rows_iff.mpr ⟨j, hj, mem_subtree_iff.mpr (.inr ⟨hjs, he⟩)⟩⟩

/-! ### The way to a row -/

/-- The labels on the way to each row, as the indents have it. `above` are those on the way to the
last row. -/
def trails {α : Type*} (above : List α) : List (α × ℕ) → List (List α)
  | []             => []
  | (a, d) :: rows => (above.take d ++ [a]) :: trails (above.take d ++ [a]) rows

section trails

variable {α : Type*} {label : κ → α} {path : κ → List α}

/-- After the rows below a node, the way to that node is still known. -/
lemma trails_append (hpath : ∀ j, ∀ c ∈ f.kids j, path c = path j ++ [label c]) (k : κ)
    {above : List α} (habove : above.take (path k).length = path k) :
    ∃ above', above'.take (path k).length = path k ∧ ∀ rest,
      trails above ((f.rows s k (path k).length).map (fun y => (label y.1, y.2)) ++ rest) =
        (f.rows s k (path k).length).map (fun y => path y.1) ++ trails above' rest := by
  induction hn : f.height k using Nat.strong_induction_on generalizing k above with
  | _ n ih =>
    -- child by child, each with the rows below it
    suffices hkids : ∀ cs ⊆ f.kids k, ∀ above : List α, above.take (path k).length = path k →
        ∃ above', above'.take (path k).length = path k ∧ ∀ rest,
          trails above ((cs.flatMap (f.subtree s (path k).length)).map
              (fun y => (label y.1, y.2)) ++ rest) =
            (cs.flatMap (f.subtree s (path k).length)).map (fun y => path y.1) ++
              trails above' rest by
      rw [rows_eq]
      exact hkids _ (List.Subset.refl _) above habove
    intro cs hcs
    induction cs with
    | nil => exact fun above habove => ⟨above, habove, fun _ => rfl⟩
    | cons c cs ihcs =>
      intro above habove
      have hc := hpath k c (hcs List.mem_cons_self)
      have hlength : (path c).length = (path k).length + 1 := by simp [hc]
      obtain ⟨above₁, habove₁, htrails₁⟩ : ∃ above₁ : List α,
          above₁.take (path k).length = path k ∧ ∀ rest,
            trails above ((f.subtree s (path k).length c).map (fun y => (label y.1, y.2)) ++
              rest) = (f.subtree s (path k).length c).map (fun y => path y.1) ++
                trails above₁ rest := by
        have hhead : above.take (path k).length ++ [label c] = path c := by rw [habove, hc]
        by_cases hs : c ∈ s
        · have hself : (path c).take (path c).length = path c := List.take_length
          obtain ⟨above₁, habove₁, htrails₁⟩ :=
            ih _ (hn ▸ f.height_lt (hcs List.mem_cons_self)) c hself rfl
          refine ⟨above₁, ?_, fun rest => ?_⟩
          · have htake := congrArg (List.take (path k).length) habove₁
            rwa [List.take_take, hlength, Nat.min_eq_left (Nat.le_succ _), hc,
              List.take_left] at htake
          · rw [subtree_of_mem hs, ← hlength, List.map_cons, List.map_cons, List.cons_append,
              trails, hhead, htrails₁]
            rfl
        · refine ⟨path c, by rw [hc, List.take_left], fun rest => ?_⟩
          rw [subtree_of_notMem hs, List.map_singleton, List.map_singleton, List.singleton_append,
            trails, hhead]
          rfl
      obtain ⟨above₂, habove₂, htrails₂⟩ :=
        ihcs (fun x hx => hcs (List.mem_cons_of_mem c hx)) above₁ habove₁
      refine ⟨above₂, habove₂, fun rest => ?_⟩
      rw [List.flatMap_cons, List.map_append, List.map_append, List.append_assoc, htrails₁,
        htrails₂, List.append_assoc]

/-- The indents of the rows tell the way to each of them. -/
theorem trails_rows (hpath : ∀ j, ∀ c ∈ f.kids j, path c = path j ++ [label c])
    (hk : path k = []) : trails [] ((f.rows s k 0).map fun y => (label y.1, y.2)) =
      (f.rows s k 0).map fun y => path y.1 := by
  have hnil : ([] : List α).take (path k).length = path k := by
    rw [hk]
    rfl
  obtain ⟨above', -, htrails⟩ := trails_append (s := s) hpath k hnil
  have hall := htrails []
  rwa [hk, List.length_nil, List.append_nil, trails, List.append_nil] at hall

end trails

/-! ### Sums -/

section sums

variable {M : Type*} [AddCommMonoid M] {shown all : κ → M}
  (hopen : ∀ k ∈ s, all k = shown k + ((f.kids k).map all).sum)
  (hclosed : ∀ k, k ∉ s → shown k = all k)

include hopen hclosed

end sums

end Forest

end Core
