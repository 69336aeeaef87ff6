import PhpTreeViz.Storage.Aggregate.Tree

/-!
# Accumulated columns

Every `total_*` column of `nodes` is kept the same way: a fold adds one number of the call to the
row of one of the two nodes that it touches. `Column` is that pattern, and `Column.Inv` says that
the column holds the sum of these numbers.
-/

namespace PhpTreeViz

open Core

/-- A column to which a fold `f` adds `value f.call` in the row of the node `slot f`. -/
structure Column where
  get : NodeRow → NumCell
  value : Call → Int64
  slot : Folded → ℕ
  slot_mem : ∀ f, slot f = f.node ∨ slot f = f.parentNode
  get_touch : ∀ f r, get (r.touch f) =
    if slot f = r.nodeId then (get r).add (.integer (value f.call)) else get r
  get_blank : ∀ n p c, get (.blank n p c) = .integer 0
  get_root : get .syntheticRoot = .integer 0

namespace Column

/-! ### The columns of `nodes` -/

def totalWall : Column where
  get := NodeRow.totalWallNs
  value := Call.wall
  slot := Folded.node
  slot_mem _ := Or.inl rfl
  get_touch f r := by
    simp only [NodeRow.touch, eq_comm (a := f.node)]
    split_ifs <;> rfl
  get_blank _ _ _ := rfl
  get_root := rfl

def childrenTotalWall : Column where
  get := NodeRow.childrenTotalWallNs
  value := Call.wall
  slot := Folded.parentNode
  slot_mem _ := Or.inr rfl
  get_touch f r := by
    simp only [NodeRow.touch, eq_comm (a := f.parentNode)]
    by_cases h : r.nodeId = f.node
    · simp only [if_pos h, NodeRow.nodeId_accumulate]
      split_ifs <;> rfl
    · simp only [if_neg h]
      split_ifs <;> rfl
  get_blank _ _ _ := rfl
  get_root := rfl

def totalCpuU : Column where
  get := NodeRow.totalCpuUNs
  value := Call.cpuU
  slot := Folded.node
  slot_mem _ := Or.inl rfl
  get_touch f r := by
    simp only [NodeRow.touch, eq_comm (a := f.node)]
    split_ifs <;> rfl
  get_blank _ _ _ := rfl
  get_root := rfl

def totalCpuS : Column where
  get := NodeRow.totalCpuSNs
  value := Call.cpuS
  slot := Folded.node
  slot_mem _ := Or.inl rfl
  get_touch f r := by
    simp only [NodeRow.touch, eq_comm (a := f.node)]
    split_ifs <;> rfl
  get_blank _ _ _ := rfl
  get_root := rfl

def totalMemDelta : Column where
  get := NodeRow.totalMemDeltaBytes
  value := Call.memDelta
  slot := Folded.node
  slot_mem _ := Or.inl rfl
  get_touch f r := by
    simp only [NodeRow.touch, eq_comm (a := f.node)]
    split_ifs <;> rfl
  get_blank _ _ _ := rfl
  get_root := rfl

/-! ### Sums -/

/-- The numbers that the folds in `log` added to the row of node `n`. -/
def values (col : Column) (log : List Folded) (n : ℕ) : List ℤ :=
  (log.filter (col.slot · = n)).map fun f => (col.value f.call).toInt

variable (col : Column) {nodes : Table NodeRow.nodeId} {log : List Folded}

lemma values_append (log : List Folded) (f : Folded) (n : ℕ) :
    col.values (log ++ [f]) n =
      col.values log n ++ if col.slot f = n then [(col.value f.call).toInt] else [] := by
  simp only [values, List.filter_append, List.map_append]
  split_ifs with h <;> simp [h]

/-- The column holds the sum of what was added, as long as no sum of it can leave 64 bits. -/
def Inv (nodes : Table NodeRow.nodeId) (log : List Folded) : Prop :=
  ∀ r ∈ nodes.rows, FitsI64 (col.values log r.nodeId) →
    (col.get r).toInt? = some (col.values log r.nodeId).sum

lemma inv_seeded : col.Inv (Table.empty.insertOrIgnore .syntheticRoot) [] := by
  intro r hr _
  rw [Table.rows_insertOrIgnore (Table.not_hasKey_empty _)] at hr
  obtain rfl : r = .syntheticRoot := by simpa using hr
  simp [col.get_root, values]

/-- Nothing was added to a node that does not exist yet. -/
lemma values_next (h : TreeInv nodes log) : col.values log (nextNodeId nodes) = [] := by
  have hnone : log.filter (col.slot · = nextNodeId nodes) = [] := by
    apply List.filter_eq_nil_iff.mpr
    intro f hf
    rcases col.slot_mem f with hs | hs
    · simpa [hs] using h.node_ne_next hf
    · simpa [hs] using h.parentNode_ne_next hf
  simp [values, hnone]

lemma inv_ensureNode (htree : TreeInv nodes log) (h : col.Inv nodes log) (p : ℕ) (c : Call) :
    col.Inv (ensureNode nodes p c) log := by
  intro r hr hfits
  rcases mem_ensureNode.mp hr with hr | ⟨-, rfl⟩
  · exact h r hr hfits
  · rw [NodeRow.nodeId_blank, col.values_next htree]
    simp [col.get_blank]

theorem inv_fold (htree : TreeInv nodes log) (h : col.Inv nodes log) (p : ℕ) (c : Call) :
    col.Inv (foldNodes nodes p c) (log ++ [foldOf nodes p c]) := by
  intro r hr hfits
  obtain ⟨r₀, hr₀, rfl⟩ := mem_foldNodes.mp hr
  rw [NodeRow.nodeId_touch, values_append] at hfits ⊢
  have hold : (col.get r₀).toInt? = some (col.values log r₀.nodeId).sum :=
    col.inv_ensureNode htree h p c r₀ hr₀
      (hfits.subperm (List.sublist_append_left _ _).subperm)
  rw [col.get_touch]
  by_cases hs : col.slot (foldOf nodes p c) = r₀.nodeId
  · simp only [if_pos hs, List.sum_append, List.sum_singleton] at hfits ⊢
    exact NumCell.toInt?_add hold rfl (by simpa using hfits.sum)
  · simp only [if_neg hs, List.append_nil]
    exact hold

end Column

end PhpTreeViz
