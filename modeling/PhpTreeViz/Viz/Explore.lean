import PhpTreeViz.Viz.Cancel
import PhpTreeViz.Viz.Served

/-!
# Exploring a trace

What the page shows after any sequence of operations on a trace that does not change meanwhile is a
forest of which the reader has opened some nodes. The children of a node stand in the sort order
that was chosen when they were fetched: a change of the order that fails is in force for the nodes
that are opened after it.
-/

namespace PhpTreeViz

open Core

namespace Detail

/-! ### The reader's view -/

/-- What the reader has opened, and the order of the children of each node. Of the nodes in `failed`
the children could not be fetched. -/
structure View where
  sort : SortKey
  order : ℕ → SortKey
  opened : Set ℕ
  failed : Set ℕ

namespace View

/-- The depth that the page asks for -/
def pageDepth : ℕ := 2

/-- The view before the tree has arrived -/
def start : View where
  sort := .totalWallDesc
  order _ := .totalWallDesc
  opened := ∅
  failed := ∅

variable {db : TraceDb} (h : IsCallTree db)

noncomputable def forest (v : View) : Forest ℕ := callForest h v.order

open Classical in
/-- The nodes that are shown, with their indents -/
noncomputable def rows (v : View) : List (ℕ × ℕ) :=
  if syntheticRootNodeId ∈ v.opened then (v.forest h).rows v.opened syntheticRootNodeId 0 else []

def Shown (v : View) (n : ℕ) : Prop := ∃ d, (n, d) ∈ v.rows h

/-- The tree has been loaded. -/
def load (db : TraceDb) (sort : SortKey) : View where
  sort := sort
  order _ := sort
  opened := loadedTo db pageDepth
  failed := ∅

/-- The children of a node have been loaded. -/
def expand (v : View) (n : ℕ) : View :=
  { v with order := Function.update v.order n v.sort, opened := insert n v.opened }

/-- A node has been closed, and with it all nodes below it. -/
def close (v : View) (n : ℕ) : View :=
  { v with
    opened := {m ∈ v.opened | ¬ (v.forest h).Below n m}
    failed := {m ∈ v.failed | ¬ (v.forest h).Below n m} }

open Classical in
/-- What an operation does to the view -/
noncomputable def after (v : View) : Operation → View
  | .load _                  => load db v.sort
  | .loadFailed              => v
  | .applySearch _           => v
  | .stepMatch _             => v
  | .click n                 => if v.Shown h n then v.close h n else v
  | .expand n _              => v.expand n
  | .expandFailed n          => { v with failed := insert n v.failed }
  | .applySort newSort _     => load db newSort
  | .applySortFailed newSort => { v with sort := newSort }

end View

/-! ### The page -/

/-- The responses are those of the server. -/
def Operation.Served [Php] (db : TraceDb) (p : Page) : Operation → Prop
  | .load nodes              => nodes = treeNodes db View.pageDepth p.currentSort
  | .expand nodeId nodes     => nodes = childNodes db nodeId p.currentSort
  | .applySort newSort nodes => nodes = treeNodes db View.pageDepth newSort
  | _                        => True

/-- An operation that ends before the next one starts, on a trace that does not change -/
def ServedStep [Php] [JsString] {db : TraceDb} (fqn : ℕ → Option (List UInt16)) (h : IsCallTree db)
    (p : Page) (o : Operation) (t : Page) : Prop :=
  OperationStep fqn (callTree h) p o t ∧ o.Served db p

/-- The flags of a row are those of its node. -/
structure View.Marks (v : View) (db : TraceDb) (row : Row) : Prop where
  hasChildren : row.hasChildren ↔ ∃ c, callParent db c = some row.nodeId
  childrenLoaded : row.childrenLoaded ↔ row.nodeId ∈ v.opened
  expanded : row.expanded ↔ row.nodeId ∈ v.opened ∨ row.nodeId ∈ v.failed
  loadingChildren : row.loadingChildren = false

/-- The page shows the view, row by row, and what is stored of the nodes. -/
structure Presents [Php] {db : TraceDb} (h : IsCallTree db) (v : View) (p : Page) : Prop where
  rows : p.tree.outlineRows = v.rows h
  marks : ∀ row ∈ p.tree.rows, v.Marks db row
  data : ∀ row ∈ p.tree.rows, nodeData db row.nodeId = some row.data
  currentSort : p.currentSort = v.sort

/-! ### The forest of a view -/

namespace View

/-- Views that agree on a node mark its rows in the same way. -/
lemma Marks.congr {db : TraceDb} {v v' : View} {row : Row} (h : v.Marks db row)
    (hopened : row.nodeId ∈ v'.opened ↔ row.nodeId ∈ v.opened)
    (hfailed : row.nodeId ∈ v'.failed ↔ row.nodeId ∈ v.failed) : v'.Marks db row where
  hasChildren := h.hasChildren
  childrenLoaded := h.childrenLoaded.trans hopened.symm
  expanded := h.expanded.trans (or_congr hopened.symm hfailed.symm)
  loadingChildren := h.loadingChildren

section forest

variable {db : TraceDb} {h : IsCallTree db} {v : View} {n m c e depth : ℕ} {sort : SortKey}

lemma mem_kids_iff : c ∈ (v.forest h).kids n ↔ callParent db c = some n := mem_childIds_iff h

lemma callDepth_le_of_below (hb : (v.forest h).Below n m) : callDepth db n ≤ callDepth db m := by
  induction hb with
  | refl => exact le_rfl
  | tail _ hc ih =>
    rw [h.callDepth_child (mem_kids_iff.mp hc)]
    exact Nat.le_succ_of_le ih

lemma hasKey_of_below (hn : db.nodes.HasKey n) (hb : (v.forest h).Below n m) :
    db.nodes.HasKey m := by
  cases hb with
  | refl => exact hn
  | tail _ hc =>
    obtain ⟨r, hr, hid, -⟩ := callParent_eq_some_iff.mp (mem_kids_iff.mp hc)
    exact ⟨r, hr, hid⟩

/-- Every node is below the synthetic root. -/
lemma below_root (h : IsCallTree db) (v : View) (hn : db.nodes.HasKey n) :
    (v.forest h).Below syntheticRootNodeId n := by
  obtain ⟨r, hr, rfl⟩ := hn
  obtain ⟨k, hk⟩ := h.reachable r hr
  clear hr
  induction hk with
  | root hr hroot => exact h.root _ hr hroot ▸ .refl
  | child _ hr hparent ih =>
    exact .tail ih (mem_kids_iff.mpr ((callParent_of_mem hr).trans hparent))

lemma hasKey_root (h : IsCallTree db) (hn : db.nodes.HasKey n) :
    db.nodes.HasKey syntheticRootNodeId := by
  obtain ⟨r, hr, -⟩ := hn
  obtain ⟨root, hid, hroot⟩ := h.exists_root hr
  exact ⟨root, hroot.mem, hid⟩

lemma not_below_root (hne : n ≠ syntheticRootNodeId) :
    ¬ (v.forest h).Below n syntheticRootNodeId := by
  intro hb
  rcases Relation.ReflTransGen.cases_tail hb with heq | ⟨p, -, hp⟩
  · exact hne heq.symm
  · have hdepth := h.callDepth_child (mem_kids_iff.mp hp)
    rw [h.callDepth_root] at hdepth
    omega

/-- The root itself is not shown. -/
lemma ne_root_of_mem_rows (hn : (n, e) ∈ v.rows h) : n ≠ syntheticRootNodeId := by
  rintro rfl
  rw [rows] at hn
  split_ifs at hn
  · obtain ⟨⟨c, hc, hb⟩, -⟩ := Forest.below_of_mem_rows hn
    exact Forest.not_below_of_mem_kids hc hb
  · cases hn

lemma hasKey_of_mem_rows (hn : (n, e) ∈ v.rows h) : db.nodes.HasKey n := by
  rw [rows] at hn
  split_ifs at hn
  · obtain ⟨⟨c, hc, hb⟩, -⟩ := Forest.below_of_mem_rows hn
    obtain ⟨r, hr, hid, -⟩ := callParent_eq_some_iff.mp (mem_kids_iff.mp hc)
    exact hasKey_of_below ⟨r, hr, hid⟩ hb
  · cases hn

/-- A loaded tree is shown down to the depth that the page asks for. -/
lemma shown_load (hn : db.nodes.HasKey n) (hne : n ≠ syntheticRootNodeId)
    (hdepth : callDepth db n ≤ pageDepth) : (load db sort).Shown h n := by
  have hroot := hasKey_root h hn
  have hloaded : syntheticRootNodeId ∈ (load db sort).opened := by
    refine mem_loadedTo_of_lt h hroot ?_
    rw [h.callDepth_root]
    decide
  rcases Relation.ReflTransGen.cases_tail (below_root h (load db sort) hn) with
    heq | ⟨p, hp, hnp⟩
  · exact absurd heq hne
  · have hlevel := h.callDepth_child (mem_kids_iff.mp hnp)
    rw [Shown, rows, if_pos hloaded]
    refine Forest.mem_rows_of_open hp hnp fun y hy hyp _ => ?_
    refine mem_loadedTo_of_lt h (hasKey_of_below hroot hy) ?_
    have := callDepth_le_of_below hyp
    omega

/-- Only what is shown is open or has failed, but for the root. -/
structure Kept (h : IsCallTree db) (v : View) : Prop where
  opened : ∀ n ∈ v.opened, n = syntheticRootNodeId ∨ v.Shown h n
  failed : ∀ n ∈ v.failed, v.Shown h n

lemma mem_opened_of_mem_rows (hn : (n, e) ∈ v.rows h) : syntheticRootNodeId ∈ v.opened := by
  rw [rows] at hn
  split_ifs at hn with hroot
  · exact hroot
  · cases hn

lemma rows_of_mem (hn : (n, e) ∈ v.rows h) :
    v.rows h = (v.forest h).rows v.opened syntheticRootNodeId 0 :=
  if_pos (mem_opened_of_mem_rows hn)

/-- The nodes above a node that is shown are open. -/
lemma mem_opened_of_below (hm : v.Shown h m) (hb : (v.forest h).Below n m) (hne : n ≠ m) :
    n ∈ v.opened := by
  obtain ⟨e, he⟩ := hm
  by_cases hroot : n = syntheticRootNodeId
  · exact hroot ▸ mem_opened_of_mem_rows he
  · rw [rows_of_mem he] at he
    exact Forest.mem_of_below_of_mem_rows he hb hne (not_below_root hroot)

lemma nodup_rows (h : IsCallTree db) (v : View) : ((v.rows h).map Prod.fst).Nodup := by
  rw [rows]
  split_ifs
  · exact Forest.nodup_rows _ _ _
  · exact List.nodup_nil

/-- Below a closed node nothing is open, and nothing has failed. -/
lemma Kept.not_below (hk : v.Kept h) (hn : n ∉ v.opened) (hne : n ≠ syntheticRootNodeId)
    (hm : m ∈ v.opened ∨ (m ∈ v.failed ∧ n ≠ m)) : ¬ (v.forest h).Below n m := by
  intro hb
  rcases hm with hm | ⟨hm, hnm⟩
  · rcases hk.opened m hm with rfl | hshown
    · exact not_below_root hne hb
    · by_cases hnm : n = m
      · exact hn (hnm ▸ hm)
      · exact hn (mem_opened_of_below hshown hb hnm)
  · exact hn (mem_opened_of_below (hk.failed m hm) hb hnm)

/-- The children of a node that is opened are inserted after it, in the current order. -/
lemma rows_expand (hk : v.Kept h) (hn : (n, e) ∈ v.rows h) (hclosed : n ∉ v.opened) :
    ∃ before after, v.rows h = before ++ (n, e) :: after ∧
      (v.expand n).rows h =
        before ++ (n, e) :: ((childIds db n v.sort).map (·, e + 1) ++ after) := by
  have hne := ne_root_of_mem_rows hn
  have hroot := mem_opened_of_mem_rows hn
  have hkids : ∀ x, x ≠ n → (v.forest h).kids x = ((v.expand n).forest h).kids x := by
    intro x hx
    exact congrArg (childIds db x) (Function.update_of_ne hx _ _).symm
  have hrows : v.rows h = ((v.expand n).forest h).rows v.opened syntheticRootNodeId 0 := by
    rw [rows_of_mem hn]
    refine Forest.rows_eq_of_kids (hkids _ hne.symm) fun x hx => hkids x ?_
    rintro rfl
    exact hclosed hx
  have hnone : ∀ y ∈ v.opened, ¬ ((v.expand n).forest h).Below n y := by
    intro y hy hb
    refine hk.not_below hclosed hne (.inl hy) (Relation.ReflTransGen.mono ?_ n y hb)
    exact fun a b hab => mem_kids_iff.mpr (mem_kids_iff.mp hab)
  obtain ⟨before, after, hbefore, hafter⟩ := Forest.rows_open (hrows ▸ hn) hnone
  have hnew : ((v.expand n).forest h).kids n = childIds db n v.sort :=
    congrArg (childIds db n) (Function.update_self ..)
  rw [hnew] at hafter
  refine ⟨before, after, hrows.trans hbefore, ?_⟩
  rw [rows, if_pos (show syntheticRootNodeId ∈ (v.expand n).opened from .inr hroot)]
  exact hafter

/-- With a node that is closed, the nodes below it go. -/
lemma rows_close (hn : (n, e) ∈ v.rows h) : ∃ before below after,
    v.rows h = before ++ (n, e) :: (below ++ after) ∧
      (∀ y ∈ below, e < y.2 ∧ (v.forest h).Below n y.1) ∧ (∀ y ∈ after.head?, y.2 ≤ e) ∧
      (v.close h n).rows h = before ++ (n, e) :: after := by
  have hne := ne_root_of_mem_rows hn
  have hroot := mem_opened_of_mem_rows hn
  have hrows := rows_of_mem hn
  rw [hrows] at hn
  obtain ⟨before, below, after, hold, hbelow, hafter, hnew⟩ := Forest.rows_close hn
  refine ⟨before, below, after, hrows.trans hold, hbelow, hafter, ?_⟩
  rw [rows, if_pos (show syntheticRootNodeId ∈ (v.close h n).opened from
    ⟨hroot, not_below_root hne⟩)]
  exact hnew

lemma kept_load (h : IsCallTree db) (sort : SortKey) : (load db sort).Kept h where
  opened n hn := by
    by_cases hne : n = syntheticRootNodeId
    · exact .inl hne
    · exact .inr (shown_load hn.1 hne hn.2.1)
  failed n hn := absurd hn (Set.notMem_empty n)

/-- The children of an open node are shown with it. -/
lemma shown_of_parent (hm : v.Shown h m) (hopen : m ∈ v.opened)
    (hparent : callParent db c = some m) : v.Shown h c := by
  obtain ⟨e, he⟩ := hm
  rw [Shown, rows_of_mem he]
  rw [rows_of_mem he] at he
  exact ⟨_, Forest.mem_rows_of_mem_kids he hopen (mem_kids_iff.mpr hparent)⟩

/-- What is shown stays so when a node is opened. -/
lemma shown_expand (hk : v.Kept h) (hn : v.Shown h n) (hclosed : n ∉ v.opened)
    (hm : v.Shown h m) : (v.expand n).Shown h m := by
  obtain ⟨e, hn⟩ := hn
  obtain ⟨before, after, hold, hnew⟩ := rows_expand hk hn hclosed
  obtain ⟨d, hd⟩ := hm
  refine ⟨d, ?_⟩
  rw [hold] at hd
  rw [hnew]
  simp only [List.mem_append, List.mem_cons] at hd ⊢
  tauto

/-- What is not below a node stays shown when it is closed. -/
lemma shown_close (hn : v.Shown h n) (hm : v.Shown h m)
    (hnot : m = n ∨ ¬ (v.forest h).Below n m) : (v.close h n).Shown h m := by
  obtain ⟨e, hn⟩ := hn
  obtain ⟨before, below, after, hold, hbelow, -, hnew⟩ := rows_close hn
  rcases hnot with rfl | hnot
  · exact ⟨e, hnew ▸ List.mem_append_right _ List.mem_cons_self⟩
  · obtain ⟨d, hd⟩ := hm
    refine ⟨d, ?_⟩
    rw [hold] at hd
    rw [hnew]
    simp only [List.mem_append, List.mem_cons] at hd ⊢
    have hnot : (m, d) ∉ below := fun hmem => hnot (hbelow _ hmem).2
    tauto

lemma Kept.expand (hk : v.Kept h) (hn : v.Shown h n) (hclosed : n ∉ v.opened) :
    (v.expand n).Kept h where
  opened := by
    rintro m (rfl | hm)
    · exact .inr (shown_expand hk hn hclosed hn)
    · exact (hk.opened m hm).imp_right (shown_expand hk hn hclosed)
  failed m hm := shown_expand hk hn hclosed (hk.failed m hm)

lemma Kept.close (hk : v.Kept h) (hn : v.Shown h n) : (v.close h n).Kept h where
  opened m hm := (hk.opened m hm.1).imp_right fun hshown => shown_close hn hshown (.inr hm.2)
  failed m hm := shown_close hn (hk.failed m hm.1) (.inr hm.2)

end forest

end View

/-! ### One operation on the list -/

namespace State

variable {s : State} {n e : ℕ} {before below after : List (ℕ × ℕ)} {row r : Row} {q : Request}
  {nodes : List ApiNode} {ref : ℕ} {f : Row → Row}

lemma outlineRows_eq_map_places (s : State) :
    s.outlineRows = s.places.map fun p => (p.nodeId, p.indentDepthForUi) := by
  rw [outlineRows, places, List.map_map]
  rfl

/-- A click is about the row of the node. -/
lemma exists_clicked (hrows : s.outlineRows = before ++ (n, e) :: after)
    (hnodup : (s.outlineRows.map Prod.fst).Nodup) :
    s.clicked n = before.length ∧
      ∃ row, s.rows[s.clicked n]? = some row ∧ row.nodeId = n ∧ row.indentDepthForUi = e := by
  rw [hrows, List.map_append, List.map_cons, List.nodup_append, List.nodup_cons] at hnodup
  obtain ⟨-, -, hdisjoint⟩ := hnodup
  obtain ⟨l, r, hsplit, hl, hr⟩ := List.map_eq_append_iff.mp hrows
  obtain ⟨row, r, rfl, hrow, -⟩ := List.map_eq_cons_iff.mp hr
  obtain ⟨rfl, rfl⟩ := Prod.mk.inj hrow
  have hlength : before.length = l.length := by rw [← hl, List.length_map]
  have hnone : ∀ x ∈ l, decide (x.nodeId = row.nodeId) = false := by
    intro x hx
    refine decide_eq_false fun hid => hdisjoint row.nodeId ?_ row.nodeId List.mem_cons_self rfl
    rw [← hl, List.map_map]
    exact List.mem_map.mpr ⟨x, hx, hid⟩
  have hclicked : s.clicked row.nodeId = l.length := by
    rw [clicked, hsplit, List.findIdx_append, List.findIdx_eq_length_of_false hnone,
      if_neg (lt_irrefl _), List.findIdx_cons, decide_eq_true rfl]
    exact Nat.zero_add _
  refine ⟨hclicked.trans hlength.symm, row, ?_, rfl, rfl⟩
  rw [hclicked, hsplit, List.getElem?_append_right le_rfl, Nat.sub_self]
  rfl

lemma outlineRows_collapseAt (hrows : s.outlineRows = before ++ (n, e) :: (below ++ after))
    (hnodup : (s.outlineRows.map Prod.fst).Nodup) (hbelow : ∀ y ∈ below, e < y.2)
    (hafter : ∀ y ∈ after.head?, y.2 ≤ e) (hrow : s.rows[s.clicked n]? = some row) :
    (s.collapseAt (s.clicked n) row).outlineRows = before ++ (n, e) :: after := by
  obtain ⟨-, row', hrow', rfl, rfl⟩ := exists_clicked hrows hnodup
  obtain rfl := Option.some.inj (hrow'.symm.trans hrow)
  obtain ⟨l, deeper, r, hplaces, hcollapsed, hdeeper, hr⟩ := places_collapseAt hrow
  set g : Place → ℕ × ℕ := fun p => (p.nodeId, p.indentDepthForUi) with hg
  have hsplit : l.map g ++ g row'.toPlace :: (deeper.map g ++ r.map g) =
      before ++ (row'.nodeId, row'.indentDepthForUi) :: (below ++ after) := by
    rw [← hrows, outlineRows_eq_map_places, hplaces]
    simp [hg]
  have hnotin : ∀ l' r' : List (ℕ × ℕ), s.outlineRows =
      l' ++ (row'.nodeId, row'.indentDepthForUi) :: r' →
      (row'.nodeId, row'.indentDepthForUi) ∉ l' ∧
        (row'.nodeId, row'.indentDepthForUi) ∉ r' := by
    intro l' r' heq
    have hnodup := hnodup.of_map
    rw [heq, List.nodup_append, List.nodup_cons] at hnodup
    exact ⟨fun hmem => hnodup.2.2 _ hmem _ List.mem_cons_self rfl, hnodup.2.1.1⟩
  obtain ⟨hl, -, htail⟩ := (List.append_cons_inj_of_notMem (hnotin _ _ hrows).1
    (hnotin _ _ hrows).2).mp hsplit.symm
  have hdeeper' : ∀ y ∈ deeper.map g, row'.indentDepthForUi < y.2 := by
    intro y hy
    obtain ⟨p, hp, rfl⟩ := List.mem_map.mp hy
    exact hdeeper p hp
  have hr' : ∀ y ∈ (r.map g).head?, ¬ row'.indentDepthForUi < y.2 := by
    intro y hy
    rw [List.head?_map] at hy
    obtain ⟨p, hp, rfl⟩ := Option.map_eq_some_iff.mp hy
    exact (hr p hp).not_gt
  obtain ⟨-, hrest⟩ := Forest.append_inj_of_head (P := fun y : ℕ × ℕ => row'.indentDepthForUi < y.2)
    htail.symm hdeeper' hbelow hr' fun y hy => (hafter y hy).not_gt
  rw [outlineRows_eq_map_places, hcollapsed, List.map_append, List.map_cons, ← hl, hrest]

lemma mem_rows_assign : r ∈ (s.assign ref f).rows ↔
    ∃ r₀ ∈ s.rows, r = if r₀.ref = ref then f r₀ else r₀ := by
  simp only [assign, List.mem_map, eq_comm]

/-- A click that sends a request is one on a row without its children, and its request is the last
one for the node. -/
lemma clicked_of_request (hidle : s.inFlight = []) (hq : (s.onChevronClick n).inFlight = [q]) :
    ∃ row, s.rows[s.clicked n]? = some row ∧ row.childrenLoaded = false ∧
      s.onChevronClick n = (s.clearLoadError row).loadChildren (s.clicked n) row ∧
      q.indentDepthForUi = row.indentDepthForUi ∧ q.ref = row.ref ∧
      (s.onChevronClick n).expandTokens q.nodeId = q.token := by
  cases hrow : s.rows[s.clicked n]? with
  | none =>
    rw [onChevronClick_none hrow, hidle] at hq
    cases hq
  | some stored =>
    have hclear : (s.clearLoadError stored).inFlight = [] := inFlight_clearLoadError.trans hidle
    have hclick := onChevronClick_some hrow
    rw [hclick] at hq
    split_ifs at hq hclick with hloading hexpanded hloaded
    · exact absurd (hq.symm.trans (inFlight_abortInFlight hidle)) (List.cons_ne_nil _ _)
    · exact absurd (hq.symm.trans (inFlight_abortInFlight hidle)) (List.cons_ne_nil _ _)
    · exact absurd (hq.symm.trans hclear) (List.cons_ne_nil _ _)
    · have hload : ((s.clearLoadError stored).loadChildren (s.clicked n) stored).inFlight =
          (s.clearLoadError stored).inFlight ++ [_] := rfl
      rw [hload, hclear] at hq
      cases hq
      refine ⟨stored, rfl, by simpa using hloaded, hclick, rfl, rfl, ?_⟩
      rw [hclick]
      exact Function.update_self ..

/-- A click that sends no request closes a row, if it does not find a row that is loading, or one
that is loaded and not expanded. -/
lemma onChevronClick_of_idle (hnone : (s.onChevronClick n).inFlight = [])
    (hrow : s.rows[s.clicked n]? = some row) (hloading : row.loadingChildren = false)
    (hloaded : row.childrenLoaded = true → row.expanded = true) :
    row.expanded = true ∧ s.onChevronClick n = s.collapseAt (s.clicked n) row := by
  have hclick := onChevronClick_some hrow
  rw [hclick] at hnone
  rw [if_neg (by simp [hloading])] at hclick hnone
  split_ifs at hclick hnone with hexpanded hloaded'
  · exact ⟨hexpanded, hclick⟩
  · exact absurd (hloaded hloaded') hexpanded
  · exact absurd hnone (List.append_ne_nil_of_right_ne_nil _ (List.cons_ne_nil _ _))

/-- While the children of a row are fetched, it is expanded and marked as loading. -/
lemma exists_of_mem_loadChildren {idx : ℕ}
    (hr : r ∈ ((s.clearLoadError row).loadChildren idx row).rows) :
    ∃ r₀ ∈ s.rows, r.nodeId = r₀.nodeId ∧ r.ref = r₀.ref ∧ r.hasChildren = r₀.hasChildren ∧
      r.childrenLoaded = r₀.childrenLoaded ∧ (r₀.ref = row.ref → r.expanded = true) ∧
      (r₀.ref ≠ row.ref → r.expanded = r₀.expanded ∧ r.loadingChildren = r₀.loadingChildren) := by
  obtain ⟨r₁, hr₁, rfl⟩ : ∃ r₁ ∈ (s.clearLoadError row).rows, r = if r₁.ref = row.ref then
      { r₁ with loadingChildren := true, expanded := true } else r₁ := mem_rows_assign.mp hr
  obtain ⟨r₀, hr₀, error, rfl⟩ : ∃ r₀ ∈ s.rows, ∃ error, r₁ = { r₀ with loadError := error } := by
    rcases clearLoadError_cases s row with heq | heq
    · rw [heq] at hr₁
      exact ⟨r₁, hr₁, r₁.loadError, rfl⟩
    · rw [heq] at hr₁
      obtain ⟨r₀, hr₀, rfl⟩ := mem_rows_assign.mp hr₁
      split_ifs
      · exact ⟨r₀, hr₀, false, rfl⟩
      · exact ⟨r₀, hr₀, r₀.loadError, rfl⟩
  refine ⟨r₀, hr₀, ?_⟩
  split_ifs with href
  · exact ⟨rfl, rfl, rfl, rfl, fun _ => rfl, fun hne => absurd href hne⟩
  · exact ⟨rfl, rfl, rfl, rfl, fun heq => absurd heq href, fun _ => ⟨rfl, rfl⟩⟩

lemma mem_rows_childrenArrived (htoken : s.expandTokens q.nodeId = q.token) :
    r ∈ (s.childrenArrived q nodes).rows ↔
      r ∈ (s.assign q.ref ({ · with loadingChildren := false, childrenLoaded := true })).rows ∨
        r ∈ withRefs s.nextRef (nodes.map (childRow q)) := by
  rw [childrenArrived, if_neg (not_not.mpr htoken), ← List.mem_append]
  exact (perm_insertRowsAt ..).mem_iff

/-- A hydrated row is expanded if its children are loaded. -/
lemma childrenLoaded_of_mem_hydrateTree {tree : CallTree} (hpart : tree.Part nodes) (s : State)
    (h : r ∈ (s.hydrateTree nodes).rows) : r.childrenLoaded = r.expanded := by
  simp only [hydrateTree, withRefs, List.mem_mapIdx, List.length_map, List.getElem_map] at h
  obtain ⟨i, hi, rfl⟩ := h
  have hmem := List.getElem_mem hi
  have hwalk : ∀ r ∈ (childrenOf nodes 1).flatMap fun child =>
      makeRow child 0 :: walk nodes nodes.length child.nodeId 1,
      r ∈ walk nodes (nodes.length + 1) 1 0 := fun _ hr => hr
  obtain ⟨node, hnode, d, hrow⟩ := exists_makeRow_of_mem_walk (hwalk _ hmem)
  rw [hrow, show (makeRow node d).nodeId = node.nodeId from rfl, byId_eq hpart hnode]
  rfl

end State

/-! ### The simulation -/

/-- The page shows the view, and both are such that this stays so. -/
structure Follows [Php] {db : TraceDb} (h : IsCallTree db) (v : View) (p : Page) : Prop
    extends Presents h v p where
  kept : v.Kept h
  owned : Owned p.tree

section follows

variable [Php] {db : TraceDb} {h : IsCallTree db} {v : View} {p t : Page} {n : ℕ} {row : Row}
  {q : Request} {sort : SortKey}

lemma Presents.mem_rows (hv : Presents h v p) (hrow : row ∈ p.tree.rows) :
    (row.nodeId, row.indentDepthForUi) ∈ v.rows h := by
  rw [← hv.rows]
  exact List.mem_map.mpr ⟨row, hrow, rfl⟩

lemma Presents.shown_iff (hv : Presents h v p) :
    v.Shown h n ↔ ∃ row ∈ p.tree.rows, row.nodeId = n := by
  constructor
  · rintro ⟨d, hd⟩
    rw [← hv.rows] at hd
    obtain ⟨row, hrow, heq⟩ := List.mem_map.mp hd
    exact ⟨row, hrow, (Prod.mk.inj heq).1⟩
  · rintro ⟨row, hrow, rfl⟩
    exact ⟨_, hv.mem_rows hrow⟩

lemma Presents.nodup (hv : Presents h v p) : (p.tree.outlineRows.map Prod.fst).Nodup := by
  rw [hv.rows]
  exact View.nodup_rows h v

omit [Php] in
lemma View.rows_load (h : IsCallTree db) (sort : SortKey) : (View.load db sort).rows h =
    (callForest h fun _ => sort).rows (loadedTo db pageDepth) syntheticRootNodeId 0 := by
  by_cases hroot : syntheticRootNodeId ∈ loadedTo db pageDepth
  · exact if_pos hroot
  · have hnone : (callForest h fun _ => sort).kids syntheticRootNodeId = [] := by
      refine List.eq_nil_iff_forall_not_mem.mpr fun c hc => hroot ?_
      obtain ⟨r, hr, -⟩ := callParent_eq_some_iff.mp ((mem_childIds_iff h).mp hc)
      refine mem_loadedTo_of_lt h (hasKey_root h ⟨r, hr, rfl⟩) ?_
      rw [h.callDepth_root]
      decide
    rw [Forest.rows_eq, hnone]
    exact if_neg hroot

lemma Follows.hydrateTree (hv : Follows h v p) (htree : t.tree =
    p.tree.hydrateTree (treeNodes db View.pageDepth sort)) (hsort : t.currentSort = sort) :
    Follows h (.load db sort) t := by
  have hpart := part_treeNodes h View.pageDepth sort
  refine ⟨⟨?_, fun row hrow => ?_, fun row hrow => ?_, hsort⟩, View.kept_load h sort, ?_⟩
  · rw [htree, outlineRows_hydrateTree h p.tree (by decide), View.rows_load]
  · rw [htree] at hrow
    obtain ⟨node, hnode, hshows⟩ := shows_of_mem_hydrateTree hpart p.tree hrow
    have hloaded := State.childrenLoaded_of_mem_hydrateTree hpart p.tree hrow
    have hmem := childrenLoaded_of_mem_treeNodes h hnode
    constructor
    · rw [hshows.hasChildren, hshows.nodeId]
      exact hasChildren_of_mem_treeNodes hnode
    · rw [hloaded, hshows.expanded, hshows.nodeId]
      exact hmem
    · rw [hshows.expanded, hshows.nodeId, hmem]
      exact (or_iff_left (Set.notMem_empty _)).symm
    · exact hshows.loadingChildren
  · rw [htree] at hrow
    obtain ⟨node, hnode, hshows⟩ := shows_of_mem_hydrateTree hpart p.tree hrow
    rw [hshows.nodeId, hshows.data]
    exact nodeData_of_mem_treeNodes hnode
  · rw [htree]
    exact hv.owned.hydrateTree hpart

/-- A click leaves alone what the rows tell. -/
lemma Presents.data_onChevronClick (hv : Presents h v p) (n : ℕ) :
    ∀ r ∈ (p.onChevronClick n).tree.rows, nodeData db r.nodeId = some r.data := by
  intro r hr
  change r ∈ (p.tree.onChevronClick n).rows at hr
  cases hfind : p.tree.rows.find? (·.nodeId = n) with
  | none =>
    rw [State.onChevronClick_none ((p.tree.getElem?_clicked n).trans hfind)] at hr
    exact hv.data r hr
  | some row =>
    obtain ⟨r₀, hr₀, hplace, hdata, -⟩ := State.touches_onChevronClick hfind r hr
    rw [congrArg Place.nodeId hplace, hdata]
    exact hv.data r₀ hr₀

/-- No other row is about the same node. -/
lemma Presents.ref_eq_iff (hv : Presents h v p) (howned : Owned p.tree) {r : Row}
    (hrow : row ∈ p.tree.rows) (hr : r ∈ p.tree.rows) :
    r.ref = row.ref ↔ r.nodeId = row.nodeId := by
  constructor
  · exact fun href => congrArg (·.nodeId) (howned.row_eq hrow hr href)
  · intro hid
    have hids := hv.nodup
    rw [State.outlineRows, List.map_map] at hids
    exact congrArg Row.ref (List.inj_on_of_nodup_map hids hr hrow hid)

/-- A click on a row of the view closes its node. -/
lemma Follows.close (hv : Follows h v p) (hrow : p.tree.rows[p.tree.clicked n]? = some row)
    (hid : row.nodeId = n) (htree : t.tree = p.tree.collapseAt (p.tree.clicked n) row)
    (hdata : ∀ r ∈ t.tree.rows, nodeData db r.nodeId = some r.data) (howned : Owned t.tree)
    (hsort : t.currentSort = p.currentSort) : Follows h (v.close h n) t := by
  have hmem := List.mem_of_getElem? hrow
  have hshown := hid ▸ hv.mem_rows hmem
  obtain ⟨before, below, after, hold, hbelow, hafter, hnew⟩ := View.rows_close hshown
  have hrows : t.tree.outlineRows = (v.close h n).rows h := by
    rw [htree, hnew]
    exact State.outlineRows_collapseAt (hv.rows.trans hold) hv.nodup
      (fun y hy => (hbelow y hy).1) hafter hrow
  refine ⟨⟨hrows, fun r hr => ?_, hdata, hsort.trans hv.currentSort⟩, hv.kept.close ⟨_, hshown⟩,
    howned⟩
  obtain ⟨kept, hkept, -, hcollapsed⟩ :=
    State.rows_collapseAt p.tree (p.tree.clicked n) row
  have hin : (r.nodeId, r.indentDepthForUi) ∈ (v.close h n).rows h := by
    rw [← hrows]
    exact List.mem_map.mpr ⟨r, hr, rfl⟩
  rw [htree, hcollapsed] at hr
  obtain ⟨r₀, hr₀, rfl⟩ := List.mem_map.mp hr
  have hmarks := hv.marks r₀ (hkept.subset hr₀)
  split_ifs at hin ⊢ with href
  · obtain rfl := hv.owned.row_eq hmem (hkept.subset hr₀) href
    have hself : ∀ s : Set ℕ, r₀.nodeId ∉ {m ∈ s | ¬ (v.forest h).Below n m} :=
      fun s hs => hs.2 (hid ▸ .refl)
    constructor
    · exact hmarks.hasChildren
    · exact iff_of_false Bool.false_ne_true (hself _)
    · exact iff_of_false Bool.false_ne_true fun hor => hor.elim (hself _) (hself _)
    · exact hmarks.loadingChildren
  · -- the other rows that are left are not below the one that was closed
    have hnot : ¬ (v.forest h).Below n r₀.nodeId := by
      intro hb
      by_cases hne : n = r₀.nodeId
      · exact href ((hv.ref_eq_iff hv.owned hmem (hkept.subset hr₀)).mpr (hne.symm.trans hid.symm))
      · exact (View.mem_opened_of_below ⟨_, hin⟩ hb hne).2 .refl
    exact hmarks.congr (and_iff_left hnot) (and_iff_left hnot)

/-- A click that sends a request is one on a closed node of the view. -/
lemma Follows.clicked (hv : Follows h v p) (hidle : p.tree.inFlight = [])
    (hq : (p.onChevronClick n).tree.inFlight = [q]) :
    n ∉ v.opened ∧ (n, q.indentDepthForUi) ∈ v.rows h ∧
      (p.tree.onChevronClick n).expandTokens q.nodeId = q.token ∧
      ∀ r ∈ (p.onChevronClick n).tree.rows, (r.ref = q.ref ↔ r.nodeId = n) ∧
        (r.hasChildren ↔ ∃ c, callParent db c = some r.nodeId) ∧
        (r.childrenLoaded ↔ r.nodeId ∈ v.opened) ∧ (r.nodeId = n → r.expanded = true) ∧
        (r.nodeId ≠ n → v.Marks db r) := by
  obtain ⟨row, hrow, hloaded, hclick, hindent, href, htoken⟩ := State.clicked_of_request hidle hq
  have hmem := List.mem_of_getElem? hrow
  obtain rfl : row.nodeId = n := by
    rw [State.getElem?_clicked] at hrow
    simpa using List.find?_some hrow
  refine ⟨fun hopen => ?_, hindent ▸ hv.mem_rows hmem, htoken, fun r hr => ?_⟩
  · rw [(hv.marks row hmem).childrenLoaded.mpr hopen] at hloaded
    cases hloaded
  · change r ∈ (p.tree.onChevronClick row.nodeId).rows at hr
    rw [hclick] at hr
    obtain ⟨r₀, hr₀, hid', href', hhas, hloaded, hself, hother⟩ :=
      State.exists_of_mem_loadChildren hr
    have hsame := hv.ref_eq_iff hv.owned hmem hr₀
    have hmarks₀ := hv.marks r₀ hr₀
    have hchildren : r.hasChildren ↔ ∃ c, callParent db c = some r.nodeId := by
      rw [hhas, hid']
      exact hmarks₀.hasChildren
    have hopen : r.childrenLoaded ↔ r.nodeId ∈ v.opened := by
      rw [hloaded, hid']
      exact hmarks₀.childrenLoaded
    refine ⟨?_, hchildren, hopen, fun heq => ?_, fun hne => ?_⟩
    · rw [href', href, hid']
      exact hsame
    · exact hself (hsame.mpr (hid'.symm.trans heq))
    · obtain ⟨hexpanded', hloading⟩ := hother fun heq => hne (hid'.trans (hsame.mp heq))
      refine ⟨hchildren, hopen, ?_, hloading.trans hmarks₀.loadingChildren⟩
      rw [hexpanded', hid']
      exact hmarks₀.expanded

/-- The children come right below their node. -/
lemma Follows.outlineRows_expand (hv : Follows h v p) (hidle : p.tree.inFlight = [])
    (hq : (p.onChevronClick n).tree.inFlight = [q]) :
    ((p.onChevronClick n).childrenArrived q (childNodes db n p.currentSort)).tree.outlineRows =
      (v.expand n).rows h := by
  obtain ⟨hclosed, hshown, htoken, -⟩ := hv.clicked hidle hq
  obtain ⟨hidx, hplaces⟩ := State.request_onChevronClick hidle hq
  obtain ⟨before, after, hold, hnew⟩ := View.rows_expand hv.kept hshown hclosed
  obtain ⟨hclicked, -⟩ := State.exists_clicked (hv.rows.trans hold) hv.nodup
  have holdrows := hv.rows.trans hold
  change ((p.tree.onChevronClick n).childrenArrived q _).outlineRows = _
  rw [State.outlineRows_eq_map_places, places_childrenArrived htoken, hplaces, hidx, hclicked,
    List.map_append, List.map_append, List.map_take, List.map_drop,
    ← State.outlineRows_eq_map_places, holdrows, hnew, childPlaces, List.map_map]
  have hchildren : (childIds db n v.sort).map (·, q.indentDepthForUi + 1) =
      (childNodes db n p.currentSort).map fun api => (api.nodeId, q.indentDepthForUi + 1) := by
    rw [← hv.currentSort, ← map_nodeId_childNodes, List.map_map]
    rfl
  have hlength : (before ++ [(n, q.indentDepthForUi)]).length = before.length + 1 := by simp
  rw [List.append_cons before _ after, List.take_left' hlength, List.drop_left' hlength, hchildren]
  simp [State.childRow]

/-- The children of a node that was closed are closed, without an error. -/
lemma Follows.notMem_of_child (hv : Follows h v p) (hidle : p.tree.inFlight = [])
    (hq : (p.onChevronClick n).tree.inFlight = [q]) {api : ApiNode}
    (hapi : api ∈ childNodes db n p.currentSort) :
    api.nodeId ∉ (v.expand n).opened ∧ api.nodeId ∉ (v.expand n).failed := by
  obtain ⟨hclosed, hshown, -⟩ := hv.clicked hidle hq
  have hne := View.ne_root_of_mem_rows hshown
  have hparent : callParent db api.nodeId = some n := by
    refine (mem_childIds_iff h).mp (?_ : api.nodeId ∈ childIds db n p.currentSort)
    rw [← map_nodeId_childNodes]
    exact List.mem_map_of_mem hapi
  have hkid := View.mem_kids_iff (h := h) (v := v).mpr hparent
  have hbelow : (v.forest h).Below n api.nodeId := .single hkid
  have hne' : n ≠ api.nodeId := fun heq => Forest.not_below_of_mem_kids hkid (heq ▸ .refl)
  constructor
  · rintro (heq | hopen)
    · exact hne' heq.symm
    · exact hv.kept.not_below hclosed hne (.inl hopen) hbelow
  · exact fun hfail => hv.kept.not_below hclosed hne (.inr ⟨hfail, hne'⟩) hbelow

lemma Follows.expand (hv : Follows h v p) (hidle : p.tree.inFlight = [])
    (hq : (p.onChevronClick n).tree.inFlight = [q]) :
    Follows h (v.expand n)
      ((p.onChevronClick n).childrenArrived q (childNodes db n p.currentSort)) := by
  obtain ⟨hclosed, hshown, htoken, hrows⟩ := hv.clicked hidle hq
  refine ⟨⟨hv.outlineRows_expand hidle hq, fun r hr => ?_, fun r hr => ?_, hv.currentSort⟩,
    hv.kept.expand ⟨_, hshown⟩ hclosed, (hv.owned.onChevronClick n).childrenArrived⟩
  · rcases (State.mem_rows_childrenArrived htoken).mp hr with hr | hr
    · obtain ⟨r₁, hr₁, rfl⟩ := State.mem_rows_assign.mp hr
      obtain ⟨hsame, hhas, -, hself, hother⟩ := hrows r₁ hr₁
      split_ifs with heq
      · have hid₁ := hsame.mp heq
        have hopen : r₁.nodeId ∈ (v.expand n).opened := .inl hid₁
        exact ⟨hhas, iff_of_true rfl hopen, iff_of_true (hself hid₁) (.inl hopen), rfl⟩
      · have hid₁ : r₁.nodeId ≠ n := fun hid => heq (hsame.mpr hid)
        exact (hother hid₁).congr (or_iff_right hid₁) Iff.rfl
    · obtain ⟨_, hrow, ref, -, rfl⟩ := mem_withRefs hr
      obtain ⟨api, hapi, rfl⟩ := List.mem_map.mp hrow
      obtain ⟨hopen, hfail⟩ := hv.notMem_of_child hidle hq hapi
      constructor
      · exact hasChildren_of_mem_childNodes hapi
      · exact iff_of_false Bool.false_ne_true hopen
      · exact iff_of_false Bool.false_ne_true fun hor => hor.elim hopen hfail
      · rfl
  · rcases (State.mem_rows_childrenArrived htoken).mp hr with hr | hr
    · obtain ⟨r₁, hr₁, rfl⟩ := State.mem_rows_assign.mp hr
      split_ifs
      · exact hv.data_onChevronClick n r₁ hr₁
      · exact hv.data_onChevronClick n r₁ hr₁
    · obtain ⟨_, hrow, ref, -, rfl⟩ := mem_withRefs hr
      obtain ⟨api, hapi, rfl⟩ := List.mem_map.mp hrow
      exact nodeData_of_mem_childNodes hapi

/-- After an error the row stays expanded, without children. -/
lemma Follows.expandFailed (hv : Follows h v p) (hidle : p.tree.inFlight = [])
    (hq : (p.onChevronClick n).tree.inFlight = [q]) :
    Follows h { v with failed := insert n v.failed } ((p.onChevronClick n).childrenFailed q) := by
  obtain ⟨-, hshown, htoken, hrows⟩ := hv.clicked hidle hq
  refine ⟨⟨?_, fun r hr => ?_, fun r hr => ?_, hv.currentSort⟩, ⟨hv.kept.opened, ?_⟩, ?_⟩
  · change ((p.tree.onChevronClick n).childrenFailed q).outlineRows = _
    rw [State.outlineRows_eq_map_places, places_childrenFailed,
      (State.request_onChevronClick hidle hq).2, ← State.outlineRows_eq_map_places, hv.rows]
    rfl
  · change r ∈ ((p.tree.onChevronClick n).childrenFailed q).rows at hr
    rw [State.childrenFailed_current htoken] at hr
    obtain ⟨r₁, hr₁, rfl⟩ := State.mem_rows_assign.mp hr
    obtain ⟨hsame, hhas, hopen, hself, hother⟩ := hrows r₁ hr₁
    split_ifs with heq
    · have hid₁ := hsame.mp heq
      exact ⟨hhas, hopen, iff_of_true (hself hid₁) (.inr (.inl hid₁)), rfl⟩
    · have hid₁ : r₁.nodeId ≠ n := fun hid => heq (hsame.mpr hid)
      exact (hother hid₁).congr Iff.rfl (or_iff_right hid₁)
  · change r ∈ ((p.tree.onChevronClick n).childrenFailed q).rows at hr
    rw [State.childrenFailed_current htoken] at hr
    obtain ⟨r₁, hr₁, rfl⟩ := State.mem_rows_assign.mp hr
    split_ifs
    · exact hv.data_onChevronClick n r₁ hr₁
    · exact hv.data_onChevronClick n r₁ hr₁
  · rintro m (rfl | hm)
    · exact ⟨_, hshown⟩
    · exact hv.kept.failed m hm
  · exact (hv.owned.onChevronClick n).childrenFailed

/-- What is not about the rows does not matter. -/
lemma Follows.of_tree (hv : Follows h v p) (htree : t.tree = p.tree)
    (hsort : t.currentSort = sort) : Follows h { v with sort := sort } t where
  rows := htree ▸ hv.rows
  marks row hrow := (hv.marks row (htree ▸ hrow)).congr Iff.rfl Iff.rfl
  data := htree ▸ hv.data
  currentSort := hsort
  kept := ⟨hv.kept.opened, hv.kept.failed⟩
  owned := htree ▸ hv.owned

/-- A click that sends no request closes its node, if it is in the view. -/
lemma Follows.click (hv : Follows h v p) (hnone : (p.onChevronClick n).tree.inFlight = []) :
    Follows h (v.after h (.click n)) (p.onChevronClick n) := by
  cases hrow : p.tree.rows[p.tree.clicked n]? with
  | none =>
    have htree : (p.onChevronClick n).tree = p.tree := State.onChevronClick_none hrow
    have hnot : ¬ v.Shown h n := by
      rw [State.getElem?_clicked, List.find?_eq_none] at hrow
      rw [hv.shown_iff]
      rintro ⟨row, hmem, hid⟩
      exact hrow row hmem (decide_eq_true hid)
    rw [View.after, if_neg hnot]
    exact hv.of_tree htree hv.currentSort
  | some row =>
    have hmem := List.mem_of_getElem? hrow
    have hid : row.nodeId = n := by
      rw [State.getElem?_clicked] at hrow
      simpa using List.find?_some hrow
    have hmarks := hv.marks row hmem
    rw [View.after, if_pos (hv.shown_iff.mpr ⟨row, hmem, hid⟩)]
    refine hv.close hrow hid ?_ (hv.data_onChevronClick n) (hv.owned.onChevronClick n) rfl
    refine (State.onChevronClick_of_idle hnone hrow hmarks.loadingChildren fun hloaded => ?_).2
    exact hmarks.expanded.mpr (.inl (hmarks.childrenLoaded.mp hloaded))

lemma follows_main (h : IsCallTree db) : Follows h .start .main where
  rows := (if_neg (Set.notMem_empty _)).symm
  marks _ hrow := absurd hrow List.not_mem_nil
  data _ hrow := absurd hrow List.not_mem_nil
  currentSort := rfl
  kept := ⟨fun n hn => absurd hn (Set.notMem_empty n), fun n hn => absurd hn (Set.notMem_empty n)⟩
  owned := owned_start

variable [JsString] {fqn : ℕ → Option (List UInt16)} {o : Operation} {os : List Operation}

theorem Follows.step (hv : Follows h v p) (hstep : ServedStep fqn h p o t) :
    Follows h (v.after h o) t := by
  obtain ⟨hstep, hserved⟩ := hstep
  cases hstep with
  | load =>
    obtain ⟨found, index, heq⟩ := @treeArrived_eq _ fqn .main ⟨0, .totalWallDesc⟩ _
    refine hv.hydrateTree ?_ ?_
    · rw [heq, hserved, hv.currentSort]
    · rw [heq]
      exact hv.currentSort
  | loadFailed => exact hv.of_tree rfl hv.currentSort
  | @applySearch _ query =>
    obtain ⟨found, index, heq⟩ := @applySearch_eq _ fqn p query
    refine hv.of_tree ?_ ?_
    · rw [heq]
    · rw [heq]
      exact hv.currentSort
  | stepMatch =>
    refine hv.of_tree ?_ ?_
    · rw [Page.stepMatch]
      split_ifs <;> rfl
    · rw [Page.stepMatch]
      split_ifs
      · exact hv.currentSort
      · exact hv.currentSort
  | click _ hnone => exact hv.click hnone
  | @expand _ n q nodes hidle hq =>
    obtain rfl : nodes = childNodes db n p.currentSort := hserved
    exact hv.expand hidle.2 hq
  | expandFailed hidle hq => exact hv.expandFailed hidle.2 hq
  | @applySort _ newSort nodes =>
    obtain ⟨found, index, heq⟩ := @treeArrived_eq _ fqn (p.applySort newSort) ⟨p.sent, newSort⟩
      nodes
    refine hv.hydrateTree ?_ ?_
    · rw [heq, show nodes = treeNodes db View.pageDepth newSort from hserved]
      rfl
    · rw [heq]
      rfl
  | applySortFailed => exact hv.of_tree rfl rfl

lemma follows_of_run (hv : Follows h v p) (hrun : Run (ServedStep fqn h) p os t) :
    Follows h (os.foldl (View.after h) v) t :=
  hrun.ghost (I := fun p v => Follows h v p) (f := View.after h) (P := fun _ => True)
    (fun _ _ _ _ _ hstep hv => hv.step hstep) (fun _ _ => trivial) hv

omit [Php] in
/-- Every operation ends before the next one starts. -/
lemma idle_of_step {tree : CallTree} (h : OperationStep fqn tree p o t) : t.Idle := by
  cases h with
  | load =>
    obtain ⟨found, index, heq⟩ := @treeArrived_eq _ fqn .main ⟨0, .totalWallDesc⟩ _
    rw [heq]
    exact ⟨rfl, rfl⟩
  | loadFailed => exact ⟨rfl, rfl⟩
  | @applySearch _ query hidle =>
    obtain ⟨found, index, heq⟩ := @applySearch_eq _ fqn p query
    rw [heq]
    exact hidle
  | stepMatch hidle =>
    rw [Page.stepMatch]
    split_ifs
    · exact hidle
    · exact hidle
  | click hidle hnone => exact ⟨hidle.1, hnone⟩
  | @expand _ n q nodes hidle hq =>
    refine ⟨hidle.1, ?_⟩
    change ((p.tree.onChevronClick n).childrenArrived q nodes).inFlight = []
    change (p.tree.onChevronClick n).inFlight = [q] at hq
    rw [State.childrenArrived]
    split_ifs <;> simp [State.settle, State.assign, hq]
  | @expandFailed _ n q hidle hq =>
    refine ⟨hidle.1, ?_⟩
    change ((p.tree.onChevronClick n).childrenFailed q).inFlight = []
    change (p.tree.onChevronClick n).inFlight = [q] at hq
    rw [State.childrenFailed]
    split_ifs <;> simp [State.settle, State.assign, hq]
  | @applySort _ newSort nodes hidle =>
    obtain ⟨found, index, heq⟩ := @treeArrived_eq _ fqn (p.applySort newSort) ⟨p.sent, newSort⟩
      nodes
    have hsent : (p.applySort newSort).inFlight = p.inFlight ++ [⟨p.sent, newSort⟩] := rfl
    rw [heq]
    exact ⟨by simp [hsent, hidle.1], hidle.2⟩
  | @applySortFailed _ newSort hidle =>
    have hsent : (p.applySort newSort).inFlight = p.inFlight ++ [⟨p.sent, newSort⟩] := rfl
    exact ⟨by simp [Page.treeFailed, hsent, hidle.1], hidle.2⟩

end follows

/-! ### Every run -/

section run

variable [Engine] [Php] [JsString] {key : TraceKey} {o : Observed} {as : List Attempt}
  {db : TraceDb} {fqn : ℕ → Option (List UInt16)} {os : List Operation} {p : Page}

end run

/-- Two calls, one inside the other -/
def nestedCalls : List Call :=
  [{ (default : Call) with callId := 1, fnId := 7, tOut := 9 },
    { (default : Call) with callId := 2, parent := 1, fnId := 7, tIn := 1, tOut := 4 }]

def nestedOp : Op := .record default ⟨{ (default : Meta) with sapi := "cli" },
  [{ (default : DictEntry) with fnId := 7 }], nestedCalls⟩ 0 .none

lemma run_nestedOp :
    letI := Engine.stored
    Run (Observed.Step default) ⟨.empty, []⟩ [⟨nestedOp, true⟩]
      ⟨(nestedOp.exec .empty).1, recordedBy default .empty nestedOp⟩ :=
  letI := Engine.stored
  .single ⟨Attempt.step_exec (by decide +kernel), rfl⟩

section find

variable [Php] [JsString] {db : TraceDb} {h : IsCallTree db} {v : View} {p t : Page} {n m : ℕ}
  (fqn : ℕ → Option (List UInt16)) {os : List Operation}

omit [JsString] in
/-- A node that is shown has a row, which a click on it finds. -/
lemma Presents.exists_row (hv : Presents h v p) (hn : v.Shown h n) :
    ∃ row, p.tree.rows[p.tree.clicked n]? = some row ∧ row.nodeId = n ∧ v.Marks db row := by
  obtain ⟨e, he⟩ := hn
  obtain ⟨before, after, hrows⟩ := List.append_of_mem he
  obtain ⟨-, row, hrow, hid, -⟩ := State.exists_clicked (hv.rows.trans hrows) hv.nodup
  exact ⟨row, hrow, hid, hv.marks row (List.mem_of_getElem? hrow)⟩

lemma Follows.exists_expand (hv : Follows h v p) (hidle : p.Idle) (hn : v.Shown h n)
    (hclosed : n ∉ v.opened) (hfailed : n ∉ v.failed) :
    ∃ t, ServedStep fqn h p (.expand n (childNodes db n p.currentSort)) t := by
  obtain ⟨row, hrow, hid, hmarks⟩ := hv.exists_row hn
  have hexpanded : ¬ row.expanded := by
    rw [hmarks.expanded, hid]
    exact fun hor => hor.elim hclosed hfailed
  have hloaded : ¬ row.childrenLoaded := by rwa [hmarks.childrenLoaded, hid]
  have hclick := State.onChevronClick_some hrow
  rw [hmarks.loadingChildren, if_neg Bool.false_ne_true, if_neg hexpanded, if_neg hloaded] at hclick
  obtain ⟨q, hq, hqid⟩ : ∃ q : Request, (p.tree.onChevronClick n).inFlight = [q] ∧
      q.nodeId = row.nodeId := by
    have hclear : (p.tree.clearLoadError row).inFlight = [] :=
      State.inFlight_clearLoadError.trans hidle.2
    rw [hclick, State.loadChildren]
    simp only [State.assign, hclear, List.nil_append]
    exact ⟨_, rfl, rfl⟩
  exact ⟨_, .expand hidle hq (hqid ▸ hid ▸ children_childNodes h _ _), rfl⟩

lemma Follows.exists_close (hv : Follows h v p) (hidle : p.Idle) (hn : v.Shown h n)
    (hfailed : n ∈ v.failed) : ∃ t, ServedStep fqn h p (.click n) t := by
  obtain ⟨row, hrow, hid, hmarks⟩ := hv.exists_row hn
  have hexpanded : row.expanded := hmarks.expanded.mpr (.inr (hid ▸ hfailed))
  have hclick := State.onChevronClick_some hrow
  rw [hmarks.loadingChildren, if_neg Bool.false_ne_true, if_pos hexpanded] at hclick
  refine ⟨_, .click hidle ?_, trivial⟩
  change (p.tree.onChevronClick n).inFlight = []
  rw [hclick]
  exact State.inFlight_abortInFlight hidle.2

/-- A node that is shown can be opened, and what is shown stays so. -/
lemma Follows.exists_open (hv : Follows h v p) (hidle : p.Idle) (hn : v.Shown h n) :
    ∃ os t, Run (ServedStep fqn h) p os t ∧ t.Idle ∧ os.length ≤ 2 ∧
      n ∈ (os.foldl (View.after h) v).opened ∧
      ∀ m, v.Shown h m → (os.foldl (View.after h) v).Shown h m := by
  by_cases hopen : n ∈ v.opened
  · exact ⟨[], p, .nil p, hidle, by decide, hopen, fun _ hm => hm⟩
  by_cases hfailed : n ∈ v.failed
  · -- the first click on a row that has failed only closes it
    obtain ⟨u, hclick⟩ := hv.exists_close fqn hidle hn hfailed
    have hafter : v.after h (.click n) = v.close h n := if_pos hn
    have hu := hv.step hclick
    rw [hafter] at hu
    have hshown : ∀ m, v.Shown h m → (v.close h n).Shown h m := by
      intro m hm
      refine View.shown_close hn hm ?_
      by_cases hne : n = m
      · exact .inl hne.symm
      · exact .inr fun hb => hopen (View.mem_opened_of_below hm hb hne)
    have hself : ∀ s : Set ℕ, n ∉ {m ∈ s | ¬ (v.forest h).Below n m} := fun s hs => hs.2 .refl
    obtain ⟨t, hexpand⟩ := hu.exists_expand fqn (idle_of_step hclick.1) (hshown n hn)
      (hself _) (hself _)
    refine ⟨_, t, .cons hclick (.single hexpand), idle_of_step hexpand.1, le_rfl, ?_, ?_⟩
    · exact .inl rfl
    · rw [List.foldl_cons, hafter]
      exact fun m hm => View.shown_expand hu.kept (hshown n hn) (hself _) (hshown m hm)
  · obtain ⟨t, hexpand⟩ := hv.exists_expand fqn hidle hn hopen hfailed
    refine ⟨_, t, .single hexpand, idle_of_step hexpand.1, Nat.le_succ 1, .inl rfl, ?_⟩
    exact fun m hm => View.shown_expand hv.kept hn hopen hm

/-- Once the tree is there, each node is found by opening those above it. -/
lemma Follows.exists_shown (hv : Follows h v p) (hidle : p.Idle)
    (hroot : syntheticRootNodeId ∈ v.opened) (hn : db.nodes.HasKey n)
    (hne : n ≠ syntheticRootNodeId) :
    ∃ os t, Run (ServedStep fqn h) p os t ∧ t.Idle ∧ os.length ≤ 2 * (callDepth db n - 1) ∧
      (os.foldl (View.after h) v).Shown h n ∧
      ∀ m, v.Shown h m → (os.foldl (View.after h) v).Shown h m := by
  have hb := View.below_root h v hn
  clear hn
  induction hb with
  | refl => exact absurd rfl hne
  | @tail j n hj hnj ih =>
    have hparent := View.mem_kids_iff.mp hnj
    have hdepth := h.callDepth_child hparent
    by_cases hjroot : j = syntheticRootNodeId
    · -- the rows of the first level are there
      subst hjroot
      refine ⟨[], p, .nil p, hidle, Nat.zero_le _, ⟨0, ?_⟩, fun _ hm => hm⟩
      rw [List.foldl_nil, View.rows, if_pos hroot]
      exact Forest.mem_rows_iff.mpr ⟨n, hnj, Forest.mem_subtree_self _ _ _⟩
    · obtain ⟨os, t, hrun, htidle, hlength, hshown, hkeeps⟩ := ih hjroot
      have ht := follows_of_run hv hrun
      obtain ⟨os', u, hrun', huidle, hlength', hopen, hkeeps'⟩ :=
        ht.exists_open fqn htidle hshown
      have hu := follows_of_run ht hrun'
      refine ⟨os ++ os', u, hrun.append hrun', huidle, ?_, ?_, fun m hm => ?_⟩
      · rw [List.length_append]
        have hpos : 0 < callDepth db j := by
          rcases Relation.ReflTransGen.cases_tail hj with heq | ⟨i, -, hij⟩
          · exact absurd heq hjroot
          · rw [h.callDepth_child (View.mem_kids_iff.mp hij)]
            exact Nat.succ_pos _
        omega
      · rw [List.foldl_append]
        exact View.shown_of_parent (hkeeps' j hshown) hopen hparent
      · rw [List.foldl_append]
        exact hkeeps' m (hkeeps m hm)

/-- The tree can be loaded, also after an error. -/
lemma Follows.exists_load (hv : Follows h v p) (hidle : p = .main ∨ p.Idle) :
    ∃ o t, ServedStep fqn h p o t ∧ v.after h o = .load db v.sort := by
  rcases hidle with rfl | hidle
  · exact ⟨_, _, ⟨.load (part_treeNodes h _ _), rfl⟩, rfl⟩
  · exact ⟨.applySort v.sort _, _, ⟨.applySort hidle (part_treeNodes h _ _), rfl⟩, rfl⟩

variable {fqn}

omit [Php] in
lemma nil_or_idle {tree : CallTree} (hrun : Run (OperationStep fqn tree) p os t) :
    os = [] ∨ t.Idle := by
  cases hrun with
  | nil => exact .inl rfl
  | cons hstep hrest =>
    exact .inr (hrest.invariant (P := fun _ => True) (fun _ _ _ _ hstep _ => idle_of_step hstep)
      (fun _ _ => trivial) (idle_of_step hstep))

/-- From wherever the reader has come to, a node can be brought into view, by opening those above
it. -/
lemma exists_find (hpage : Run (ServedStep fqn h) .main os p) (hn : db.nodes.HasKey n)
    (hne : n ≠ syntheticRootNodeId) :
    ∃ os' t, Run (ServedStep fqn h) p os' t ∧ os'.length ≤ 2 * callDepth db n - 1 ∧
      (∃ row ∈ t.tree.rows, row.nodeId = n) ∧
      ∀ row ∈ p.tree.rows, ∃ row' ∈ t.tree.rows, row'.nodeId = row.nodeId := by
  have hv := follows_of_run (follows_main h) hpage
  set v := os.foldl (View.after h) .start with hvdef
  have hroot := View.hasKey_root h hn
  have hnil := nil_or_idle (hpage.map (f := id) fun _ _ _ hstep => hstep.1)
  have hlevel : 0 < callDepth db n := by
    rcases Relation.ReflTransGen.cases_tail (View.below_root h v hn) with heq | ⟨i, -, hi⟩
    · exact absurd heq hne
    · rw [h.callDepth_child (View.mem_kids_iff.mp hi)]
      exact Nat.succ_pos _
  by_cases hloaded : syntheticRootNodeId ∈ v.opened
  · have hidle : p.Idle := by
      refine hnil.resolve_left fun hos => ?_
      rw [hvdef, hos] at hloaded
      exact Set.notMem_empty _ hloaded
    obtain ⟨os', t, hrun', -, hlength, hshown, hkeeps⟩ :=
      hv.exists_shown fqn hidle hloaded hn hne
    have ht := follows_of_run hv hrun'
    refine ⟨os', t, hrun', by omega, ht.shown_iff.mp hshown, fun row hrow => ?_⟩
    exact ht.shown_iff.mp (hkeeps _ ⟨_, hv.mem_rows hrow⟩)
  · have hidle : p = .main ∨ p.Idle := hnil.imp_left fun hos => by
      rw [hos, Run.nil_iff] at hpage
      exact hpage.symm
    obtain ⟨e, u, hload, hafter⟩ := hv.exists_load fqn hidle
    have hu := hv.step hload
    rw [hafter] at hu
    have hopen : syntheticRootNodeId ∈ (View.load db v.sort).opened :=
      mem_loadedTo_of_lt h hroot (h.callDepth_root.trans_lt (by decide))
    obtain ⟨os', t, hrun', -, hlength, hshown, -⟩ :=
      hu.exists_shown fqn (idle_of_step hload.1) hopen hn hne
    have ht := follows_of_run hu hrun'
    refine ⟨e :: os', t, .cons hload hrun', by rw [List.length_cons]; omega,
      ht.shown_iff.mp hshown, fun row hrow => ?_⟩
    exact absurd (View.mem_opened_of_mem_rows (hv.mem_rows hrow)) hloaded

/-- Whatever has been opened, closed or failed before, each call of a trace can be brought into
view, with two clicks for each call above it at most and one to load the tree. Nothing that is in
view gets lost. -/
theorem exists_run_shown [Engine] {key : TraceKey} {o : Observed} {as : List Attempt}
    (hrun : Run (Observed.Step key) ⟨.empty, []⟩ as o) (hdb : o.storage.traces key = some db)
    (hpage : Run (ServedStep fqn (isCallTree_of_run hrun hdb)) .main os p)
    (hn : db.nodes.HasKey n) (hne : n ≠ syntheticRootNodeId) :
    ∃ os' t, Run (ServedStep fqn (isCallTree_of_run hrun hdb)) p os' t ∧
      os'.length ≤ 2 * callDepth db n - 1 ∧ (∃ row ∈ t.tree.rows, row.nodeId = n) ∧
      ∀ row ∈ p.tree.rows, ∃ row' ∈ t.tree.rows, row'.nodeId = row.nodeId :=
  exists_find hpage hn hne

end find

/-- The inner one of two nested calls, after the outer one has been collapsed -/
theorem exists_run_shown_collapsed :
    letI := Engine.stored
    letI : Php := ⟨fun _ => 0⟩
    ∃ (db : TraceDb) (h : IsCallTree db) (p t : Page) (os : List Operation),
      Run (@ServedStep _ Search.dotted _ unnamed h) .main
        [.load (treeNodes db 2 .totalWallDesc), .click 2] p ∧
      p.tree.outlineRows = [(2, 0)] ∧ Run (@ServedStep _ Search.dotted _ unnamed h) p os t ∧
      ∃ row ∈ t.tree.rows, row.nodeId = 3 := by
  let _ := Engine.stored
  let _ : Php := ⟨fun _ => 0⟩
  let _ := Search.dotted
  let page (db : TraceDb) : Page := (Page.main.treeArrived unnamed ⟨0, .totalWallDesc⟩
    (treeNodes db 2 .totalWallDesc)).onChevronClick 2
  have hshown : ((nestedOp.exec .empty).1.traces default).map
      (fun db => (decide (db.nodes.HasKey 3), (page db).tree.inFlight,
        (page db).tree.outlineRows)) = some (true, [], [(2, 0)]) := by
    decide +kernel
  obtain ⟨db, hdb, heq⟩ := Option.map_eq_some_iff.mp hshown
  obtain ⟨hkey, hclick, hrows⟩ : _ ∧ _ ∧ _ := by simpa only [Prod.mk.injEq] using heq
  let h := isCallTree_of_run run_nestedOp hdb
  have hpage : Run (ServedStep unnamed h) .main
      [.load (treeNodes db 2 .totalWallDesc), .click 2] (page db) :=
    .cons ⟨.load (part_treeNodes h 2 .totalWallDesc), rfl⟩
      (.single ⟨.click ⟨rfl, rfl⟩ hclick, trivial⟩)
  obtain ⟨os, t, hopen, -, hrow, -⟩ :=
    exists_run_shown run_nestedOp hdb hpage (of_decide_eq_true hkey) (by decide)
  exact ⟨db, h, _, t, os, hpage, hrows, hopen, hrow⟩

end Detail

end PhpTreeViz
