import PhpTreeViz.Viz.RowList

/-!
# The keyboard in the call tree

The arrow keys move the focus through the row list, to parents and to children, and expand and
collapse rows. They take a row to be expanded if its children came with the tree. That is said of
every row without children, too, so that the arrow keys do not treat it as a leaf.
-/

namespace PhpTreeViz

open Core

namespace Detail

/-! ### The keys -/

inductive Key where
  | arrowDown
  | arrowUp
  | pageDown
  | pageUp
  | home
  | endKey
  | arrowRight
  | arrowLeft
  | enter
  | other (name : String)
  deriving DecidableEq

/-- What `nextFocusIndex` reads. -/
structure KeyContext where
  rows : List Row
  currentIndex : ℤ
  key : Key
  ctrlKey : Bool
  metaKey : Bool
  altKey : Bool

structure KeyAction where
  newIndex : ℤ
  expand : Bool
  collapse : Bool
  consumed : Bool
  deriving DecidableEq

namespace KeyAction

def result (newIndex : ℤ) (consumed : Bool) : KeyAction := ⟨newIndex, false, false, consumed⟩

end KeyAction

def pageStep : ℤ := 10

/-- The loop that walks upward from before the row `i` to the first row that is less deep. -/
def parentIndex (rows : List Row) (indentDepthForUi : ℕ) : ℕ → Option ℕ
  | 0     => none
  | i + 1 =>
    match rows[i]? with
    | none     => none
    | some row =>
      if row.indentDepthForUi < indentDepthForUi then some i
      else parentIndex rows indentDepthForUi i

def nextFocusIndex (ctx : KeyContext) : KeyAction :=
  let last : ℤ := ctx.rows.length - 1
  let safeIndex : ℤ :=
    if ctx.currentIndex < 0 then 0
    else if ctx.currentIndex ≥ ctx.rows.length then last
    else ctx.currentIndex
  if ctx.ctrlKey || ctx.metaKey || ctx.altKey then .result ctx.currentIndex false
  else if ctx.rows.length = 0 then .result 0 false
  else
    match ctx.rows[safeIndex.toNat]? with
    | none         => .result 0 false
    | some current =>
      match ctx.key with
      | .arrowDown  => .result (min (safeIndex + 1) last) true
      | .arrowUp    => .result (max (safeIndex - 1) 0) true
      | .pageDown   => .result (min (safeIndex + pageStep) last) true
      | .pageUp     => .result (max (safeIndex - pageStep) 0) true
      | .home       => .result 0 true
      | .endKey     => .result last true
      | .arrowRight =>
        if current.hasChildren && !current.expanded then ⟨safeIndex, true, false, true⟩
        else if current.expanded then .result (min (safeIndex + 1) last) true
        else .result safeIndex true
      | .arrowLeft  =>
        if current.expanded then ⟨safeIndex, false, true, true⟩
        else
          match parentIndex ctx.rows current.indentDepthForUi safeIndex.toNat with
          | none   => .result safeIndex true
          | some i => .result i true
      | .enter      => .result safeIndex true
      | .other _    => .result safeIndex false

/-! ### The focus -/

/-- The tree and the row that has the focus, -1 if there is none. -/
structure Focused where
  tree : State
  focusedRowIndex : ℤ

def Focused.onTreeKeydown (p : Focused) (key : Key) (ctrlKey metaKey altKey : Bool) : Focused :=
  let action := nextFocusIndex ⟨p.tree.rows, max p.focusedRowIndex 0, key, ctrlKey, metaKey, altKey⟩
  if !action.consumed then p
  else if action.expand || action.collapse then
    match p.tree.rows[action.newIndex.toNat]? with
    | none     => p
    | some row => { p with tree := p.tree.onChevronClick row.nodeId }
  else { p with focusedRowIndex := action.newIndex }

/-! ### Responses of the tree endpoint -/

/-- The nodes of a tree, parents first, with the flags that the endpoint gives them: a node without
children has none in the response, and if the children of a node are loaded they are there. -/
structure CallTree.Response (tree : CallTree) (nodes : List ApiNode) : Prop
    extends tree.Part nodes where
  parentFirst : ∀ before node after, nodes = before ++ node :: after → node.nodeId ≠ 1 →
    ∃ p ∈ before, node.parentNodeId = some p.nodeId
  leaf : ∀ node ∈ nodes, node.hasChildren = false →
    ∀ c ∈ nodes, c.parentNodeId ≠ some node.nodeId
  loaded : ∀ node ∈ nodes, node.hasChildren = true → node.childrenLoaded = true →
    ∃ c ∈ nodes, c.parentNodeId = some node.nodeId

/-- `below` lists the nodes below each node in preorder. -/
def ListsBelow (nodes : List ApiNode) (below : ℕ → List ℕ) : Prop :=
  ∀ p, below p = (childrenOf nodes p).flatMap fun child => child.nodeId :: below child.nodeId

/-- The rows are the preorder of the tree without its root, each node once and indented by its
distance from the root less one. -/
structure Hydrates (tree : CallTree) (nodes : List ApiNode) (rows : List Row) : Prop where
  preorder : ∃ below, ListsBelow nodes below ∧ rows.map (·.nodeId) = below 1
  once : ∀ node ∈ nodes, node.nodeId ≠ 1 → (rows.map (·.nodeId)).count node.nodeId = 1
  isNode : ∀ row ∈ rows, row.nodeId ≠ 1 ∧ row.nodeId ∈ nodes.map ApiNode.nodeId
  indent : ∀ row ∈ rows, tree.depth row.nodeId = row.indentDepthForUi + 1

/-- A key without a modifier, with the focus on the row `i`. -/
def press (rows : List Row) (i : ℕ) (key : Key) : KeyAction :=
  nextFocusIndex ⟨rows, i, key, false, false, false⟩

/-- What the left and right arrow keys do on leaves and on expanded rows. -/
structure ArrowsWork (s : State) : Prop where
  leftLeaf : ∀ (i : ℕ) (row : Row), s.rows[i]? = some row → row.hasChildren = false →
    (∃ j p, press s.rows i .arrowLeft = .result (j : ℕ) true ∧ s.rows[j]? = some p ∧
      row.parentNodeId = some p.nodeId) ∨
    (press s.rows i .arrowLeft = .result i true ∧ row.parentNodeId = some 1)
  rightLeaf : ∀ (i : ℕ) (row : Row), s.rows[i]? = some row → row.hasChildren = false →
    press s.rows i .arrowRight = .result i true
  rightExpanded : ∀ (i : ℕ) (row : Row), s.rows[i]? = some row → row.hasChildren = true →
    row.expanded = true → ∃ child, s.rows[i + 1]? = some child ∧
      child.parentNodeId = some row.nodeId ∧
      press s.rows i .arrowRight = .result (i + 1 : ℕ) true
  leftExpanded : ∀ (i : ℕ) (row : Row), s.rows[i]? = some row → row.hasChildren = true →
    row.expanded = true → press s.rows i .arrowLeft = ⟨i, false, true, true⟩ ∧
      s.onChevronClick row.nodeId = s.collapseAt i row

/-! ### One key -/

section press

variable {rows : List Row} {row p : Row} {i j : ℕ}

lemma press_arrowRight (h : rows[i]? = some row) : press rows i .arrowRight =
    if row.hasChildren && !row.expanded then ⟨i, true, false, true⟩
    else if row.expanded then .result (min (i + 1) (rows.length - 1)) true
    else .result i true := by
  have hi := (List.getElem?_eq_some_iff.mp h).1
  have hpos : ¬ (i : ℤ) < 0 := by omega
  have hlt : ¬ (i : ℤ) ≥ rows.length := by omega
  have hne : rows.length ≠ 0 := by omega
  simp only [press, nextFocusIndex, if_neg hpos, if_neg hlt, if_neg hne, Int.toNat_natCast, h]
  rfl

lemma press_arrowLeft (h : rows[i]? = some row) : press rows i .arrowLeft =
    if row.expanded then ⟨i, false, true, true⟩
    else
      match parentIndex rows row.indentDepthForUi i with
      | none   => .result i true
      | some j => .result j true := by
  have hi := (List.getElem?_eq_some_iff.mp h).1
  have hpos : ¬ (i : ℤ) < 0 := by omega
  have hlt : ¬ (i : ℤ) ≥ rows.length := by omega
  have hne : rows.length ≠ 0 := by omega
  simp only [press, nextFocusIndex, if_neg hpos, if_neg hlt, if_neg hne, Int.toNat_natCast, h]
  rfl

/-- Walking upward over rows that are not less deep. -/
lemma parentIndex_eq_some {depth : ℕ} (hp : rows[j]? = some p) (hdepth : p.indentDepthForUi < depth)
    (hji : j < i) (hi : i ≤ rows.length)
    (hbetween : ∀ k row, j < k → k < i → rows[k]? = some row → depth ≤ row.indentDepthForUi) :
    parentIndex rows depth i = some j := by
  induction i with
  | zero => omega
  | succ i ih =>
    rw [parentIndex]
    rcases Nat.lt_succ_iff_lt_or_eq.mp hji with hlt | rfl
    · obtain ⟨row, hrow⟩ : ∃ row, rows[i]? = some row := ⟨_, List.getElem?_eq_getElem (by omega)⟩
      have hdeep := hbetween i row hlt (Nat.lt_succ_self i) hrow
      rw [hrow]
      simp only [if_neg (not_lt.mpr hdeep)]
      exact ih hlt (by omega) fun k row hjk hki => hbetween k row hjk (by omega)
    · rw [hp]
      exact if_pos hdepth

lemma parentIndex_zero (rows : List Row) (i : ℕ) : parentIndex rows 0 i = none := by
  induction i with
  | zero => rfl
  | succ i ih =>
    rw [parentIndex]
    split
    · rfl
    · simpa using ih

end press

/-! ### The hydrated list -/

section hydrate

variable {tree : CallTree} {nodes : List ApiNode} {node : ApiNode} {below : ℕ → List ℕ}
  {fuel uiDepth p x : ℕ} {row : Row} {s : State}

lemma map_nodeId_walk (nodes : List ApiNode) (fuel p uiDepth : ℕ) :
    (walk nodes fuel p uiDepth).map (·.nodeId) = (walk nodes fuel p 0).map (·.nodeId) := by
  induction fuel generalizing p uiDepth with
  | zero => rfl
  | succ fuel ih =>
    rw [walk, walk, List.map_flatMap, List.map_flatMap]
    refine List.flatMap_congr fun child _ => ?_
    rw [List.map_cons, List.map_cons, ih child.nodeId (uiDepth + 1), ih child.nodeId (0 + 1)]
    rfl

/-- With enough fuel, the walk lists what is below a node. -/
lemma listsBelow_walk (hpart : tree.Part nodes) :
    ListsBelow nodes fun p => (walk nodes nodes.length p 0).map (·.nodeId) := by
  intro p
  change (walk nodes nodes.length p 0).map (·.nodeId) = _
  rw [walk_eq hpart p 0, List.map_flatMap]
  refine List.flatMap_congr fun child _ => ?_
  rw [List.map_cons, map_nodeId_walk]
  rfl

lemma map_nodeId_hydrateTree (hpart : tree.Part nodes) (s : State) :
    (s.hydrateTree nodes).rows.map (·.nodeId) = (walk nodes nodes.length 1 0).map (·.nodeId) := by
  have hplaces : (s.hydrateTree nodes).places = _ := places_hydrateTree s
  rw [walk_succ hpart List.countP_le_length, State.places] at hplaces
  have hids := congrArg (List.map Place.nodeId) hplaces
  rwa [List.map_map, List.map_map] at hids

/-- What is listed below a node is closed under children. -/
lemma ListsBelow.mem_of_child (h : ListsBelow nodes below) (hpart : tree.Part nodes)
    (hx : x ∈ below p) (hnode : node ∈ nodes) (hparent : node.parentNodeId = some x) :
    node.nodeId ∈ below p := by
  induction hn : nodes.countP (tree.depth p < tree.depth ·.nodeId) using Nat.strong_induction_on
    generalizing p with
  | _ n ih =>
    rw [h p, List.mem_flatMap] at hx ⊢
    obtain ⟨child, hchild, hx⟩ := hx
    refine ⟨child, hchild, List.mem_cons_of_mem _ ?_⟩
    rcases List.mem_cons.mp hx with rfl | hx
    · rw [h child.nodeId, List.mem_flatMap]
      exact ⟨node, mem_childrenOf.mpr ⟨hnode, hparent⟩, List.mem_cons_self⟩
    · exact ih _ (hn ▸ countP_deeper_lt hpart hchild) hx rfl

/-- Since parents come first, every node but the root is below it. -/
lemma ListsBelow.mem_of_ne_root (h : ListsBelow nodes below) (hresponse : tree.Response nodes)
    (hnode : node ∈ nodes) (hne : node.nodeId ≠ 1) : node.nodeId ∈ below 1 := by
  obtain ⟨before, after, hsplit⟩ := List.append_of_mem hnode
  induction hn : before.length using Nat.strong_induction_on generalizing before node after with
  | _ n ih =>
    obtain ⟨p, hp, hparent⟩ := hresponse.parentFirst before node after hsplit hne
    by_cases hroot : p.nodeId = 1
    · rw [h 1, List.mem_flatMap]
      exact ⟨node, mem_childrenOf.mpr ⟨hnode, hroot ▸ hparent⟩, List.mem_cons_self⟩
    · obtain ⟨before', after', rfl⟩ := List.append_of_mem hp
      have hlt : before'.length < n := by
        rw [← hn, List.length_append, List.length_cons]
        omega
      have hmem : p ∈ nodes := by simp [hsplit]
      exact h.mem_of_child hresponse.toPart
        (ih _ hlt hmem hroot before' (after' ++ node :: after) (by simp [hsplit]) rfl) hnode hparent

lemma exists_makeRow_of_mem_walk (h : row ∈ walk nodes fuel p uiDepth) :
    ∃ node ∈ nodes, ∃ d, row = makeRow node d := by
  induction fuel generalizing p uiDepth with
  | zero => simp [walk] at h
  | succ fuel ih =>
    obtain ⟨child, hchild, hrow⟩ := List.mem_flatMap.mp h
    rcases List.mem_cons.mp hrow with rfl | hrow
    · exact ⟨child, (mem_childrenOf.mp hchild).1, uiDepth, rfl⟩
    · exact ih hrow

lemma byId_eq (hpart : tree.Part nodes) (hnode : node ∈ nodes) :
    byId nodes node.nodeId = some node := by
  rw [byId]
  cases hfind : nodes.reverse.find? (·.nodeId = node.nodeId) with
  | none => simpa using List.find?_eq_none.mp hfind node (List.mem_reverse.mpr hnode)
  | some node' =>
    have hid : node'.nodeId = node.nodeId := by simpa using List.find?_some hfind
    have hmem := List.mem_reverse.mp (List.mem_of_find?_eq_some hfind)
    rw [List.inj_on_of_nodup_map hpart.nodup hmem hnode hid]

/-- A hydrated row is expanded if the children of its node were loaded. -/
structure Shows (node : ApiNode) (row : Row) : Prop where
  nodeId : row.nodeId = node.nodeId
  parentNodeId : row.parentNodeId = node.parentNodeId
  hasChildren : row.hasChildren = node.hasChildren
  expanded : row.expanded = node.childrenLoaded
  loadingChildren : row.loadingChildren = false
  loadError : row.loadError = false
  data : row.data = node.data

lemma shows_of_mem_hydrateTree (hpart : tree.Part nodes) (s : State)
    (h : row ∈ (s.hydrateTree nodes).rows) : ∃ node ∈ nodes, Shows node row := by
  simp only [State.hydrateTree, withRefs, List.mem_mapIdx, List.length_map, List.getElem_map] at h
  obtain ⟨i, hi, rfl⟩ := h
  have hmem := List.getElem_mem hi
  have hwalk : ∀ r ∈ (childrenOf nodes 1).flatMap fun child =>
      makeRow child 0 :: walk nodes nodes.length child.nodeId 1,
      ∃ node ∈ nodes, ∃ d, r = makeRow node d := by
    intro r hr
    have hr' : r ∈ walk nodes (nodes.length + 1) 1 0 := hr
    exact exists_makeRow_of_mem_walk hr'
  obtain ⟨node, hnode, d, hrow⟩ := hwalk _ hmem
  refine ⟨node, hnode, ?_⟩
  rw [hrow, show (makeRow node d).nodeId = node.nodeId from rfl, byId_eq hpart hnode]
  exact ⟨rfl, rfl, rfl, rfl, rfl, rfl, rfl⟩

lemma placed_hydrateTree (hpart : tree.Part nodes) (s : State) :
    ∀ row ∈ (s.hydrateTree nodes).rows, tree.Placed row.toPlace := by
  intro row hrow
  have hmem : row.toPlace ∈ (s.hydrateTree nodes).places := List.mem_map_of_mem hrow
  rw [places_hydrateTree] at hmem
  obtain ⟨row', hrow', heq⟩ := List.mem_map.mp hmem
  have hdepth : row' ∈ walk nodes (nodes.length + 1) 1 (tree.depth 1) := by
    rwa [tree.depth_root]
  exact heq ▸ (placed_walk hpart hdepth).1

lemma hydrates_hydrateTree (h : tree.Response nodes) (s : State) :
    Hydrates tree nodes (s.hydrateTree nodes).rows := by
  have hpart := h.toPart
  have hids := map_nodeId_hydrateTree hpart s
  have hplaced := placed_hydrateTree hpart s
  refine ⟨⟨_, listsBelow_walk hpart, hids⟩, fun node hnode hne => ?_, fun row hrow => ?_,
    fun row hrow => (hplaced row hrow).2⟩
  · rw [hids]
    refine List.count_eq_one_of_mem ?_ ((listsBelow_walk hpart).mem_of_ne_root h hnode hne)
    have hnodup : ((walk nodes nodes.length 1 (tree.depth 1)).map (·.nodeId)).Nodup :=
      nodup_walk hpart
    rwa [tree.depth_root] at hnodup
  · obtain ⟨node, hnode, hshows⟩ := shows_of_mem_hydrateTree hpart s hrow
    constructor
    · intro hone
      have hdepth := (hplaced row hrow).2
      rw [show row.toPlace.nodeId = 1 from hone, tree.depth_root] at hdepth
      omega
    · exact hshows.nodeId ▸ List.mem_map_of_mem hnode

/-! ### The arrow keys on the hydrated list -/

/-- The list around a row. -/
lemma places_split {i : ℕ} (h : s.rows[i]? = some row) :
    s.places = (s.rows.take i).map Row.toPlace ++ row.toPlace ::
      (s.rows.drop (i + 1)).map Row.toPlace := by
  obtain ⟨hi, rfl⟩ := List.getElem?_eq_some_iff.mp h
  rw [State.places, ← List.map_cons, ← List.map_append, List.getElem_cons_drop,
    List.take_append_drop]

lemma indent_eq_zero_of_top (hrow : tree.Placed row.toPlace)
    (htop : row.parentNodeId = some 1) : row.indentDepthForUi = 0 := by
  have hparent := tree.depth_child _ _ (hrow.1.symm.trans htop)
  have hdepth := hrow.2
  rw [tree.depth_root] at hparent
  change row.toPlace.indentDepthForUi = 0
  omega

/-- Walking upward from a row finds its parent, or nothing at the top. -/
lemma parentIndex_of_preorder {i : ℕ} (hpre : outline.Preorder s.places)
    (hplaced : ∀ row ∈ s.rows, tree.Placed row.toPlace) (h : s.rows[i]? = some row) :
    (parentIndex s.rows row.indentDepthForUi i = none ∧ row.parentNodeId = some 1) ∨
      ∃ j p, parentIndex s.rows row.indentDepthForUi i = some j ∧ s.rows[j]? = some p ∧
        row.parentNodeId = some p.nodeId := by
  have hi := (List.getElem?_eq_some_iff.mp h).1
  rcases hpre _ _ _ (places_split h) with htop | ⟨above, p, between, hbefore, hkey, hindent, hdeep⟩
  · refine .inl ⟨?_, htop⟩
    rw [indent_eq_zero_of_top (hplaced row (List.mem_of_getElem? h)) htop, parentIndex_zero]
  · right
    rw [List.map_take] at hbefore
    have hget : ∀ k, k < i → (s.rows[k]?).map Row.toPlace = (above ++ p :: between)[k]? := by
      intro k hk
      rw [← hbefore, List.getElem?_take_of_lt hk, List.getElem?_map]
    have hlength : above.length + 1 + between.length = i := by
      have := congrArg List.length hbefore
      simp only [List.length_take, List.length_map, List.length_append, List.length_cons] at this
      omega
    have hj := hget above.length (by omega)
    rw [List.getElem?_append_right le_rfl, Nat.sub_self, List.getElem?_cons_zero,
      Option.map_eq_some_iff] at hj
    obtain ⟨prow, hprow, rfl⟩ := hj
    refine ⟨above.length, prow, parentIndex_eq_some hprow ?_ (by omega) hi.le ?_, hprow, hkey.symm⟩
    · have : row.toPlace.indentDepthForUi = prow.toPlace.indentDepthForUi + 1 := hindent
      omega
    · intro k r hjk hki hr
      have hmem := hget k hki
      rw [hr, List.getElem?_append_right hjk.le, show k - above.length = k - above.length - 1 + 1 by
        omega, List.getElem?_cons_succ] at hmem
      have hlt := hdeep _ (List.mem_of_getElem? hmem.symm)
      have heq : row.toPlace.indentDepthForUi = prow.toPlace.indentDepthForUi + 1 := hindent
      change row.toPlace.indentDepthForUi ≤ r.toPlace.indentDepthForUi
      change prow.toPlace.indentDepthForUi < r.toPlace.indentDepthForUi at hlt
      omega

/-- The row after a row that has a child in the list is a child of it. -/
lemma next_row_of_child {i : ℕ} (hw : outline.WellFormed s.places)
    (hplaced : ∀ row ∈ s.rows, tree.Placed row.toPlace) (h : s.rows[i]? = some row)
    {c : Row} (hc : c ∈ s.rows) (hparent : c.parentNodeId = some row.nodeId)
    (hne : row.nodeId ≠ 1) :
    ∃ child, s.rows[i + 1]? = some child ∧ child.parentNodeId = some row.nodeId := by
  have hsplit := places_split h
  have hpre := hw.preorder
  have hnodup := hw.nodup
  rw [hsplit] at hpre hnodup
  have htop : ∀ y ∈ (s.rows.take i).map Row.toPlace ++ row.toPlace ::
      (s.rows.drop (i + 1)).map Row.toPlace, outline.IsTop y → outline.indent y = 0 := by
    rw [← hsplit]
    intro y hy hytop
    obtain ⟨r, hr, rfl⟩ := List.mem_map.mp hy
    exact indent_eq_zero_of_top (hplaced r hr) hytop
  have hmem : c.toPlace ∈ (s.rows.take i).map Row.toPlace ++ row.toPlace ::
      (s.rows.drop (i + 1)).map Row.toPlace := hsplit ▸ List.mem_map_of_mem hc
  have hnottop : ¬ outline.IsTop c.toPlace := by
    intro htop
    exact hne (Option.some.inj (hparent.symm.trans htop))
  obtain ⟨y, rest, hafter, hy⟩ := hpre.next_child hnodup htop hmem hnottop hparent
  obtain ⟨child, rows, hdrop, rfl, -⟩ := List.map_eq_cons_iff.mp hafter
  refine ⟨child, ?_, hy⟩
  rw [← List.head?_drop, hdrop, List.head?_cons]

lemma findIdx_nodeId {i : ℕ} (hnodup : (s.rows.map (·.nodeId)).Nodup)
    (h : s.rows[i]? = some row) : s.rows.findIdx (·.nodeId = row.nodeId) = i := by
  obtain ⟨hi, rfl⟩ := List.getElem?_eq_some_iff.mp h
  rw [List.findIdx_eq hi]
  refine ⟨by simp, fun j hj => ?_⟩
  have hne := (List.nodup_iff_injective_getElem.mp hnodup)
  simp only [decide_eq_false_iff_not]
  intro heq
  have := @hne ⟨j, by simp; omega⟩ ⟨i, by simpa using hi⟩ (by simpa using heq)
  exact hj.ne (Fin.mk.inj_iff.mp this)

/-- A row that is not the root and has its children in the response is there with one of them. -/
lemma exists_row_of_node (h : tree.Response nodes) (s : State) (hnode : node ∈ nodes)
    (hne : node.nodeId ≠ 1) : ∃ (i : ℕ) (row : Row), (s.hydrateTree nodes).rows[i]? = some row ∧
      Shows node row := by
  have hmem : node.nodeId ∈ (s.hydrateTree nodes).rows.map (·.nodeId) := by
    rw [← List.count_pos_iff, (hydrates_hydrateTree h s).once node hnode hne]
    exact Nat.zero_lt_one
  obtain ⟨row, hrow, hid⟩ := List.mem_map.mp hmem
  obtain ⟨node', hnode', hshows⟩ := shows_of_mem_hydrateTree h.toPart s hrow
  have hid' : node'.nodeId = node.nodeId := hshows.nodeId.symm.trans hid
  obtain rfl := List.inj_on_of_nodup_map h.nodup hnode' hnode hid'
  obtain ⟨i, hi⟩ := List.getElem?_of_mem hrow
  exact ⟨i, row, hi, hshows⟩

/-- The key for a collapsed row without children goes up, for one that is expanded it does not. -/
lemma press_arrowLeft_leaf (h : tree.Response nodes) (s : State) {i : ℕ}
    (hrow : (s.hydrateTree nodes).rows[i]? = some row) (hexpanded : row.expanded = false) :
    (∃ j p, press (s.hydrateTree nodes).rows i .arrowLeft = .result (j : ℕ) true ∧
      (s.hydrateTree nodes).rows[j]? = some p ∧ row.parentNodeId = some p.nodeId) ∨
    (press (s.hydrateTree nodes).rows i .arrowLeft = .result i true ∧
      row.parentNodeId = some 1) := by
  have hpre := (wellFormed_hydrateTree h.toPart s).preorder
  rw [press_arrowLeft hrow, hexpanded]
  rcases parentIndex_of_preorder hpre (placed_hydrateTree h.toPart s) hrow with
    ⟨hnone, htop⟩ | ⟨j, p, hsome, hp, hparent⟩
  · rw [hnone]
    exact .inr ⟨rfl, htop⟩
  · rw [hsome]
    exact .inl ⟨j, p, rfl, hp, hparent⟩

lemma arrowsWork_of_collapsed_leaves (h : tree.Response nodes) (s : State)
    (hleaf : ∀ node ∈ nodes, node.nodeId ≠ 1 → node.hasChildren = false →
      node.childrenLoaded = false) : ArrowsWork (s.hydrateTree nodes) := by
  have hhydrates := hydrates_hydrateTree h s
  have hnode : ∀ (i : ℕ) (row : Row), (s.hydrateTree nodes).rows[i]? = some row →
      ∃ node ∈ nodes, node.nodeId ≠ 1 ∧ Shows node row := by
    intro i row hrow
    obtain ⟨node, hnode, hshows⟩ := shows_of_mem_hydrateTree h.toPart s (List.mem_of_getElem? hrow)
    have hne := (hhydrates.isNode row (List.mem_of_getElem? hrow)).1
    exact ⟨node, hnode, hshows.nodeId ▸ hne, hshows⟩
  have hcollapsed : ∀ (i : ℕ) (row : Row), (s.hydrateTree nodes).rows[i]? = some row →
      row.hasChildren = false → row.expanded = false := by
    intro i row hrow hchildren
    obtain ⟨node, hmem, hne, hshows⟩ := hnode i row hrow
    rw [hshows.expanded]
    exact hleaf node hmem hne (hshows.hasChildren ▸ hchildren)
  refine ⟨fun i row hrow hchildren => ?_, fun i row hrow hchildren => ?_,
    fun i row hrow hchildren hexpanded => ?_, fun i row hrow hchildren hexpanded => ?_⟩
  · exact press_arrowLeft_leaf h s hrow (hcollapsed i row hrow hchildren)
  · rw [press_arrowRight hrow, hchildren, hcollapsed i row hrow hchildren]
    rfl
  · obtain ⟨node, hmem, hne, hshows⟩ := hnode i row hrow
    obtain ⟨c, hc, hparent⟩ := h.loaded node hmem (hshows.hasChildren ▸ hchildren)
      (hshows.expanded ▸ hexpanded)
    have hc' : c.nodeId ≠ 1 := by
      intro hone
      have hroot := tree.depth_child _ _ ((h.parent c hc).symm.trans hparent)
      rw [hone, tree.depth_root] at hroot
      omega
    obtain ⟨_, crow, hcrow, hcshows⟩ := exists_row_of_node h s hc hc'
    obtain ⟨child, hchild, hchildparent⟩ := next_row_of_child (wellFormed_hydrateTree h.toPart s)
      (placed_hydrateTree h.toPart s) hrow (List.mem_of_getElem? hcrow)
      (hcshows.parentNodeId.trans (hparent.trans (congrArg some hshows.nodeId.symm)))
      (hhydrates.isNode row (List.mem_of_getElem? hrow)).1
    refine ⟨child, hchild, hchildparent, ?_⟩
    have hlt := (List.getElem?_eq_some_iff.mp hchild).1
    have hmin : min ((i : ℤ) + 1) ((s.hydrateTree nodes).rows.length - 1) = (i + 1 : ℕ) := by omega
    rw [press_arrowRight hrow, hchildren, hexpanded, hmin]
    rfl
  · obtain ⟨node, _, _, hshows⟩ := hnode i row hrow
    constructor
    · rw [press_arrowLeft hrow, hexpanded]
      rfl
    · have hnodup : ((s.hydrateTree nodes).rows.map (·.nodeId)).Nodup := by
        have hkeys := (wellFormed_hydrateTree h.toPart s).nodup
        rw [State.places, List.map_map] at hkeys
        exact List.Nodup.of_map some (by rwa [List.map_map])
      rw [State.onChevronClick, findIdx_nodeId hnodup hrow, hrow]
      simp only [hshows.loadingChildren, hexpanded]
      rfl

/-- Every tree response is hydrated as it should be, but the arrow keys work on the list exactly if
no node without children is said to have its children loaded. -/
theorem hydrates_and_arrowsWork_iff (h : tree.Response nodes) (s : State) :
    (Hydrates tree nodes (s.hydrateTree nodes).rows ∧ ArrowsWork (s.hydrateTree nodes)) ↔
      ∀ node ∈ nodes, node.nodeId ≠ 1 → node.hasChildren = false → node.childrenLoaded = false := by
  constructor
  · rintro ⟨-, hwork⟩ node hnode hne hchildren
    obtain ⟨i, row, hrow, hshows⟩ := exists_row_of_node h s hnode hne
    rw [← hshows.expanded]
    rw [← hshows.hasChildren] at hchildren
    by_contra hexpanded
    rw [Bool.not_eq_false] at hexpanded
    have hpress : press (s.hydrateTree nodes).rows i .arrowLeft = ⟨i, false, true, true⟩ := by
      rw [press_arrowLeft hrow, hexpanded]
      rfl
    rcases hwork.leftLeaf i row hrow hchildren with ⟨j, p, hleft, -⟩ | ⟨hleft, -⟩
    · exact Bool.false_ne_true (congrArg KeyAction.collapse (hleft.symm.trans hpress))
    · exact Bool.false_ne_true (congrArg KeyAction.collapse (hleft.symm.trans hpress))
  · intro hleaf
    exact ⟨hydrates_hydrateTree h s, arrowsWork_of_collapsed_leaves h s hleaf⟩

end hydrate

/-! ### A tree with one call -/

def oneCall : CallTree where
  parent n := if n = 2 then some 1 else none
  depth n := if n = 2 then 1 else 0
  depth_root := rfl
  depth_child n p h := by
    split_ifs at h with hn
    obtain rfl := Option.some.inj h
    simp [hn]

def oneCallNodes (hasChildren childrenLoaded : Bool) : List ApiNode :=
  [⟨1, none, true, true, default⟩, ⟨2, some 1, hasChildren, childrenLoaded, default⟩]

lemma response_oneCall {hasChildren childrenLoaded : Bool}
    (h : hasChildren = true → childrenLoaded = false) :
    oneCall.Response (oneCallNodes hasChildren childrenLoaded) where
  nodup := by simp [oneCallNodes]
  parent := by simp [oneCallNodes, oneCall]
  parentFirst := by
    intro before node after hsplit hne
    rcases before with - | ⟨x, - | ⟨y, l⟩⟩
    · obtain ⟨rfl, -⟩ := List.cons_eq_cons.mp hsplit
      exact absurd rfl hne
    · obtain ⟨rfl, hrest⟩ := List.cons_eq_cons.mp hsplit
      obtain ⟨rfl, -⟩ := List.cons_eq_cons.mp hrest
      exact ⟨_, List.mem_cons_self, rfl⟩
    · simp [oneCallNodes] at hsplit
  leaf := by
    intro node hnode hleaf c hc
    simp only [oneCallNodes, List.mem_cons, List.not_mem_nil, or_false] at hnode hc
    rcases hnode with rfl | rfl
    · cases hleaf
    · rcases hc with rfl | rfl
      · simp
      · simp
  loaded := by
    intro node hnode hchildren hloaded
    simp only [oneCallNodes, List.mem_cons, List.not_mem_nil, or_false] at hnode
    rcases hnode with rfl | rfl
    · exact ⟨⟨2, some 1, hasChildren, childrenLoaded, default⟩, by simp [oneCallNodes], rfl⟩
    · exact absurd hloaded (by simp [h hchildren])

/-- The arrow keys work if the only row has children that are not loaded. -/
theorem hydrates_and_arrowsWork_oneCall :
    Hydrates oneCall (oneCallNodes true false)
        (State.start.hydrateTree (oneCallNodes true false)).rows ∧
      ArrowsWork (State.start.hydrateTree (oneCallNodes true false)) :=
  (hydrates_and_arrowsWork_iff (response_oneCall fun _ => rfl) .start).mpr (by simp [oneCallNodes])

/-- The left arrow collapses the row of a call that made no calls. -/
theorem not_arrowsWork : ¬ ∀ (tree : CallTree) (nodes : List ApiNode) (s : State),
    tree.Response nodes →
      Hydrates tree nodes (s.hydrateTree nodes).rows ∧ ArrowsWork (s.hydrateTree nodes) := by
  intro h
  obtain ⟨-, hwork⟩ := h oneCall (oneCallNodes false true) .start (response_oneCall nofun)
  have hpress : press (State.start.hydrateTree (oneCallNodes false true)).rows 0 .arrowLeft =
      ⟨0, false, true, true⟩ := by decide
  rcases hwork.leftLeaf 0 _ rfl rfl with ⟨j, p, hleft, -⟩ | ⟨hleft, -⟩
  · exact Bool.false_ne_true (congrArg KeyAction.collapse (hleft.symm.trans hpress))
  · exact Bool.false_ne_true (congrArg KeyAction.collapse (hleft.symm.trans hpress))

/-! ### The key in the page -/

/-- The left arrow clicks the chevron of an expanded row, and otherwise only moves the focus. -/
theorem onTreeKeydown_arrowLeft {p : Focused} {i : ℕ} {row : Row} (hfocus : p.focusedRowIndex = i)
    (hrow : p.tree.rows[i]? = some row) :
    p.onTreeKeydown .arrowLeft false false false =
      if row.expanded then { p with tree := p.tree.onChevronClick row.nodeId }
      else { p with focusedRowIndex := (press p.tree.rows i .arrowLeft).newIndex } := by
  have hmax : max p.focusedRowIndex 0 = i := by omega
  rw [Focused.onTreeKeydown, hmax]
  change (if !(press p.tree.rows i .arrowLeft).consumed then p
    else if (press p.tree.rows i .arrowLeft).expand ||
        (press p.tree.rows i .arrowLeft).collapse then
      match p.tree.rows[(press p.tree.rows i .arrowLeft).newIndex.toNat]? with
      | none     => p
      | some row => { p with tree := p.tree.onChevronClick row.nodeId }
    else { p with focusedRowIndex := (press p.tree.rows i .arrowLeft).newIndex }) = _
  rw [press_arrowLeft hrow]
  by_cases hexpanded : row.expanded
  · rw [if_pos hexpanded, if_pos hexpanded]
    change (match p.tree.rows[i]? with
      | none     => p
      | some row => { p with tree := p.tree.onChevronClick row.nodeId }) = _
    rw [hrow]
  · rw [if_neg hexpanded, if_neg hexpanded]
    cases parentIndex p.tree.rows row.indentDepthForUi i <;> rfl

end Detail

end PhpTreeViz
