import Mathlib.Data.List.Count
import PhpTreeViz.Viz.Detail

/-!
# The row list stays an outline

The rows of a hydrated tree are an outline, clicks keep it one, and an arrival does so exactly if
the children fit in where they are inserted: the splice goes to the index that the row had when its
request was sent, and the row may be elsewhere by now, or its children may have come with another
request.
-/

namespace PhpTreeViz

open Core

namespace Detail

/-! ### The tree below a node -/

/-- `b` is `a` or below it. -/
inductive CallTree.Below (tree : CallTree) (a : ℕ) : ℕ → Prop where
  | refl : tree.Below a a
  | step {b c : ℕ} : tree.parent c = some b → tree.Below a b → tree.Below a c

lemma CallTree.Below.depth_le {tree : CallTree} {a b : ℕ} (h : tree.Below a b) :
    tree.depth a ≤ tree.depth b := by
  induction h with
  | refl => exact le_rfl
  | step hparent _ ih =>
    have := tree.depth_child _ _ hparent
    omega

lemma CallTree.Below.trans {tree : CallTree} {a b c : ℕ} (h : tree.Below a b)
    (h' : tree.Below b c) : tree.Below a c := by
  induction h' with
  | refl => exact h
  | step hparent _ ih => exact .step hparent ih

/-- No node is below two nodes of the same depth. -/
lemma CallTree.Below.eq {tree : CallTree} {a a' b : ℕ} (h : tree.Below a b)
    (h' : tree.Below a' b) (hdepth : tree.depth a = tree.depth a') : a = a' := by
  induction h with
  | refl =>
    cases h' with
    | refl => rfl
    | step hparent hbelow =>
      have := hbelow.depth_le
      have := tree.depth_child _ _ hparent
      omega
  | step hparent hbelow ih =>
    cases h' with
    | refl =>
      have := hbelow.depth_le
      have := tree.depth_child _ _ hparent
      omega
    | step hparent' hbelow' =>
      obtain rfl := Option.some.inj (hparent.symm.trans hparent')
      exact ih hbelow'

/-- A row is where its node is in the tree. -/
def CallTree.Placed (tree : CallTree) (p : Place) : Prop :=
  p.parentNodeId = tree.parent p.nodeId ∧ tree.depth p.nodeId = p.indentDepthForUi + 1

section hydrate

variable {tree : CallTree} {apiNodes : List ApiNode} {child : ApiNode} {parent fuel uiDepth : ℕ}

lemma mem_childrenOf :
    child ∈ childrenOf apiNodes parent ↔ child ∈ apiNodes ∧ child.parentNodeId = some parent := by
  simp [childrenOf]

lemma depth_of_mem_childrenOf (hpart : tree.Part apiNodes)
    (h : child ∈ childrenOf apiNodes parent) : tree.depth child.nodeId = tree.depth parent + 1 := by
  obtain ⟨hmem, hparent⟩ := mem_childrenOf.mp h
  exact tree.depth_child _ _ ((hpart.parent child hmem).symm.trans hparent)

lemma below_of_mem_childrenOf (hpart : tree.Part apiNodes)
    (h : child ∈ childrenOf apiNodes parent) : tree.Below parent child.nodeId := by
  obtain ⟨hmem, hparent⟩ := mem_childrenOf.mp h
  exact .step ((hpart.parent child hmem).symm.trans hparent) .refl

/-- The walk below a node shows nodes below it, each in its place. -/
lemma placed_walk (hpart : tree.Part apiNodes) {row : Row}
    (h : row ∈ walk apiNodes fuel parent (tree.depth parent)) :
    tree.Placed row.toPlace ∧ tree.Below parent row.nodeId ∧
      tree.depth parent ≤ row.indentDepthForUi := by
  induction fuel generalizing parent with
  | zero => simp [walk] at h
  | succ fuel ih =>
    obtain ⟨child, hchild, hrow⟩ := List.mem_flatMap.mp h
    have hdepth := depth_of_mem_childrenOf hpart hchild
    have hbelow := below_of_mem_childrenOf hpart hchild
    rcases List.mem_cons.mp hrow with rfl | hrow
    · exact ⟨⟨hpart.parent child (mem_childrenOf.mp hchild).1, hdepth⟩, hbelow, le_rfl⟩
    · rw [← hdepth] at hrow
      obtain ⟨hplaced, hbelow', hindent⟩ := ih hrow
      exact ⟨hplaced, hbelow.trans hbelow', by omega⟩

lemma nodup_walk (hpart : tree.Part apiNodes) :
    ((walk apiNodes fuel parent (tree.depth parent)).map (·.nodeId)).Nodup := by
  induction fuel generalizing parent with
  | zero => simp [walk]
  | succ fuel ih =>
    rw [walk, List.map_flatMap, List.nodup_flatMap]
    have hids : ((childrenOf apiNodes parent).map ApiNode.nodeId).Nodup :=
      (List.filter_sublist.map _).nodup hpart.nodup
    constructor
    · intro child hchild
      rw [← depth_of_mem_childrenOf hpart hchild, List.map_cons, List.nodup_cons]
      refine ⟨fun hmem => ?_, ih⟩
      obtain ⟨row, hrow, hid⟩ := List.mem_map.mp hmem
      obtain ⟨⟨-, hdepth⟩, -, hindent⟩ := placed_walk hpart hrow
      have hid : row.nodeId = child.nodeId := hid
      rw [hid] at hdepth
      omega
    · rw [List.Nodup, List.pairwise_map] at hids
      refine hids.imp_of_mem fun {c c'} hc hc' hne => ?_
      have hbelow : ∀ {c : ApiNode}, c ∈ childrenOf apiNodes parent → ∀ {n : ℕ},
          n ∈ (makeRow c (tree.depth parent) ::
            walk apiNodes fuel c.nodeId (tree.depth parent + 1)).map (·.nodeId) →
          tree.Below c.nodeId n := by
        intro c hc n hn
        rw [← depth_of_mem_childrenOf hpart hc, List.map_cons, List.mem_cons] at hn
        rcases hn with rfl | hn
        · exact .refl
        · obtain ⟨row, hrow, rfl⟩ := List.mem_map.mp hn
          exact (placed_walk hpart hrow).2.1
      intro n hn hn'
      refine hne ((hbelow hc hn).eq (hbelow hc' hn') ?_)
      rw [depth_of_mem_childrenOf hpart hc, depth_of_mem_childrenOf hpart hc']

/-- The nodes deeper than a node outnumber those deeper than its child. -/
lemma countP_deeper_lt (hpart : tree.Part apiNodes) (h : child ∈ childrenOf apiNodes parent) :
    apiNodes.countP (tree.depth child.nodeId < tree.depth ·.nodeId) <
      apiNodes.countP (tree.depth parent < tree.depth ·.nodeId) := by
  have hdepth := depth_of_mem_childrenOf hpart h
  have hfilter : apiNodes.countP (tree.depth child.nodeId < tree.depth ·.nodeId) =
      (apiNodes.filter (tree.depth parent < tree.depth ·.nodeId)).countP
        (tree.depth child.nodeId < tree.depth ·.nodeId) := by
    rw [List.countP_filter]
    refine List.countP_congr fun node _ => ?_
    simp only [decide_eq_true_eq, Bool.and_eq_true]
    omega
  rw [hfilter, List.countP_eq_length_filter (l := apiNodes), List.countP_lt_length_iff]
  refine ⟨child, List.mem_filter.mpr ⟨(mem_childrenOf.mp h).1, ?_⟩, ?_⟩
  · simp [hdepth]
  · simp

/-- More fuel than there are nodes changes nothing. -/
lemma walk_succ (hpart : tree.Part apiNodes)
    (hfuel : apiNodes.countP (tree.depth parent < tree.depth ·.nodeId) ≤ fuel) :
    walk apiNodes (fuel + 1) parent uiDepth = walk apiNodes fuel parent uiDepth := by
  induction fuel generalizing parent uiDepth with
  | zero =>
    have hnone : childrenOf apiNodes parent = [] := by
      refine List.eq_nil_iff_forall_not_mem.mpr fun child hchild => ?_
      have := countP_deeper_lt hpart hchild
      omega
    simp [walk, hnone]
  | succ fuel ih =>
    rw [walk, walk]
    refine List.flatMap_congr fun child hchild => ?_
    have := countP_deeper_lt hpart hchild
    rw [ih (by omega)]

/-- With the fuel that `hydrateTree` gives it, the recursion is never cut off. -/
theorem walk_eq (hpart : tree.Part apiNodes) (parent uiDepth : ℕ) :
    walk apiNodes apiNodes.length parent uiDepth =
      (childrenOf apiNodes parent).flatMap fun child =>
        makeRow child uiDepth :: walk apiNodes apiNodes.length child.nodeId (uiDepth + 1) :=
  (walk_succ hpart List.countP_le_length).symm

lemma map_toPlace_walk_succ : (walk apiNodes (fuel + 1) parent uiDepth).map Row.toPlace =
    (childrenOf apiNodes parent).flatMap fun child => (makeRow child uiDepth).toPlace ::
      (walk apiNodes fuel child.nodeId (uiDepth + 1)).map Row.toPlace := by
  simp [walk, List.map_flatMap]

lemma le_indent_of_mem_walk (hpart : tree.Part apiNodes)
    (hchild : child ∈ childrenOf apiNodes parent) {p : Place}
    (hp : p ∈ (makeRow child (tree.depth parent)).toPlace ::
      (walk apiNodes fuel child.nodeId (tree.depth parent + 1)).map Row.toPlace) :
    tree.depth parent ≤ p.indentDepthForUi := by
  rcases List.mem_cons.mp hp with rfl | hp
  · exact le_rfl
  · rw [← depth_of_mem_childrenOf hpart hchild] at hp
    obtain ⟨row, hrow, rfl⟩ := List.mem_map.mp hp
    have := (placed_walk hpart hrow).2.2
    have := depth_of_mem_childrenOf hpart hchild
    omega

/-- What the walk below a row shows can follow that row. -/
lemma preorder_walk (hpart : tree.Part apiNodes) {before : List Place} {p : Place}
    (hdepth : tree.depth p.nodeId = p.indentDepthForUi + 1)
    (h : outline.Preorder (before ++ [p])) :
    outline.Preorder (before ++ p ::
      (walk apiNodes fuel p.nodeId (tree.depth p.nodeId)).map Row.toPlace) := by
  induction fuel generalizing before p with
  | zero => simpa [walk] using h
  | succ fuel ih =>
    rw [map_toPlace_walk_succ, List.append_cons]
    refine h.append_subtrees (d := tree.depth p.nodeId) (fun child hchild l hl => .inr ?_)
      (fun child hchild q => le_indent_of_mem_walk hpart hchild) fun child hchild l hl => ?_
    · refine ⟨before, p, l, by simp, ?_, hdepth, fun q hq => ?_⟩
      · exact (mem_childrenOf.mp hchild).2.symm
      · have : tree.depth p.nodeId ≤ q.indentDepthForUi := hl q hq
        change p.indentDepthForUi < q.indentDepthForUi
        omega
    · have hrow := depth_of_mem_childrenOf hpart hchild
      rw [← hrow]
      exact ih hrow hl

lemma places_hydrateTree (s : State) :
    (s.hydrateTree apiNodes).places =
      (walk apiNodes (apiNodes.length + 1) 1 0).map Row.toPlace := by
  rw [State.places, State.hydrateTree, map_toPlace_withRefs, List.map_map]
  refine List.map_congr_left fun row _ => ?_
  simp only [Function.comp_apply]
  split
  · rfl
  · rfl

/-- A hydrated tree is an outline. -/
lemma wellFormed_hydrateTree (hpart : tree.Part apiNodes) (s : State) :
    outline.WellFormed (s.hydrateTree apiNodes).places where
  preorder := by
    rw [places_hydrateTree, map_toPlace_walk_succ]
    refine Outline.preorder_nil.append_subtrees (d := 0) (fun child hchild l hl => .inl ?_)
      (fun _ _ _ _ => Nat.zero_le _) fun child hchild l hl => ?_
    · exact (mem_childrenOf.mp hchild).2
    · have hrow := depth_of_mem_childrenOf hpart hchild
      rw [tree.depth_root] at hrow
      exact hrow ▸ preorder_walk hpart hrow hl
  nodup := by
    have : ((walk apiNodes (apiNodes.length + 1) 1 (tree.depth 1)).map (·.nodeId)).Nodup :=
      nodup_walk hpart
    rw [tree.depth_root] at this
    rw [places_hydrateTree, List.map_map]
    have hsome := this.map fun _ _ h => Option.some.inj h
    rwa [List.map_map] at hsome

end hydrate

/-! ### Arrivals -/

/-- Every row is in its place, and every request has the indent of its node. -/
structure Consistent (tree : CallTree) (s : State) : Prop where
  placed : ∀ p ∈ s.places, tree.Placed p
  asked : ∀ a ∈ s.asked, tree.depth a.1 = a.2 + 1

/-- The children of the node of a request fit in where they will be inserted: the row before that
place is the row of the node, and none of its children is shown. Or nothing is inserted, because the
request is not the last one for its node, or there are no children. -/
def Fits (s : State) : Event → Prop
  | .arrive q nodes =>
    s.expandTokens q.nodeId ≠ q.token ∨ nodes = [] ∨
      ((s.rows.take (q.idx + 1)).getLast?.map (·.nodeId) = some q.nodeId ∧
        ∀ row ∈ s.rows, row.parentNodeId ≠ some q.nodeId)
  | _ => True

section arrive

variable {tree : CallTree} {s : State} {q : Request} {nodes : List ApiNode}

lemma Consistent.depth_request (hs : Consistent tree s) (hq : q ∈ s.inFlight) :
    tree.depth q.nodeId = q.indentDepthForUi + 1 :=
  hs.asked (q.nodeId, q.indentDepthForUi) (List.mem_map_of_mem hq)

/-- The places of the children of a node. -/
def childPlaces (q : Request) (nodes : List ApiNode) : List Place :=
  nodes.map fun api => (State.childRow q api).toPlace

lemma places_childrenArrived (htoken : s.expandTokens q.nodeId = q.token) :
    (s.childrenArrived q nodes).places = s.places.take (q.idx + 1) ++ childPlaces q nodes ++
      s.places.drop (q.idx + 1) := by
  rw [State.childrenArrived, if_neg (not_not.mpr htoken), State.places_settle, State.places,
    map_toPlace_insertRowsAt, map_toPlace_withRefs, List.map_map]
  have hassign : ((s.assign q.ref
      ({ · with loadingChildren := false, childrenLoaded := true })).rows).map Row.toPlace =
      s.places := State.places_assign fun _ => rfl
  rw [hassign]
  rfl

lemma mem_childPlaces {p : Place} :
    p ∈ childPlaces q nodes ↔ ∃ api ∈ nodes, p = (State.childRow q api).toPlace := by
  simp [childPlaces, eq_comm]

/-- The children of the node of a request in flight are placed below it. -/
lemma placed_childPlaces (hs : Consistent tree s) (hq : q ∈ s.inFlight)
    (hnodes : tree.Children q.nodeId nodes) {p : Place} (hp : p ∈ childPlaces q nodes) :
    tree.Placed p ∧ p.parentNodeId = some q.nodeId ∧ p.nodeId ∈ nodes.map ApiNode.nodeId := by
  obtain ⟨api, hapi, rfl⟩ := mem_childPlaces.mp hp
  have hmem : api.nodeId ∈ nodes.map ApiNode.nodeId := List.mem_map_of_mem hapi
  have hparent := (hnodes.mem_iff api.nodeId).mp hmem
  have hdepth := hs.depth_request hq
  refine ⟨⟨hnodes.parent api hapi, ?_⟩, (hnodes.parent api hapi).trans hparent, hmem⟩
  exact (tree.depth_child _ _ hparent).trans (congrArg (· + 1) hdepth)

/-- A row that is shown below the node of a request is one of its children. -/
lemma mem_of_parent_eq (hs : Consistent tree s) (hnodes : tree.Children q.nodeId nodes) {p : Place}
    (hp : p ∈ s.places) (hparent : p.parentNodeId = some q.nodeId) :
    p.nodeId ∈ nodes.map ApiNode.nodeId :=
  (hnodes.mem_iff p.nodeId).mpr ((hs.placed p hp).1.symm.trans hparent)

lemma keys_childPlaces :
    (childPlaces q nodes).map outline.key = (nodes.map ApiNode.nodeId).map some := by
  simp [childPlaces, outline, State.childRow]

/-- Where the children fit in, they can be inserted. -/
lemma wellFormed_insert (hs : Consistent tree s) (hw : outline.WellFormed s.places)
    (hq : q ∈ s.inFlight) (hnodes : tree.Children q.nodeId nodes) {above after : List Place}
    {p : Place} (hplaces : s.places = above ++ p :: after) (hp : p.nodeId = q.nodeId)
    (hnone : ∀ x ∈ s.places, x.parentNodeId ≠ some q.nodeId) :
    outline.WellFormed (above ++ p :: (childPlaces q nodes ++ after)) := by
  refine Outline.WellFormed.insert (hplaces ▸ hw) (fun x hx => ?_) (fun x hx => ?_) ?_
    fun x hx y hy heq => ?_
  · exact (placed_childPlaces hs hq hnodes hx).2.1.trans (congrArg some hp.symm)
  · obtain ⟨⟨-, hdepth⟩, -, hmem⟩ := placed_childPlaces hs hq hnodes hx
    have hchild := tree.depth_child _ _ ((hnodes.mem_iff x.nodeId).mp hmem)
    have hparent := (hs.placed p (by simp [hplaces])).2
    rw [hp] at hparent
    change x.indentDepthForUi = p.indentDepthForUi + 1
    omega
  · rw [keys_childPlaces]
    exact hnodes.nodup.map fun _ _ h => Option.some.inj h
  · rw [← hplaces] at hy
    have hid : x.nodeId = y.nodeId := Option.some.inj heq
    have hmem := (placed_childPlaces hs hq hnodes hx).2.2
    exact hnone y hy ((hs.placed y hy).1.trans ((hnodes.mem_iff y.nodeId).mp (hid ▸ hmem)))

/-- The condition of `Fits`, over the places of the rows. -/
lemma fits_iff (k : ℕ) :
    ((s.rows.take k).getLast?.map (·.nodeId) = some q.nodeId ∧
        ∀ row ∈ s.rows, row.parentNodeId ≠ some q.nodeId) ↔
      (∃ above p, s.places.take k = above ++ [p] ∧ p.nodeId = q.nodeId) ∧
        ∀ p ∈ s.places, p.parentNodeId ≠ some q.nodeId := by
  have hlast : (s.rows.take k).getLast?.map (·.nodeId) =
      (s.places.take k).getLast?.map (·.nodeId) := by
    rw [State.places, ← List.map_take, List.getLast?_map, Option.map_map]
    rfl
  rw [hlast]
  refine and_congr ?_ (by simp [State.places])
  simp only [Option.map_eq_some_iff, List.getLast?_eq_some_iff]
  constructor
  · rintro ⟨p, ⟨above, hp⟩, hid⟩
    exact ⟨above, p, hp, hid⟩
  · rintro ⟨above, p, hp, hid⟩
    exact ⟨p, ⟨above, hp⟩, hid⟩

section inserted

variable {before after : List Place}

/-- Where the children could be inserted, none of them was shown. -/
lemma parent_ne_of_wellFormed (hs : Consistent tree s) (hnodes : tree.Children q.nodeId nodes)
    (hsplit : before ++ after = s.places)
    (h : outline.WellFormed (before ++ childPlaces q nodes ++ after)) {x : Place}
    (hx : x ∈ s.places) : x.parentNodeId ≠ some q.nodeId := by
  intro hparent
  obtain ⟨api, hapi, hid⟩ := List.mem_map.mp (mem_of_parent_eq hs hnodes hx hparent)
  have hnew : (State.childRow q api).toPlace ∈ childPlaces q nodes :=
    mem_childPlaces.mpr ⟨api, hapi, rfl⟩
  exact h.key_ne hnew (hsplit ▸ hx) (congrArg some hid)

/-- Where the children could be inserted, the row before them is that of their node. -/
lemma nodeId_eq_of_wellFormed (hs : Consistent tree s) (hq : q ∈ s.inFlight)
    (hnodes : tree.Children q.nodeId nodes) (hsplit : before ++ after = s.places)
    (hne : nodes ≠ []) (h : outline.WellFormed (before ++ childPlaces q nodes ++ after)) :
    ∃ above p, before = above ++ [p] ∧ p.nodeId = q.nodeId := by
  obtain ⟨api, rest, rfl⟩ := List.exists_cons_of_ne_nil hne
  have hmem : ∀ y ∈ before, y ∈ s.places := fun y hy => hsplit ▸ List.mem_append_left after hy
  have hfirst : outline.parent (State.childRow q api).toPlace = some q.nodeId :=
    (placed_childPlaces hs hq hnodes (by simp [childPlaces])).2.1
  have hpre : outline.Preorder (before ++ (State.childRow q api).toPlace ::
      (childPlaces q rest ++ after)) := by
    simpa [childPlaces] using h.preorder
  have hnone : ∀ y ∈ before, outline.parent y ≠ outline.parent (State.childRow q api).toPlace := by
    intro y hy
    rw [hfirst]
    exact parent_ne_of_wellFormed hs hnodes hsplit h (hmem y hy)
  have hroot := tree.depth_root
  have hdepth := hs.depth_request hq
  have hnottop : ¬ outline.IsTop (State.childRow q api).toPlace := by
    -- The root itself is not shown, so it was never asked for.
    intro htop
    have hid : q.nodeId = 1 := Option.some.inj (hfirst.symm.trans htop)
    simp only [hid] at hdepth
    omega
  have htop : ∀ y ∈ before, outline.IsTop y → outline.indent y = 0 := by
    intro y hy htop
    obtain ⟨hparent, hy⟩ := hs.placed y (hmem y hy)
    have := tree.depth_child _ _ (hparent.symm.trans htop)
    change y.indentDepthForUi = 0
    omega
  obtain ⟨above, p, hbefore, hkey⟩ := hpre.eq_of_insert hnottop htop hnone
  exact ⟨above, p, hbefore, Option.some.inj (hkey.trans hfirst)⟩

end inserted

/-- An arrival leaves an outline behind if and only if the children fit in. -/
lemma wellFormed_childrenArrived_iff (hs : Consistent tree s) (hw : outline.WellFormed s.places)
    (hq : q ∈ s.inFlight) (hnodes : tree.Children q.nodeId nodes) :
    outline.WellFormed (s.childrenArrived q nodes).places ↔ Fits s (.arrive q nodes) := by
  rw [Fits, fits_iff]
  by_cases htoken : s.expandTokens q.nodeId = q.token
  · rw [places_childrenArrived htoken]
    have hsplit := List.take_append_drop (q.idx + 1) s.places
    by_cases hne : nodes = []
    · refine iff_of_true ?_ (.inr (.inl hne))
      rw [hne, childPlaces, List.map_nil, List.append_nil, hsplit]
      exact hw
    · simp only [htoken, hne, ne_eq, not_true_eq_false, false_or]
      constructor
      · intro h
        exact ⟨nodeId_eq_of_wellFormed hs hq hnodes hsplit hne h,
          fun x hx => parent_ne_of_wellFormed hs hnodes hsplit h hx⟩
      · rintro ⟨⟨above, p, hbefore, hid⟩, hnone⟩
        rw [hbefore] at hsplit ⊢
        have hplaces : s.places = above ++ p :: s.places.drop (q.idx + 1) := by
          simpa using hsplit.symm
        simpa using wellFormed_insert hs hw hq hnodes hplaces hid hnone
  · refine iff_of_true ?_ (.inl htoken)
    rwa [State.childrenArrived_stale htoken, State.places_settle]

end arrive

/-! ### Steps and runs -/

section step

variable {tree : CallTree} {s t : State} {q : Request} {nodes : List ApiNode} {e : Event}

lemma Consistent.mono (hs : Consistent tree s) (hplaces : t.places ⊆ s.places)
    (hasked : t.asked ⊆ s.asked) : Consistent tree t where
  placed p hp := hs.placed p (hplaces hp)
  asked a ha := hs.asked a (hasked ha)

lemma Consistent.onChevronClick (hs : Consistent tree s) (nodeId : ℕ) :
    Consistent tree (s.onChevronClick nodeId) where
  placed p hp := by
    refine hs.placed p ?_
    rcases s.places_onChevronClick nodeId with h | ⟨before, r, below, after, hold, hnew, -⟩
    · exact h ▸ hp
    · rw [hnew] at hp
      rw [hold]
      simp only [List.mem_append, List.mem_cons] at hp ⊢
      tauto
  asked a ha := by
    rcases s.asked_onChevronClick ha with ha | ⟨p, hp, rfl⟩
    · exact hs.asked a ha
    · exact (hs.placed p hp).2

lemma Consistent.childrenArrived (hs : Consistent tree s) (hq : q ∈ s.inFlight)
    (hnodes : tree.Children q.nodeId nodes) : Consistent tree (s.childrenArrived q nodes) := by
  by_cases htoken : s.expandTokens q.nodeId = q.token
  · constructor
    · intro p hp
      rw [places_childrenArrived htoken, List.mem_append, List.mem_append] at hp
      rcases hp with (hp | hp) | hp
      · exact hs.placed p (List.mem_of_mem_take hp)
      · exact (placed_childPlaces hs hq hnodes hp).1
      · exact hs.placed p (List.mem_of_mem_drop hp)
    · intro a ha
      rw [State.childrenArrived, if_neg (not_not.mpr htoken)] at ha
      exact hs.asked a (State.asked_settle ha)
  · rw [State.childrenArrived_stale htoken]
    exact hs.mono (List.Subset.refl _) State.asked_settle

lemma places_childrenFailed : (s.childrenFailed q).places = s.places := by
  rw [State.childrenFailed]
  split_ifs
  · rfl
  · exact State.places_assign fun _ => rfl

lemma Consistent.childrenFailed (hs : Consistent tree s) :
    Consistent tree (s.childrenFailed q) := by
  refine hs.mono (by simp [places_childrenFailed]) ?_
  rw [State.childrenFailed]
  split_ifs
  · exact State.asked_settle
  · exact State.asked_settle

lemma Consistent.hydrateTree (hs : ∀ a ∈ s.asked, tree.depth a.1 = a.2 + 1)
    (hpart : tree.Part nodes) : Consistent tree (s.hydrateTree nodes) where
  placed p hp := by
    rw [places_hydrateTree, ← tree.depth_root] at hp
    obtain ⟨row, hrow, rfl⟩ := List.mem_map.mp hp
    exact (placed_walk hpart hrow).1
  asked := hs

lemma Consistent.step (hs : Consistent tree s) (h : Step tree s e t) : Consistent tree t := by
  cases h with
  | click => exact hs.onChevronClick _
  | arrive hq _ hnodes => exact hs.childrenArrived hq hnodes
  | fail => exact hs.childrenFailed
  | sort hpart => exact .hydrateTree hs.asked hpart

/-- A click keeps an outline. -/
lemma wellFormed_onChevronClick (hw : outline.WellFormed s.places) (nodeId : ℕ) :
    outline.WellFormed (s.onChevronClick nodeId).places := by
  rcases s.places_onChevronClick nodeId with h | ⟨before, p, below, after, hold, hnew, hdeep, hend⟩
  · rwa [h]
  · rw [hnew]
    rw [hold] at hw
    exact hw.remove hdeep hend

/-- A step leaves an outline behind if and only if what it inserts fits in. -/
lemma wellFormed_step_iff (hs : Consistent tree s) (hw : outline.WellFormed s.places)
    (h : Step tree s e t) : outline.WellFormed t.places ↔ Fits s e := by
  cases h with
  | click => exact iff_of_true (wellFormed_onChevronClick hw _) trivial
  | arrive hq _ hnodes => exact wellFormed_childrenArrived_iff hs hw hq hnodes
  | fail => exact iff_of_true (places_childrenFailed.symm ▸ hw) trivial
  | sort hpart => exact iff_of_true (wellFormed_hydrateTree hpart _) trivial

lemma Step.deterministic {t' : State} (h : Step tree s e t) (h' : Step tree s e t') : t = t' := by
  cases h with
  | click => cases h'; rfl
  | arrive => cases h'; rfl
  | fail => cases h'; rfl
  | sort => cases h'; rfl

/-- From a hydrated tree on, the row list is an outline in every state of a run if and only if the
children fit in at every arrival. -/
theorem wellFormed_iff_of_run {es : List Event} (hpart : tree.Part nodes)
    (hrun : Run (Step tree) (State.start.hydrateTree nodes) es t) :
    (∀ es' u, es' <+: es → Run (Step tree) (State.start.hydrateTree nodes) es' u →
        outline.WellFormed u.places) ↔
      Run (fun s e t => Step tree s e t ∧ Fits s e) (State.start.hydrateTree nodes) es t := by
  have hstart : Consistent tree (State.start.hydrateTree nodes) := by
    refine .hydrateTree (fun a ha => ?_) hpart
    simp [State.asked, State.start] at ha
  refine hrun.all_reached_iff (I := Consistent tree) (P := fun s => outline.WellFormed s.places)
    (Q := fun _ => True) (fun _ _ _ _ h h' => h.deterministic h') ?_ (fun _ _ => trivial) hstart
    (wellFormed_hydrateTree hpart _)
  intro s e t _ hs hw h
  exact ⟨hs.step h, wellFormed_step_iff hs hw h⟩

end step

/-! ### Two rows that are expanded at the same time -/

/-- The root, its child 2, the children 3 and 4 of that, and a child of each. -/
def sampleTree : CallTree where
  parent
    | 2 => some 1
    | 3 => some 2
    | 4 => some 2
    | 5 => some 3
    | 6 => some 4
    | _ => none
  depth
    | 2 => 1
    | 3 => 2
    | 4 => 2
    | 5 => 3
    | 6 => 3
    | _ => 0
  depth_root := rfl
  depth_child n p h := by
    split at h <;> cases h <;> rfl

/-- The tree to depth 2 -/
def sampleNodes : List ApiNode :=
  [⟨1, none, true, true, default⟩, ⟨2, some 1, true, true, default⟩,
    ⟨3, some 2, true, false, default⟩, ⟨4, some 2, true, false, default⟩]

lemma part_sampleNodes : sampleTree.Part sampleNodes where
  nodup := by decide
  parent := by decide

/-- The response for a node that has one child -/
lemma children_singleton {tree : CallTree} {n c : ℕ} (hc : ∀ m, tree.parent m = some n ↔ m = c) :
    tree.Children n [⟨c, some n, false, false, default⟩] where
  nodup := by simp
  parent := by simpa using ((hc c).mpr rfl).symm
  mem_iff m := by simpa using (hc m).symm

lemma children_three : sampleTree.Children 3 [⟨5, some 3, false, false, default⟩] :=
  children_singleton fun m => by
    simp only [sampleTree]
    split <;> simp_all

lemma children_four : sampleTree.Children 4 [⟨6, some 4, false, false, default⟩] :=
  children_singleton fun m => by
    simp only [sampleTree]
    split <;> simp_all

/-- The nodes 3 and 4 are expanded one after the other. -/
def sequential : List Event :=
  [.click 3, .arrive ⟨3, 1, 1, 1, 1, false⟩ [⟨5, some 3, false, false, default⟩],
    .click 4, .arrive ⟨4, 1, 2, 3, 1, false⟩ [⟨6, some 4, false, false, default⟩]]

/-- Both are clicked before the first response, that of the upper one, arrives. -/
def overlapping : List Event :=
  [.click 4, .click 3, .arrive ⟨3, 1, 1, 1, 1, false⟩ [⟨5, some 3, false, false, default⟩],
    .arrive ⟨4, 1, 2, 2, 1, false⟩ [⟨6, some 4, false, false, default⟩]]

theorem wellFormed_of_run_sequential :
    ∃ t, Run (Step sampleTree) (State.start.hydrateTree sampleNodes) sequential t ∧
      t.places.map Place.nodeId = [2, 3, 5, 4, 6] ∧ outline.WellFormed t.places := by
  obtain ⟨t, hfits, hids⟩ : ∃ t, Run (fun s e t => Step sampleTree s e t ∧ Fits s e)
      (State.start.hydrateTree sampleNodes) sequential t ∧
      t.places.map Place.nodeId = [2, 3, 5, 4, 6] :=
    ⟨_, .cons ⟨.click, trivial⟩
      (.cons ⟨.arrive (by decide) rfl children_three, .inr (.inr ⟨by decide, by decide⟩)⟩
        (.cons ⟨.click, trivial⟩
          (.cons ⟨.arrive (by decide) rfl children_four, .inr (.inr ⟨by decide, by decide⟩)⟩
            (.nil _)))), by decide⟩
  have hrun : Run (Step sampleTree) (State.start.hydrateTree sampleNodes) sequential t :=
    hfits.map (f := id) fun _ _ _ h => h.1
  have hall := (wellFormed_iff_of_run part_sampleNodes hrun).mpr hfits
  exact ⟨t, hrun, hids, hall sequential t List.prefix_rfl hrun⟩

/-- The child of 4 is inserted below the child of 3. -/
theorem not_wellFormed :
    ¬ ∀ (tree : CallTree) (nodes : List ApiNode) (es : List Event) (t : State), tree.Part nodes →
      Run (Step tree) (State.start.hydrateTree nodes) es t → outline.WellFormed t.places := by
  intro hall
  obtain ⟨t, hrun, hplaces⟩ : ∃ t, Run (Step sampleTree) (State.start.hydrateTree sampleNodes)
      overlapping t ∧ t.places = [⟨2, some 1, 0⟩, ⟨3, some 2, 1⟩, ⟨5, some 3, 2⟩, ⟨6, some 4, 2⟩,
        ⟨4, some 2, 1⟩] :=
    ⟨_, .cons .click (.cons .click (.cons (.arrive (by decide) rfl children_three)
      (.cons (.arrive (by decide) rfl children_four) (.nil _)))), rfl⟩
  have hpre := (hall sampleTree sampleNodes overlapping t part_sampleNodes hrun).preorder
  rw [hplaces] at hpre
  rcases hpre [⟨2, some 1, 0⟩, ⟨3, some 2, 1⟩, ⟨5, some 3, 2⟩] ⟨6, some 4, 2⟩ [⟨4, some 2, 1⟩] rfl
    with htop | hunder
  · simp [outline] at htop
  · obtain ⟨p, hp, hkey, -⟩ := hunder.exists_mem
    simp only [List.mem_cons, List.not_mem_nil, or_false] at hp
    rcases hp with rfl | rfl | rfl
    · simp [outline] at hkey
    · simp [outline] at hkey
    · simp [outline] at hkey

end Detail

end PhpTreeViz
