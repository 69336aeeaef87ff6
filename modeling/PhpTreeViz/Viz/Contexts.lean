import PhpTreeViz.Storage.Paths
import PhpTreeViz.Viz.SelfTime

/-!
# What a row stands for

The indents of the page say which functions are on the way to a row. These are a calling context of
the recorded program, and the row shows the totals of all calls that were made in it. The page as a
whole is a profile: each context has one row at most, and one can be had for each.
-/

namespace PhpTreeViz

open Core

namespace WellFormed

variable {s : Traced} {r : NodeRow} {c : Call}

end WellFormed

/-! ### The contexts of the rows -/

namespace Detail

/-- The function of a node -/
def fnOf (db : TraceDb) (nodeId : ℕ) : UInt32 := (db.nodes.find? nodeId).elim 0 NodeRow.fnId

/-- The rows, with the functions that a reader finds on the way to each -/
def State.contexts (db : TraceDb) (s : State) : List (Row × List UInt32) :=
  s.rows.zip (Forest.trails [] (s.rows.map fun row => (fnOf db row.nodeId, row.indentDepthForUi)))

section contexts

variable [Php] {s : Traced} {h : IsCallTree s.db} {v : View} {p : Page}

/-- The functions on the way to a row are the path of its node. -/
theorem Follows.contexts_eq (hv : Follows h v p) (hwf : WellFormed s) : p.tree.contexts s.db =
    p.tree.rows.map fun row => (row, s.db.path row.nodeId) := by
  have hpath : ∀ j, ∀ c ∈ (v.forest h).kids j, s.db.path c = s.db.path j ++ [fnOf s.db c] := by
    intro j c hc
    obtain ⟨r, hr, rfl, hparent⟩ := callParent_eq_some_iff.mp (View.mem_kids_iff.mp hc)
    have hup : s.db.up r.nodeId = some (j, r.fnId) := by
      rw [up_of_mem hr, hparent, Option.map_some]
    rw [fnOf, Table.find?_of_mem hr, Option.elim_some]
    exact pathOf_of_some hwf.descending hup
  have hpairs : p.tree.rows.map (fun row => (row.nodeId, row.indentDepthForUi)) = v.rows h :=
    hv.rows
  have htrails : Forest.trails [] ((v.rows h).map fun y => (fnOf s.db y.1, y.2)) =
      (v.rows h).map fun y => s.db.path y.1 := by
    rw [View.rows]
    split_ifs with hroot
    · exact Forest.trails_rows hpath hwf.path_root
    · rfl
  rw [← hpairs, List.map_map, List.map_map] at htrails
  rw [State.contexts, List.map_prod_left_eq_zip]
  exact congrArg (List.zip p.tree.rows) htrails

/-- No two rows stand for the same context. -/
lemma Follows.nodup_contexts (hv : Follows h v p) (hwf : WellFormed s) :
    ((p.tree.contexts s.db).map Prod.snd).Nodup := by
  rw [hv.contexts_eq hwf, List.map_map]
  have hnodup := View.nodup_rows h v
  rw [← hv.rows, State.outlineRows, List.map_map] at hnodup
  refine (List.nodup_map_iff_inj_on hnodup.of_map).mpr fun row hrow row' hrow' heq => ?_
  have hid := hwf.path_injOn (View.hasKey_of_mem_rows (hv.mem_rows hrow))
    (View.hasKey_of_mem_rows (hv.mem_rows hrow')) heq
  exact List.inj_on_of_nodup_map hnodup hrow hrow' hid

end contexts

end Detail

end PhpTreeViz
