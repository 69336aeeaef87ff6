import PhpTreeViz.Collector
import PhpTreeViz.Storage.Summary
import PhpTreeViz.Viz.Acknowledged
import PhpTreeViz.Viz.Listing

/-!
# From the requests to the list

What the page of all traces shows of a trace is a function of the requests that were acknowledged
for it, and no trace is missing from the page.
-/

namespace PhpTreeViz

open Core

namespace TraceList

namespace Shows

variable [Php] {index : Table TraceRow.traceKey} {s : State TraceItem}
  {pages : List (String × List TraceItem)} {q : String} {list : List TraceRow}

lemma exists_row (h : Shows index s pages q list) {item : TraceItem} (hitem : item ∈ s.rows) :
    ∃ row ∈ index.rows, item = rowToItem row := by
  rw [h.rows] at hitem
  obtain ⟨row, hrow, rfl⟩ := List.mem_map.mp hitem
  have hmatching := h.newest.perm.subset (List.mem_of_mem_take hrow)
  exact ⟨row, List.mem_of_mem_filter hmatching, rfl⟩

/-- The last page was loaded. -/
lemma mem_rows (h : Shows index s pages q list) (hpages : pages ≠ [])
    (hmore : s.currentHasMore = false) {row : TraceRow} (hrow : row ∈ matching index q) :
    rowToItem row ∈ s.rows := by
  have hall : list.length ≤ s.currentOffset := by
    by_contra hlt
    have hnext := h.more.mpr ⟨hpages, by omega⟩
    rw [hmore] at hnext
    cases hnext
  rw [h.rows, List.take_of_length_le hall]
  exact List.mem_map_of_mem (h.newest.perm.mem_iff.mpr hrow)

end Shows

end TraceList

end PhpTreeViz
