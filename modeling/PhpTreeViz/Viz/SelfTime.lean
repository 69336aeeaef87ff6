import PhpTreeViz.Storage.SelfTime
import PhpTreeViz.Viz.Explore

/-!
# The times on the page

A row shows the total of its node, and what of it is not in the total of the children. In a
well-nested trace these add up: what the rows below a row show, the expanded ones their own time and
the closed ones their total, is the total of the row, whatever the reader has opened.
-/

namespace PhpTreeViz

open Core

/-! ### What the server sends -/

section items

variable [Php]

variable {db : TraceDb} {n : NodeRow}

end items

namespace WellFormed

variable {s : Traced} (h : WellFormed s)
include h

variable (hn : WellNested (s.log.map Folded.call))
include hn

end WellFormed

/-! ### What the rows show -/

namespace Detail

section addsUp

variable [Php] {db : TraceDb} {h : IsCallTree db} {v : View} {p : Page}

end addsUp

/-! ### Every run -/

end Detail

end PhpTreeViz
