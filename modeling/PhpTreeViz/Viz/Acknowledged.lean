import PhpTreeViz.Collector
import PhpTreeViz.Core.Bytes
import PhpTreeViz.Http.Ingest
import PhpTreeViz.Storage.Summary
import PhpTreeViz.Viz.Contexts

/-!
# From the requests to the rows

What the page of a trace shows is a function of the requests that were acknowledged for it. Between
the two are the handlers, the queue and the decoder, the databases, the tree endpoints and what the
reader does on the page.
-/

namespace PhpTreeViz

open Core

namespace Detail

/-! ### Every run -/

end Detail

end PhpTreeViz
