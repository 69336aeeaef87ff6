import PhpTreeViz.Core.Table
import PhpTreeViz.Core.Numeric
import PhpTreeViz.Core.Rounding
import PhpTreeViz.Core.Run
import PhpTreeViz.Core.Resolution
import PhpTreeViz.Core.Grouping
import PhpTreeViz.Core.Sweep
import PhpTreeViz.Core.Paths
import PhpTreeViz.Core.Serde
import PhpTreeViz.Core.Outline
import PhpTreeViz.Core.Interval
import PhpTreeViz.Core.Like
import PhpTreeViz.Core.Paging
import PhpTreeViz.Core.Regex
import PhpTreeViz.Core.Bytes
import PhpTreeViz.Core.Summing
import PhpTreeViz.Core.Lines
import PhpTreeViz.Core.Replace
import PhpTreeViz.Core.Cells
import PhpTreeViz.Core.Decimal
import PhpTreeViz.Core.Substring
import PhpTreeViz.Core.Forest
import PhpTreeViz.Core.Url
import PhpTreeViz.Core.Urlencoded
import PhpTreeViz.Core.Base64
import PhpTreeViz.Core.Mailbox
import PhpTreeViz.Wire
import PhpTreeViz.Wire.Decode
import PhpTreeViz.Storage.Schema
import PhpTreeViz.Storage.Aggregate.Basic
import PhpTreeViz.Storage.Aggregate.Tree
import PhpTreeViz.Storage.Aggregate.Columns
import PhpTreeViz.Storage.Aggregate.Steps
import PhpTreeViz.Storage.Aggregate.Drain
import PhpTreeViz.Storage.Aggregate.Batch
import PhpTreeViz.Http.Storage
import PhpTreeViz.Storage.Basic
import PhpTreeViz.Storage.Trace
import PhpTreeViz.Storage.Runs
import PhpTreeViz.Storage.ContextTree
import PhpTreeViz.Storage.Delivery
import PhpTreeViz.Storage.Counters
import PhpTreeViz.Storage.Faults
import PhpTreeViz.Finalize
import PhpTreeViz.Storage.Residuals
import PhpTreeViz.Finalize.Retry
import PhpTreeViz.Storage.Redelivery
import PhpTreeViz.Storage.Mirror
import PhpTreeViz.Storage.Depth
import PhpTreeViz.Retention
import PhpTreeViz.Http.Server
import PhpTreeViz.Storage.Confluence
import PhpTreeViz.Storage.Gate
import PhpTreeViz.Storage.Rescan
import PhpTreeViz.Storage.Accounting
import PhpTreeViz.Storage.SelfTime
import PhpTreeViz.Storage.Prune
import PhpTreeViz.Http.Commit
import PhpTreeViz.Http.Ingest
import PhpTreeViz.Collector
import PhpTreeViz.Viz.Detail
import PhpTreeViz.Viz.RowList
import PhpTreeViz.Viz.TraceList
import PhpTreeViz.Viz.Paging
import PhpTreeViz.Api.Tree
import PhpTreeViz.Storage.Totals
import PhpTreeViz.Storage.Summary
import PhpTreeViz.Viz.TopLevel
import PhpTreeViz.Finalize.CpuSnapshot
import PhpTreeViz.TraceKey
import PhpTreeViz.Api.TreeResponse
import PhpTreeViz.Api.Children
import PhpTreeViz.Api.Traces
import PhpTreeViz.Api.Query
import PhpTreeViz.Api.Config
import PhpTreeViz.Api.Document
import PhpTreeViz.Http.Auth
import PhpTreeViz.Api.Response
import PhpTreeViz.Api.Session
import PhpTreeViz.Api.Gateway
import PhpTreeViz.Viz.Virtualizer
import PhpTreeViz.Viz.Time
import PhpTreeViz.Viz.Search
import PhpTreeViz.Viz.Keyboard
import PhpTreeViz.Viz.Cancel
import PhpTreeViz.Viz.Sort
import PhpTreeViz.Viz.Hits
import PhpTreeViz.Viz.Served
import PhpTreeViz.Viz.Explore
import PhpTreeViz.Viz.SelfTime
import PhpTreeViz.Viz.Contexts
import PhpTreeViz.Viz.Acknowledged
import PhpTreeViz.Viz.Listing
import PhpTreeViz.Viz.Overview
import PhpTreeViz.Viz.Login
import PhpTreeViz.Viz.Requests
