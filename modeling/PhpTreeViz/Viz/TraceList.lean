import Mathlib.Data.List.Basic
import PhpTreeViz.Core.Run

/-!
# The trace list

The page of all traces fetches them a page at a time, for the text in its filter box. A change of
the filter, a click on "Load more" and a click on "Retry" each start a request, and responses
arrive in any order. A request carries the value that `fetchToken` had when it was started, and its
response is ignored unless it is still the last one.
-/

namespace PhpTreeViz

open Core

namespace TraceList

variable {Item : Type*}

def pageLimit : ℕ := 100

/-! ### Requests and responses -/

/-- A body with an array of items. -/
structure Body (Item : Type*) where
  items : List Item
  hasMore : Bool
  total : ℕ
  deriving DecidableEq

/-- How a request ends. -/
inductive Response (Item : Type*) where
  | body (body : Body Item)
  | malformed
  | apiNetworkError (status : ℕ)
  | otherError
  deriving DecidableEq

/-- What `runFetch` still has in its hands when the response arrives. -/
structure Fetch where
  token : ℕ
  q : String
  offset : ℕ
  append : Bool
  recordUnfiltered : Bool
  deriving DecidableEq

/-! ### The page -/

/-- A child of the list element. -/
inductive Child (Item : Type*) where
  | skeleton
  | row (item : Item)
  | noMatches
  | noTraces
  deriving DecidableEq

def Child.row? : Child Item → Option Item
  | .row item => some item
  | _         => none

def Child.hasClearButton : Child Item → Bool
  | .noMatches => true
  | _          => false

inductive ListError where
  | network
  | http (status : ℕ)
  deriving DecidableEq

/-- `debounced` is the filter text that the timer of the debounced filter will dispatch. -/
structure State (Item : Type*) where
  rowsEl : List (Child Item)
  errorEl : Option ListError
  filterLoading : Bool
  unfilteredTotal : Option ℕ
  currentQuery : String
  currentOffset : ℕ
  currentHasMore : Bool
  currentTotal : ℕ
  fetchToken : ℕ
  debounced : Option String
  inFlight : List Fetch
  deriving DecidableEq

namespace State

variable (s : State Item)

/-- The trace rows on the page. -/
def rows : List Item := s.rowsEl.filterMap Child.row?

/-- `runFetch` up to its `await`. -/
def runFetch (q : String) (offset : ℕ) (append recordUnfiltered : Bool) : State Item :=
  { s with
    fetchToken := s.fetchToken + 1
    filterLoading := true
    errorEl := none
    inFlight := s.inFlight ++ [⟨s.fetchToken + 1, q, offset, append, recordUnfiltered⟩] }

def renderEmptyState : State Item :=
  { s with rowsEl := [if s.currentQuery ≠ "" then .noMatches else .noTraces] }

def renderRows (items : List Item) (append : Bool) : State Item :=
  if !append && items.isEmpty then
    s.renderEmptyState
  else
    { s with rowsEl := (if append then s.rowsEl else []) ++ items.map .row }

/-- What `runFetch` does when its response arrives. -/
def resume (r : Fetch) (res : Response Item) : State Item :=
  if r.token ≠ s.fetchToken then s else
    let s := { s with filterLoading := false }
    match res with
    | .body body =>
      { s with
        unfilteredTotal := if r.recordUnfiltered then some body.total else s.unfilteredTotal
        currentQuery := r.q
        currentOffset := r.offset + body.items.length
        currentHasMore := body.hasMore
        currentTotal := body.total }.renderRows body.items r.append
    | .malformed => { s with errorEl := some (.http 200) }
    | .apiNetworkError status =>
      { s with errorEl := some (if status = 0 then .network else .http status) }
    | .otherError => { s with errorEl := some .network }

/-- The page before its script runs. -/
def initial : State Item where
  rowsEl := List.replicate 5 .skeleton
  errorEl := none
  filterLoading := false
  unfilteredTotal := none
  currentQuery := ""
  currentOffset := 0
  currentHasMore := false
  currentTotal := 0
  fetchToken := 0
  debounced := none
  inFlight := []

def initialLoad : State Item := initial.runFetch "" 0 false true

end State

/-! ### Events -/

/-- What happens to the page. An input is any change of the filter box: a key, Escape or its clear
button. The "Clear filter" button is the one of the message that no trace matches. -/
inductive Event (Item : Type*) where
  | input (q : String)
  | timer
  | clearFilter
  | loadMore
  | retry
  | arrive (token : ℕ) (res : Response Item)

namespace State

variable (s : State Item)

/-- A change of the filter that leaves the debounced timer. -/
def debouncedFilter (q : String) : State Item :=
  { s with debounced := none }.runFetch q 0 false false

/-- The request that a response belongs to. -/
def awaiting (token : ℕ) : Option Fetch := s.inFlight.find? (·.token = token)

def settle (token : ℕ) : State Item :=
  { s with inFlight := s.inFlight.filter (·.token ≠ token) }

/-- The page after an event, if the event is possible: a button must be there to be clicked. -/
def step : Event Item → Option (State Item)
  | .input q => some { s with debounced := some q }
  | .timer => s.debounced.map s.debouncedFilter
  | .clearFilter =>
    if s.rowsEl.any Child.hasClearButton then
      some { s with currentQuery := "", debounced := some "" }
    else none
  | .loadMore =>
    if s.currentHasMore then some (s.runFetch s.currentQuery s.currentOffset true false) else none
  | .retry =>
    if s.errorEl.isSome then some (s.runFetch s.currentQuery 0 false s.unfilteredTotal.isNone)
    else none
  | .arrive token res => (s.awaiting token).map fun r => (s.settle token).resume r res

end State

/-! ### Where the rows come from -/

/-- The page with the answers that its rows were made from, each with the query it was for. -/
structure Observed (Item : Type*) where
  state : State Item
  pages : List (String × List Item)
  deriving DecidableEq

namespace Observed

def start : Observed Item := ⟨.initialLoad, []⟩

variable (o : Observed Item)

/-- The answers that the rows are made from after an event. -/
def pagesAfter : Event Item → List (String × List Item)
  | .arrive token (.body body) =>
    match o.state.awaiting token with
    | some r =>
      if r.token = o.state.fetchToken then
        (if r.append then o.pages else []) ++ [(r.q, body.items)]
      else o.pages
    | none => o.pages
  | _ => o.pages

def Step (e : Event Item) (o' : Observed Item) : Prop :=
  o.state.step e = some o'.state ∧ o'.pages = o.pagesAfter e

/-- The page after an event that is possible. -/
def after (e : Event Item) : Observed Item := ⟨(o.state.step e).getD o.state, o.pagesAfter e⟩

lemma step_after {o : Observed Item} {e : Event Item} (h : (o.state.step e).isSome) :
    o.Step e (o.after e) := by
  obtain ⟨s, hs⟩ := Option.isSome_iff_exists.mp h
  exact ⟨by simp [after, hs], rfl⟩

end Observed

/-! ### Answers -/

/-- The slice of a fixed list for each query. -/
def serve (list : String → List Item) (q : String) (offset : ℕ) : Body Item :=
  let items := ((list q).drop offset).take pageLimit
  { items
    hasMore := offset + items.length < (list q).length
    total := (list q).length }

/-- A response with a body has the slice that was asked for. -/
def Serves (list : String → List Item) (o : Observed Item) : Event Item → Prop
  | .arrive token (.body body) =>
    ∀ r, o.state.awaiting token = some r → body = serve list r.q r.offset
  | _ => True

def ServedStep (list : String → List Item) (o : Observed Item) (e : Event Item)
    (o' : Observed Item) : Prop := Serves list o e ∧ o.Step e o'

end TraceList

end PhpTreeViz
