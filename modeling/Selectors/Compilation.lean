import Selectors.Nesting

/-!
# Compilations

A compilation nests rules and warns, one request after the other, and keeps no
state but the log of the warnings given. A new compilation begins with an empty
log.
-/
namespace Selectors

inductive Request where
  | warn (warning : Warning)
  | nest (child : SelectorList) (parent : Option SelectorList) (implicit : Bool)
  | restart

/-- What a request comes to, apart from warnings. -/
def Request.outcome : Request → Diagnosed (Option SelectorList)
  | warn warning => do
    Diagnosed.warn [warning]
    return none
  | nest child parent implicit => return some (← child.nest parent implicit)
  | restart => return none

/-- The answer to a request: its result and the warnings that are news. -/
structure Response where
  result : Except Error (Option SelectorList)
  news : List Warning

/-- Serves one request. -/
def WarningLog.serve (log : WarningLog) (request : Request) : WarningLog × Response :=
  match request with
  | .restart => (.empty, ⟨.ok none, []⟩)
  | request =>
    let outcome := request.outcome
    let (log, news) := log.give outcome.warnings
    (log, ⟨outcome.result, news⟩)

/-- Serves the requests in their order. -/
def WarningLog.serveAll (log : WarningLog) : List Request → WarningLog × List Response
  | [] => (log, [])
  | request :: rest =>
    let (log, response) := log.serve request
    let (log, responses) := log.serveAll rest
    (log, response :: responses)

end Selectors
