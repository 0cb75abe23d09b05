/-!
# Source spans

Where a selector list was written. Spans serve error messages only: no
operation on selectors reads one to decide anything else.
-/
namespace Selectors

/-- A place in a stylesheet. Lines and columns count from one. -/
structure Span where
  url : Option String
  line : Nat
  column : Nat
deriving DecidableEq, Repr

/-- `url:line:column`, or `line:column` in a stylesheet without a URL. -/
def Span.text (span : Span) : String :=
  (span.url.map (· ++ ":")).getD "" ++ span.line.repr ++ ":" ++ span.column.repr

end Selectors
