import Selectors.Span

/-!
# Errors

Three errors say that a selector was built from nothing; well-formed input
never causes one. The others say why a parent reference could not be expanded,
and where, and are for the author of the stylesheet to mend.
-/
namespace Selectors

/-- Why a parent reference `&` has no expansion. -/
inductive NestingFailure where
  /-- There is no enclosing rule. -/
  | topLevel
  /-- Something follows `&` within its compound, and this parent alternative
  ends in a combinator. -/
  | parentEndsInCombinator (parent : String)
  /-- `&` carries a suffix, and this simple selector has no name to take it. -/
  | unsuffixable (simple : String)
deriving DecidableEq, Repr

inductive Error where
  | emptyList
  | emptyComplex
  | emptyCompound
  | nesting (failure : NestingFailure) (span : Option Span)
deriving DecidableEq, Repr

def NestingFailure.message : NestingFailure → String
  | topLevel => "Top-level selectors may not contain the parent selector \"&\""
  | parentEndsInCombinator parent => "Parent \"" ++ parent ++ "\" is incompatible with this selector"
  | unsuffixable simple => "Invalid parent selector \"" ++ simple ++ "\""

namespace Error

def message : Error → String
  | emptyList => "Selector lists may not be empty"
  | emptyComplex => "Complex selectors may not be empty"
  | emptyCompound => "Compound selectors may not be empty"
  | nesting failure none => failure.message
  | nesting failure (some span) => failure.message ++ " at " ++ span.text

/-- Whether the fault lies with whoever built the selector. -/
def isEmptiness : Error → Bool
  | emptyList | emptyComplex | emptyCompound => true
  | nesting _ _ => false

def span : Error → Option Span
  | nesting _ span => span
  | _ => none

/-- Places an error that has no place yet. An error about emptiness never has
one. -/
def located (fallback : Option Span) : Error → Error
  | nesting failure span => nesting failure (span <|> fallback)
  | error => error

theorem located_located (first second : Option Span) (error : Error) :
    (error.located first).located second = error.located (first <|> second) := by
  cases error <;> simp [located, Option.orElse_eq_or, Option.or_assoc]

end Error

end Selectors
