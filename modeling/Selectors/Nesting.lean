import Selectors.Diagnosed
import Selectors.Parent

/-!
# Nested rules

The selector of a nested rule is flattened by writing the enclosing rule's
selector in the place of every `&` that leads a compound. Each parent
alternative gives an expansion of its own, so an alternative with two such `&`
under a parent with two alternatives becomes four. An alternative without `&` is
put below each parent alternative where parents are implicit, and is kept
elsewhere; in the argument of a pseudo they never are.

An `&` that does not lead its compound is kept.
-/
namespace Selectors

/-- Every chain of the first list followed by every chain of the second, the
first list varying slowest. -/
def Alternatives.followedBy (first second : Alternatives) : Alternatives :=
  first.flatMap fun complex => second.map (complex ++ ·)

/-- What a compound becomes under the parent alternatives: one chain for each of
them if `&` leads it, and itself otherwise. -/
def Compound.underParents (parents : Alternatives) : Compound → Except NestingFailure Alternatives
  | [.parent none] => .ok parents
  | .parent suffix :: others => parents.mapM (Complex.joined suffix others)
  | members => .ok [.single (.compound members)]

/-- A warning for every alternative that holds two combinators side by side. -/
def Alternatives.combinatorWarnings (alternatives : Alternatives) : List Warning :=
  (alternatives.filter fun complex => Chain.hasDoubledCombinator complex.components).map
    fun complex =>
      ⟨"selector", "\"" ++ complex.text ++ "\" has consecutive combinators and is not valid CSS"⟩

/-- Places a failure. -/
def Diagnosed.ofFailure {α : Type} (place : Option Span) (result : Except NestingFailure α) :
    Diagnosed α :=
  .ofExcept (result.mapError fun failure => .nesting failure place)

mutual

/-- Expands the nested list of a pseudo, if `&` occurs there. A failure is placed
at the nearest list around it that has a span. -/
def Simple.nest (parents : Alternatives) (place : Option Span) : Simple → Diagnosed Simple
  | .pseudo ⟨name, isClass, argument, some ⟨alternatives, span⟩⟩ =>
    if Alternatives.mentionsParent alternatives then do
      let alternatives ← Alternatives.nest parents false (span <|> place) alternatives
      Diagnosed.warn (Alternatives.combinatorWarnings alternatives)
      return .pseudo ⟨name, isClass, argument, some ⟨alternatives, span⟩⟩
    else
      return .pseudo ⟨name, isClass, argument, some ⟨alternatives, span⟩⟩
  | simple => return simple
termination_by structural simple => simple

/-- Expands the nested lists of the members, from left to right. -/
def Compound.nest (parents : Alternatives) (place : Option Span) : Compound → Diagnosed Compound
  | [] => return []
  | simple :: rest => do
    let simple ← Simple.nest parents place simple
    let rest ← Compound.nest parents place rest
    return simple :: rest
termination_by structural compound => compound

/-- The expansions of a chain, those of its first compound varying slowest. -/
def Chain.nest (parents : Alternatives) (place : Option Span) : Chain → Diagnosed Alternatives
  | [] => return [.nil]
  | .compound members :: rest => do
    let members ← Compound.nest parents place members
    let first ← Diagnosed.ofFailure place (Compound.underParents parents members)
    let rest ← Chain.nest parents place rest
    return Alternatives.followedBy first rest
  | .combinator kind :: rest => do
    let rest ← Chain.nest parents place rest
    return Alternatives.followedBy [.single (.combinator kind)] rest
termination_by structural chain => chain

/-- The expansions of all alternatives, in their order. -/
def Alternatives.nest (parents : Alternatives) (implicit : Bool) (place : Option Span) :
    Alternatives → Diagnosed Alternatives
  | [] => return []
  | ⟨components, lineBreak⟩ :: rest => do
    let expansions ←
      if Chain.mentionsParent components then
        Chain.nest parents place components
      else if implicit then
        pure (Alternatives.followedBy parents [⟨components, lineBreak⟩])
      else
        pure [⟨components, lineBreak⟩]
    let rest ← Alternatives.nest parents implicit place rest
    return expansions ++ rest
termination_by structural alternatives => alternatives

end

namespace SelectorList

/-- The selector of a rule nested in a rule with selector `parent`. -/
def nestIn (child parent : SelectorList) (implicit : Bool) : Diagnosed SelectorList := do
  let alternatives ← Alternatives.nest parent.alternatives implicit child.span child.alternatives
  Diagnosed.warn (Alternatives.combinatorWarnings alternatives)
  return ⟨alternatives, child.span⟩

theorem result_nestIn_eq_ok_iff {child parent list : SelectorList} {implicit : Bool} :
    (child.nestIn parent implicit).result = .ok list ↔
      ∃ alternatives,
        (Alternatives.nest parent.alternatives implicit child.span child.alternatives).result =
            .ok alternatives ∧ ⟨alternatives, child.span⟩ = list := by
  simp [nestIn, Diagnosed.result_bind_eq_ok_iff, Diagnosed.warn]

theorem result_nestIn_eq_error_iff {child parent : SelectorList} {implicit : Bool} {error : Error} :
    (child.nestIn parent implicit).result = .error error ↔
      (Alternatives.nest parent.alternatives implicit child.span child.alternatives).result =
        .error error := by
  simp [nestIn, Diagnosed.result_bind_eq_error_iff, Diagnosed.warn]

/-- The selector of a rule that stands in no other; it may not mention `&`. -/
def atTopLevel (list : SelectorList) : Diagnosed SelectorList :=
  if list.mentionsParent then .fail (.nesting .topLevel list.span) else pure list

/-- The selector of a rule, given the selector of the rule around it if there
is one. -/
def nest (child : SelectorList) (parent : Option SelectorList) (implicit : Bool) :
    Diagnosed SelectorList :=
  match parent with
  | none => child.atTopLevel
  | some parent => child.nestIn parent implicit

end SelectorList

end Selectors
