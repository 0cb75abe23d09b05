import Selectors.Induction
import Selectors.Nesting

/-!
# Places filled in afterwards

Nesting hands the nearest span down, so that a failure has its place as soon as it arises. It may
also be left without one, and every list on the way back fills in its own span where there is none
yet: the innermost list that has a span is the first to do so. A nested list is then nested as the
list of a rule is, whatever stands around it.
-/
namespace Selectors

namespace Diagnosed

variable {α β : Type}

/-- Places an error of the computation that has no place yet. -/
def located (place : Option Span) (computation : Diagnosed α) : Diagnosed α :=
  ⟨computation.result.mapError (Error.located place), computation.warnings⟩

@[simp] theorem located_pure (place : Option Span) (value : α) :
    (Pure.pure value : Diagnosed α).located place = Pure.pure value := rfl

@[simp] theorem located_warn (place : Option Span) (warnings : List Warning) :
    (warn warnings).located place = warn warnings := rfl

theorem located_ofFailure (place : Option Span) (result : Except NestingFailure α) :
    ofFailure place result = (ofFailure none result).located place := by
  cases result <;> rfl

theorem located_bind (place : Option Span) (first : Diagnosed α) (next : α → Diagnosed β) :
    (first >>= next).located place =
      first.located place >>= fun value => (next value).located place := by
  obtain ⟨_ | _, _⟩ := first <;> rfl

/-- Of two places the one filled in first stays. -/
theorem located_located (first second : Option Span) (computation : Diagnosed α) :
    (computation.located first).located second = computation.located (first <|> second) := by
  obtain ⟨error | value, warnings⟩ := computation
  · have placed := error.located_located first second
    exact congrArg (fun error => (⟨.error error, warnings⟩ : Diagnosed α)) placed
  · rfl

end Diagnosed

/-- A place that is handed down is a place that is filled in afterwards. -/
theorem nest_located (parents : Alternatives) :
    Induction
      (fun simple => ∀ place,
        simple.nest parents place = (simple.nest parents none).located place)
      (fun members => ∀ place,
        members.nest parents place = (members.nest parents none).located place)
      (fun chain => ∀ place, chain.nest parents place = (chain.nest parents none).located place)
      (fun alternatives => ∀ implicit place,
        Alternatives.nest parents implicit place alternatives =
          (Alternatives.nest parents implicit none alternatives).located place) := by
  constructor
  case parent | placeholder | typeName | universal | className | idName | attr | plainPseudo =>
    intros
    rfl
  case noMember | noComponent | noAlternative =>
    intros
    rfl
  case nestingPseudo =>
    intro name isClass argument alternatives span ih place
    -- what is handed down is the span of the list itself, and what is around only where it has none
    have own : Alternatives.nest parents false (span <|> place) alternatives =
        (Alternatives.nest parents false (span <|> none) alternatives).located place := by
      rw [ih false (span <|> place), ih false (span <|> none), Diagnosed.located_located]
      cases span <;> rfl
    rw [Simple.nest, Simple.nest, own]
    split <;> simp only [Diagnosed.located_bind, Diagnosed.located_warn, Diagnosed.located_pure]
  case member =>
    intro simple rest ih ihRest place
    rw [Compound.nest, Compound.nest, ih place, ihRest place]
    simp only [Diagnosed.located_bind, Diagnosed.located_pure]
  case compound =>
    intro members rest ih ihRest place
    rw [Chain.nest, Chain.nest, ih place, ihRest place]
    -- the compound under the parents is where errors arise, and nothing has placed them before
    simp only [Diagnosed.located_bind, Diagnosed.located_pure, Diagnosed.located_ofFailure place]
  case combinator =>
    intro kind rest ih place
    rw [Chain.nest, Chain.nest, ih place]
    simp only [Diagnosed.located_bind, Diagnosed.located_pure]
  case alternative =>
    intro components lineBreak rest ih ihRest implicit place
    rw [Alternatives.nest, Alternatives.nest, ih place, ihRest implicit place]
    split
    · simp only [Diagnosed.located_bind, Diagnosed.located_pure]
    · split <;> simp only [Diagnosed.located_bind, Diagnosed.located_pure]

/-- A nested list is nested as that of a rule, at its own span, and an error that has no place after
that is placed where the pseudo stands. -/
theorem Simple.nest_eq_located (parents : Alternatives) (place : Option Span) (name : String)
    (isClass : Bool) (argument : Option String) (alternatives : Alternatives) (span : Option Span) :
    Simple.nest parents place (.pseudo ⟨name, isClass, argument, some ⟨alternatives, span⟩⟩) =
      if Alternatives.mentionsParent alternatives then do
        let list ← (SelectorList.nestIn ⟨alternatives, span⟩ ⟨parents, none⟩ false).located place
        return .pseudo ⟨name, isClass, argument, some list⟩
      else return .pseudo ⟨name, isClass, argument, some ⟨alternatives, span⟩⟩ := by
  have placed := (nest_located parents).alternatives alternatives false
  rw [Simple.nest, SelectorList.nestIn, placed (span <|> place), placed span,
    ← Diagnosed.located_located]
  split
  · simp only [Diagnosed.located_bind, Diagnosed.located_warn, Diagnosed.located_pure, bind_assoc,
      pure_bind]
  · rfl

end Selectors
