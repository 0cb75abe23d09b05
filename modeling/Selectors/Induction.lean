import Selectors.Basic

/-!
# Induction over selectors

Simple selectors, compounds, chains and lists of alternatives hold one another,
so a fact about one kind is proved together with facts about the others. A value
of `Induction` gathers the cases of such a proof, and its four projections
`simple`, `members`, `chain` and `alternatives` are the conclusions.
-/
namespace Selectors

/-- The cases of a proof about all selectors at once. -/
structure Induction (onSimple : Simple → Prop) (onCompound : Compound → Prop)
    (onChain : Chain → Prop) (onAlternatives : Alternatives → Prop) : Prop where
  parent : ∀ suffix, onSimple (.parent suffix)
  placeholder : ∀ name, onSimple (.placeholder name)
  typeName : ∀ name, onSimple (.typeName name)
  universal : onSimple .universal
  className : ∀ name, onSimple (.className name)
  idName : ∀ name, onSimple (.idName name)
  attr : ∀ condition, onSimple (.attr condition)
  plainPseudo : ∀ name isClass argument, onSimple (.pseudo ⟨name, isClass, argument, none⟩)
  nestingPseudo : ∀ name isClass argument alternatives span, onAlternatives alternatives →
    onSimple (.pseudo ⟨name, isClass, argument, some ⟨alternatives, span⟩⟩)
  noMember : onCompound []
  member : ∀ simple rest, onSimple simple → onCompound rest → onCompound (simple :: rest)
  noComponent : onChain []
  compound : ∀ members rest, onCompound members → onChain rest → onChain (.compound members :: rest)
  combinator : ∀ kind rest, onChain rest → onChain (.combinator kind :: rest)
  noAlternative : onAlternatives []
  alternative : ∀ components lineBreak rest, onChain components → onAlternatives rest →
    onAlternatives (⟨components, lineBreak⟩ :: rest)

namespace Induction

variable {onSimple : Simple → Prop} {onCompound : Compound → Prop} {onChain : Chain → Prop}
  {onAlternatives : Alternatives → Prop}

mutual

theorem simple (h : Induction onSimple onCompound onChain onAlternatives) : ∀ s, onSimple s
  | .parent suffix => h.parent suffix
  | .placeholder name => h.placeholder name
  | .typeName name => h.typeName name
  | .universal => h.universal
  | .className name => h.className name
  | .idName name => h.idName name
  | .attr condition => h.attr condition
  | .pseudo ⟨name, isClass, argument, none⟩ => h.plainPseudo name isClass argument
  | .pseudo ⟨name, isClass, argument, some ⟨nested, span⟩⟩ =>
    h.nestingPseudo name isClass argument nested span (alternatives h nested)
termination_by structural s => s

theorem members (h : Induction onSimple onCompound onChain onAlternatives) : ∀ c, onCompound c
  | [] => h.noMember
  | s :: rest => h.member s rest (simple h s) (members h rest)
termination_by structural c => c

theorem chain (h : Induction onSimple onCompound onChain onAlternatives) : ∀ c, onChain c
  | [] => h.noComponent
  | .compound ms :: rest => h.compound ms rest (members h ms) (chain h rest)
  | .combinator kind :: rest => h.combinator kind rest (chain h rest)
termination_by structural c => c

theorem alternatives (h : Induction onSimple onCompound onChain onAlternatives) :
    ∀ a, onAlternatives a
  | [] => h.noAlternative
  | ⟨cs, lineBreak⟩ :: rest => h.alternative cs lineBreak rest (chain h cs) (alternatives h rest)
termination_by structural a => a

end

end Induction

end Selectors
