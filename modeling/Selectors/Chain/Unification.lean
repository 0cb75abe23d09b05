import Selectors.Compound.Merge

/-!
# Unification of chains

The unification of two chains is a set of chains that match what both match.
Their subjects are merged. The chains before the subjects are woven: without
trailing combinators either may come first; a trailing combinator binds its
chain to the subject, so that chain comes last; and a trailing combinator on both
must be the same, and then the compounds before it are merged as well.
-/
namespace Selectors

namespace Chain

/-- Weaves two chains that are given from their ends backwards. The woven chains
come in reading order. -/
def weaveBackwards (chain₁ chain₂ : Chain) : Option (List Chain) :=
  if chain₁.isEmpty || chain₁ == chain₂ then some [chain₂.reverse]
  else if chain₂.isEmpty then some [chain₁.reverse]
  else
    match chain₁, chain₂ with
    | .combinator kind₁ :: .compound members₁ :: outer₁,
      .combinator kind₂ :: .compound members₂ :: outer₂ =>
      if kind₁ = kind₂ then do
        let members ← Compound.merge members₁ members₂
        let woven ← weaveBackwards outer₁ outer₂
        return woven.map (· ++ [.compound members, .combinator kind₁])
      else none
    | .combinator _ :: _, .combinator _ :: _ => none
    | .combinator _ :: _, _ => some [chain₂.reverse ++ chain₁.reverse]
    | _, .combinator _ :: _ => some [chain₁.reverse ++ chain₂.reverse]
    | _, _ => some [chain₁.reverse ++ chain₂.reverse, chain₂.reverse ++ chain₁.reverse]
termination_by structural chain₁

/-- Weaves the chains that two merged subjects stand below. -/
def weave (chain₁ chain₂ : Chain) : Option (List Chain) :=
  weaveBackwards chain₁.reverse chain₂.reverse

/-- The chains that match what both chains match, or nothing if either ends in a
combinator, the subjects have no merge or the chains before them no weave. -/
def unify (chain₁ chain₂ : Chain) : Option (List Chain) := do
  let (before₁, subject₁) ← chain₁.splitSubject?
  let (before₂, subject₂) ← chain₂.splitSubject?
  let subject ← Compound.merge subject₁ subject₂
  let woven ← weave before₁ before₂
  return woven.map (· ++ [.compound subject])

@[simp] theorem weave_nil_left (chain : Chain) : weave [] chain = some [chain] := by
  rw [weave, List.reverse_nil]
  unfold weaveBackwards
  simp

/-- The unification of chains that end in their subjects. -/
theorem unify_append_compound (before₁ before₂ : Chain) (subject₁ subject₂ : Compound) :
    unify (before₁ ++ [.compound subject₁]) (before₂ ++ [.compound subject₂]) =
      (Compound.merge subject₁ subject₂).bind fun subject =>
        (weave before₁ before₂).map fun woven => woven.map (· ++ [.compound subject]) := by
  rw [unify, splitSubject?_append_compound, splitSubject?_append_compound]
  refine congrArg (Compound.merge subject₁ subject₂).bind (funext fun subject => ?_)
  rw [Option.map_eq_bind]
  rfl

end Chain

end Selectors
