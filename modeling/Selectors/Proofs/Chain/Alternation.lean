import Selectors.Proofs.Chain.Shape

/-!
# Alternations

An alternation has a combinator between any two neighbouring compounds. What stands before
its subject is bound to the subject: read backwards it is a combinator and a compound, again
and again.
-/
namespace Selectors

/-- Whether at most one element is where the combinator leads from to a given one. -/
def Combinator.isTight : Combinator → Bool
  | .child | .nextSibling => true
  | .subsequentSibling => false

namespace Chain

variable {allowed : Combinator → Bool}

/-- Whether the chain is an alternation and all its combinators are allowed. -/
def alternates (allowed : Combinator → Bool) : Chain → Bool
  | [.compound _] => true
  | .compound _ :: .combinator kind :: rest => allowed kind && alternates allowed rest
  | _ => false

/-- The combinators in reading order. -/
def combinators (chain : Chain) : List Combinator :=
  chain.filterMap fun
    | .combinator kind => some kind
    | .compound _ => none

@[simp] theorem combinators_nil : combinators [] = [] := rfl

@[simp] theorem combinators_compound (members : Compound) (rest : Chain) :
    combinators (.compound members :: rest) = combinators rest := rfl

@[simp] theorem combinators_combinator (kind : Combinator) (rest : Chain) :
    combinators (.combinator kind :: rest) = kind :: combinators rest := rfl

@[simp] theorem combinators_append (first second : Chain) :
    combinators (first ++ second) = combinators first ++ combinators second :=
  List.filterMap_append

@[simp] theorem combinators_reverse (chain : Chain) :
    combinators (List.reverse chain) = (combinators chain).reverse :=
  List.filterMap_reverse

/-- The chain is one that combinators bind to a subject, given from its end backwards. -/
inductive Bound (allowed : Combinator → Bool) : Chain → Prop
  | nil : Bound allowed []
  | cons {kind : Combinator} {members : Compound} {outer : Chain} :
      allowed kind = true → Bound allowed outer →
      Bound allowed (.combinator kind :: .compound members :: outer)

theorem Bound.append {chain chain' : Chain} (bound : Bound allowed chain)
    (bound' : Bound allowed chain') : Bound allowed (chain ++ chain') := by
  induction bound with
  | nil => exact bound'
  | cons isAllowed _ ih => exact .cons isAllowed ih

/-- An alternation is a subject with a bound chain before it. -/
theorem exists_bound_of_alternates {chain : Chain} (alternates : chain.alternates allowed = true) :
    ∃ (before : Chain) (subject : Compound), chain = before ++ [.compound subject] ∧
      Bound allowed before.reverse := by
  fun_induction Chain.alternates allowed chain with
  | case1 members => exact ⟨[], members, rfl, .nil⟩
  | case2 members kind rest ih =>
    obtain ⟨isAllowed, alternates⟩ := by simpa only [Bool.and_eq_true] using alternates
    obtain ⟨before, subject, rfl, bound⟩ := ih alternates
    refine ⟨.compound members :: .combinator kind :: before, subject, rfl, ?_⟩
    have nearest : Bound allowed [.combinator kind, .compound members] := .cons isAllowed .nil
    simpa using bound.append nearest
  | case3 => cases alternates

theorem step_of_alternates {chain : Chain} (alternates : chain.alternates allowed = true) :
    chain.step = none := by
  unfold Chain.alternates at alternates
  split at alternates
  · rfl
  · rfl
  · cases alternates

end Chain

end Selectors
