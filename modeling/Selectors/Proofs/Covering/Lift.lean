import Selectors.Chain.Lift
import Selectors.Covering.Chain

/-!
# The walk along related chains

The walk asks its rule about compounds and looks otherwise only at combinators and lengths. So two
walks agree along chains with related compounds, if their rules agree on those.
-/
namespace Selectors

variable {r r₁ r₂ : Compound → Compound → Prop}

/-- The rules answer alike where the first compounds are related, and the second ones with what
stands above them. -/
def CompoundRule.Agree (r₁ r₂ : Compound → Compound → Prop) (rule rule' : CompoundRule) : Prop :=
  ∀ ⦃first first' second second' above above'⦄, r₁ first first' → r₂ second second' →
    Chain.Lift r₂ above above' → rule first second above = rule' first' second' above'

theorem Option.any_eq_of_rel {α β : Type} {related : α → β → Prop} {first : Option α}
    {second : Option β} {p : α → Bool} {q : β → Bool} (rel : Option.Rel related first second)
    (same : ∀ a b, related a b → p a = q b) : first.any p = second.any q := by
  cases rel with
  | none => rfl
  | some here => exact same _ _ here

namespace Chain

theorem afterFirst?_lift {test test' : Compound → Chain → Bool} {passed passed' chain chain' : Chain}
    (agree : ∀ ⦃members members' above above'⦄, r members members' → Lift r above above' →
      test members above = test' members' above')
    (before : Lift r passed passed') (lift : Lift r chain chain') :
    Option.Rel (Lift r) (afterFirst? test passed chain) (afterFirst? test' passed' chain') := by
  fun_induction afterFirst? test passed chain generalizing passed' chain' with
  | case1 passed members next rest accepted =>
    obtain ⟨members', others, rfl, related, left⟩ := lift_compound_iff.mp lift
    obtain ⟨next', rest', -, -, rfl⟩ := List.forall₂_cons_left_iff.mp left
    rw [agree related before.tail] at accepted
    rw [afterFirst?, if_pos accepted]
    exact .some left
  | case2 passed members next rest refused ih =>
    obtain ⟨members', others, rfl, related, left⟩ := lift_compound_iff.mp lift
    obtain ⟨next', rest', -, -, rfl⟩ := List.forall₂_cons_left_iff.mp left
    rw [agree related before.tail] at refused
    rw [afterFirst?, if_neg refused]
    exact ih (before.append (lift_single related)) left
  | case3 passed kind next rest ih =>
    obtain ⟨others, rfl, left⟩ := lift_combinator_iff.mp lift
    obtain ⟨next', rest', -, -, rfl⟩ := List.forall₂_cons_left_iff.mp left
    rw [afterFirst?]
    exact ih (before.append (.cons rfl .nil)) left
  | case4 chain passed noCompound noCombinator =>
    have length := lift.length_eq
    rcases chain with _ | ⟨_ | _, _ | _⟩
    case cons.compound.cons => exact (noCompound _ _ _ rfl).elim
    case cons.combinator.cons => exact (noCombinator _ _ _ rfl).elim
    all_goals
      rcases chain' with _ | ⟨_ | _, _ | _⟩ <;> first | exact .none | simp at length

/-- The walk answers alike along chains with related compounds. -/
theorem walk_lift {rule rule' : CompoundRule} (agree : CompoundRule.Agree r₁ r₂ rule rule')
    {chain₁ chain₁' chain₂ chain₂' : Chain} (lift₁ : Lift r₁ chain₁ chain₁')
    (lift₂ : Lift r₂ chain₂ chain₂') : walk rule chain₁ chain₂ = walk rule' chain₁' chain₂' := by
  have search {first first' : Compound} (related : r₁ first first') {other other' : Chain}
      (lift : Lift r₂ other other') :
      Option.Rel (Lift r₂) (afterFirst? (rule first) [] other) (afterFirst? (rule' first') [] other') :=
    afterFirst?_lift (fun _ _ _ _ => agree related) .nil lift
  fun_induction walk rule chain₁ chain₂ generalizing chain₁' chain₂' with
  | case1 first kind rest other ih =>
    obtain ⟨first', _, rfl, related, more⟩ := lift_compound_iff.mp lift₁
    obtain ⟨rest', rfl, others⟩ := lift_combinator_iff.mp more
    rw [walk, ← others.length_eq, ← lift₂.length_eq]
    refine congrArg _ (Option.any_eq_of_rel (search related lift₂) fun left left' lift => ?_)
    rw [lift.step_eq, ih left others lift.pastStep]
  | case2 first second rest other ih =>
    obtain ⟨first', _, rfl, related, more⟩ := lift_compound_iff.mp lift₁
    obtain ⟨second', rest', rfl, _, others⟩ := lift_compound_iff.mp more
    rw [walk, ← others.length_eq, ← lift₂.length_eq]
    refine congrArg _ (Option.any_eq_of_rel (search related lift₂) fun left left' lift => ?_)
    rw [lift.step_eq, ih left more lift.pastStep]
  | case3 last other =>
    obtain ⟨last', _, rfl, related, none⟩ := lift_compound_iff.mp lift₁
    obtain rfl := lift_nil_iff.mp none
    rw [walk]
    exact Option.any_eq_of_rel lift₂.splitSubject? fun parts parts' lift => agree related lift.2 lift.1
  | case4 chain other noCombinator noCompound noLast =>
    rcases chain with _ | ⟨first | kind, _ | ⟨second | kind, rest⟩⟩
    case nil =>
      obtain rfl := lift_nil_iff.mp lift₁
      rfl
    case cons.compound.nil => exact (noLast _ rfl).elim
    case cons.compound.cons.compound => exact (noCompound _ _ _ rfl).elim
    case cons.compound.cons.combinator => exact (noCombinator _ _ _ rfl).elim
    all_goals
      obtain ⟨_, rfl, _⟩ := lift_combinator_iff.mp lift₁
      rfl

/-- Covering answers alike for chains with related compounds. -/
theorem coversBy_lift {rule rule' : CompoundRule} (agree : CompoundRule.Agree r₁ r₂ rule rule')
    {chain₁ chain₁' chain₂ chain₂' : Chain} (lift₁ : Lift r₁ chain₁ chain₁')
    (lift₂ : Lift r₂ chain₂ chain₂') :
    coversBy rule chain₁ chain₂ = coversBy rule' chain₁' chain₂' := by
  rw [coversBy, lift₁.isSome_subject?, lift₂.isSome_subject?, walk_lift agree lift₁ lift₂, coversBy]

end Chain

end Selectors
