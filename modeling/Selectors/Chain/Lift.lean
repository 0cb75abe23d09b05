import Mathlib.Data.List.Forall2
import Selectors.Basic

/-!
# Chains component by component

Two chains with the same combinators in the same places, and compounds there that are related.
-/
namespace Selectors

/-- The same combinators, or compounds that are related. -/
def Component.Lift (r : Compound → Compound → Prop) : Component → Component → Prop
  | compound members, compound members' => r members members'
  | combinator kind, combinator kind' => kind = kind'
  | _, _ => False

namespace Chain

def Lift (r : Compound → Compound → Prop) : Chain → Chain → Prop :=
  List.Forall₂ (Component.Lift r)

variable {r : Compound → Compound → Prop} {chain chain' other : Chain}

theorem lift_nil_iff : Lift r [] other ↔ other = [] := List.forall₂_nil_left_iff

theorem lift_compound_iff {members : Compound} :
    Lift r (.compound members :: chain) other ↔
      ∃ members' chain', other = .compound members' :: chain' ∧ r members members' ∧
        Lift r chain chain' := by
  constructor
  · intro lift
    rcases other with _ | ⟨members' | kind, rest⟩
    · cases lift
    · obtain ⟨related, others⟩ := List.forall₂_cons.mp lift
      exact ⟨members', rest, rfl, related, others⟩
    · obtain ⟨related, _⟩ := List.forall₂_cons.mp lift
      exact related.elim
  · rintro ⟨members', chain', rfl, related, lift⟩
    exact .cons related lift

theorem lift_combinator_iff {kind : Combinator} :
    Lift r (.combinator kind :: chain) other ↔
      ∃ chain', other = .combinator kind :: chain' ∧ Lift r chain chain' := by
  constructor
  · intro lift
    rcases other with _ | ⟨members' | kind', rest⟩
    · cases lift
    · obtain ⟨related, _⟩ := List.forall₂_cons.mp lift
      exact related.elim
    · obtain ⟨rfl, others⟩ := List.forall₂_cons.mp lift
      exact ⟨rest, rfl, others⟩
  · rintro ⟨chain', rfl, lift⟩
    exact .cons rfl lift

theorem Lift.length_eq (lift : Lift r chain other) : chain.length = other.length :=
  List.Forall₂.length_eq lift

theorem Lift.append (lift : Lift r chain chain') {rest rest' : Chain} (others : Lift r rest rest') :
    Lift r (chain ++ rest) (chain' ++ rest') :=
  List.rel_append lift others

theorem Lift.tail (lift : Lift r chain other) : Lift r chain.tail other.tail := by
  cases lift with
  | nil => exact .nil
  | cons _ others => exact others

theorem lift_single {members members' : Compound} (related : r members members') :
    Lift r [.compound members] [.compound members'] :=
  .cons related .nil

theorem Lift.step_eq (lift : Lift r chain other) : chain.step = other.step := by
  rcases chain with _ | ⟨members | kind, rest⟩
  · rw [lift_nil_iff.mp lift]
  · obtain ⟨_, _, rfl, _⟩ := lift_compound_iff.mp lift
    rfl
  · obtain ⟨_, rfl, _⟩ := lift_combinator_iff.mp lift
    rfl

theorem Lift.pastStep (lift : Lift r chain other) : Lift r chain.pastStep other.pastStep := by
  rcases chain with _ | ⟨members | kind, rest⟩
  · rw [lift_nil_iff.mp lift]
    exact .nil
  · obtain ⟨_, _, rfl, _⟩ := lift_compound_iff.mp lift
    exact lift
  · obtain ⟨_, rfl, others⟩ := lift_combinator_iff.mp lift
    exact others

/-- Both chains end in a compound, or neither does. -/
theorem Lift.splitSubject? (lift : Lift r chain other) :
    Option.Rel (fun parts parts' => Lift r parts.1 parts'.1 ∧ r parts.2 parts'.2)
      chain.splitSubject? other.splitSubject? := by
  rcases List.eq_nil_or_concat' chain with rfl | ⟨before, last, rfl⟩
  · rw [lift_nil_iff.mp lift]
    exact .none
  rcases List.eq_nil_or_concat' other with rfl | ⟨before', last', rfl⟩
  · simpa using lift.length_eq
  have backwards := List.forall₂_reverse_iff.mpr lift
  rw [List.reverse_concat, List.reverse_concat, List.forall₂_cons, List.forall₂_reverse_iff] at backwards
  obtain ⟨related, others⟩ := backwards
  cases last <;> cases last'
  case compound.compound => simpa using Option.Rel.some ⟨others, related⟩
  case combinator.combinator => simp [Chain.splitSubject?]
  all_goals exact related.elim

theorem Lift.subject? (lift : Lift r chain other) : Option.Rel r chain.subject? other.subject? := by
  have parts := lift.splitSubject?
  unfold Chain.subject?
  generalize chain.splitSubject? = first, other.splitSubject? = second at parts
  cases parts with
  | none => exact .none
  | some related => exact .some related.2

theorem Lift.isSome_subject? (lift : Lift r chain other) :
    chain.subject?.isSome = other.subject?.isSome := by
  have related := lift.subject?
  generalize chain.subject? = first, other.subject? = second at related
  cases related <;> rfl

end Chain

end Selectors
