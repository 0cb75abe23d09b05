import Selectors.Basic

/-!
# Shapes of chains

A chain that can match anything is proper: it begins and ends in a compound and holds no
two combinators side by side. A proper chain is a compound alone, or a compound and,
past a step, another proper chain.
-/
namespace Selectors

namespace Chain

/-! ### Steps and subjects -/

theorem step_append_compound (before after : Chain) (members : Compound) :
    step (before ++ .compound members :: after) = before.step := by
  rcases before with _ | ⟨_ | _, _⟩ <;> rfl

theorem step_of_append {before after : Chain} (begins : step (before ++ after) = none) :
    before.step = none := by
  rcases before with _ | ⟨_ | kind, rest⟩
  · rfl
  · rfl
  · simp [step] at begins

theorem exists_eq_cons_of_step {chain : Chain} (begins : chain.step = none) (nonempty : chain ≠ []) :
    ∃ (members : Compound) (rest : Chain), chain = .compound members :: rest := by
  rcases chain with _ | ⟨members | kind, rest⟩
  · exact (nonempty rfl).elim
  · exact ⟨members, rest, rfl⟩
  · simp [step] at begins

theorem pastStep_subset_cons (component : Component) (rest : Chain) :
    rest.pastStep ⊆ component :: rest :=
  fun _ member => List.mem_cons_of_mem component (rest.pastStep_suffix.subset member)

theorem pastStep_append_compound (before after : Chain) (members : Compound) :
    pastStep (before ++ .compound members :: after) =
      before.pastStep ++ .compound members :: after := by
  rcases before with _ | ⟨_ | _, _⟩ <;> rfl

@[simp] theorem subject?_append_compound (before : Chain) (members : Compound) :
    subject? (before ++ [.compound members]) = some members := by
  simp [subject?]

/-- A chain ends in a compound just when it has a subject. -/
theorem subject?_isSome_iff {chain : Chain} :
    chain.subject?.isSome ↔ ∃ before subject, chain = before ++ [.compound subject] := by
  constructor
  · intro ends
    obtain ⟨subject, found⟩ := Option.isSome_iff_exists.mp ends
    obtain ⟨⟨before, members⟩, split, _⟩ := Option.map_eq_some_iff.mp found
    exact ⟨before, members, splitSubject?_eq_some_iff.mp split⟩
  · rintro ⟨before, subject, rfl⟩
    simp

theorem subject?_eq (chain : Chain) : chain.subject? = chain.getLast?.bind Component.members? := by
  unfold subject? splitSubject?
  rcases chain.getLast? with _ | ⟨_ | _⟩ <;> rfl

theorem subject?_append {after : Chain} (before : Chain) (nonempty : after ≠ []) :
    subject? (before ++ after) = after.subject? := by
  rw [subject?_eq, subject?_eq, List.getLast?_append, List.getLast?_eq_some_getLast nonempty,
    Option.some_or]

-- A chain that is given backwards ends in a compound if it is not empty and its first
-- component is no combinator.
theorem subject?_reverse_isSome {chain : Chain} (nonempty : ¬chain.isEmpty = true)
    (noCombinator : ∀ kind rest, chain = .combinator kind :: rest → False) :
    (subject? (List.reverse chain)).isSome := by
  rcases chain with _ | ⟨members | kind, rest⟩
  · exact (nonempty rfl).elim
  · simp
  · exact (noCombinator kind rest rfl).elim

theorem hasDoubledCombinator_append_compound (before after : Chain) (members : Compound) :
    hasDoubledCombinator (before ++ .compound members :: after) =
      (before.hasDoubledCombinator || after.hasDoubledCombinator) := by
  induction before with
  | nil => rfl
  | cons component rest ih =>
    rcases component with _ | _
    · simpa [hasDoubledCombinator] using ih
    · rcases rest with _ | ⟨_ | _, _⟩
      · rfl
      · simpa [hasDoubledCombinator] using ih
      · rfl

/-! ### Proper chains -/

/-- The chain begins and ends in a compound, and steps hold at most one combinator. -/
structure Proper (chain : Chain) : Prop where
  begins : chain.step = none
  ends : chain.subject?.isSome
  single : chain.hasDoubledCombinator = false

instance (chain : Chain) : Decidable chain.Proper :=
  decidable_of_iff (chain.step = none ∧ chain.subject?.isSome ∧ chain.hasDoubledCombinator = false)
    ⟨fun ⟨begins, ends, single⟩ => ⟨begins, ends, single⟩,
      fun ⟨begins, ends, single⟩ => ⟨begins, ends, single⟩⟩

namespace Proper

theorem exists_eq_cons {chain : Chain} (proper : chain.Proper) :
    ∃ (members : Compound) (rest : Chain), chain = .compound members :: rest := by
  apply exists_eq_cons_of_step proper.begins
  rintro rfl
  have := proper.ends
  simp [subject?] at this

theorem subject (members : Compound) : Proper [.compound members] :=
  ⟨rfl, rfl, rfl⟩

-- What comes past a step of a proper chain is one.
theorem pastStep {members : Compound} {rest : Chain} (proper : Proper (.compound members :: rest))
    (more : rest ≠ []) : rest.pastStep.Proper := by
  have ends : rest.subject?.isSome := by
    have := proper.ends
    rwa [← List.singleton_append, subject?_append [_] more] at this
  have single : rest.hasDoubledCombinator = false := proper.single
  rcases rest with _ | ⟨members' | kind, rest⟩
  · exact (more rfl).elim
  · exact ⟨rfl, ends, single⟩
  · rcases rest with _ | ⟨members' | kind', rest⟩
    · simp [subject?, splitSubject?] at ends
    · refine ⟨rfl, ?_, single⟩
      rwa [← List.singleton_append, subject?_append [_] (by simp)] at ends
    · simp [hasDoubledCombinator] at single

-- A compound before a step and a proper chain makes a proper chain.
theorem cons (members : Compound) {rest : Chain} (proper : rest.pastStep.Proper) :
    Proper (.compound members :: rest) := by
  obtain ⟨members', rest', past⟩ := proper.exists_eq_cons
  rcases rest with _ | ⟨_ | kind, rest⟩
  · simp [Chain.pastStep] at past
  · refine ⟨rfl, ?_, proper.single⟩
    rw [← List.singleton_append, subject?_append [_] (by simp)]
    exact proper.ends
  · obtain rfl : rest = .compound members' :: rest' := past
    refine ⟨rfl, ?_, proper.single⟩
    rw [← List.singleton_append, subject?_append [_] (by simp), ← List.singleton_append,
      subject?_append [_] (by simp)]
    exact proper.ends

/-- A proper chain may be cut at any compound. -/
theorem append_iff (before after : Chain) (members : Compound) :
    Proper (before ++ .compound members :: after) ↔
      Proper (before ++ [.compound members]) ∧ Proper (.compound members :: after) := by
  have ends : (subject? (before ++ .compound members :: after)).isSome =
      (subject? (.compound members :: after)).isSome := by
    rw [subject?_append before (by simp)]
  constructor
  · rintro ⟨begins, isSome, single⟩
    rw [step_append_compound] at begins
    rw [hasDoubledCombinator_append_compound, Bool.or_eq_false_iff] at single
    constructor
    · refine ⟨by rwa [step_append_compound], by simp, ?_⟩
      rw [hasDoubledCombinator_append_compound, single.1]
      rfl
    · exact ⟨rfl, ends ▸ isSome, single.2⟩
  · rintro ⟨⟨begins, _, single⟩, ⟨_, isSome, single'⟩⟩
    rw [step_append_compound] at begins
    rw [hasDoubledCombinator_append_compound, Bool.or_eq_false_iff] at single
    refine ⟨by rwa [step_append_compound], ends ▸ isSome, ?_⟩
    rw [hasDoubledCombinator_append_compound, single.1, Bool.false_or]
    exact single'

/-- Proper chains are built from their subject upwards. -/
theorem induct {motive : (chain : Chain) → chain.Proper → Prop}
    (subject : ∀ members, motive [.compound members] (Proper.subject members))
    (onward : ∀ members (rest : Chain) (_ : rest ≠ []) (past : rest.pastStep.Proper),
      motive rest.pastStep past → motive (.compound members :: rest) (cons members past))
    (chain : Chain) (proper : chain.Proper) : motive chain proper := by
  obtain ⟨members, rest, rfl⟩ := proper.exists_eq_cons
  by_cases more : rest = []
  · subst more
    exact subject members
  · have shorter : rest.pastStep.length < rest.length + 1 :=
      Nat.lt_succ_of_le rest.pastStep_suffix.length_le
    have past := proper.pastStep more
    exact onward members rest more past (induct subject onward rest.pastStep past)
termination_by chain.length

end Proper

end Chain

end Selectors
