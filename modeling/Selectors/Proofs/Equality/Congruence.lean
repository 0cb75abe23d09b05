import Selectors.Proofs.Equality.Nesting
import Selectors.Proofs.Equality.Unification

/-!
# Equality as a congruence

Lists that differ in spans and line breaks alone are equal, and no operation tells them apart:
they cover the same lists, have equal unifications and expand to equal selectors. Only the place
of a failure may differ.
-/
namespace Selectors

/-- Two computations with one mirror both succeed or both fail, and then with the same error but
for its place. -/
theorem Diagnosed.Mirrors.outcomes {α α' : Type} {change : α → α'} {mirror : Diagnosed α'}
    {computation computation' : Diagnosed α} (mirrors : Mirrors change mirror computation)
    (mirrors' : Mirrors change mirror computation') :
    (∃ value value', computation.result = .ok value ∧ computation'.result = .ok value' ∧
        change value = change value') ∨
      ∃ error error', computation.result = .error error ∧ computation'.result = .error error' ∧
        error.unplaced = error'.unplaced := by
  have same : change <$> computation.unplaced = change <$> computation'.unplaced :=
    mirrors.symm.trans mirrors'
  have same := congrArg result same
  obtain ⟨error | value, warnings⟩ := computation <;>
    obtain ⟨error' | value', warnings'⟩ := computation'
  case error.error => exact .inr ⟨error, error', rfl, rfl, Except.error.inj same⟩
  case ok.ok => exact .inl ⟨value, value', rfl, rfl, Except.ok.inj same⟩
  all_goals cases same

namespace SelectorList

variable {list₁ list₁' list₂ list₂' : SelectorList}

theorem covers_bare (list₁ list₂ : SelectorList) : list₁.bare.covers list₂.bare = list₁.covers list₂ :=
  Alternatives.covers_bare list₁.alternatives list₂.alternatives

theorem nestIn_bare (child parent : SelectorList) (implicit : Bool) :
    Diagnosed.Mirrors SelectorList.bare (child.bare.nestIn parent.bare implicit)
      (child.nestIn parent implicit) := by
  refine ((nest_bare parent.alternatives).alternatives child.alternatives implicit _ _).bind
    fun alternatives => ?_
  have warnings := Alternatives.combinatorWarnings_bare alternatives
  exact (Diagnosed.Mirrors.warn warnings).bind fun _ => .pure (⟨alternatives, child.span⟩ : SelectorList)

theorem covers_congr (same₁ : list₁.bare = list₁'.bare) (same₂ : list₂.bare = list₂'.bare) :
    list₁.covers list₂ = list₁'.covers list₂' := by
  rw [← covers_bare list₁, same₁, same₂, covers_bare]

theorem unify_congr (same₁ : list₁.bare = list₁'.bare) (same₂ : list₂.bare = list₂'.bare) :
    Option.Rel (fun list list' => (list == list') = true) (list₁.unify list₂)
      (list₁'.unify list₂') := by
  have same : (list₁.unify list₂).map bare = (list₁'.unify list₂').map bare := by
    rw [← unify_bare list₁, same₁, same₂, unify_bare]
  cases unified : list₁.unify list₂ with
  | none =>
    rw [unified, Option.map_none, eq_comm, Option.map_eq_none_iff] at same
    rw [same]
    exact .none
  | some list =>
    rw [unified, Option.map_some, eq_comm, Option.map_eq_some_iff] at same
    obtain ⟨list', unified', same⟩ := same
    rw [unified']
    exact .some (beq_iff_bare.mpr same.symm)

theorem nest_congr (same₁ : list₁.bare = list₁'.bare) (same₂ : list₂.bare = list₂'.bare)
    (implicit : Bool) :
    (∃ list list', (list₁.nest (some list₂) implicit).result = .ok list ∧
        (list₁'.nest (some list₂') implicit).result = .ok list' ∧ (list == list') = true) ∨
      ∃ error error', (list₁.nest (some list₂) implicit).result = .error error ∧
        (list₁'.nest (some list₂') implicit).result = .error error' ∧
        error.unplaced = error'.unplaced := by
  have mirrors := nestIn_bare list₁ list₂ implicit
  have mirrors' := nestIn_bare list₁' list₂' implicit
  rw [← same₁, ← same₂] at mirrors'
  simp only [beq_iff_bare]
  exact mirrors.outcomes mirrors'

/-- Two lists are equal just when they become identical without their spans and line breaks.
Then they have one digest and one text, and in no operation does it matter which of them is
used: the answers are equal, and so are errors but for their places. -/
theorem beq_congr (list₁ list₁' list₂ list₂' : SelectorList) :
    ((list₁ == list₁') = true ↔ list₁.bare = list₁'.bare) ∧
      ((list₁ == list₁') = true → hash list₁ = hash list₁' ∧ list₁.text = list₁'.text) ∧
      ((list₁ == list₁') = true → (list₂ == list₂') = true →
        list₁.covers list₂ = list₁'.covers list₂' ∧
        Option.Rel (fun list list' => (list == list') = true) (list₁.unify list₂)
          (list₁'.unify list₂') ∧
        ∀ implicit,
          (∃ list list', (list₁.nest (some list₂) implicit).result = .ok list ∧
              (list₁'.nest (some list₂') implicit).result = .ok list' ∧ (list == list') = true) ∨
            ∃ error error', (list₁.nest (some list₂) implicit).result = .error error ∧
              (list₁'.nest (some list₂') implicit).result = .error error' ∧
              error.unplaced = error'.unplaced) := by
  refine ⟨beq_iff_bare, fun equal => ⟨LawfulHashable.hash_eq _ _ equal, text_eq_of_beq equal⟩, ?_⟩
  intro equal₁ equal₂
  have same₁ := beq_iff_bare.mp equal₁
  have same₂ := beq_iff_bare.mp equal₂
  exact ⟨covers_congr same₁ same₂, unify_congr same₁ same₂, nest_congr same₁ same₂⟩

/-- The rule `.a:is(&.b) > .c`, written at a place, with or without a line end after it and in
the argument. -/
def ruleWritten (place : Option Span) (lineBreak : Bool) : SelectorList :=
  ⟨[⟨[.compound [.className "a", .pseudo ⟨"is", true, none,
        some ⟨[⟨[.compound [.parent none, .className "b"]], lineBreak⟩], place⟩⟩],
      .combinator .child, .compound [.className "c"]], lineBreak⟩], place⟩

theorem ruleWritten_congr :
    let first := ruleWritten (some ⟨none, 3, 1⟩) true
    let second := ruleWritten none false
    first.span ≠ second.span ∧ first.bare = second.bare ∧ (first == second) = true ∧
      hash first = hash second ∧ first.text = second.text ∧
      first.covers second = second.covers first ∧
      Option.Rel (fun list list' => (list == list') = true) (first.unify second)
        (second.unify first) ∧
      ((∃ list list', (first.nest (some second) true).result = .ok list ∧
          (second.nest (some first) true).result = .ok list' ∧ (list == list') = true) ∨
        ∃ error error', (first.nest (some second) true).result = .error error ∧
          (second.nest (some first) true).result = .error error' ∧
          error.unplaced = error'.unplaced) := by
  intro first second
  have equal : (first == second) = true := rfl
  have equal' : (second == first) = true := rfl
  obtain ⟨bare, digests, answers⟩ := beq_congr first second second first
  obtain ⟨covers, unify, nest⟩ := answers equal equal'
  exact ⟨by decide, bare.mp equal, equal, (digests equal).1, (digests equal).2, covers, unify, nest true⟩

end SelectorList

end Selectors
