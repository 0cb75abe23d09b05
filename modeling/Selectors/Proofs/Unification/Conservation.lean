import Selectors.Deep
import Selectors.Proofs.Unification.Merge
import Selectors.Proofs.Unification.Woven

/-!
# What unification keeps

Unification cuts two chains apart and puts the parts together anew. No member is lost on the way,
but for `*`, and none is added; and no combinator comes to stand first or beside another one, unless
one did before.
-/
namespace Selectors

namespace Chain

/-! ### Members -/

/-- Some compound of the chain contains the simple selector. -/
def Contains (chain : Chain) (simple : Simple) : Prop :=
  chain.Has (·.contains simple = true)

theorem contains_append {before after : Chain} {simple : Simple} :
    Contains (before ++ after) simple ↔ before.Contains simple ∨ after.Contains simple := by
  simp only [Contains, Has, List.mem_append, or_and_right, exists_or]

theorem contains_single {members : Compound} {simple : Simple} :
    Contains [.compound members] simple ↔ members.contains simple = true := by
  simp only [Contains, has_compound, not_has_nil, or_false]

theorem contains_bare {chain : Chain} {simple : Simple} :
    Contains chain.bare simple.bare ↔ chain.Contains simple := by
  induction chain with
  | nil => simp [Contains, Chain.bare]
  | cons component rest ih =>
    cases component with
    | compound members =>
      simp only [Contains, Chain.bare, has_compound, Compound.contains_bare] at ih ⊢
      rw [ih]
    | combinator kind => simpa only [Contains, Chain.bare, has_combinator] using ih

theorem contains_of_beq {chain₁ chain₂ : Chain} (equal : (chain₁ == chain₂) = true) {simple : Simple} :
    chain₁.Contains simple ↔ chain₂.Contains simple := by
  rw [← contains_bare, beq_iff_bare.mp equal, contains_bare]

/-- The last chain has the members of the first two, of which `*` may be missing, and no others. -/
structure Conserves (chain₁ chain₂ chain : Chain) : Prop where
  kept : ∀ simple ≠ .universal, chain₁.Contains simple ∨ chain₂.Contains simple → chain.Contains simple
  given : ∀ simple, chain.Contains simple → chain₁.Contains simple ∨ chain₂.Contains simple

namespace Conserves

variable {chain₁ chain₂ chain : Chain}

theorem symm (conserves : Conserves chain₁ chain₂ chain) : Conserves chain₂ chain₁ chain where
  kept simple named contained := conserves.kept simple named contained.symm
  given simple contained := (conserves.given simple contained).symm

theorem append {after₁ after₂ after : Chain} (conserves : Conserves chain₁ chain₂ chain)
    (conserves' : Conserves after₁ after₂ after) :
    Conserves (chain₁ ++ after₁) (chain₂ ++ after₂) (chain ++ after) where
  kept simple named := by
    simp only [contains_append, or_or_or_comm]
    exact Or.imp (conserves.kept simple named) (conserves'.kept simple named)
  given simple := by
    simp only [contains_append, or_or_or_comm]
    exact Or.imp (conserves.given simple) (conserves'.given simple)

theorem concat (chain₁ chain₂ : Chain) : Conserves chain₁ chain₂ (chain₁ ++ chain₂) where
  kept _ _ := contains_append.mpr
  given _ := contains_append.mp

theorem of_beq (equal : (chain₁ == chain₂) = true) : Conserves chain₁ chain₂ chain₂ where
  kept _ _ := Or.rec (contains_of_beq equal).mp id
  given _ := Or.inr

theorem of_merge {members₁ members₂ members : Compound}
    (merges : Compound.merge members₁ members₂ = some members) :
    Conserves [.compound members₁] [.compound members₂] [.compound members] where
  kept simple named := by
    simp only [contains_single]
    exact (Compound.contains_merge_iff merges named).mpr
  given simple := by
    simp only [contains_single, List.contains_iff_exists_mem_beq]
    rintro ⟨member, isMember, equal⟩
    have from' := List.mem_append.mp (Compound.subset_of_merge merges isMember)
    exact from'.imp (⟨member, ·, equal⟩) (⟨member, ·, equal⟩)

/-- Weaving loses no member but `*` and adds none. -/
theorem of_woven (woven : Woven chain₁ chain₂ chain) : Conserves chain₁ chain₂ chain := by
  induction woven with
  | same equal => exact of_beq equal
  | onlyFirst chain => simpa using concat chain []
  | onlySecond chain => exact concat [] chain
  | @bound outer₁ outer₂ outer members₁ members₂ members _ merges kind ih =>
    -- the combinator has no members
    have combinator : Conserves [.combinator kind] [.combinator kind] [.combinator kind] :=
      of_beq (beq_iff_bare.mpr rfl)
    exact ih.append ((of_merge merges).append combinator)
  | firstAbove _ chain₂ => exact concat _ chain₂
  | secondAbove chain₁ _ => exact (concat _ chain₁).symm

end Conserves

/-! ### Combinators -/

theorem step_of_woven {chain₁ chain₂ chain : Chain} (woven : Woven chain₁ chain₂ chain)
    (begins₁ : chain₁.step = none) (begins₂ : chain₂.step = none) : chain.step = none := by
  induction woven with
  | same | onlySecond => exact begins₂
  | onlyFirst => exact begins₁
  | bound _ _ _ ih =>
    rw [step_append_compound]
    exact ih (step_of_append begins₁) (step_of_append begins₂)
  | firstAbove ends =>
    -- a chain that ends in a compound is not empty, so it alone decides what stands first
    obtain ⟨before, subject, rfl⟩ := subject?_isSome_iff.mp ends
    rw [List.append_assoc, List.singleton_append, step_append_compound]
    exact step_of_append begins₁
  | secondAbove _ ends =>
    obtain ⟨before, subject, rfl⟩ := subject?_isSome_iff.mp ends
    rw [List.append_assoc, List.singleton_append, step_append_compound]
    exact step_of_append begins₂

theorem hasDoubledCombinator_above {chain₁ chain₂ : Chain} (ends : chain₁.subject?.isSome) :
    hasDoubledCombinator (chain₁ ++ chain₂) =
      (chain₁.hasDoubledCombinator || chain₂.hasDoubledCombinator) := by
  obtain ⟨before, subject, rfl⟩ := subject?_isSome_iff.mp ends
  rw [List.append_assoc, List.singleton_append, hasDoubledCombinator_append_compound,
    hasDoubledCombinator_append_compound]
  simp [hasDoubledCombinator]

theorem hasDoubledCombinator_of_woven {chain₁ chain₂ chain : Chain} (woven : Woven chain₁ chain₂ chain)
    (single₁ : chain₁.hasDoubledCombinator = false) (single₂ : chain₂.hasDoubledCombinator = false) :
    chain.hasDoubledCombinator = false := by
  induction woven with
  | same | onlySecond => exact single₂
  | onlyFirst => exact single₁
  | bound _ _ kind ih =>
    rw [hasDoubledCombinator_append_compound, Bool.or_eq_false_iff] at single₁ single₂ ⊢
    exact ⟨ih single₁.1 single₂.1, rfl⟩
  | firstAbove ends =>
    rw [hasDoubledCombinator_above ends, single₁, single₂]
    rfl
  | secondAbove _ ends =>
    rw [hasDoubledCombinator_above ends, single₁, single₂]
    rfl

/-- Each chain of a unification ends in a compound. It has the members of both chains, of which `*`
may be missing, and no others, and it neither begins with a combinator nor holds two side by side
unless one of the chains does. -/
theorem unify_conserves (chain₁ chain₂ chain : Chain) (chains : List Chain)
    (unifies : unify chain₁ chain₂ = some chains) (isUnified : chain ∈ chains) :
    chain.subject?.isSome ∧ Conserves chain₁ chain₂ chain ∧
      (chain₁.step = none → chain₂.step = none → chain.step = none) ∧
      (chain₁.hasDoubledCombinator = false → chain₂.hasDoubledCombinator = false →
        chain.hasDoubledCombinator = false) := by
  obtain ⟨before₁, before₂, before, subject₁, subject₂, subject, rfl, rfl, rfl, woven, merges⟩ :=
    woven_of_unify unifies isUnified
  refine ⟨by simp, (Conserves.of_woven woven).append (.of_merge merges), ?_, ?_⟩
  · intro begins₁ begins₂
    rw [step_append_compound]
    exact step_of_woven woven (step_of_append begins₁) (step_of_append begins₂)
  · intro single₁ single₂
    rw [hasDoubledCombinator_append_compound, Bool.or_eq_false_iff] at single₁ single₂ ⊢
    exact ⟨hasDoubledCombinator_of_woven woven single₁.1 single₂.1, rfl⟩

/-- The chain `.a > .b ~ *`. -/
def afterChildOfA : Chain :=
  [.compound [.className "a"], .combinator .child, .compound [.className "b"],
    .combinator .subsequentSibling, .compound [.universal]]

/-- The chain `p > .c.b ~ .d`. -/
def afterChildOfParagraph : Chain :=
  [.compound [.typeName "p"], .combinator .child, .compound [.className "c", .className "b"],
    .combinator .subsequentSibling, .compound [.className "d"]]

/-- The chain `p.a > .b.c ~ .d`. -/
def afterChildOfBoth : Chain :=
  [.compound [.typeName "p", .className "a"], .combinator .child,
    .compound [.className "b", .className "c"], .combinator .subsequentSibling,
    .compound [.className "d"]]

theorem afterChildOfBoth_conserves :
    unify afterChildOfA afterChildOfParagraph = some [afterChildOfBoth] ∧
      Conserves afterChildOfA afterChildOfParagraph afterChildOfBoth ∧
      ¬afterChildOfBoth.Contains .universal ∧ afterChildOfBoth.step = none ∧
      afterChildOfBoth.hasDoubledCombinator = false := by
  have unifies : unify afterChildOfA afterChildOfParagraph = some [afterChildOfBoth] := by rfl
  have replaced : ¬afterChildOfBoth.Contains .universal := by
    simp [afterChildOfBoth, Contains]
    decide
  obtain ⟨_, conserves, begins, single⟩ :=
    unify_conserves _ _ afterChildOfBoth _ unifies (List.mem_singleton_self _)
  exact ⟨unifies, conserves, replaced, begins rfl rfl, single rfl rfl⟩

end Chain

end Selectors
