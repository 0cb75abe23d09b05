import Mathlib.Data.List.NodupEquivFin
import Selectors.Proofs.Covering.Descent
import Selectors.Rules

/-!
# Covering as embedding

The walk takes the first compound that will do and never goes back. Among plain chains of
compounds alone nothing is lost by that: a chain covers another just when its compounds can be
placed on compounds of the other in any way that keeps their order and ends in the subject. So
covering is reflexive and transitive there.
-/
namespace Selectors

/-! ### Places -/

section

variable {α : Type} {r : α → α → Prop} {xs ys zs : List α} {x y : α}

/-- The items of the first list are related to items of the second at places that increase, and
the last item to the last. -/
def Embeds (r : α → α → Prop) (xs ys : List α) : Prop :=
  ∃ place : Fin xs.length → Fin ys.length, StrictMono place ∧
    (∃ last, last.val + 1 = xs.length ∧ (place last).val + 1 = ys.length) ∧
    ∀ i, r (xs.get i) (ys.get (place i))

/-- Items found in their order are found at places that increase. -/
theorem Fits.iff_places :
    Fits r xs ys ↔ ∃ place : Fin xs.length → Fin ys.length, StrictMono place ∧
      ∀ i, r (xs.get i) (ys.get (place i)) := by
  constructor
  · intro fits
    obtain ⟨found, related, isSublist⟩ := List.sublistForall₂_iff.mp fits
    obtain ⟨place, same⟩ := List.sublist_iff_exists_fin_orderEmbedding_get_eq.mp isSublist
    have length := related.length_eq
    refine ⟨fun i => place (i.cast length), fun i j less => place.strictMono less, fun i => ?_⟩
    rw [← same]
    exact related.get i.isLt (i.cast length).isLt
  · rintro ⟨place, increasing, related⟩
    have length : (List.ofFn fun i => ys.get (place i)).length = xs.length := List.length_ofFn
    refine List.sublistForall₂_iff.mpr ⟨List.ofFn fun i => ys.get (place i), ?_, ?_⟩
    · refine List.forall₂_iff_get.mpr ⟨length.symm, fun i inside _ => ?_⟩
      simpa using related ⟨i, inside⟩
    · have increasing' : StrictMono fun i => place (Fin.cast length i) := fun i j less =>
        increasing less
      refine List.sublist_iff_exists_fin_orderEmbedding_get_eq.mpr
        ⟨OrderEmbedding.ofStrictMono _ increasing', fun i => ?_⟩
      simp only [List.get_ofFn]
      rfl

namespace Embeds

theorem refl (related : ∀ x ∈ xs, r x x) (nonempty : xs ≠ []) : Embeds r xs xs := by
  have positive := List.length_pos_iff.mpr nonempty
  have length : xs.length - 1 + 1 = xs.length := by omega
  exact ⟨id, strictMono_id, ⟨⟨xs.length - 1, by omega⟩, length, length⟩, fun i =>
    related _ (xs.get_mem i)⟩

theorem trans (compose : ∀ x y z, r x y → r y z → r x z) (first : Embeds r xs ys)
    (second : Embeds r ys zs) : Embeds r xs zs := by
  obtain ⟨place, increasing, ⟨last, isLast, atLast⟩, related⟩ := first
  obtain ⟨place', increasing', ⟨last', isLast', atLast'⟩, related'⟩ := second
  refine ⟨place' ∘ place, increasing'.comp increasing, ⟨last, isLast, ?_⟩, fun i =>
    compose _ _ _ (related i) (related' (place i))⟩
  have same : place last = last' := Fin.ext (by omega)
  rwa [Function.comp_apply, same]

theorem imp {r' : α → α → Prop} (embeds : Embeds r xs ys)
    (stronger : ∀ x ∈ xs, ∀ y ∈ ys, r x y → r' x y) : Embeds r' xs ys := by
  obtain ⟨place, increasing, last, related⟩ := embeds
  exact ⟨place, increasing, last, fun i =>
    stronger _ (xs.get_mem i) _ (ys.get_mem (place i)) (related i)⟩

/-- With a last item on either side, the other items only have to be found in their order. -/
theorem append_iff : Embeds r (xs ++ [x]) (ys ++ [y]) ↔ Fits r xs ys ∧ r x y := by
  rw [Fits.iff_places]
  constructor
  · rintro ⟨place, increasing, ⟨last, isLast, atLast⟩, related⟩
    simp only [List.length_append, List.length_singleton] at isLast atLast
    have before (i : Fin xs.length) : i.val < (xs ++ [x]).length := by
      simp only [List.length_append, List.length_singleton]
      omega
    -- what stands before the last item is placed before the last place
    have earlier (i : Fin xs.length) : (place ⟨i, before i⟩).val < ys.length := by
      have less : (⟨i, before i⟩ : Fin (xs ++ [x]).length) < last := Fin.lt_def.mpr (by
        show i.val < last.val
        omega)
      have := Fin.lt_def.mp (increasing less)
      omega
    refine ⟨⟨fun i => ⟨place ⟨i, before i⟩, earlier i⟩, fun i j less => ?_, fun i => ?_⟩, ?_⟩
    · have := increasing (show (⟨i, before i⟩ : Fin (xs ++ [x]).length) < ⟨j, before j⟩ from less)
      exact this
    · have here := related ⟨i, before i⟩
      simpa [List.getElem_append_left, earlier i] using here
    · have here := related last
      obtain rfl : last = ⟨xs.length, by simp⟩ := Fin.ext (by simpa using isLast)
      have there : (place ⟨xs.length, by simp⟩).val = ys.length := by simpa using atLast
      simpa [there] using here
  · rintro ⟨⟨place, increasing, related⟩, ends⟩
    refine ⟨fun i => if inside : i.val < xs.length
      then ⟨place ⟨i, inside⟩, by simp only [List.length_append]; omega⟩
      else ⟨ys.length, by simp⟩, fun i j less => ?_, ⟨⟨xs.length, by simp⟩, by simp, by simp⟩, fun i => ?_⟩
    · have less := Fin.lt_def.mp less
      have bound := j.isLt
      simp only [List.length_append, List.length_singleton] at bound
      have inside : i.val < xs.length := by omega
      by_cases inside' : j.val < xs.length
      · simpa [inside, inside'] using increasing (show (⟨i, inside⟩ : Fin xs.length) < ⟨j, inside'⟩ from less)
      · simp [inside, inside']
    · by_cases inside : i.val < xs.length
      · simpa [inside, List.getElem_append_left] using related ⟨i, inside⟩
      · have bound := i.isLt
        simp only [List.length_append, List.length_singleton] at bound
        have isLast : i.val = xs.length := by omega
        simpa [inside, isLast] using ends

end Embeds

end

/-! ### Plain compounds -/

theorem Simple.bare_of_plain {simple : Simple} (plain : simple.depth = 0) : simple.bare = simple := by
  rcases simple with _ | _ | ⟨_, _, _, _ | ⟨_, _⟩⟩ | _ | _ | _ | _ | _
  case pseudo.some => cases plain
  all_goals rfl

theorem Simple.isPlainPseudoElement_of_plain {simple : Simple} (plain : simple.depth = 0) :
    simple.isPlainPseudoElement = simple.isPseudoElement := by
  rcases simple with _ | _ | ⟨_, _, _, _ | ⟨_, _⟩⟩ | _ | _ | _ | _ | _
  case pseudo.some => cases plain
  all_goals simp [isPlainPseudoElement, isPseudoElement, nested?]

namespace Compound

/-- Among plain simple selectors equality is identity. -/
theorem contains_plain_iff {compound : Compound} {simple : Simple} (plain : compound.depth = 0)
    (plain' : simple.depth = 0) : compound.contains simple = true ↔ simple ∈ compound := by
  rw [List.contains_iff_exists_mem_beq]
  constructor
  · rintro ⟨member, isMember, equal⟩
    have same := Simple.beq_iff_bare.mp equal
    rw [Simple.bare_of_plain plain',
      Simple.bare_of_plain (Simple.depth_eq_zero_of_mem plain isMember)] at same
    exact same ▸ isMember
  · intro isMember
    exact ⟨simple, isMember, BEq.rfl⟩

/-- Each member of the first compound is one of the second, and each pseudo-element of the second
is one of the first. -/
structure IsMetBy (first second : Compound) : Prop where
  members : first ⊆ second
  pseudoElements : ∀ simple ∈ second, simple.isPseudoElement = true → simple ∈ first

theorem IsMetBy.refl (compound : Compound) : compound.IsMetBy compound :=
  ⟨List.Subset.refl compound, fun _ isMember _ => isMember⟩

instance : Std.Refl IsMetBy := ⟨IsMetBy.refl⟩

theorem IsMetBy.trans {first second third : Compound} (met : first.IsMetBy second)
    (met' : second.IsMetBy third) : first.IsMetBy third :=
  ⟨List.Subset.trans met.members met'.members, fun simple isMember isElement =>
    met.pseudoElements simple (met'.pseudoElements simple isMember isElement) isElement⟩

theorem covers_iff_isMetBy {first second : Compound} (plain : first.depth = 0)
    (plain' : second.depth = 0) {above : Chain} :
    first.covers second above = true ↔ first.IsMetBy second := by
  rw [covers_plain_iff plain plain']
  constructor
  · rintro ⟨members, pseudoElements⟩
    refine ⟨fun simple isMember => ?_, fun simple isMember isElement => ?_⟩
    · have plainSimple := Simple.depth_eq_zero_of_mem plain isMember
      exact (contains_plain_iff plain' plainSimple).mp (members simple isMember)
    · have plainSimple := Simple.depth_eq_zero_of_mem plain' isMember
      rw [← Simple.isPlainPseudoElement_of_plain plainSimple] at isElement
      exact (contains_plain_iff plain plainSimple).mp (pseudoElements simple isMember isElement)
  · intro met
    refine ⟨fun simple isMember => ?_, fun simple isMember isElement => ?_⟩
    · have plainSimple := Simple.depth_eq_zero_of_mem plain isMember
      exact (contains_plain_iff plain' plainSimple).mpr (met.members isMember)
    · have plainSimple := Simple.depth_eq_zero_of_mem plain' isMember
      rw [Simple.isPlainPseudoElement_of_plain plainSimple] at isElement
      exact (contains_plain_iff plain plainSimple).mpr (met.pseudoElements simple isMember isElement)

end Compound

/-! ### Plain chains of compounds -/

namespace Chain

/-- Compounds alone, none of which holds a nested list. -/
structure IsDescent (chain : Chain) : Prop where
  free : ∀ component ∈ chain, component.isCombinator = false
  plain : chain.depth = 0

/-- The compounds in reading order. -/
def compounds (chain : Chain) : List Compound := chain.filterMap Component.members?

@[simp] theorem compounds_descend (members : List Compound) : compounds (descend members) = members := by
  induction members with
  | nil => rfl
  | cons first rest ih => exact congrArg (first :: ·) ih

theorem covers_iff_embeds {chain other : Chain} (descent : chain.IsDescent)
    (descent' : other.IsDescent) :
    chain.covers other = true ↔ Embeds Compound.IsMetBy chain.compounds other.compounds := by
  obtain ⟨compounds₁, rfl⟩ := exists_eq_descend descent.free
  obtain ⟨compounds₂, rfl⟩ := exists_eq_descend descent'.free
  rw [compounds_descend, compounds_descend]
  have plain {compounds : List Compound} (descent : (descend compounds).IsDescent) :
      ∀ members ∈ compounds, members.depth = 0 := fun members isMember =>
    Compound.depth_eq_zero_of_mem descent.plain (mem_descend.mpr isMember)
  rcases List.eq_nil_or_concat' compounds₁ with rfl | ⟨before₁, subject₁, rfl⟩
  · constructor
    · intro covers
      simp [Chain.covers, coversBy, subject?] at covers
    · rintro ⟨_, _, ⟨last, _⟩, _⟩
      exact last.elim0
  rcases List.eq_nil_or_concat' compounds₂ with rfl | ⟨before₂, subject₂, rfl⟩
  · constructor
    · intro covers
      simp [Chain.covers, coversBy, subject?] at covers
    · rintro ⟨place, _, ⟨last, _⟩, _⟩
      exact (place last).elim0
  rw [covers_descend_iff descent.plain, ← Embeds.append_iff]
  constructor
  · intro embeds
    exact embeds.imp fun first isFirst second isSecond covers =>
      (Compound.covers_iff_isMetBy (plain descent first isFirst) (plain descent' second isSecond)).mp covers
  · intro embeds
    exact embeds.imp fun first isFirst second isSecond met =>
      (Compound.covers_iff_isMetBy (plain descent first isFirst) (plain descent' second isSecond)).mpr met

theorem compounds_ne_nil {chain : Chain} (descent : chain.IsDescent) (nonempty : chain ≠ []) :
    chain.compounds ≠ [] := by
  obtain ⟨compounds, rfl⟩ := exists_eq_descend descent.free
  rw [compounds_descend]
  rintro rfl
  exact nonempty rfl

end Chain

namespace SelectorList

/-- Among lists of plain chains of compounds alone, one covers another just when each alternative
of the other has one of the list embedded in it, with the subject on the subject. Such a list
covers itself, and covering carries over from list to list. -/
theorem covers_embedding_iff (first second : SelectorList)
    (descent₁ : ∀ complex ∈ first.alternatives, Chain.IsDescent complex.components)
    (descent₂ : ∀ complex ∈ second.alternatives, Chain.IsDescent complex.components) :
    (first.covers second = true ↔
      ∀ other ∈ second.alternatives, ∃ candidate ∈ first.alternatives,
        Embeds Compound.IsMetBy (Chain.compounds candidate.components)
          (Chain.compounds other.components)) ∧
      ((∀ complex ∈ first.alternatives, complex.components ≠ []) → first.covers first = true) ∧
      ∀ third : SelectorList,
        (∀ complex ∈ third.alternatives, Chain.IsDescent complex.components) →
        first.covers second = true → second.covers third = true → first.covers third = true := by
  have decides {first second : SelectorList}
      (descent₁ : ∀ complex ∈ first.alternatives, Chain.IsDescent complex.components)
      (descent₂ : ∀ complex ∈ second.alternatives, Chain.IsDescent complex.components) :
      first.covers second = true ↔
        ∀ other ∈ second.alternatives, ∃ candidate ∈ first.alternatives,
          Embeds Compound.IsMetBy (Chain.compounds candidate.components)
            (Chain.compounds other.components) := by
    rw [covers_eq, Alternatives.covers_iff]
    refine forall₂_congr fun other isOther => exists_congr fun candidate => ?_
    exact and_congr_right fun isCandidate =>
      Chain.covers_iff_embeds (descent₁ candidate isCandidate) (descent₂ other isOther)
  refine ⟨decides descent₁ descent₂, fun nonempty => ?_, fun third descent₃ covers covers' => ?_⟩
  · apply (decides descent₁ descent₁).mpr
    intro complex isMember
    have some := Chain.compounds_ne_nil (descent₁ complex isMember) (nonempty complex isMember)
    exact ⟨complex, isMember, .refl (fun members _ => Compound.IsMetBy.refl members) some⟩
  · apply (decides descent₁ descent₃).mpr
    intro last isLast
    obtain ⟨middle, isMiddle, embeds'⟩ := (decides descent₂ descent₃).mp covers' last isLast
    obtain ⟨candidate, isCandidate, embeds⟩ := (decides descent₁ descent₂).mp covers middle isMiddle
    exact ⟨candidate, isCandidate, embeds.trans (fun _ _ _ => Compound.IsMetBy.trans) embeds'⟩

/-- The list `.z, .b .d::before`. -/
def elementBelowB : SelectorList :=
  ⟨[⟨[.compound [.className "z"]], false⟩,
    ⟨[.compound [.className "b"],
      .compound [.className "d", .pseudo ⟨"before", false, none, none⟩]], false⟩], none⟩

/-- The list `.a .b.x .b .d.y::before`. -/
def elementFarBelowB : SelectorList :=
  ⟨[⟨[.compound [.className "a"], .compound [.className "b", .className "x"],
      .compound [.className "b"],
      .compound [.className "d", .className "y", .pseudo ⟨"before", false, none, none⟩]], false⟩], none⟩

theorem elementBelowB_embeds :
    (∀ complex ∈ elementBelowB.alternatives, Chain.IsDescent complex.components) ∧
      (∀ complex ∈ elementFarBelowB.alternatives, Chain.IsDescent complex.components) ∧
      elementBelowB.covers elementFarBelowB = true ∧
      (∀ other ∈ elementFarBelowB.alternatives, ∃ candidate ∈ elementBelowB.alternatives,
        Embeds Compound.IsMetBy (Chain.compounds candidate.components)
          (Chain.compounds other.components)) ∧
      elementBelowB.covers elementBelowB = true := by
  have descent₁ : ∀ complex ∈ elementBelowB.alternatives, Chain.IsDescent complex.components := by
    intro complex isMember
    simp only [elementBelowB, List.mem_cons, List.not_mem_nil, or_false] at isMember
    rcases isMember with rfl | rfl <;> exact ⟨by decide, by decide⟩
  have descent₂ : ∀ complex ∈ elementFarBelowB.alternatives, Chain.IsDescent complex.components := by
    intro complex isMember
    obtain rfl := List.mem_singleton.mp isMember
    exact ⟨by decide, by decide⟩
  have covers : elementBelowB.covers elementFarBelowB = true := by decide
  obtain ⟨decides, reflexive, _⟩ := covers_embedding_iff elementBelowB elementFarBelowB descent₁ descent₂
  exact ⟨descent₁, descent₂, covers, decides.mp covers, reflexive (by simp [elementBelowB])⟩

end SelectorList

end Selectors
