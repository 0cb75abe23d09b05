import Mathlib.Data.Multiset.Bind
import Selectors.Proofs.Unification.Completeness
import Selectors.Proofs.Unification.Conservation

/-!
# Unification in either order

Which of two lists comes first decides the order of the members of merged compounds and the order
of the woven chains. It decides nothing else, as long as a compound says what it says in an orderly
way.
-/
namespace Selectors

/-! ### Compounds as sets -/

namespace Compound

/-- The members as a set, up to equality. `*` counts only where nothing else stands. -/
def reading (compound : Compound) : Set Simple :=
  {simple | simple ∈ compound.bare ∧
    (simple = .universal → ∀ other ∈ compound.bare, other = .universal)}

variable {first second merged : Compound}

theorem reading_subset (named : ∀ simple ≠ .universal, simple ∈ first.bare ↔ simple ∈ second.bare)
    (nonempty : first ≠ [] → second ≠ []) : first.reading ⊆ second.reading := by
  rintro simple ⟨isMember, alone⟩
  by_cases isUniversal : simple = .universal
  · subst isUniversal
    -- all members of the second compound are `*` too, and it has one
    have only : ∀ other ∈ second.bare, other = .universal := by
      intro other isOther
      by_contra otherNamed
      exact otherNamed (alone rfl other ((named other otherNamed).mpr isOther))
    have more : second.bare ≠ [] := by
      rw [bare_eq_map, ne_eq, List.map_eq_nil_iff]
      apply nonempty
      rintro rfl
      cases isMember
    obtain ⟨other, isOther⟩ := List.exists_mem_of_ne_nil _ more
    obtain rfl := only other isOther
    exact ⟨isOther, fun _ => only⟩
  · exact ⟨(named simple isUniversal).mp isMember, fun same => (isUniversal same).elim⟩

theorem reading_congr (named : ∀ simple ≠ .universal, simple ∈ first.bare ↔ simple ∈ second.bare)
    (empty : first = [] ↔ second = []) : first.reading = second.reading :=
  Set.Subset.antisymm (reading_subset named (mt empty.mpr))
    (reading_subset (fun simple isNamed => (named simple isNamed).symm) (mt empty.mp))

theorem reading_bare (compound : Compound) : reading compound.bare = compound.reading := by
  rw [reading, Induction.members bare_bare]
  rfl

theorem mem_bare_iff {compound : Compound} {simple : Simple} :
    simple ∈ compound.bare ↔ ∃ member ∈ compound, member.bare = simple := by
  rw [bare_eq_map, List.mem_map]

/-- A merge reads like both compounds side by side. -/
theorem reading_merge (merges : merge first second = some merged) :
    merged.reading = reading (first ++ second) := by
  apply reading_congr
  · intro simple named
    have named' {member : Simple} (same : member.bare = simple) : member ≠ .universal := by
      rintro rfl
      exact named same.symm
    rw [mem_bare_iff, mem_bare_iff]
    constructor
    · rintro ⟨member, isMember, same⟩
      exact ⟨member, subset_of_merge merges isMember, same⟩
    · rintro ⟨member, isMember, same⟩
      rcases List.mem_append.mp isMember with isMember | isMember
      · exact ⟨member, mem_merge_of_mem merges (named' same) isMember, same⟩
      · obtain ⟨member', isMember', equal⟩ :=
          List.contains_iff_exists_mem_beq.mp (contains_merge merges (named' same) isMember)
        exact ⟨member', isMember', (Simple.beq_iff_bare.mp equal).symm.trans same⟩
  · constructor
    · rintro rfl
      by_contra nonempty
      rw [List.append_eq_nil_iff, not_and_or] at nonempty
      exact ne_nil_of_merge merges nonempty rfl
    · intro empty
      obtain ⟨rfl, rfl⟩ := List.append_eq_nil_iff.mp empty
      exact (Option.some.inj merges).symm

theorem reading_append_comm (first second : Compound) :
    reading (first ++ second) = reading (second ++ first) := by
  apply reading_congr
  · intro simple _
    simp only [mem_bare_iff, List.mem_append, or_comm]
  · simp only [List.append_eq_nil_iff, and_comm]

theorem merge_eq_none_comm (orderly₁ : first.Orderly) (orderly₂ : second.Orderly) :
    merge first second = none ↔ merge second first = none := by
  rw [merge_eq_none_iff orderly₁.agrees orderly₂.agrees (fun _ _ _ => orderly₁.leads) orderly₂.leads,
    merge_eq_none_iff orderly₂.agrees orderly₁.agrees (fun _ _ _ => orderly₂.leads) orderly₁.leads]
  constructor <;>
  · rintro ⟨simple, isSimple, member, isMember, clashes⟩
    exact ⟨member, isMember, simple, isSimple, Simple.clashes_comm simple member ▸ clashes⟩

/-- Orderly compounds are merged alike in either order. -/
theorem reading_merge_comm (orderly₁ : first.Orderly) (orderly₂ : second.Orderly) :
    (merge first second).map reading = (merge second first).map reading := by
  have refused := merge_eq_none_comm orderly₁ orderly₂
  cases merges : merge first second with
  | none => rw [refused.mp merges]
  | some merged =>
    cases merges' : merge second first with
    | none =>
      rw [refused.mpr merges'] at merges
      cases merges
    | some merged' =>
      rw [Option.map_some, Option.map_some, reading_merge merges, reading_merge merges',
        reading_append_comm]

end Compound

/-! ### Chains -/

def Component.reading : Component → Set Simple ⊕ Combinator
  | compound members => .inl (Compound.reading members)
  | combinator kind => .inr kind

namespace Chain

/-- The chain with its compounds read as sets. -/
def reading (chain : Chain) : List (Set Simple ⊕ Combinator) := chain.map Component.reading

/-- The readings of some chains, in no order. -/
def readings (chains : List Chain) : Multiset (List (Set Simple ⊕ Combinator)) :=
  (chains : Multiset Chain).map reading

/-- All compounds of the chain itself are orderly. -/
def IsOrderly (chain : Chain) : Prop :=
  ∀ members, .compound members ∈ chain → Compound.Orderly members

variable {chain₁ chain₂ : Chain}

theorem reading_append (before after : Chain) :
    reading (before ++ after) = before.reading ++ after.reading :=
  List.map_append

theorem reading_of_beq (equal : (chain₁ == chain₂) = true) : chain₁.reading = chain₂.reading := by
  have bare (chain : Chain) : reading chain.bare = chain.reading := by
    rw [reading, bare_eq_map, List.map_map]
    refine List.map_congr_left fun component _ => ?_
    cases component with
    | compound members => exact congrArg Sum.inl (Compound.reading_bare members)
    | combinator kind => rfl
  rw [← bare chain₁, beq_iff_bare.mp equal, bare]

theorem readings_single (chain : Chain) : readings [chain] = {chain.reading} := rfl

theorem readings_append (chains chains' : List Chain) :
    readings (chains ++ chains') = readings chains + readings chains' := by
  rw [readings, ← Multiset.coe_add, Multiset.map_add]
  rfl

theorem readings_swap (chain₁ chain₂ : Chain) :
    readings [chain₁, chain₂] = readings [chain₂, chain₁] :=
  congrArg (Multiset.map reading) (Multiset.coe_eq_coe.mpr (.swap chain₂ chain₁ []))

theorem readings_map_append (chains : List Chain) (after : Chain) :
    readings (chains.map (· ++ after)) = (readings chains).map (· ++ after.reading) := by
  simp only [readings, Multiset.map_coe, List.map_map, Function.comp_def, reading_append]

-- What is woven, before a merged compound and the same chain each time.
theorem readings_bind (merged : Option Compound) (woven : Option (List Chain)) (after : Chain) :
    (merged.bind fun members => woven.map fun chains =>
        chains.map (· ++ .compound members :: after)).map readings =
      (merged.map Compound.reading).bind fun members => (woven.map readings).map fun chains =>
        chains.map (· ++ .inl members :: after.reading) := by
  cases merged with
  | none => rfl
  | some members =>
    cases woven with
    | none => rfl
    | some chains => exact congrArg some (readings_map_append chains (.compound members :: after))

theorem beq_comm (chain₁ chain₂ : Chain) : (chain₁ == chain₂) = (chain₂ == chain₁) := by
  rw [Bool.eq_iff_iff, beq_iff_bare, beq_iff_bare, eq_comm]

theorem IsOrderly.mono (orderly : chain₁.IsOrderly) (subset : chain₂ ⊆ chain₁) : chain₂.IsOrderly :=
  fun members isMember => orderly members (subset isMember)

theorem weaveBackwards_of_beq (equal : (chain₁ == chain₂) = true) :
    weaveBackwards chain₁ chain₂ = some [List.reverse chain₂] := by
  rw [weaveBackwards.eq_def, if_pos (by rw [equal, Bool.or_true])]

/-- Chains of orderly compounds are woven alike in either order. -/
theorem readings_weaveBackwards_comm (orderly₁ : chain₁.IsOrderly) (orderly₂ : chain₂.IsOrderly) :
    (weaveBackwards chain₁ chain₂).map readings = (weaveBackwards chain₂ chain₁).map readings := by
  -- where the first two questions are answered `no`, so are they in the other order
  have other {chain₁ chain₂ : Chain} (unlike : ¬(chain₁.isEmpty || chain₁ == chain₂) = true)
      (more : ¬chain₂.isEmpty = true) :
      ¬(chain₂.isEmpty || chain₂ == chain₁) = true ∧ ¬chain₁.isEmpty = true := by
    simp only [Bool.or_eq_true, not_or] at unlike ⊢
    exact ⟨⟨more, beq_comm chain₁ chain₂ ▸ unlike.2⟩, unlike.1⟩
  fun_induction weaveBackwards chain₁ chain₂ with
  | case1 chain₁ chain₂ trivial =>
    rcases Bool.or_eq_true_iff.mp trivial with empty | equal
    · obtain rfl := List.isEmpty_iff.mp empty
      rw [weaveBackwards_nil_right]
    · rw [weaveBackwards_of_beq (beq_comm chain₁ chain₂ ▸ equal), Option.map_some, Option.map_some,
        readings_single, readings_single, reading_of_beq (beq_reverse equal)]
  | case2 chain₁ chain₂ _ empty =>
    obtain rfl := List.isEmpty_iff.mp empty
    rw [weaveBackwards_nil_left]
  | case3 members₁ outer₁ kind members₂ outer₂ more unlike ih =>
    -- one combinator binds both chains, so the merge and what is woven above it come in either order
    obtain ⟨unlike', _⟩ := other unlike more
    have merges := Compound.reading_merge_comm (orderly₁ members₁ (by simp)) (orderly₂ members₂ (by simp))
    have weaves := ih (orderly₁.mono fun _ isOuter => by simp [isOuter])
      (orderly₂.mono fun _ isOuter => by simp [isOuter])
    have bind : (do
        let members ← Compound.merge members₁ members₂
        let woven ← weaveBackwards outer₁ outer₂
        return woven.map (· ++ [.compound members, .combinator kind])) =
        (Compound.merge members₁ members₂).bind fun members =>
          (weaveBackwards outer₁ outer₂).map fun woven =>
            woven.map (· ++ [.compound members, .combinator kind]) := by
      simp only [Option.map_eq_bind]
      rfl
    rw [Bool.or_eq_true, not_or] at unlike'
    rw [weaveBackwards_bound, if_neg unlike'.2, if_pos rfl, bind, readings_bind, readings_bind, merges, weaves]
  | case4 kind₁ members₁ outer₁ kind₂ members₂ outer₂ different more unlike =>
    obtain ⟨unlike', more'⟩ := other unlike more
    rw [weaveBackwards.eq_def, if_neg unlike', if_neg more']
    exact (congrArg (Option.map readings) (if_neg (Ne.symm different))).symm
  | case5 kind₁ rest₁ kind₂ rest₂ apart more unlike =>
    obtain ⟨unlike', more'⟩ := other unlike more
    rw [weaveBackwards.eq_def, if_neg unlike', if_neg more']
    rcases rest₁ with _ | ⟨_ | _, _⟩ <;> rcases rest₂ with _ | ⟨_ | _, _⟩
    case cons.compound.cons.compound => exact (apart _ _ _ _ rfl rfl).elim
    all_goals rfl
  | case6 chain₂ more kind rest _ noCombinator unlike =>
    -- the chain that is bound comes last in either order
    obtain ⟨unlike', more'⟩ := other unlike more
    rw [weaveBackwards.eq_def chain₂, if_neg unlike', if_neg more']
    rcases chain₂ with _ | ⟨_ | _, _⟩
    case nil => exact (more rfl).elim
    case cons.combinator => exact (noCombinator _ _ rfl).elim
    case cons.compound => rfl
  | case7 chain₁ kind rest _ noCombinator unlike more =>
    obtain ⟨unlike', more'⟩ := other unlike more
    rw [weaveBackwards.eq_def (.combinator kind :: rest), if_neg unlike', if_neg more']
    rcases chain₁ with _ | ⟨_ | _, _⟩
    case nil => exact (more' rfl).elim
    case cons.combinator => exact (noCombinator _ _ rfl).elim
    case cons.compound => rcases rest with _ | ⟨_ | _, _⟩ <;> rfl
  | case8 chain₁ chain₂ unlike more noCombinator₁ noCombinator₂ =>
    -- neither chain is bound, so both orders come out
    obtain ⟨unlike', more'⟩ := other unlike more
    rw [weaveBackwards.eq_def chain₂, if_neg unlike', if_neg more']
    rcases chain₁ with _ | ⟨_ | _, _⟩
    case nil => exact (more' rfl).elim
    case cons.combinator => exact (noCombinator₁ _ _ rfl).elim
    case cons.compound =>
      rcases chain₂ with _ | ⟨_ | _, _⟩
      case nil => exact (more rfl).elim
      case cons.combinator => exact (noCombinator₂ _ _ rfl).elim
      case cons.compound => exact congrArg some (readings_swap _ _)

/-- Chains of orderly compounds are unified alike in either order. -/
theorem readings_unify_comm (orderly₁ : chain₁.IsOrderly) (orderly₂ : chain₂.IsOrderly) :
    (unify chain₁ chain₂).map readings = (unify chain₂ chain₁).map readings := by
  have refused {chain other : Chain} (ends : ¬chain.subject?.isSome) :
      unify chain other = none ∧ unify other chain = none := by
    have split : chain.splitSubject? = none := by simpa [subject?] using ends
    rw [unify, unify, split]
    refine ⟨rfl, ?_⟩
    cases other.splitSubject? <;> rfl
  by_cases ends₁ : chain₁.subject?.isSome
  · by_cases ends₂ : chain₂.subject?.isSome
    · obtain ⟨before₁, subject₁, rfl⟩ := subject?_isSome_iff.mp ends₁
      obtain ⟨before₂, subject₂, rfl⟩ := subject?_isSome_iff.mp ends₂
      have merges := Compound.reading_merge_comm (orderly₁ subject₁ (by simp)) (orderly₂ subject₂ (by simp))
      have weaves : (weave before₁ before₂).map readings = (weave before₂ before₁).map readings :=
        readings_weaveBackwards_comm (orderly₁.mono fun _ isBefore => by simp_all)
          (orderly₂.mono fun _ isBefore => by simp_all)
      rw [unify_append_compound, unify_append_compound, readings_bind, readings_bind, merges, weaves]
    · rw [(refused ends₂).1, (refused ends₂).2]
  · rw [(refused ends₁).1, (refused ends₁).2]

end Chain

/-! ### Lists -/

namespace SelectorList

/-- The readings of the alternatives, in no order. -/
def readings (list : SelectorList) : Multiset (List (Set Simple ⊕ Combinator)) :=
  Chain.readings (list.alternatives.map Complex.components)

theorem readings_answers (answers : List (Option (List Chain))) :
    Chain.readings (answers.filterMap id).flatten =
      (answers : Multiset (Option (List Chain))).bind fun answer =>
        (answer.map Chain.readings).getD 0 := by
  induction answers with
  | nil => rfl
  | cons answer rest ih =>
    rw [← Multiset.cons_coe, Multiset.cons_bind, ← ih]
    cases answer with
    | none => exact (zero_add _).symm
    | some chains => exact Chain.readings_append chains _

/-- The readings of what the rule answers for the pairs of alternatives, of which there may be none. -/
def unifiedReadings (first second : SelectorList) : Multiset (List (Set Simple ⊕ Combinator)) :=
  (first.alternatives : Multiset Complex).bind fun complex₁ =>
    (second.alternatives : Multiset Complex).bind fun complex₂ =>
      ((Chain.unify complex₁.components complex₂.components).map Chain.readings).getD 0

theorem readings_pairs (first second : SelectorList) :
    Chain.readings (((pairs first second).map fun pair => Chain.unify pair.1 pair.2).filterMap id).flatten =
      unifiedReadings first second := by
  rw [readings_answers, ← Multiset.map_coe, Multiset.bind_map, pairs, ← Multiset.coe_bind,
    Multiset.bind_assoc]
  refine Multiset.bind_congr fun complex₁ _ => ?_
  rw [← Multiset.map_coe, Multiset.bind_map]

/-- There is a unification if the rule answers a chain for some pair. -/
theorem readings_unify (first second : SelectorList) :
    (first.unify second).map readings =
      if unifiedReadings first second = 0 then none else some (unifiedReadings first second) := by
  rw [unify_eq, ← readings_pairs]
  have nonempty : ∀ chain ∈ (((pairs first second).map fun pair =>
      Chain.unify pair.1 pair.2).filterMap id).flatten, (!chain.isEmpty) = true := by
    intro chain isChain
    obtain ⟨chains, isAnswer, isChain⟩ := List.mem_flatten.mp isChain
    obtain ⟨answer, isAnswer, same⟩ := List.mem_filterMap.mp isAnswer
    obtain ⟨pair, _, rfl⟩ := List.mem_map.mp isAnswer
    obtain ⟨_, _, before, _, _, subject, _, _, rfl, _⟩ := Chain.woven_of_unify same isChain
    simp
  unfold ofAnswers
  rw [List.filter_eq_self.mpr nonempty]
  generalize (((pairs first second).map fun pair =>
    Chain.unify pair.1 pair.2).filterMap id).flatten = chains
  cases chains with
  | nil => rfl
  | cons chain rest =>
    have more : Chain.readings (chain :: rest) ≠ 0 := by simp [Chain.readings]
    rw [if_neg more]
    simp [ofAlternatives, Except.toOption, readings, Function.comp_def]

/-- Lists of orderly compounds are unified alike in either order: either way there is a unification
or there is none, and the alternatives are the same but for their order and that of members. -/
theorem unify_comm (first second : SelectorList)
    (orderly₁ : ∀ complex ∈ first.alternatives, Chain.IsOrderly complex.components)
    (orderly₂ : ∀ complex ∈ second.alternatives, Chain.IsOrderly complex.components) :
    (first.unify second).map readings = (second.unify first).map readings := by
  -- the pairs are the same ones, only the other list varies slowest
  have swapped : unifiedReadings first second = unifiedReadings second first := by
    rw [unifiedReadings, Multiset.bind_bind]
    refine Multiset.bind_congr fun complex₂ isSecond => Multiset.bind_congr fun complex₁ isFirst => ?_
    rw [Chain.readings_unify_comm (orderly₁ complex₁ (Multiset.mem_coe.mp isFirst))
      (orderly₂ complex₂ (Multiset.mem_coe.mp isSecond))]
  rw [readings_unify, readings_unify, swapped]

/-- The list `.a *`. -/
def anyBelowA : SelectorList :=
  ⟨[⟨[.compound [.className "a"], .compound [.universal]], false⟩], none⟩

/-- The list `.b p, .c > #d`. -/
def paragraphOrChild : SelectorList :=
  ⟨[⟨[.compound [.className "b"], .compound [.typeName "p"]], false⟩,
    ⟨[.compound [.className "c"], .combinator .child, .compound [.idName "d"]], false⟩], none⟩

/-- The list `.a .b p, .b .a p, .a .c > #d`. -/
def paragraphOrChildBelowA : SelectorList :=
  ⟨[⟨[.compound [.className "a"], .compound [.className "b"], .compound [.typeName "p"]], false⟩,
    ⟨[.compound [.className "b"], .compound [.className "a"], .compound [.typeName "p"]], false⟩,
    ⟨[.compound [.className "a"], .compound [.className "c"], .combinator .child,
      .compound [.idName "d"]], false⟩], none⟩

theorem paragraphOrChildBelowA_comm :
    (∀ complex ∈ anyBelowA.alternatives, Chain.IsOrderly complex.components) ∧
      (∀ complex ∈ paragraphOrChild.alternatives, Chain.IsOrderly complex.components) ∧
      anyBelowA.unify paragraphOrChild = some paragraphOrChildBelowA ∧
      (paragraphOrChild.unify anyBelowA == some paragraphOrChildBelowA) = false ∧
      (paragraphOrChild.unify anyBelowA).map readings = some paragraphOrChildBelowA.readings := by
  have single (simple : Simple) : Compound.Orderly [simple] := by
    refine ⟨by simp, ?_, ?_⟩
    · intro name name' isMember isMember'
      exact Simple.idName.inj
        ((List.mem_singleton.mp isMember).trans (List.mem_singleton.mp isMember').symm)
    · intro member member' isMember isMember' _ _
      rw [List.mem_singleton.mp isMember, List.mem_singleton.mp isMember']
      exact BEq.rfl
  have orderly₁ : ∀ complex ∈ anyBelowA.alternatives, Chain.IsOrderly complex.components := by
    simp [anyBelowA, Chain.IsOrderly, single]
  have orderly₂ : ∀ complex ∈ paragraphOrChild.alternatives, Chain.IsOrderly complex.components := by
    simp [paragraphOrChild, Chain.IsOrderly, single]
  have unifies : anyBelowA.unify paragraphOrChild = some paragraphOrChildBelowA := by rfl
  refine ⟨orderly₁, orderly₂, unifies, by decide, ?_⟩
  rw [← unify_comm anyBelowA paragraphOrChild orderly₁ orderly₂, unifies]
  rfl

end SelectorList

end Selectors
