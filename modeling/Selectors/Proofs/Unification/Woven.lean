import Selectors.Bare
import Selectors.Chain.Unification
import Selectors.Proofs.Chain.Shape

/-!
# Woven chains

However the weaving of two chains goes, each chain that comes out is put together from the two in one
of a few ways. What holds of all chains of a unification is proved along these ways.
-/
namespace Selectors

namespace Chain

/-- The ways in which two chains are put together before a merged subject. -/
inductive Woven : Chain → Chain → Chain → Prop
  | same {chain₁ chain₂ : Chain} (equal : (chain₁ == chain₂) = true) : Woven chain₁ chain₂ chain₂
  | onlyFirst (chain : Chain) : Woven chain [] chain
  | onlySecond (chain : Chain) : Woven [] chain chain
  /-- The compounds before a shared combinator are merged. -/
  | bound {outer₁ outer₂ outer : Chain} {members₁ members₂ members : Compound}
      (woven : Woven outer₁ outer₂ outer)
      (merges : Compound.merge members₁ members₂ = some members) (kind : Combinator) :
      Woven (outer₁ ++ [.compound members₁, .combinator kind])
        (outer₂ ++ [.compound members₂, .combinator kind])
        (outer ++ [.compound members, .combinator kind])
  /-- A chain that ends in a compound may stand above the other one. -/
  | firstAbove {chain₁ : Chain} (ends : chain₁.subject?.isSome) (chain₂ : Chain) :
      Woven chain₁ chain₂ (chain₁ ++ chain₂)
  | secondAbove (chain₁ : Chain) {chain₂ : Chain} (ends : chain₂.subject?.isSome) :
      Woven chain₁ chain₂ (chain₂ ++ chain₁)

theorem bare_reverse (chain : Chain) : Chain.bare (List.reverse chain) = List.reverse chain.bare := by
  rw [bare_eq_map, bare_eq_map, List.map_reverse]

theorem beq_reverse {chain₁ chain₂ : Chain} (equal : (chain₁ == chain₂) = true) :
    (List.reverse chain₁ == List.reverse chain₂) = true := by
  rw [beq_iff_bare, bare_reverse, bare_reverse, beq_iff_bare.mp equal]

theorem woven_of_weaveBackwards {chain₁ chain₂ chain : Chain} {chains : List Chain}
    (weaves : weaveBackwards chain₁ chain₂ = some chains) (isWoven : chain ∈ chains) :
    Woven chain₁.reverse chain₂.reverse chain := by
  fun_induction weaveBackwards chain₁ chain₂ generalizing chains chain with
  | case1 chain₁ chain₂ trivial =>
    obtain rfl := Option.some.inj weaves
    obtain rfl := List.mem_singleton.mp isWoven
    rcases Bool.or_eq_true_iff.mp trivial with empty | equal
    · obtain rfl := List.isEmpty_iff.mp empty
      exact .onlySecond _
    · exact .same (beq_reverse equal)
  | case2 chain₁ chain₂ _ empty =>
    obtain rfl := Option.some.inj weaves
    obtain rfl := List.mem_singleton.mp isWoven
    obtain rfl := List.isEmpty_iff.mp empty
    exact .onlyFirst _
  | case3 members₁ outer₁ kind members₂ outer₂ _ _ ih =>
    obtain ⟨members, merges, weaves⟩ := Option.bind_eq_some_iff.mp weaves
    obtain ⟨inner, weavesOuter, same⟩ := Option.bind_eq_some_iff.mp weaves
    obtain rfl := Option.some.inj same
    obtain ⟨outer, isOuter, rfl⟩ := List.mem_map.mp isWoven
    simp only [List.reverse_cons, List.append_assoc, List.cons_append, List.nil_append]
    exact .bound (ih weavesOuter isOuter) merges kind
  | case4 => cases weaves
  | case5 => cases weaves
  | case6 chain₂ nonempty kind rest _ noCombinator =>
    -- the combinator binds the first chain to the subject, so the second stands above both
    obtain rfl := Option.some.inj weaves
    obtain rfl := List.mem_singleton.mp isWoven
    exact .secondAbove _ (subject?_reverse_isSome nonempty noCombinator)
  | case7 chain₁ kind rest _ noCombinator nonempty =>
    obtain rfl := Option.some.inj weaves
    obtain rfl := List.mem_singleton.mp isWoven
    have nonempty : ¬chain₁.isEmpty = true := fun empty => nonempty (by simp [empty])
    exact .firstAbove (subject?_reverse_isSome nonempty noCombinator) _
  | case8 chain₁ chain₂ nonempty₁ nonempty₂ noCombinator₁ noCombinator₂ =>
    -- either chain may stand above the other
    obtain rfl := Option.some.inj weaves
    have nonempty₁ : ¬chain₁.isEmpty = true := fun empty => nonempty₁ (by simp [empty])
    simp only [List.mem_cons, List.not_mem_nil, or_false] at isWoven
    rcases isWoven with rfl | rfl
    · exact .firstAbove (subject?_reverse_isSome nonempty₁ noCombinator₁) _
    · exact .secondAbove _ (subject?_reverse_isSome nonempty₂ noCombinator₂)

/-- The chains of a unification hold what is woven before a merged subject. -/
theorem woven_of_unify {chain₁ chain₂ chain : Chain} {chains : List Chain}
    (unifies : unify chain₁ chain₂ = some chains) (isUnified : chain ∈ chains) :
    ∃ before₁ before₂ before subject₁ subject₂ subject,
      chain₁ = before₁ ++ [.compound subject₁] ∧ chain₂ = before₂ ++ [.compound subject₂] ∧
        chain = before ++ [.compound subject] ∧ Woven before₁ before₂ before ∧
          Compound.merge subject₁ subject₂ = some subject := by
  obtain ⟨⟨before₁, subject₁⟩, split₁, unifies⟩ := Option.bind_eq_some_iff.mp unifies
  obtain ⟨⟨before₂, subject₂⟩, split₂, unifies⟩ := Option.bind_eq_some_iff.mp unifies
  obtain ⟨subject, merges, unifies⟩ := Option.bind_eq_some_iff.mp unifies
  obtain ⟨woven, weaves, same⟩ := Option.bind_eq_some_iff.mp unifies
  obtain rfl := Option.some.inj same
  obtain ⟨before, isWoven, rfl⟩ := List.mem_map.mp isUnified
  have woven := woven_of_weaveBackwards weaves isWoven
  rw [List.reverse_reverse, List.reverse_reverse] at woven
  exact ⟨before₁, before₂, before, subject₁, subject₂, subject, splitSubject?_eq_some_iff.mp split₁,
    splitSubject?_eq_some_iff.mp split₂, rfl, woven, merges⟩

end Chain

end Selectors
