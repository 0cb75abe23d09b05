import Selectors.Proofs.Covering.Descent
import Selectors.Proofs.Unification.Merge
import Selectors.Proofs.Unification.Siblings

/-!
# Unification and covering

Where chains hold no combinators, both of them are seen to cover each chain of their
unification. The merged subject has the members of both subjects, and what is woven of the
compounds before them holds either sequence in its order, so the walk finds it there.
-/
namespace Selectors

/-- Neither `*` nor a pseudo-element, and without a nested list. -/
structure Simple.IsOrdinary (simple : Simple) : Prop where
  named : simple ≠ .universal
  onElement : simple.isPseudoElement = false
  single : simple.nested? = none

theorem Simple.IsOrdinary.depth_eq_zero {simple : Simple} (ordinary : simple.IsOrdinary) :
    simple.depth = 0 := by
  have single := ordinary.single
  rcases simple with _ | _ | ⟨_, _, _, _ | _⟩ | _ | _ | _ | _ | _
  case pseudo.some => cases single
  all_goals rfl

namespace Compound

/-- A compound whose members are members of the other covers it. -/
theorem covers_of_within {compound other : Compound}
    (ordinary : ∀ simple ∈ compound, simple.IsOrdinary)
    (ordinary' : ∀ simple ∈ other, simple.IsOrdinary) (within : compound.Within other)
    (above : Chain) : compound.covers other above = true := by
  have plain : compound.depth = 0 :=
    Nat.le_zero.mp (depth_le_iff.mpr fun simple member => (ordinary simple member).depth_eq_zero.le)
  have plain' : other.depth = 0 :=
    Nat.le_zero.mp (depth_le_iff.mpr fun simple member => (ordinary' simple member).depth_eq_zero.le)
  refine (covers_plain_iff plain plain').mpr ⟨fun simple member => ?_, fun simple member isElement => ?_⟩
  · exact (within simple member).resolve_left fun isUniversal =>
      (ordinary simple member).named (Simple.beq_universal_iff.mp isUniversal)
  · have := (ordinary' simple member).onElement
    simp [Simple.isPlainPseudoElement, this] at isElement

end Compound

namespace Chain

/-! ### Woven compounds -/

theorem weaveBackwards_descend (outer₁ outer₂ : List Compound) :
    weaveBackwards (descend outer₁) (descend outer₂) =
      if outer₁.isEmpty || descend outer₁ == descend outer₂ then some [(descend outer₂).reverse]
      else if outer₂.isEmpty then some [(descend outer₁).reverse]
      else some [(descend outer₁).reverse ++ (descend outer₂).reverse,
        (descend outer₂).reverse ++ (descend outer₁).reverse] := by
  rcases outer₁ with _ | ⟨members₁, outer₁⟩ <;> rcases outer₂ with _ | ⟨members₂, outer₂⟩ <;>
    unfold weaveBackwards <;> rfl

theorem within_of_beq {compounds compounds' : List Compound}
    (equal : (descend compounds == descend compounds') = true) :
    List.Forall₂ Compound.Within compounds compounds' := by
  induction compounds generalizing compounds' with
  | nil =>
    cases compounds' with
    | nil => exact .nil
    | cons => cases equal
  | cons members rest ih =>
    cases compounds' with
    | nil => cases equal
    | cons members' rest' =>
      rw [descend_cons, descend_cons, List.cons_beq_cons, Bool.and_eq_true] at equal
      have first : (members == members') = true := by
        rw [← Compound.same_eq_beq]
        exact equal.1
      have joins := Compound.joins_of_beq first
      exact .cons (Compound.within_of_joins joins (refl_of Compound.Within members')).1 (ih equal.2)

/-- What is woven of compounds holds those of either chain in their order, and no others. -/
theorem fits_of_weave {before₁ before₂ : List Compound} {woven : List Chain} {chain : Chain}
    (weaves : weave (descend before₁) (descend before₂) = some woven) (isWoven : chain ∈ woven) :
    ∃ before, chain = descend before ∧ before ⊆ before₁ ++ before₂ ∧
      Fits Compound.Within before₁ before ∧ Fits Compound.Within before₂ before := by
  rw [weave, ← descend_reverse, ← descend_reverse, weaveBackwards_descend] at weaves
  simp only [← descend_reverse, List.reverse_reverse] at weaves
  split at weaves
  next same =>
    -- the second chain stands for both
    obtain rfl := Option.some.inj weaves
    obtain rfl := List.mem_singleton.mp isWoven
    refine ⟨before₂, rfl, List.subset_append_right _ _, ?_, Fits.refl before₂⟩
    rcases Bool.or_eq_true_iff.mp same with empty | equal
    · obtain rfl : before₁ = [] := by simpa using empty
      exact .nil
    · exact Fits.of_forall₂ (List.forall₂_reverse_iff.mp (within_of_beq equal))
  next =>
    split at weaves
    next empty =>
      obtain rfl : before₂ = [] := by simpa using empty
      obtain rfl := Option.some.inj weaves
      obtain rfl := List.mem_singleton.mp isWoven
      exact ⟨before₁, rfl, List.subset_append_left _ _, Fits.refl before₁, .nil⟩
    next =>
      obtain rfl := Option.some.inj weaves
      have found (before after : List Compound) : Fits Compound.Within before (before ++ after) :=
        (List.sublist_append_left before after).sublistForall₂
      have follows (before after : List Compound) : Fits Compound.Within after (before ++ after) :=
        (List.sublist_append_right before after).sublistForall₂
      simp only [List.mem_cons, List.not_mem_nil, or_false, ← descend_append] at isWoven
      rcases isWoven with rfl | rfl
      · exact ⟨_, rfl, List.Subset.refl _, found before₁ before₂, follows before₁ before₂⟩
      · exact ⟨_, rfl, by simp, follows before₂ before₁, found before₂ before₁⟩

/-! ### Unifications are covered -/

/-- Compounds of ordinary simple selectors alone. -/
def IsOrdinary (chain : Chain) : Prop :=
  ∀ component ∈ chain, ∃ members, component = .compound members ∧
    ∀ simple ∈ members, simple.IsOrdinary

theorem IsOrdinary.exists_eq_descend {chain : Chain} (ordinary : chain.IsOrdinary) :
    ∃ compounds, chain = descend compounds ∧
      ∀ members ∈ compounds, ∀ simple ∈ members, simple.IsOrdinary := by
  have free : ∀ component ∈ chain, component.isCombinator = false := by
    intro component isComponent
    obtain ⟨members, rfl, -⟩ := ordinary component isComponent
    rfl
  obtain ⟨compounds, rfl⟩ := Chain.exists_eq_descend free
  refine ⟨compounds, rfl, fun members isMember => ?_⟩
  obtain ⟨_, same, each⟩ := ordinary (.compound members) (mem_descend.mpr isMember)
  obtain rfl := Component.compound.inj same
  exact each

theorem covers_of_fits {before before' : List Compound} {subject subject' : Compound}
    (ordinary : ∀ members ∈ before ++ [subject], ∀ simple ∈ members, simple.IsOrdinary)
    (ordinary' : ∀ members ∈ before' ++ [subject'], ∀ simple ∈ members, simple.IsOrdinary)
    (fits : Fits Compound.Within before before') (within : subject.Within subject') :
    Chain.covers (descend (before ++ [subject])) (descend (before' ++ [subject'])) = true := by
  have plain : (descend (before ++ [subject])).depth = 0 := by
    refine Nat.le_zero.mp (depth_le_iff.mpr fun members isMember => Compound.depth_le_iff.mpr ?_)
    exact fun simple isSimple =>
      (ordinary members (mem_descend.mp isMember) simple isSimple).depth_eq_zero.le
  refine (covers_descend_iff plain).mpr ⟨fits.imp_of_mem fun members isMember members' isMember' => ?_,
    Compound.covers_of_within (ordinary subject (by simp)) (ordinary' subject' (by simp)) within []⟩
  exact fun within => Compound.covers_of_within (ordinary members (by simp [isMember]))
    (ordinary' members' (by simp [isMember'])) within []

/-- Both chains are seen to cover each chain of their unification. -/
theorem covers_of_unify {chain₁ chain₂ chain : Chain} {chains : List Chain}
    (ordinary₁ : chain₁.IsOrdinary) (ordinary₂ : chain₂.IsOrdinary)
    (unifies : unify chain₁ chain₂ = some chains) (isUnified : chain ∈ chains) :
    chain₁.covers chain = true ∧ chain₂.covers chain = true := by
  obtain ⟨compounds₁, rfl, each₁⟩ := ordinary₁.exists_eq_descend
  obtain ⟨compounds₂, rfl, each₂⟩ := ordinary₂.exists_eq_descend
  rcases List.eq_nil_or_concat' compounds₁ with rfl | ⟨before₁, subject₁, rfl⟩
  · simp [unify] at unifies
  rcases List.eq_nil_or_concat' compounds₂ with rfl | ⟨before₂, subject₂, rfl⟩
  · simp [unify] at unifies
  rw [descend_append, descend_append] at unifies
  obtain ⟨subject, merges, unifies⟩ :=
    Option.bind_eq_some_iff.mp (unify_append_compound _ _ subject₁ subject₂ ▸ unifies)
  obtain ⟨woven, weaves, rfl⟩ := Option.map_eq_some_iff.mp unifies
  obtain ⟨_, isWoven, rfl⟩ := List.mem_map.mp isUnified
  obtain ⟨before, rfl, others, fits₁, fits₂⟩ := fits_of_weave weaves isWoven
  obtain ⟨within₁, within₂⟩ :=
    Compound.within_of_joins (Compound.joins_of_merge merges) (refl_of Compound.Within subject)
  -- weaving and merging bring no other members than those of the two chains
  have each : ∀ members ∈ before ++ [subject], ∀ simple ∈ members, simple.IsOrdinary := by
    intro members isMember simple isSimple
    rcases List.mem_append.mp isMember with inFront | isSubject
    · rcases List.mem_append.mp (others inFront) with inFront | inFront
      · exact each₁ members (List.mem_append_left _ inFront) simple isSimple
      · exact each₂ members (List.mem_append_left _ inFront) simple isSimple
    · obtain rfl := List.mem_singleton.mp isSubject
      rcases List.mem_append.mp (Compound.subset_of_merge merges isSimple) with isSimple | isSimple
      · exact each₁ subject₁ (by simp) simple isSimple
      · exact each₂ subject₂ (by simp) simple isSimple
  have whole : descend before ++ [.compound subject] = descend (before ++ [subject]) :=
    (descend_append before [subject]).symm
  rw [whole]
  exact ⟨covers_of_fits each₁ each fits₁ within₁,
    covers_of_fits each₂ each fits₂ within₂⟩

end Chain

namespace SelectorList

/-- Where both lists consist of compounds alone, without nested lists, `*` or pseudo-elements,
both are seen to cover their unification. -/
theorem unify_covers (first second unified : SelectorList)
    (ordinary₁ : ∀ complex ∈ first.alternatives, Chain.IsOrdinary complex.components)
    (ordinary₂ : ∀ complex ∈ second.alternatives, Chain.IsOrdinary complex.components)
    (unifies : first.unify second = some unified) :
    first.covers unified = true ∧ second.covers unified = true := by
  rw [covers_eq, covers_eq, Alternatives.covers_iff, Alternatives.covers_iff]
  have each (complex : Complex) (isUnified : complex ∈ unified.alternatives) :
      ∃ complex₁ ∈ first.alternatives, ∃ complex₂ ∈ second.alternatives,
        Chain.covers complex₁.components complex.components = true ∧
          Chain.covers complex₂.components complex.components = true := by
    obtain ⟨complex₁, member₁, complex₂, member₂, chains, answers, isChain⟩ :=
      mem_unify unifies isUnified
    exact ⟨complex₁, member₁, complex₂, member₂, Chain.covers_of_unify (ordinary₁ complex₁ member₁)
      (ordinary₂ complex₂ member₂) answers isChain⟩
  constructor
  · intro complex isUnified
    obtain ⟨complex₁, member₁, _, _, covers, _⟩ := each complex isUnified
    exact ⟨complex₁, member₁, covers⟩
  · intro complex isUnified
    obtain ⟨_, _, complex₂, member₂, _, covers⟩ := each complex isUnified
    exact ⟨complex₂, member₂, covers⟩

/-- The list `.a .b, p`. -/
def belowAOrParagraph : SelectorList :=
  ⟨[⟨[.compound [.className "a"], .compound [.className "b"]], false⟩,
    ⟨[.compound [.typeName "p"]], false⟩], none⟩

/-- The list `.c .x.b`. -/
def belowCOfX : SelectorList :=
  ⟨[⟨[.compound [.className "c"], .compound [.className "x", .className "b"]], false⟩], none⟩

theorem belowAOrParagraph_covers :
    ∃ unified,
      (∀ complex ∈ belowAOrParagraph.alternatives, Chain.IsOrdinary complex.components) ∧
      (∀ complex ∈ belowCOfX.alternatives, Chain.IsOrdinary complex.components) ∧
      belowAOrParagraph.unify belowCOfX = some unified ∧ unified.alternatives.length = 3 ∧
      belowAOrParagraph.covers unified = true ∧ belowCOfX.covers unified = true := by
  have named (name : String) : Simple.IsOrdinary (.className name) := ⟨by simp, rfl, rfl⟩
  have ordinary₁ : ∀ complex ∈ belowAOrParagraph.alternatives,
      Chain.IsOrdinary complex.components := by
    have paragraph : Simple.IsOrdinary (.typeName "p") := ⟨by simp, rfl, rfl⟩
    simp [belowAOrParagraph, Chain.IsOrdinary, named, paragraph]
  have ordinary₂ : ∀ complex ∈ belowCOfX.alternatives, Chain.IsOrdinary complex.components := by
    simp [belowCOfX, Chain.IsOrdinary, named]
  exact ⟨_, ordinary₁, ordinary₂, rfl, rfl,
    unify_covers belowAOrParagraph belowCOfX _ ordinary₁ ordinary₂ rfl⟩

end SelectorList

end Selectors
