import Selectors.Proofs.Unification.Commutativity
import Selectors.Proofs.Unification.Siblings

/-!
# Unification with what is implied

A compound whose members are all members of another one adds nothing to it, and a chain with such a
subject adds nothing to a chain with the other, if the same stands before both subjects or nothing
before its own. The unification is then the one chain that says more, with all its members in their
order; in particular a list of one alternative is its own unification with itself.
-/
namespace Selectors

/-! ### Members that are there already -/

/-- Equality is identity but for pseudos, which may hold spans. -/
theorem Simple.eq_of_beq {simple other : Simple} (plain : simple.isPseudo = false)
    (equal : (simple == other) = true) : other = simple := by
  have bare {simple : Simple} (plain : simple.isPseudo = false) : simple.bare = simple := by
    cases simple <;> first | rfl | cases plain
  have same := beq_iff_bare.mp equal
  have plain' : other.isPseudo = false := by rw [← isPseudo_bare, ← same, isPseudo_bare, plain]
  rw [bare plain, bare plain'] at same
  exact same.symm

namespace Compound

variable {before : Simple → Bool} {simple : Simple} {compound implied : Compound}

theorem insert_of_contains (named : simple ≠ .universal) (contained : compound.contains simple = true) :
    insert before simple compound = compound := by
  unfold insert
  split
  · obtain ⟨member, isMember, equal⟩ := List.contains_iff_exists_mem_beq.mp contained
    obtain rfl := List.mem_singleton.mp isMember
    exact (named (Simple.beq_universal_iff.mp equal)).elim
  · exact if_pos contained

/-- Beside another member `*` says nothing. -/
theorem add_universal (nonempty : compound ≠ []) : add .universal compound = some compound := by
  rcases compound with _ | ⟨head, rest⟩
  · exact (nonempty rfl).elim
  · cases head <;> rfl

/-- A member that is there already is not added again. -/
theorem add_of_contains (leads : ∀ member ∈ compound.tail, member.isElemental = false)
    (oneId : ∀ name name', .idName name ∈ compound → .idName name' ∈ compound → name = name')
    (named : simple ≠ .universal) (contained : compound.contains simple = true) :
    add simple compound = some compound := by
  have kept (before : Simple → Bool) : insert before simple compound = compound :=
    insert_of_contains named contained
  cases simple
  case universal => exact (named rfl).elim
  case typeName name =>
    obtain ⟨member, isMember, equal⟩ := List.contains_iff_exists_mem_beq.mp contained
    obtain rfl := Simple.eq_of_beq rfl equal
    -- only at the head is a type name looked for
    obtain ⟨rest, rfl⟩ := eq_head_of_elemental leads isMember rfl
    simp [add, addElemental]
  case idName name =>
    obtain ⟨member, isMember, equal⟩ := List.contains_iff_exists_mem_beq.mp contained
    obtain rfl := Simple.eq_of_beq rfl equal
    have noOther : ¬compound.holdsOtherId name = true := by
      rw [holdsOtherId_iff]
      rintro ⟨other, isOther, clashes⟩
      rcases Simple.clashes_iff.mp clashes with ⟨_, _, same, _⟩ | ⟨_, name', same, rfl, different⟩ | same
      · cases same
      · obtain rfl := Simple.idName.inj same
        exact different (oneId name name' isMember isOther)
      · cases same.1
    simp [add, noOther, kept]
  case pseudo pseudo => simp [add, kept, contained]
  all_goals exact congrArg some (kept Simple.isPseudo)

/-- A compound that says no more than another one adds nothing to it. -/
theorem merge_of_within (nonempty : compound ≠ [])
    (leads : ∀ member ∈ compound.tail, member.isElemental = false)
    (oneId : ∀ name name', .idName name ∈ compound → .idName name' ∈ compound → name = name')
    (within : implied.Within compound) : merge compound implied = some compound := by
  induction implied with
  | nil => rfl
  | cons simple rest ih =>
    obtain ⟨here, others⟩ := List.forall_mem_cons.mp within
    have added : add simple compound = some compound := by
      by_cases isUniversal : simple = .universal
      · subst isUniversal
        exact add_universal nonempty
      · exact add_of_contains leads oneId isUniversal
          (here.resolve_left (mt Simple.beq_universal_iff.mp isUniversal))
    rw [merge_cons, added, Option.bind_some]
    exact ih others

end Compound

/-! ### Chains -/

namespace Chain

/-- Where one chain is empty or both are equal, nothing is woven. -/
theorem weave_of_nil_or_beq {chain₁ chain₂ : Chain} (placed : chain₂ = [] ∨ (chain₁ == chain₂) = true) :
    ∃ woven, weave chain₁ chain₂ = some [woven] ∧ (woven == chain₁) = true := by
  rcases placed with rfl | equal
  · refine ⟨chain₁, ?_, beq_iff_bare.mpr rfl⟩
    rw [weave, List.reverse_nil, weaveBackwards_nil_right, List.reverse_reverse]
  · refine ⟨chain₂, ?_, beq_comm chain₁ chain₂ ▸ equal⟩
    rw [weave, weaveBackwards_of_beq (beq_reverse equal), List.reverse_reverse]

/-- A chain with an implied subject changes nothing, if nothing stands before that subject or the
same as before the other. -/
theorem unify_of_within {before before' : Chain} {subject implied : Compound}
    (nonempty : subject ≠ []) (leads : ∀ simple ∈ subject.tail, simple.isElemental = false)
    (oneId : ∀ name name', .idName name ∈ subject → .idName name' ∈ subject → name = name')
    (within : implied.Within subject) (placed : before' = [] ∨ (before == before') = true) :
    ∃ chain, unify (before ++ [.compound subject]) (before' ++ [.compound implied]) = some [chain] ∧
      (chain == before ++ [.compound subject]) = true := by
  obtain ⟨woven, weaves, equal⟩ := weave_of_nil_or_beq placed
  refine ⟨woven ++ [.compound subject], ?_, ?_⟩
  · rw [unify_append_compound, Compound.merge_of_within nonempty leads oneId within, weaves]
    rfl
  · rw [beq_iff_bare] at equal ⊢
    rw [bare_append, bare_append, equal]

end Chain

/-! ### Lists -/

namespace SelectorList

theorem unify_single {first second : SelectorList} {complex₁ complex₂ : Complex} {chain : Chain}
    (single₁ : first.alternatives = [complex₁]) (single₂ : second.alternatives = [complex₂])
    (unifies : Chain.unify complex₁.components complex₂.components = some [chain])
    (nonempty : chain ≠ []) : first.unify second = some ⟨[⟨chain, false⟩], none⟩ := by
  simp [unify_eq, pairs, single₁, single₂, unifies, ofAnswers, nonempty, ofAlternatives,
    Except.toOption]

/-- Unifying a chain with one whose subject is implied by its own changes nothing, if before the
implied subject stands nothing or what stands before the other. In particular a list of one
alternative is its own unification with itself, whatever stands before its subject. The subject has
a member, as every compound has that the checked constructors make. -/
theorem unify_implied (before before' : Chain) (subject implied : Compound)
    (nonempty : subject ≠ []) (leads : ∀ simple ∈ subject.tail, simple.isElemental = false)
    (oneId : ∀ name name', .idName name ∈ subject → .idName name' ∈ subject → name = name')
    (within : ∀ simple ∈ implied, simple ≠ .universal → subject.contains simple = true)
    (placed : before' = [] ∨ (before == before') = true) :
    (∃ chain,
      Chain.unify (before ++ [.compound subject]) (before' ++ [.compound implied]) = some [chain] ∧
        (chain == before ++ [.compound subject]) = true) ∧
    ∀ (list : SelectorList) (complex : Complex),
      list.alternatives = [complex] → complex.components = before ++ [.compound subject] →
        ∃ unified, list.unify list = some unified ∧ (unified == list) = true := by
  constructor
  · refine Chain.unify_of_within nonempty leads oneId (fun simple isMember => ?_) placed
    by_cases isUniversal : simple = .universal
    · exact .inl (Simple.beq_universal_iff.mpr isUniversal)
    · exact .inr (within simple isMember isUniversal)
  · intro list complex single isComponents
    have self : (before == before) = true := Chain.beq_iff_bare.mpr rfl
    obtain ⟨chain, unifies, equal⟩ := Chain.unify_of_within nonempty leads oneId
      (refl_of Compound.Within subject) (.inr self)
    rw [← isComponents] at unifies equal
    refine ⟨⟨[⟨chain, false⟩], none⟩, unify_single single single unifies ?_, ?_⟩
    · rintro rfl
      rw [isComponents, Chain.beq_iff_bare] at equal
      simp [Chain.bare_eq_map] at equal
    · rw [Chain.beq_iff_bare] at equal
      simp [beq_iff_bare, bare, single, Alternatives.bare_eq_map, Complex.bare, equal]

/-- The chain `:is(.q) >`, with the argument written here. -/
def childOfIsQ (span : Option Span) : Chain :=
  [.compound [.pseudo ⟨"is", true, none, some ⟨[⟨[.compound [.className "q"]], false⟩], span⟩⟩],
    .combinator .child]

/-- The compound `p#i:hover::before`. -/
def paragraphBeforeHovered : Compound :=
  [.typeName "p", .idName "i", .pseudo ⟨"hover", true, none, none⟩,
    .pseudo ⟨"before", false, none, none⟩]

/-- The compound `*::before#i`. -/
def anyBefore : Compound := [.universal, .pseudo ⟨"before", false, none, none⟩, .idName "i"]

theorem paragraphBeforeHovered_unify_implied :
    paragraphBeforeHovered ≠ [] ∧
      (∀ simple ∈ paragraphBeforeHovered.tail, simple.isElemental = false) ∧
      (∀ name name', .idName name ∈ paragraphBeforeHovered → .idName name' ∈ paragraphBeforeHovered →
        name = name') ∧
      (∀ simple ∈ anyBefore, simple ≠ .universal → paragraphBeforeHovered.contains simple = true) ∧
      (childOfIsQ (some ⟨none, 1, 1⟩) == childOfIsQ none) = true ∧
      ∃ chain,
        Chain.unify (childOfIsQ (some ⟨none, 1, 1⟩) ++ [.compound paragraphBeforeHovered])
            (childOfIsQ none ++ [.compound anyBefore]) = some [chain] ∧
          (chain == childOfIsQ (some ⟨none, 1, 1⟩) ++ [.compound paragraphBeforeHovered]) = true := by
  have leads : ∀ simple ∈ paragraphBeforeHovered.tail, simple.isElemental = false := by decide
  have oneId : ∀ name name', .idName name ∈ paragraphBeforeHovered →
      .idName name' ∈ paragraphBeforeHovered → name = name' := by
    simp [paragraphBeforeHovered]
  have within : ∀ simple ∈ anyBefore, simple ≠ .universal →
      paragraphBeforeHovered.contains simple = true := by
    simp only [anyBefore, List.forall_mem_cons]
    refine ⟨fun named => (named rfl).elim, fun _ => by decide, fun _ => by decide, by simp⟩
  have equal : (childOfIsQ (some ⟨none, 1, 1⟩) == childOfIsQ none) = true := by decide
  exact ⟨List.cons_ne_nil _ _, leads, oneId, within, equal,
    (unify_implied _ _ _ _ (List.cons_ne_nil _ _) leads oneId within (.inr equal)).1⟩

end SelectorList

end Selectors
