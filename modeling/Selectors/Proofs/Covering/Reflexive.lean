import Selectors.Deep
import Selectors.Proofs.Covering.Anchored
import Selectors.Rules

/-!
# Covering of a list by itself

The walk along a chain and itself stays aligned: each compound is met at once, with nothing above
it, so only the pseudos with a nested list stand in question. Each family of pseudos accepts the
very list that it asks about where that list covers itself, which is shown by induction on the
nesting depth.
-/
namespace Selectors

/-- Whether something is known of what a pseudo with this name and of this kind says of its nested
list. -/
def Pseudo.isRead (pseudo : Pseudo) : Bool :=
  match pseudo.family with
  | .anyOf | .related | .noneOf | .current | .counted => pseudo.isClass
  | .slotted => !pseudo.isClass
  | .unknown => false

/-- Something is known of the pseudo-classes and of the pseudo-element with these bare names. -/
theorem Pseudo.isRead_iff {pseudo : Pseudo} :
    pseudo.isRead = true ↔
      pseudo.isClass = true ∧ pseudo.bareName ∈ ["is", "matches", "any", "where", "has", "host",
          "host-context", "not", "current", "nth-child", "nth-last-child"] ∨
        pseudo.isClass = false ∧ pseudo.bareName = "slotted" := by
  have families : pseudo.isRead = true ↔
      pseudo.isClass = true ∧ (pseudo.family = .anyOf ∨ pseudo.family = .related ∨
          pseudo.family = .noneOf ∨ pseudo.family = .current ∨ pseudo.family = .counted) ∨
        pseudo.isClass = false ∧ pseudo.family = .slotted := by
    unfold isRead
    cases pseudo.family <;> simp
  rw [families, family_eq_iff (by decide), family_eq_iff (by decide), family_eq_iff (by decide),
    family_eq_iff (by decide), family_eq_iff (by decide), family_eq_iff (by decide)]
  simp only [Family.names, List.mem_cons, List.not_mem_nil, or_false, or_assoc]

/-- Whether the simple selector holds no nested list of which nothing is known. -/
def Simple.isRead : Simple → Bool
  | .pseudo p => p.nested.isNone || p.isRead
  | _ => true

/-- A proper chain, and something is known of each nested list in it. -/
structure Chain.IsRegular (chain : Chain) : Prop where
  proper : chain.Proper
  read : ∀ component ∈ chain, ∀ simple ∈ component.members?.getD [], simple.isRead = true

instance (chain : Chain) : Decidable chain.IsRegular :=
  decidable_of_iff (chain.Proper ∧
      ∀ component ∈ chain, ∀ simple ∈ component.members?.getD [], simple.isRead = true)
    ⟨fun ⟨proper, read⟩ => ⟨proper, read⟩, fun ⟨proper, read⟩ => ⟨proper, read⟩⟩

theorem Chain.IsRegular.isRead {chain : Chain} {members : Compound} {pseudo : Pseudo}
    {list : SelectorList} (regular : chain.IsRegular) (isCompound : .compound members ∈ chain)
    (isPseudo : .pseudo pseudo ∈ members) (nested : pseudo.nested = some list) :
    pseudo.isRead = true := by
  have read := regular.read _ isCompound _ isPseudo
  simpa [Simple.isRead, nested] using read

/-! ### Members -/

namespace Compound

variable {members : Compound} {pseudo : Pseudo} {list : SelectorList}

theorem implies_of_mem {simple : Simple} (isMember : simple ∈ members) :
    members.implies simple = true := by
  apply List.any_eq_true.mpr
  exact ⟨simple, isMember, Bool.or_eq_true_iff.mpr (Or.inl BEq.rfl)⟩

theorem mem_nestedOf_self (isMember : .pseudo pseudo ∈ members) (nested : pseudo.nested = some list) :
    list ∈ members.nestedOf pseudo.name pseudo.isClass := by
  apply List.mem_filterMap.mpr
  exact ⟨.pseudo pseudo, isMember, by simp [nested]⟩

theorem refutes_self {complex : Complex} (nested : pseudo.nested = some list)
    (covers : Alternatives.covers list.alternatives [complex] = true) :
    refutes Alternatives.covers pseudo.name (.pseudo pseudo) complex = true := by
  simp [refutes, nested, covers]

end Compound

-- What a list covers it covers part by part.
theorem Alternatives.covers_single {alternatives : Alternatives} {complex : Complex}
    (covers : alternatives.covers alternatives = true) (isMember : complex ∈ alternatives) :
    alternatives.covers [complex] = true := by
  apply covers_iff.mpr
  intro other isOther
  obtain rfl := List.mem_singleton.mp isOther
  exact covers_iff.mp covers other isMember

namespace Compound

variable {members : Compound} {pseudo : Pseudo} {list : SelectorList}

/-- Whatever a pseudo says of its nested list, it covers a compound that it is a member of. -/
theorem coveredByPseudo_self (isMember : .pseudo pseudo ∈ members)
    (nested : pseudo.nested = some list) (isRead : pseudo.isRead = true)
    (self : Alternatives.covers list.alternatives list.alternatives = true) (above : Chain) :
    coveredByPseudo Alternatives.covers pseudo list members above = true := by
  have found := mem_nestedOf_self isMember nested
  have asked (isClass : Bool) (same : pseudo.isClass = isClass) :
      (members.nestedOf pseudo.name isClass).any (Alternatives.covers list.alternatives ·.alternatives) = true :=
    List.any_eq_true.mpr ⟨list, same ▸ found, self⟩
  unfold Pseudo.isRead at isRead
  unfold coveredByPseudo
  cases family : pseudo.family with
  | anyOf =>
    simp only [family] at isRead ⊢
    rw [asked true isRead, Bool.true_or]
  | related =>
    simp only [family] at isRead ⊢
    exact asked true isRead
  | slotted =>
    simp only [family, Bool.not_eq_true'] at isRead ⊢
    exact asked false isRead
  | noneOf =>
    simp only [List.all_eq_true, List.any_eq_true]
    intro complex isAlternative
    exact ⟨.pseudo pseudo, isMember, refutes_self nested (Alternatives.covers_single self isAlternative)⟩
  | current =>
    simp only [family] at isRead ⊢
    exact List.any_eq_true.mpr ⟨list, isRead ▸ found, BEq.rfl⟩
  | counted =>
    simp only [List.any_eq_true]
    exact ⟨.pseudo pseudo, isMember, by simp [nested, self]⟩
  | unknown => simp [family] at isRead

theorem covers_self
    (self : ∀ pseudo list, .pseudo pseudo ∈ members → pseudo.nested = some list →
      pseudo.isRead = true ∧ Alternatives.covers list.alternatives list.alternatives = true) :
    members.covers members [] = true := by
  simp only [covers, coversBy, Bool.and_eq_true, List.all_eq_true]
  constructor
  · intro simple isMember
    unfold coveredByMember
    split
    next =>
      obtain ⟨isRead, covers⟩ := self _ _ isMember rfl
      exact coveredByPseudo_self isMember rfl isRead covers []
    next => exact implies_of_mem isMember
  · intro simple isMember
    rw [implies_of_mem isMember, Bool.or_true]

end Compound

/-! ### Chains and lists -/

theorem Chain.covers_self {chain : Chain} (proper : chain.Proper)
    (self : ∀ members, .compound members ∈ chain → Compound.covers members members [] = true) :
    chain.covers chain = true := by
  simp only [Chain.covers, coversBy, proper.ends, walk_self proper self, Bool.and_self]

theorem Alternatives.deep_nested_subset {alternatives : Alternatives} {complex : Complex}
    {members : Compound} {pseudo : Pseudo} {list : SelectorList} (isMember : complex ∈ alternatives)
    (isCompound : .compound members ∈ complex.components) (isPseudo : .pseudo pseudo ∈ members)
    (nested : pseudo.nested = some list) : Alternatives.deep list.alternatives ⊆ alternatives.deep := by
  intro inner isInner
  refine mem_deep_iff.mpr ⟨complex, isMember, Or.inr (Chain.mem_deep_iff.mpr ⟨members, isCompound, ?_⟩)⟩
  refine Compound.mem_deep_iff.mpr ⟨.pseudo pseudo, isPseudo, ?_⟩
  obtain ⟨_, _, _, _⟩ := pseudo
  obtain rfl := nested
  cases list
  exact isInner

/-- Alternatives that are regular at every depth cover themselves. -/
theorem Alternatives.covers_self (alternatives : Alternatives)
    (regular : ∀ complex ∈ alternatives.deep, Chain.IsRegular complex.components) :
    alternatives.covers alternatives = true := by
  apply covers_iff.mpr
  intro complex isMember
  have here := regular complex (mem_deep_iff.mpr ⟨complex, isMember, Or.inl rfl⟩)
  refine ⟨complex, isMember, Chain.covers_self here.proper fun members isCompound => ?_⟩
  apply Compound.covers_self
  intro pseudo list isPseudo nested
  have isRead := here.isRead isCompound isPseudo nested
  have shallower : Alternatives.depth list.alternatives < alternatives.depth := by
    have := Compound.depth_nested_lt isPseudo nested
    have := Chain.depth_le_of_mem isCompound
    have := depth_le_of_mem isMember
    omega
  have inside := deep_nested_subset isMember isCompound isPseudo nested
  exact ⟨isRead, covers_self list.alternatives fun inner isInner => regular inner (inside isInner)⟩
termination_by alternatives.depth

namespace SelectorList

/-- A list covers itself where, at every depth, its chains are proper and something is known of the
pseudos with a nested list. -/
theorem covers_self_of_regular (list : SelectorList)
    (regular : ∀ complex ∈ Alternatives.deep list.alternatives, Chain.IsRegular complex.components) :
    list.covers list = true := by
  rw [covers_eq]
  exact Alternatives.covers_self list.alternatives regular

/-- The list `.a > .b:not(.c + .d:has(.e)) ::slotted(.f:nth-child(2n of .g ~ .h, .i))`. -/
def deeplyNested : SelectorList :=
  ⟨[⟨[.compound [.className "a"], .combinator .child,
    .compound [.className "b", .pseudo ⟨"not", true, none, some ⟨[⟨[.compound [.className "c"],
      .combinator .nextSibling, .compound [.className "d", .pseudo ⟨"has", true, none,
        some ⟨[⟨[.compound [.className "e"]], false⟩], none⟩⟩]], false⟩], none⟩⟩],
    .compound [.pseudo ⟨"slotted", false, none, some ⟨[⟨[.compound [.className "f",
      .pseudo ⟨"nth-child", true, some "2n of", some ⟨[⟨[.compound [.className "g"],
        .combinator .subsequentSibling, .compound [.className "h"]], false⟩,
        ⟨[.compound [.className "i"]], false⟩], none⟩⟩]], false⟩], none⟩⟩]], false⟩], none⟩

theorem deeplyNested_covers_self :
    (∀ complex ∈ Alternatives.deep deeplyNested.alternatives, Chain.IsRegular complex.components) ∧
      (Alternatives.deep deeplyNested.alternatives).length = 6 ∧ deeplyNested.covers deeplyNested = true := by
  have regular : ∀ complex ∈ Alternatives.deep deeplyNested.alternatives,
      Chain.IsRegular complex.components := by decide
  exact ⟨regular, rfl, covers_self_of_regular deeplyNested regular⟩

end SelectorList

end Selectors
