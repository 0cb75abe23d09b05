import Selectors.Covering.Chain
import Selectors.Depth
import Selectors.Equality
import Selectors.Pseudo.Family

/-!
# Covering of compounds

A compound covers another when each of its members does. A plain member has to
occur in the other compound or be implied by a nested list there; a member with a
nested list is judged by the rule of its family, which compares lists and so is
given a rule for lists.
-/
namespace Selectors

/-- A rule that tells whether the first alternatives cover the second. -/
abbrev ListRule := Alternatives → Alternatives → Bool

/-- The rules agree on lists whose depths together stay below the bound. -/
def ListRule.AgreeBelow (bound : Nat) (rule rule' : ListRule) : Prop :=
  ∀ candidates others : Alternatives, candidates.depth + others.depth < bound →
    rule candidates others = rule' candidates others

namespace Simple

/-- The nested list of a pseudo. -/
def nested? : Simple → Option SelectorList
  | pseudo p => p.nested
  | _ => none

/-- A pseudo-element that holds no nested list. -/
def isPlainPseudoElement (simple : Simple) : Bool :=
  simple.isPseudoElement && simple.nested?.isNone

/-- Whether the nested list implies `simple`, because each alternative is a
single compound that holds it: `:is(.a.b, .a.c)` implies `.a`. -/
def impliesByNested (simple : Simple) : Simple → Bool
  | .pseudo ⟨name, isClass, argument, some list⟩ =>
    (Pseudo.family ⟨name, isClass, argument, some list⟩).impliesNested &&
      list.alternatives.all fun complex =>
        match complex.components with
        | [.compound only] => only.contains simple
        | _ => false
  | _ => false

/-- Whether both are of the kind that an element has one of, and differ. -/
def excludes : Simple → Simple → Bool
  | typeName name, typeName name' => name != name'
  | idName name, idName name' => name != name'
  | _, _ => false

end Simple

namespace Compound

/-- Whether a member is `simple` or implies it. -/
def implies (compound : Compound) (simple : Simple) : Bool :=
  compound.any fun member => simple == member || simple.impliesByNested member

/-- The nested lists of the pseudos with this name, as written, and this kind. -/
def nestedOf (name : String) (isClass : Bool) (compound : Compound) : List SelectorList :=
  compound.filterMap fun
    | .pseudo pseudo => if pseudo.isClass = isClass ∧ pseudo.name = name then pseudo.nested else none
    | _ => none

/-- Whether an element that satisfies `simple` cannot match the alternative, an
argument of a `:not` with this name. -/
def refutes (rule : ListRule) (name : String) (simple : Simple) (complex : Complex) : Bool :=
  match simple with
  | .typeName _ | .idName _ =>
    ((Chain.subject? complex.components).getD []).any simple.excludes
  | .pseudo pseudo =>
    pseudo.name == name && pseudo.nested.any fun list => rule list.alternatives [complex]
  | _ => false

/-- Whether the pseudo, whose nested list is `list`, covers the compound, which
stands below the chain. -/
def coveredByPseudo (rule : ListRule) (pseudo : Pseudo) (list : SelectorList) (compound : Compound)
    (above : Chain) : Bool :=
  match pseudo.family with
  | .anyOf =>
    (compound.nestedOf pseudo.name true).any (rule list.alternatives ·.alternatives) ||
      rule list.alternatives [⟨above ++ [.compound compound], false⟩]
  | .related => (compound.nestedOf pseudo.name true).any (rule list.alternatives ·.alternatives)
  | .slotted => (compound.nestedOf pseudo.name false).any (rule list.alternatives ·.alternatives)
  | .noneOf =>
    list.alternatives.all fun complex => compound.any fun simple => refutes rule pseudo.name simple complex
  | .current => (compound.nestedOf pseudo.name true).any (· == list)
  | .counted =>
    compound.any fun
      | .pseudo pseudo' =>
        pseudo'.name == pseudo.name && pseudo'.argument == pseudo.argument &&
          pseudo'.nested.any fun list' => rule list.alternatives list'.alternatives
      | _ => false
  | .unknown => false

/-- Whether the member covers the compound, which stands below the chain. -/
def coveredByMember (rule : ListRule) (compound : Compound) (above : Chain) : Simple → Bool
  | .pseudo ⟨name, isClass, argument, some list⟩ =>
    coveredByPseudo rule ⟨name, isClass, argument, some list⟩ list compound above
  | simple => compound.implies simple

/-- Whether the first compound is seen to cover the second, which stands below
the chain. A pseudo-element of the second has to be shared: `.a` does not match
what `.a::before` does. -/
def coversBy (rule : ListRule) : CompoundRule := fun compound₁ compound₂ above =>
  compound₁.all (coveredByMember rule compound₂ above) &&
    compound₂.all fun simple => !simple.isPlainPseudoElement || compound₁.implies simple

theorem mem_nestedOf {name : String} {isClass : Bool} {compound : Compound} {list : SelectorList}
    (member : list ∈ compound.nestedOf name isClass) :
    ∃ pseudo : Pseudo, .pseudo pseudo ∈ compound ∧ pseudo.name = name ∧ pseudo.isClass = isClass ∧
      pseudo.nested = some list := by
  obtain ⟨simple, isMember, found⟩ := List.mem_filterMap.mp member
  split at found
  next pseudo =>
    split at found
    next same => exact ⟨pseudo, isMember, same.2, same.1, found⟩
    next => simp at found
  next => simp at found

theorem depth_nestedOf_lt {compound : Compound} {name : String} {isClass : Bool}
    {list : SelectorList} (h : list ∈ compound.nestedOf name isClass) :
    Alternatives.depth list.alternatives < compound.depth := by
  obtain ⟨_, member, -, -, nested⟩ := mem_nestedOf h
  exact depth_nested_lt member nested

end Compound

theorem any_congr_of_mem {α : Type} {xs : List α} {p q : α → Bool} (h : ∀ x ∈ xs, p x = q x) :
    xs.any p = xs.any q := by
  rw [Bool.eq_iff_iff, List.any_eq_true, List.any_eq_true]
  exact exists_congr fun x => and_congr_right fun hx => by rw [h x hx]

theorem all_congr_of_mem {α : Type} {xs : List α} {p q : α → Bool} (h : ∀ x ∈ xs, p x = q x) :
    xs.all p = xs.all q := by
  rw [Bool.eq_iff_iff, List.all_eq_true, List.all_eq_true]
  exact forall₂_congr fun x hx => by rw [h x hx]

namespace Compound

variable {rule rule' : ListRule} {bound : Nat}

theorem refutes_congr (h : rule.AgreeBelow bound rule') {name : String} {simple : Simple}
    {complex : Complex} (hb : simple.depth + Chain.depth complex.components ≤ bound) :
    refutes rule name simple complex = refutes rule' name simple complex := by
  unfold refutes
  split
  · rfl
  · rfl
  next pseudo =>
    obtain ⟨name', isClass, argument, _ | list⟩ := pseudo
    · rfl
    · rw [Simple.depth_pseudo] at hb
      simp only [Option.any_some]
      rw [h _ _ (by rw [Alternatives.depth_single]; omega)]
  · rfl

theorem coveredByPseudo_congr (h : rule.AgreeBelow bound rule') {pseudo : Pseudo}
    {list : SelectorList} {compound : Compound} {above : Chain}
    (hb : Alternatives.depth list.alternatives + max compound.depth above.depth < bound) :
    coveredByPseudo rule pseudo list compound above =
      coveredByPseudo rule' pseudo list compound above := by
  have args (isClass : Bool) :
      (compound.nestedOf pseudo.name isClass).any (rule list.alternatives ·.alternatives) =
        (compound.nestedOf pseudo.name isClass).any (rule' list.alternatives ·.alternatives) :=
    any_congr_of_mem fun list' hl => h _ _ (by have := depth_nestedOf_lt hl; omega)
  unfold coveredByPseudo
  split
  · rw [args, h]
    simpa [Chain.depth_append, Nat.max_comm] using hb
  · exact args true
  · exact args false
  · refine all_congr_of_mem fun complex hc => any_congr_of_mem fun simple hs => refutes_congr h ?_
    have := depth_le_of_mem hs
    have := Alternatives.depth_le_of_mem hc
    omega
  · rfl
  · refine any_congr_of_mem fun simple hs => ?_
    split
    next pseudo' =>
      cases nested : pseudo'.nested with
      | none => rfl
      | some list' =>
        have := depth_nested_lt hs nested
        simp only [Option.any_some]
        rw [h _ _ (by omega)]
    · rfl
  · rfl

/-- The rule for lists is asked about lists that are together less deep than the
compounds with what stands above the second. -/
theorem coversBy_congr {compound₁ compound₂ : Compound} {above : Chain}
    (h : rule.AgreeBelow (compound₁.depth + max compound₂.depth above.depth) rule') :
    coversBy rule compound₁ compound₂ above = coversBy rule' compound₁ compound₂ above := by
  unfold coversBy
  congr 1
  refine all_congr_of_mem fun simple hs => ?_
  have := depth_le_of_mem hs
  unfold coveredByMember
  split
  · rw [Simple.depth_pseudo] at this
    exact coveredByPseudo_congr h (by omega)
  · rfl

end Compound

end Selectors
