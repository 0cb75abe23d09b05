import Selectors.Bare
import Selectors.Covering.List
import Selectors.Proofs.Covering.Lift

/-!
# Covering of bare selectors

Covering compares names, members and lists for equality and looks at nothing else, so it
answers alike for selectors and for their bare forms.
-/
namespace Selectors

/-! ### Simple selectors -/

namespace Simple

@[simp] theorem nested?_bare (simple : Simple) :
    simple.bare.nested? = simple.nested?.map SelectorList.bare := by
  cases simple
  case pseudo => rw [bare_pseudo]; rfl
  all_goals rfl

@[simp] theorem isPseudo_bare (simple : Simple) : simple.bare.isPseudo = simple.isPseudo := by
  cases simple
  case pseudo => rw [bare_pseudo]; rfl
  all_goals rfl

@[simp] theorem isPseudoElement_bare (simple : Simple) :
    simple.bare.isPseudoElement = simple.isPseudoElement := by
  cases simple
  case pseudo => rw [bare_pseudo]; rfl
  all_goals rfl

theorem isPlainPseudoElement_bare (simple : Simple) :
    simple.bare.isPlainPseudoElement = simple.isPlainPseudoElement := by
  simp [isPlainPseudoElement]

theorem excludes_bare (simple other : Simple) : simple.bare.excludes other.bare = simple.excludes other := by
  cases simple
  case typeName | idName =>
    cases other
    case pseudo => rw [bare_pseudo]; rfl
    all_goals rfl
  case pseudo => rw [bare_pseudo]; rfl
  all_goals rfl

end Simple

@[simp] theorem Compound.contains_bare (compound : Compound) (simple : Simple) :
    compound.bare.contains simple.bare = compound.contains simple := by
  simp [List.contains_eq_any_beq, Compound.bare_eq_map, Function.comp_def]

theorem Simple.impliesByNested_bare (simple member : Simple) :
    simple.bare.impliesByNested member.bare = simple.impliesByNested member := by
  cases member
  case pseudo pseudo =>
    obtain ⟨name, isClass, argument, _ | ⟨alternatives, span⟩⟩ := pseudo
    · rfl
    · simp only [Simple.bare, impliesByNested, Alternatives.bare_eq_map, List.all_map]
      congr 1
      -- alternative by alternative, each read for the one compound it may be
      refine congrArg (alternatives.all ·) (funext fun complex => ?_)
      obtain ⟨_ | ⟨_ | _, _ | ⟨_ | _, _⟩⟩, _⟩ := complex <;>
        simp [Complex.bare, Chain.bare, Compound.contains_bare]
  all_goals rfl

/-! ### Compounds -/

namespace Compound

theorem implies_bare (compound : Compound) (simple : Simple) :
    compound.bare.implies simple.bare = compound.implies simple := by
  simp [implies, bare_eq_map, Function.comp_def, Simple.impliesByNested_bare]

theorem nestedOf_bare (name : String) (isClass : Bool) (compound : Compound) :
    compound.bare.nestedOf name isClass = (compound.nestedOf name isClass).map SelectorList.bare := by
  simp only [nestedOf, bare_eq_map, List.filterMap_map, List.map_filterMap]
  refine congrArg (List.filterMap · compound) (funext fun simple => ?_)
  cases simple
  case pseudo pseudo =>
    simp only [Function.comp_apply, Simple.bare_pseudo, Pseudo.bare]
    split <;> simp
  all_goals rfl

end Compound

/-! ### Chains -/

namespace Chain

theorem splitSubject?_bare (chain : Chain) :
    splitSubject? chain.bare = chain.splitSubject?.map (Prod.map Chain.bare Compound.bare) := by
  simp only [splitSubject?, bare_eq_map, List.getLast?_map, ← List.map_dropLast]
  rcases List.getLast? chain with _ | ⟨_ | _⟩ <;> simp [Component.bare, bare_eq_map]

theorem subject?_bare (chain : Chain) : subject? chain.bare = chain.subject?.map Compound.bare := by
  simp [subject?, splitSubject?_bare, Function.comp_def]

theorem bare_append (first second : Chain) :
    Chain.bare (first ++ second) = first.bare ++ second.bare := by
  simp [bare_eq_map]

end Chain

/-! ### Rules that do not see spans and line breaks -/

/-- The rule answers alike for lists and for their bare forms. -/
def ListRule.Blind (rule : ListRule) : Prop :=
  ∀ candidates others : Alternatives, rule candidates.bare others.bare = rule candidates others

/-- The rule answers alike for compounds and for their bare forms. -/
def CompoundRule.Blind (rule : CompoundRule) : Prop :=
  ∀ (first second : Compound) (above : Chain),
    rule first.bare second.bare above.bare = rule first second above

namespace ListRule.Blind

variable {rule : ListRule} (blind : rule.Blind)
include blind

theorem lists (list list' : SelectorList) :
    rule list.bare.alternatives list'.bare.alternatives = rule list.alternatives list'.alternatives :=
  blind list.alternatives list'.alternatives

theorem single (list : SelectorList) (complex : Complex) :
    rule list.bare.alternatives [complex.bare] = rule list.alternatives [complex] := by
  rw [← blind.lists list ⟨[complex], none⟩, SelectorList.bare, SelectorList.bare,
    Alternatives.bare_eq_map [complex]]
  rfl

end ListRule.Blind

namespace Compound

variable {rule : ListRule}

theorem refutes_bare (blind : rule.Blind) (name : String) (simple : Simple) (complex : Complex) :
    refutes rule name simple.bare complex.bare = refutes rule name simple complex := by
  have excludes (simple : Simple) :
      ((Chain.subject? complex.bare.components).getD []).any simple.bare.excludes =
        ((Chain.subject? complex.components).getD []).any simple.excludes := by
    rw [Complex.bare, Chain.subject?_bare]
    cases Chain.subject? complex.components with
    | none => rfl
    | some subject => simp [bare_eq_map, Function.comp_def, Simple.excludes_bare]
  cases simple
  case pseudo pseudo =>
    simp only [Simple.bare_pseudo, refutes, Pseudo.bare, Option.any_map, blind.single]
  case typeName name => exact excludes (.typeName name)
  case idName name => exact excludes (.idName name)
  all_goals rfl

theorem coveredByPseudo_bare (blind : rule.Blind) (pseudo : Pseudo) (list : SelectorList)
    (compound : Compound) (above : Chain) :
    coveredByPseudo rule pseudo.bare list.bare compound.bare above.bare =
      coveredByPseudo rule pseudo list compound above := by
  have args (isClass : Bool) :
      (compound.bare.nestedOf pseudo.name isClass).any (rule list.bare.alternatives ·.alternatives) =
        (compound.nestedOf pseudo.name isClass).any (rule list.alternatives ·.alternatives) := by
    simp only [nestedOf_bare, List.any_map, Function.comp_def, SelectorList.bare, blind _ _]
  have family : pseudo.bare.family = pseudo.family := rfl
  have name : pseudo.bare.name = pseudo.name := rfl
  unfold coveredByPseudo
  rw [family, name]
  cases pseudo.family with
  | anyOf =>
    have subject : (⟨above.bare ++ [.compound compound.bare], false⟩ : Complex) =
        Complex.bare ⟨above ++ [.compound compound], false⟩ := by
      simp [Complex.bare, Chain.bare_append, Chain.bare]
    simp only [args, subject, blind.single]
  | related => exact args true
  | slotted => exact args false
  | noneOf =>
    simp only [SelectorList.bare, Alternatives.bare_eq_map, bare_eq_map, List.all_map, List.any_map,
      Function.comp_def, refutes_bare blind]
  | current =>
    -- the one family that compares nested lists for equality, which is blind itself
    simp only [nestedOf_bare, List.any_map, Function.comp_def, SelectorList.bare_beq_bare]
  | counted =>
    simp only [bare_eq_map, List.any_map]
    refine congrArg (List.any compound) (funext fun simple => ?_)
    cases simple
    case pseudo pseudo' =>
      simp only [Function.comp_apply, Simple.bare_pseudo, Pseudo.bare, Option.any_map, blind.lists]
    all_goals rfl
  | unknown => rfl

theorem coveredByMember_bare (blind : rule.Blind) (compound : Compound) (above : Chain)
    (simple : Simple) :
    coveredByMember rule compound.bare above.bare simple.bare =
      coveredByMember rule compound above simple := by
  cases simple
  case pseudo pseudo =>
    obtain ⟨name, isClass, argument, _ | ⟨alternatives, span⟩⟩ := pseudo
    · exact implies_bare compound (.pseudo ⟨name, isClass, argument, none⟩)
    · exact coveredByPseudo_bare blind ⟨name, isClass, argument, some ⟨alternatives, span⟩⟩
        ⟨alternatives, span⟩ compound above
  all_goals exact implies_bare compound _

theorem coversBy_bare (blind : rule.Blind) : CompoundRule.Blind (coversBy rule) := by
  intro first second above
  have members : first.bare.all (coveredByMember rule second.bare above.bare) =
      first.all (coveredByMember rule second above) := by
    rw [bare_eq_map first, List.all_map]
    exact congrArg (List.all first) (funext (coveredByMember_bare blind second above))
  have elements : second.bare.all (fun s => !s.isPlainPseudoElement || first.bare.implies s) =
      second.all fun s => !s.isPlainPseudoElement || first.implies s := by
    rw [bare_eq_map second, List.all_map]
    simp only [Function.comp_def, Simple.isPlainPseudoElement_bare, implies_bare]
  rw [coversBy, members, elements]
  rfl

end Compound

/-! ### The walk -/

namespace Chain

theorem lift_bare (chain : Chain) : Lift (Compound.bare · = ·) chain chain.bare := by
  induction chain with
  | nil => exact .nil
  | cons component rest ih => cases component <;> exact .cons rfl ih

theorem bare_of_lift {chain other : Chain} (lift : Lift (Compound.bare · = ·) chain other) :
    chain.bare = other := by
  induction chain generalizing other with
  | nil => exact (lift_nil_iff.mp lift).symm
  | cons component rest ih =>
    cases component with
    | compound members =>
      obtain ⟨_, _, rfl, rfl, others⟩ := lift_compound_iff.mp lift
      exact congrArg (_ :: ·) (ih others)
    | combinator kind =>
      obtain ⟨_, rfl, others⟩ := lift_combinator_iff.mp lift
      exact congrArg (_ :: ·) (ih others)

/-- A walk whose rule does not see spans and line breaks does not see them either. -/
theorem coversBy_bare {rule : CompoundRule} (blind : rule.Blind) (chain₁ chain₂ : Chain) :
    coversBy rule chain₁.bare chain₂.bare = coversBy rule chain₁ chain₂ := by
  refine (coversBy_lift ?_ (lift_bare chain₁) (lift_bare chain₂)).symm
  rintro first _ second _ above above' rfl rfl lift
  rw [← bare_of_lift lift]
  exact (blind first second above).symm

end Chain

/-! ### Lists -/

theorem depth_bare :
    Induction (fun simple => simple.bare.depth = simple.depth)
      (fun compound => Compound.depth compound.bare = compound.depth)
      (fun chain => Chain.depth chain.bare = chain.depth)
      (fun alternatives => Alternatives.depth alternatives.bare = alternatives.depth) := by
  constructor <;> intros <;>
    simp_all [Simple.bare, Compound.bare, Chain.bare, Alternatives.bare, Simple.depth, Compound.depth,
      Chain.depth, Alternatives.depth]

namespace Alternatives

theorem coversRound_bare {rule : ListRule} (blind : rule.Blind) : (coversRound rule).Blind := by
  intro candidates others
  simp only [coversRound, bare_eq_map, List.all_map, List.any_map, Function.comp_def, Complex.bare,
    Chain.coversBy_bare (Compound.coversBy_bare blind)]

theorem coversWithin_bare (rounds : Nat) : (coversWithin rounds).Blind := by
  induction rounds with
  | zero => exact fun _ _ => rfl
  | succ rounds ih => exact coversRound_bare ih

/-- Bare alternatives cover just what the alternatives cover that they come from. -/
theorem covers_bare (candidates others : Alternatives) :
    covers candidates.bare others.bare = covers candidates others := by
  rw [covers, covers, depth_bare.alternatives, depth_bare.alternatives]
  exact coversWithin_bare _ candidates others

end Alternatives

end Selectors
