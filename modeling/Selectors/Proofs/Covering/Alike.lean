import Selectors.Alike
import Selectors.Deep
import Selectors.Proofs.Covering.Anchored
import Selectors.Proofs.Covering.Lift
import Selectors.Rules

/-!
# Covering of alike selectors

Covering asks for some member, some alternative or all of them, and never for their places. So it
answers alike for lists that are alike. The one exception is `:current`, which compares its nested
list for equality, and equality counts the order.
-/
namespace Selectors

/-! ### Lists related to each other -/

namespace EachOther

variable {α β : Type} {r : α → α → Prop} {xs ys : List α} {p q : α → Bool}

theorem any_eq (each : EachOther r xs ys) (same : ∀ x y, r x y → p x = q y) : xs.any p = ys.any q := by
  rw [Bool.eq_iff_iff, List.any_eq_true, List.any_eq_true]
  constructor
  · rintro ⟨x, isItem, holds⟩
    obtain ⟨y, isItem', related⟩ := each.1 x isItem
    exact ⟨y, isItem', same x y related ▸ holds⟩
  · rintro ⟨y, isItem, holds⟩
    obtain ⟨x, isItem', related⟩ := each.2 y isItem
    exact ⟨x, isItem', same x y related ▸ holds⟩

theorem all_eq (each : EachOther r xs ys) (same : ∀ x y, r x y → p x = q y) : xs.all p = ys.all q := by
  rw [List.all_eq_not_any_not, List.all_eq_not_any_not,
    each.any_eq fun x y related => congrArg not (same x y related)]

theorem filterMap {r' : β → β → Prop} {f g : α → Option β} (each : EachOther r xs ys)
    (same : ∀ x y, r x y → Option.Rel r' (f x) (g y)) :
    EachOther r' (xs.filterMap f) (ys.filterMap g) := by
  constructor
  · intro b isItem
    obtain ⟨x, isItem, found⟩ := List.mem_filterMap.mp isItem
    obtain ⟨y, isItem', related⟩ := each.1 x isItem
    have images := same x y related
    rw [found] at images
    cases found' : g y with
    | none => rw [found'] at images; cases images
    | some b' =>
      rw [found'] at images
      cases images with
      | some related => exact ⟨b', List.mem_filterMap.mpr ⟨y, isItem', found'⟩, related⟩
  · intro b isItem
    obtain ⟨y, isItem, found⟩ := List.mem_filterMap.mp isItem
    obtain ⟨x, isItem', related⟩ := each.2 y isItem
    have images := same x y related
    rw [found] at images
    cases found' : f x with
    | none => rw [found'] at images; cases images
    | some b' =>
      rw [found'] at images
      cases images with
      | some related => exact ⟨b', List.mem_filterMap.mpr ⟨x, isItem', found'⟩, related⟩

theorem single {x y : α} (related : r x y) : EachOther r [x] [y] :=
  ⟨by simpa using related, by simpa using related⟩

/-- A condition on the items of the first list may be counted as part of the relation. -/
theorem and_iff {condition : α → Prop} :
    EachOther (fun x y => r x y ∧ condition x) xs ys ↔ EachOther r xs ys ∧ ∀ x ∈ xs, condition x := by
  constructor
  · rintro ⟨each, each'⟩
    refine ⟨⟨fun x isItem => ?_, fun y isItem => ?_⟩, fun x isItem => ?_⟩
    · obtain ⟨y, isItem', related, _⟩ := each x isItem
      exact ⟨y, isItem', related⟩
    · obtain ⟨x, isItem', related, _⟩ := each' y isItem
      exact ⟨x, isItem', related⟩
    · obtain ⟨_, _, _, holds⟩ := each x isItem
      exact holds
  · rintro ⟨⟨each, each'⟩, holds⟩
    refine ⟨fun x isItem => ?_, fun y isItem => ?_⟩
    · obtain ⟨y, isItem', related⟩ := each x isItem
      exact ⟨y, isItem', related, holds x isItem⟩
    · obtain ⟨x, isItem', related⟩ := each' y isItem
      exact ⟨x, isItem', related, holds x isItem'⟩

end EachOther

/-! ### Alike selectors without `:current` -/

/-- Whether the simple selector is a pseudo with the bare name `current`. -/
def Simple.isCurrent : Simple → Bool
  | .pseudo p => p.bareName == "current"
  | _ => false

/-- Some member is `:current`. -/
def Compound.HasCurrent (compound : Compound) : Prop := compound.any Simple.isCurrent = true

/-- The simple selectors are alike, and no `:current` is in the first one. -/
def Simple.Similar (simple other : Simple) : Prop :=
  simple.Alike other ∧ ¬(simple.isCurrent = true ∨ simple.Somewhere Compound.HasCurrent)

def Compound.Similar : Compound → Compound → Prop := EachOther Simple.Similar

/-- The alternatives are alike, and no `:current` is in the first ones, at whatever depth. -/
def Alternatives.Similar (alternatives other : Alternatives) : Prop :=
  alternatives.Alike other ∧ ¬alternatives.Somewhere Compound.HasCurrent

/-- Similar simple selectors are equal, or they differ in nested lists that are similar. -/
theorem Simple.Similar.cases {simple other : Simple} (similar : simple.Similar other) :
    simple.depth = 0 ∧ other = simple ∨
      ∃ name isClass argument list list', simple = .pseudo ⟨name, isClass, argument, some list⟩ ∧
        other = .pseudo ⟨name, isClass, argument, some list'⟩ ∧
        Pseudo.family ⟨name, isClass, argument, some list⟩ ≠ .current ∧
        Alternatives.Similar list.alternatives list'.alternatives := by
  obtain ⟨alike, free⟩ := similar
  apply alike.cases.imp_right
  rintro ⟨name, isClass, argument, list, list', rfl, rfl, lists⟩
  obtain ⟨notCurrent, free⟩ := not_or.mp free
  cases list
  refine ⟨name, isClass, argument, _, list', rfl, rfl, fun isCurrent => ?_, lists, free⟩
  have named := (Pseudo.family_eq_iff (by decide)).mp isCurrent
  exact notCurrent (beq_iff_eq.mpr (List.mem_singleton.mp named))

theorem Compound.similar_iff {compound other : Compound} :
    compound.Similar other ↔ compound.Alike other ∧
      ¬(compound.HasCurrent ∨ ∃ simple ∈ compound, simple.Somewhere Compound.HasCurrent) := by
  have each : (∀ simple ∈ compound,
        ¬(simple.isCurrent = true ∨ simple.Somewhere Compound.HasCurrent)) ↔
      ¬(compound.HasCurrent ∨ ∃ simple ∈ compound, simple.Somewhere Compound.HasCurrent) := by
    simp only [HasCurrent, List.any_eq_true, ← exists_or, ← and_or_left, not_exists, not_and]
  rw [← each]
  exact EachOther.and_iff

namespace Chain

variable {chain other : Chain}

theorem lift_and_iff {r : Compound → Compound → Prop} {condition : Compound → Prop} :
    Lift (fun members members' => r members members' ∧ condition members) chain other ↔
      Lift r chain other ∧ ∀ members, .compound members ∈ chain → condition members := by
  induction chain generalizing other with
  | nil => simp [lift_nil_iff]
  | cons component rest ih =>
    cases component with
    | compound members =>
      simp only [lift_compound_iff, ih, List.mem_cons, Component.compound.injEq]
      constructor
      · rintro ⟨members', rest', rfl, ⟨related, holds⟩, lift, others⟩
        refine ⟨⟨members', rest', rfl, related, lift⟩, ?_⟩
        rintro _ (rfl | isMember)
        · exact holds
        · exact others _ isMember
      · rintro ⟨⟨members', rest', rfl, related, lift⟩, holds⟩
        exact ⟨members', rest', rfl, ⟨related, holds members (.inl rfl)⟩, lift,
          fun _ isMember => holds _ (.inr isMember)⟩
    | combinator kind =>
      simp only [lift_combinator_iff, ih, List.mem_cons, reduceCtorEq, false_or]
      constructor
      · rintro ⟨rest', rfl, lift, others⟩
        exact ⟨⟨rest', rfl, lift⟩, others⟩
      · rintro ⟨⟨rest', rfl, lift⟩, others⟩
        exact ⟨rest', rfl, lift, others⟩

theorem lift_similar_iff :
    Lift Compound.Similar chain other ↔
      chain.Alike other ∧ ¬chain.Somewhere Compound.HasCurrent := by
  have similar : Compound.Similar = fun members members' => Compound.Alike members members' ∧
      ¬(members.HasCurrent ∨ ∃ simple ∈ members, simple.Somewhere Compound.HasCurrent) :=
    funext fun _ => funext fun _ => propext Compound.similar_iff
  rw [similar, lift_and_iff, alike_iff, somewhere_iff]
  simp only [not_exists, not_and]

end Chain

theorem Alternatives.similar_iff {alternatives other : Alternatives} :
    alternatives.Similar other ↔
      EachOther (fun complex complex' => Chain.Lift Compound.Similar complex.components complex'.components)
        alternatives other := by
  simp only [Chain.lift_similar_iff]
  rw [EachOther.and_iff, Similar, somewhere_iff]
  simp only [not_exists, not_and]
  rfl

/-! ### Members -/

theorem Simple.Similar.beq_eq {simple member member' : Simple} (plain : simple.depth = 0)
    (similar : member.Similar member') : (simple == member) = (simple == member') := by
  rcases similar.cases with ⟨_, rfl⟩ | ⟨name, isClass, argument, list, list', rfl, rfl, _⟩
  · rfl
  · rcases simple with _ | _ | ⟨_, _, _, _ | ⟨_, _⟩⟩ | _ | _ | _ | _ | _
    case pseudo.some => cases plain
    all_goals rfl

theorem Simple.Similar.excludes_eq {simple member member' : Simple} (similar : member.Similar member') :
    simple.excludes member = simple.excludes member' := by
  rcases similar.cases with ⟨_, rfl⟩ | ⟨name, isClass, argument, list, list', rfl, rfl, _⟩
  · rfl
  · cases simple <;> rfl

theorem Compound.Similar.contains_eq {compound other : Compound} {simple : Simple}
    (similar : compound.Similar other) (plain : simple.depth = 0) :
    compound.contains simple = other.contains simple := by
  rw [List.contains_eq_any_beq, List.contains_eq_any_beq]
  exact EachOther.any_eq similar fun _ _ => Simple.Similar.beq_eq plain

theorem Simple.Similar.impliesByNested_eq {simple member member' : Simple} (plain : simple.depth = 0)
    (similar : member.Similar member') :
    simple.impliesByNested member = simple.impliesByNested member' := by
  rcases similar.cases with ⟨_, rfl⟩ | ⟨name, isClass, argument, list, list', rfl, rfl, _, lists⟩
  · rfl
  · refine congrArg (and _) ((Alternatives.similar_iff.mp lists).all_eq ?_)
    rintro ⟨chain, _⟩ ⟨chain', _⟩ lift
    -- only a single compound is looked into
    rcases chain with _ | ⟨only | kind, rest⟩
    · obtain rfl := Chain.lift_nil_iff.mp lift
      rfl
    · obtain ⟨only', rest', rfl, related, others⟩ := Chain.lift_compound_iff.mp lift
      cases others with
      | nil => exact related.contains_eq plain
      | cons => rfl
    · obtain ⟨_, rfl, _⟩ := Chain.lift_combinator_iff.mp lift
      rfl

namespace Compound.Similar

variable {compound other : Compound}

theorem implies_eq {simple : Simple} (similar : compound.Similar other) (plain : simple.depth = 0) :
    compound.implies simple = other.implies simple :=
  EachOther.any_eq similar fun _ _ related => by
    rw [related.beq_eq plain, related.impliesByNested_eq plain]

theorem nestedOf (similar : compound.Similar other) (name : String) (isClass : Bool) :
    EachOther (fun list list' => Alternatives.Similar list.alternatives list'.alternatives)
      (compound.nestedOf name isClass) (other.nestedOf name isClass) := by
  refine EachOther.filterMap similar fun member member' related => ?_
  rcases related.cases with ⟨plain, rfl⟩ | ⟨name', isClass', argument, list, list', rfl, rfl, _, lists⟩
  · rcases member' with _ | _ | ⟨_, _, _, _ | ⟨_, _⟩⟩ | _ | _ | _ | _ | _
    case pseudo.some => cases plain
    case pseudo.none => simp
    all_goals exact .none
  · by_cases asked : isClass' = isClass ∧ name' = name
    · simpa [asked] using lists
    · simp [asked]

end Compound.Similar

/-! ### Rules that see neither order nor repetition -/

/-- The rule answers alike for similar alternatives. -/
def ListRule.Orderless (rule : ListRule) : Prop :=
  ∀ ⦃candidates candidates' others others'⦄, Alternatives.Similar candidates candidates' →
    Alternatives.Similar others others' → rule candidates others = rule candidates' others'

namespace Compound

variable {rule : ListRule} {compound compound' : Compound} {above above' : Chain}

theorem refutes_alike (orderless : rule.Orderless) {name : String} {simple simple' : Simple}
    {complex complex' : Complex} (related : simple.Similar simple')
    (lift : Chain.Lift Compound.Similar complex.components complex'.components) :
    refutes rule name simple complex = refutes rule name simple' complex' := by
  have excludes (simple : Simple) :
      ((Chain.subject? complex.components).getD []).any simple.excludes =
        ((Chain.subject? complex'.components).getD []).any simple.excludes := by
    have subjects := lift.subject?
    generalize Chain.subject? complex.components = subject,
      Chain.subject? complex'.components = subject' at subjects
    cases subjects with
    | none => rfl
    | some subjects => exact EachOther.any_eq subjects fun _ _ => Simple.Similar.excludes_eq
  rcases related.cases with ⟨plain, rfl⟩ | ⟨name', isClass, argument, list, list', rfl, rfl, _, lists⟩
  · rcases simple' with _ | _ | ⟨_, _, _, _ | ⟨_, _⟩⟩ | _ | _ | _ | _ | _
    case pseudo.some => cases plain
    case typeName | idName => exact excludes _
    all_goals rfl
  · have single : Alternatives.Similar [complex] [complex'] :=
      Alternatives.similar_iff.mpr (EachOther.single lift)
    exact congrArg (name' == name && ·) (orderless lists single)

theorem coveredByPseudo_alike (orderless : rule.Orderless) {name : String} {isClass : Bool}
    {argument : Option String} {list list' : SelectorList}
    (notCurrent : Pseudo.family ⟨name, isClass, argument, some list⟩ ≠ .current)
    (lists : Alternatives.Similar list.alternatives list'.alternatives)
    (similar : compound.Similar compound') (lift : Chain.Lift Compound.Similar above above') :
    coveredByPseudo rule ⟨name, isClass, argument, some list⟩ list compound above =
      coveredByPseudo rule ⟨name, isClass, argument, some list'⟩ list' compound' above' := by
  have args (isClass : Bool) :
      (compound.nestedOf name isClass).any (rule list.alternatives ·.alternatives) =
        (compound'.nestedOf name isClass).any (rule list'.alternatives ·.alternatives) :=
    (similar.nestedOf name isClass).any_eq fun _ _ related => orderless lists related
  have family : Pseudo.family ⟨name, isClass, argument, some list'⟩ =
      Pseudo.family ⟨name, isClass, argument, some list⟩ := rfl
  unfold coveredByPseudo
  rw [family]
  generalize Pseudo.family ⟨name, isClass, argument, some list⟩ = asked at notCurrent
  cases asked with
  | anyOf =>
    have subject : Alternatives.Similar [⟨above ++ [.compound compound], false⟩]
        [⟨above' ++ [.compound compound'], false⟩] :=
      Alternatives.similar_iff.mpr (EachOther.single (lift.append (Chain.lift_single similar)))
    exact congrArg₂ or (args true) (orderless lists subject)
  | related => exact args true
  | slotted => exact args false
  | noneOf =>
    refine (Alternatives.similar_iff.mp lists).all_eq fun complex complex' along => ?_
    exact EachOther.any_eq similar fun _ _ related => refutes_alike orderless related along
  | current => exact (notCurrent rfl).elim
  | counted =>
    -- the argument has to be the same, and only the lists are compared
    refine EachOther.any_eq similar fun member member' related => ?_
    rcases related.cases with ⟨plain, rfl⟩ | ⟨name', isClass', argument', inner, inner', rfl, rfl, _, lists'⟩
    · rcases member' with _ | _ | ⟨_, _, _, _ | ⟨_, _⟩⟩ | _ | _ | _ | _ | _
      case pseudo.some => cases plain
      all_goals rfl
    · exact congrArg (name' == name && argument' == argument && ·) (orderless lists lists')
  | unknown => rfl

theorem coveredByMember_alike (orderless : rule.Orderless) {simple simple' : Simple}
    (related : simple.Similar simple') (similar : compound.Similar compound')
    (lift : Chain.Lift Compound.Similar above above') :
    coveredByMember rule compound above simple = coveredByMember rule compound' above' simple' := by
  rcases related.cases with ⟨plain, rfl⟩ | ⟨name, isClass, argument, list, list', rfl, rfl, free, lists⟩
  · rcases simple' with _ | _ | ⟨_, _, _, _ | ⟨_, _⟩⟩ | _ | _ | _ | _ | _
    case pseudo.some => cases plain
    all_goals exact similar.implies_eq plain
  · exact coveredByPseudo_alike orderless free lists similar lift

theorem coversBy_alike (orderless : rule.Orderless) :
    CompoundRule.Agree Compound.Similar Compound.Similar (coversBy rule) (coversBy rule) := by
  intro first first' second second' above above' similar₁ similar₂ lift
  have members : first.all (coveredByMember rule second above) =
      first'.all (coveredByMember rule second' above') :=
    EachOther.all_eq similar₁ fun _ _ related => coveredByMember_alike orderless related similar₂ lift
  have elements : second.all (fun simple => !simple.isPlainPseudoElement || first.implies simple) =
      second'.all fun simple => !simple.isPlainPseudoElement || first'.implies simple := by
    refine EachOther.all_eq similar₂ fun simple simple' related => ?_
    rcases related.cases with ⟨plain, rfl⟩ | ⟨name, isClass, argument, list, list', rfl, rfl, _⟩
    · rw [similar₁.implies_eq plain]
    · -- a pseudo that holds a list need not be shared
      simp [Simple.isPlainPseudoElement, Simple.nested?]
  exact congrArg₂ and members elements

end Compound

/-! ### Lists -/

namespace Alternatives

theorem coversRound_alike {rule : ListRule} (orderless : rule.Orderless) :
    (coversRound rule).Orderless := by
  intro candidates candidates' others others' similar₁ similar₂
  refine (similar_iff.mp similar₂).all_eq fun other other' lift₂ => ?_
  refine (similar_iff.mp similar₁).any_eq fun candidate candidate' lift₁ => ?_
  exact Chain.coversBy_lift (Compound.coversBy_alike orderless) lift₁ lift₂

theorem coversWithin_alike (rounds : Nat) : (coversWithin rounds).Orderless := by
  induction rounds with
  | zero =>
    intro candidates candidates' others others' _ _
    rfl
  | succ rounds ih => exact coversRound_alike ih

theorem covers_alike : ListRule.Orderless covers := by
  intro candidates candidates' others others' similar₁ similar₂
  -- alike lists need not be of one depth, so both questions get as many rounds as suffice for each
  let rounds := candidates.depth + others.depth + candidates'.depth + others'.depth + 1
  have settled : covers candidates others = coversWithin rounds candidates others :=
    coversWithin_eq (by omega) (by omega)
  have settled' : covers candidates' others' = coversWithin rounds candidates' others' :=
    coversWithin_eq (by omega) (by omega)
  rw [settled, settled']
  exact coversWithin_alike rounds similar₁ similar₂

end Alternatives

namespace SelectorList

/-- Lists that are alike cover the same, and are covered by the same: order and repetition, of
alternatives and of members, do not count at any depth. Only in a `:current` would they. -/
theorem covers_eq_of_alike (first first' second second' : SelectorList)
    (alike₁ : first.Alike first') (alike₂ : second.Alike second')
    (free₁ : ¬Alternatives.Somewhere Compound.HasCurrent first.alternatives)
    (free₂ : ¬Alternatives.Somewhere Compound.HasCurrent second.alternatives) :
    first.covers second = first'.covers second' :=
  Alternatives.covers_alike ⟨alike₁, free₁⟩ ⟨alike₂, free₂⟩

/-- The pseudo `:not(…)`. -/
def notIn (list : SelectorList) : Simple := .pseudo ⟨"not", true, none, some list⟩

/-- The list `.c, .d`. -/
def isCOrD : SelectorList :=
  ⟨[⟨[.compound [.className "c"]], false⟩, ⟨[.compound [.className "d"]], false⟩], none⟩

/-- The list `.d, .c.c`. -/
def isDOrC : SelectorList :=
  ⟨[⟨[.compound [.className "d"]], false⟩, ⟨[.compound [.className "c", .className "c"]], false⟩], none⟩

/-- The list `.a:not(.c, .d), .g`. -/
def outsideTwo : SelectorList :=
  ⟨[⟨[.compound [.className "a", notIn isCOrD]], false⟩, ⟨[.compound [.className "g"]], false⟩], none⟩

/-- The list `.g, :not(.d, .c.c).a, .g`. -/
def outsideTwoRepeated : SelectorList :=
  ⟨[⟨[.compound [.className "g"]], false⟩, ⟨[.compound [notIn isDOrC, .className "a"]], false⟩,
    ⟨[.compound [.className "g"]], false⟩], none⟩

theorem outsideTwo_covers_alike :
    outsideTwo.Alike outsideTwoRepeated ∧
      ¬Alternatives.Somewhere Compound.HasCurrent outsideTwo.alternatives ∧
      outsideTwo.covers outsideTwo = outsideTwoRepeated.covers outsideTwoRepeated := by
  have className {name : String} {other : Simple} :
      Simple.Alike (.className name) other ↔ .className name = other := Simple.alike_plain_iff rfl
  have single {members : Compound} {other : Chain} : Chain.Alike [.compound members] other ↔
      ∃ members', other = [.compound members'] ∧ members.Alike members' := by
    simp [Chain.alike_iff, Chain.lift_compound_iff, Chain.lift_nil_iff]
  have nested : Simple.Alike (notIn isCOrD) (notIn isDOrC) := by
    refine Simple.alike_nesting_iff.mpr ⟨isDOrC, rfl, ?_⟩
    simp [SelectorList.Alike, Alternatives.Alike, EachOther, Complex.Alike, single, Compound.Alike,
      className, isCOrD, isDOrC]
  have alike : outsideTwo.Alike outsideTwoRepeated := by
    simp [SelectorList.Alike, Alternatives.Alike, EachOther, Complex.Alike, single, Compound.Alike,
      className, nested, outsideTwo, outsideTwoRepeated]
  have free : ¬Alternatives.Somewhere Compound.HasCurrent outsideTwo.alternatives := by
    have className (name : String) : Simple.isCurrent (.className name) = false := rfl
    have outside (list : SelectorList) : Simple.isCurrent (notIn list) = false := by
      simp [Simple.isCurrent, Pseudo.bareName, notIn]
    have inside (list : SelectorList) : Simple.deep (notIn list) = Alternatives.deep list.alternatives := by
      cases list
      rfl
    simp [Alternatives.Somewhere, Alternatives.deep, Chain.deep, Compound.deep, Simple.deep,
      Compound.HasCurrent, className, outside, inside, outsideTwo, isCOrD]
  exact ⟨alike, free, covers_eq_of_alike _ _ _ _ alike alike free free⟩

end SelectorList

end Selectors
