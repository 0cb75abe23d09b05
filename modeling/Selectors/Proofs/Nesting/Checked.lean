import Selectors.Proofs.Nesting.Failure
import Selectors.Proofs.Nesting.Located
import Selectors.Proofs.Nesting.WellFormed

/-!
# Nesting with checked constructors

Nesting puts compounds, alternatives and lists together without looking whether they are
empty. Here each of them goes through its checked constructor, the expansions of a chain grow
from left to right out of partial ones, and a nested list is nested at its own span, so that an
error may have to be placed on the way back. On well-formed selectors no check ever fails, and
both ways agree in value, error and warnings.
-/
namespace Selectors

/-! ### The checked computation -/

/-- Whether nesting builds the compound anew: `&` leads it or is nested in a member. -/
def Compound.isRebuilt (members : Compound) : Bool :=
  members.isReference || members.any fun simple => simple.isPseudo && simple.mentionsParent

def Complex.joinedChecked (place : Option Span) (suffix : Option String) (others : Compound)
    (parent : Complex) : Except Error Complex :=
  match Chain.splitSubject? parent.components with
  | none => .error (.nesting (.parentEndsInCombinator parent.text) place)
  | some (before, subject) => do
    let subject ← match suffix with
      | none => pure subject
      | some suffix =>
        (Compound.continued suffix subject).mapError fun failure =>
          (Error.nesting failure none).located place
    let last ← Component.ofMembers (subject ++ others)
    Complex.ofComponents (before ++ [last]) parent.lineBreak

def Compound.underParentsChecked (parents : Alternatives) (place : Option Span) :
    Compound → Except Error Alternatives
  | [.parent none] => .ok parents
  | .parent suffix :: others => parents.mapM (Complex.joinedChecked place suffix others)
  | members => do
    let component ← Component.ofMembers members
    let complex ← Complex.ofComponents [component] false
    return [complex]

mutual

def Simple.nestChecked (parents : Alternatives) (place : Option Span) : Simple → Diagnosed Simple
  | .pseudo ⟨name, isClass, argument, some ⟨alternatives, span⟩⟩ =>
    if Alternatives.mentionsParent alternatives then do
      let list ← Diagnosed.located place do
        let alternatives ← Alternatives.nestChecked parents false span alternatives
        Diagnosed.warn (Alternatives.combinatorWarnings alternatives)
        let list ← Diagnosed.ofExcept (SelectorList.ofAlternatives alternatives)
        return { list with span }
      return .pseudo ⟨name, isClass, argument, some list⟩
    else
      return .pseudo ⟨name, isClass, argument, some ⟨alternatives, span⟩⟩
  | simple => return simple
termination_by structural simple => simple

def Compound.nestChecked (parents : Alternatives) (place : Option Span) :
    Compound → Diagnosed Compound
  | [] => return []
  | simple :: rest => do
    let simple ← Simple.nestChecked parents place simple
    let rest ← Compound.nestChecked parents place rest
    return simple :: rest
termination_by structural compound => compound

/-- Continues every partial expansion with those of the chain. -/
def Chain.nestChecked (parents : Alternatives) (place : Option Span) :
    Chain → Alternatives → Diagnosed Alternatives
  | [], partials =>
    Diagnosed.ofExcept (partials.mapM fun expansion =>
      Complex.ofComponents expansion.components expansion.lineBreak)
  | .compound members :: rest, partials =>
    if Compound.isRebuilt members then do
      let members ← Compound.nestChecked parents place members
      let parts ← Diagnosed.ofExcept (Compound.underParentsChecked parents place members)
      Chain.nestChecked parents place rest (partials.followedBy parts)
    else
      Chain.nestChecked parents place rest (partials.followedBy [.single (.compound members)])
  | .combinator kind :: rest, partials =>
    Chain.nestChecked parents place rest (partials.followedBy [.single (.combinator kind)])
termination_by structural chain => chain

def Alternatives.nestChecked (parents : Alternatives) (implicit : Bool) (place : Option Span) :
    Alternatives → Diagnosed Alternatives
  | [] => return []
  | ⟨components, lineBreak⟩ :: rest => do
    let expansions ←
      if Chain.mentionsParent components then
        Chain.nestChecked parents place components [.nil]
      else if implicit then
        pure (Alternatives.followedBy parents [⟨components, lineBreak⟩])
      else
        pure [⟨components, lineBreak⟩]
    let rest ← Alternatives.nestChecked parents implicit place rest
    return expansions ++ rest
termination_by structural alternatives => alternatives

end

def SelectorList.nestChecked (child parent : SelectorList) (implicit : Bool) :
    Diagnosed SelectorList := do
  let alternatives ←
    Alternatives.nestChecked parent.alternatives implicit child.span child.alternatives
  Diagnosed.warn (Alternatives.combinatorWarnings alternatives)
  let list ← Diagnosed.ofExcept (SelectorList.ofAlternatives alternatives)
  return { list with span := child.span }

/-! ### The checks succeed -/

/-- A computation goes on the same way if it does so after each value it can have. -/
theorem Diagnosed.bind_congr {α β : Type} {first : Diagnosed α} {next next' : α → Diagnosed β}
    (same : ∀ value, first.value? = some value → next value = next' value) :
    (first >>= next) = first >>= next' := by
  obtain ⟨_ | value, warnings⟩ := first
  · rfl
  · rw [Diagnosed.bind_ok, Diagnosed.bind_ok, same value rfl]

theorem Diagnosed.ofFailure_ok {α : Type} (place : Option Span) (value : α) :
    ofFailure place (.ok value) = Pure.pure value := rfl

section

variable {parents : Alternatives}

theorem Complex.joinedChecked_eq {outer : Complex}
    (wellFormed : Chain.wellFormed outer.components = true) (place : Option Span)
    (suffix : Option String) (others : Compound) :
    joinedChecked place suffix others outer =
      (joined suffix others outer).mapError (.nesting · place) := by
  unfold joinedChecked joined
  cases split : Chain.splitSubject? outer.components with
  | none => rfl
  | some parts =>
    obtain ⟨before, subject⟩ := parts
    rw [Chain.splitSubject?_eq_some_iff.mp split] at wellFormed
    obtain ⟨-, someMember, -⟩ := Chain.wellFormed_append_compound.mp wellFormed
    have built {subject' : Compound} (someMember : subject' ≠ []) :
        (do
          let last ← Component.ofMembers (subject' ++ others)
          Complex.ofComponents (before ++ [last]) outer.lineBreak) =
          .ok ⟨before ++ [.compound (subject' ++ others)], outer.lineBreak⟩ := by
      rw [Component.ofMembers_of_ne_nil (by simp [someMember])]
      exact Complex.ofComponents_of_ne_nil (by simp) _
    cases suffix with
    | none => exact built someMember
    | some suffix =>
      cases continued : subject.continued suffix with
      | error =>
        simp only [continued]
        rfl
      | ok subject' =>
        have suffixed := Compound.suffixed_of_continued continued
        simp only [continued]
        exact built (Compound.ne_nil_of_suffixed suffixed someMember)

theorem Compound.underParentsChecked_eq {members : Compound} (nonempty : members ≠ [])
    (wellFormed : parents.wellFormed = true) (place : Option Span) :
    Diagnosed.ofExcept (members.underParentsChecked parents place) =
      Diagnosed.ofFailure place (members.underParents parents) := by
  rw [Diagnosed.ofFailure]
  refine congrArg Diagnosed.ofExcept ?_
  unfold underParentsChecked
  split
  next => rfl
  next suffix others more =>
    rw [underParents_joined (by cases suffix <;> simp_all)]
    exact mapM_eq_mapError fun outer isOuter =>
      Complex.joinedChecked_eq (Alternatives.wellFormed_iff.mp wellFormed outer isOuter).2 place
        suffix others
  next more =>
    have plain : members.isReference = false := by
      rw [← Bool.not_eq_true, isReference_iff]
      rintro ⟨suffix, others, rfl⟩
      exact more suffix others rfl
    rw [Component.ofMembers_of_ne_nil nonempty, underParents_of_not_reference plain]
    rfl

/-- A compound that is not built anew has no other outcome. -/
theorem Compound.nest_of_not_rebuilt {members : Compound} (place : Option Span)
    (kept : members.isRebuilt = false) : members.nest parents place = pure members := by
  simp only [isRebuilt, Bool.or_eq_false_iff] at kept
  replace kept := kept.2
  induction members with
  | nil => rfl
  | cons simple rest ih =>
    rw [List.any_cons, Bool.or_eq_false_iff] at kept
    have keptFirst : simple.nest parents place = pure simple := by
      rcases simple with _ | _ | ⟨_, _, _, _ | ⟨alternatives, span⟩⟩ | _ | _ | _ | _ | _
      case pseudo.some =>
        have unmentioned : Alternatives.mentionsParent alternatives = false := by
          simpa [Simple.isPseudo, Simple.mentionsParent] using kept.1
        simp [Simple.nest, unmentioned]
      all_goals rfl
    rw [nest, keptFirst, ih kept.2]
    rfl

theorem Alternatives.ofComponents_each {partials : Alternatives}
    (nonempty : ∀ expansion ∈ partials, expansion.components ≠ []) :
    (partials.mapM fun expansion =>
      Complex.ofComponents expansion.components expansion.lineBreak) = .ok partials := by
  induction partials with
  | nil => rfl
  | cons expansion rest ih =>
    obtain ⟨here, others⟩ := List.forall_mem_cons.mp nonempty
    rw [List.mapM_cons, ih others, Complex.ofComponents_of_ne_nil here]
    cases expansion
    rfl

-- Partial expansions with something well-formed after them are not empty.
theorem Alternatives.ne_nil_of_followedBy {chain : Chain} {partials parts : Alternatives}
    (wellFormed : parts.wellFormed = true) :
    ∀ expansion ∈ partials.followedBy parts, chain = [] → expansion.components ≠ [] := by
  intro expansion isExpansion _
  obtain ⟨first, -, part, isPart, rfl⟩ := mem_followedBy.mp isExpansion
  simp [(wellFormed_iff.mp wellFormed part isPart).1]

/-- The list that a list comes to is not empty, so that it can be put together with the checked
constructor. -/
theorem SelectorList.nestIn_eq_checked (someParent : parents ≠ [])
    (wellFormed : parents.wellFormed = true) {list : SelectorList} (whole : list.wellFormed = true)
    (implicit : Bool) :
    (do
      let alternatives ← Alternatives.nest parents implicit list.span list.alternatives
      Diagnosed.warn (Alternatives.combinatorWarnings alternatives)
      let built ← Diagnosed.ofExcept (SelectorList.ofAlternatives alternatives)
      return { built with span := list.span }) = list.nestIn ⟨parents, none⟩ implicit := by
  obtain ⟨someAlternative, onAlternatives⟩ := SelectorList.wellFormed_iff.mp whole
  refine Diagnosed.bind_congr fun expansions isExpansions => ?_
  rw [(Selectors.value?_nest parents).alternatives] at isExpansions
  have someExpansion := ((wellFormed_of_expansion? someParent wellFormed).alternatives
    list.alternatives onAlternatives implicit expansions isExpansions).2 someAlternative
  rw [SelectorList.ofAlternatives_of_ne_nil someExpansion]
  rfl

theorem nestChecked_eq (someParent : parents ≠ []) (wellFormed : parents.wellFormed = true) :
    Induction
      (fun simple => simple.wellFormed = true → ∀ place,
        simple.nestChecked parents place = simple.nest parents place)
      (fun members => members.wellFormed = true → ∀ place,
        members.nestChecked parents place = members.nest parents place)
      (fun chain => chain.wellFormed = true → ∀ place partials,
        (∀ expansion ∈ partials, chain = [] → expansion.components ≠ []) →
          Chain.nestChecked parents place chain partials = do
            let expansions ← Chain.nest parents place chain
            return Alternatives.followedBy partials expansions)
      (fun alternatives => alternatives.wellFormed = true → ∀ implicit place,
        Alternatives.nestChecked parents implicit place alternatives =
          Alternatives.nest parents implicit place alternatives) := by
  have keeps := wellFormed_of_expansion? someParent wellFormed
  have outcome := value?_nest parents
  constructor
  case parent | placeholder | typeName | universal | className | idName | attr | plainPseudo =>
    intros
    rfl
  case noMember | noAlternative =>
    intros
    rfl
  case nestingPseudo =>
    intro name isClass argument alternatives span ih whole place
    obtain ⟨nonempty, onAlternatives⟩ := Simple.wellFormed_nesting_iff.mp whole
    have onList : SelectorList.wellFormed ⟨alternatives, span⟩ = true :=
      SelectorList.wellFormed_iff.mpr ⟨nonempty, onAlternatives⟩
    -- both place the error of the inner list, so only its construction is left to compare
    rw [Simple.nestChecked, Simple.nest_eq_located, ih onAlternatives,
      ← SelectorList.nestIn_eq_checked someParent wellFormed onList]
  case member =>
    intro simple rest ih ihRest whole place
    simp only [Compound.wellFormed, Bool.and_eq_true] at whole
    rw [Compound.nestChecked, Compound.nest, ih whole.1, ihRest whole.2]
  case noComponent =>
    intro _ place partials nonempty
    rw [Chain.nestChecked, Alternatives.ofComponents_each fun expansion isExpansion =>
      nonempty expansion isExpansion rfl]
    simp [Chain.nest, Diagnosed.ofExcept]
  case compound =>
    intro members rest ih ihRest whole place partials _
    obtain ⟨someMember, onMembers, onRest⟩ := Chain.wellFormed_compound_iff.mp whole
    -- the loop goes on with longer partial expansions, the recursion with what is left
    have goesOn (parts : Alternatives) (onParts : parts.wellFormed = true) :
        Chain.nestChecked parents place rest (partials.followedBy parts) = do
          let others ← Chain.nest parents place rest
          return partials.followedBy (parts.followedBy others) := by
      rw [ihRest onRest place _ (Alternatives.ne_nil_of_followedBy onParts)]
      simp only [Alternatives.followedBy_assoc]
    cases rebuilt : Compound.isRebuilt members with
    | false =>
      have plain : members.isReference = false := by
        simpa [Compound.isRebuilt] using (Bool.or_eq_false_iff.mp rebuilt).1
      have onItself : Alternatives.wellFormed [.single (.compound members)] = true := by
        simp [Complex.single, Alternatives.wellFormed, Chain.wellFormed, someMember, onMembers]
      rw [Chain.nestChecked, rebuilt, if_neg Bool.false_ne_true, goesOn _ onItself, Chain.nest,
        Compound.nest_of_not_rebuilt place rebuilt, pure_bind,
        Compound.underParents_of_not_reference plain, Diagnosed.ofFailure_ok, pure_bind, bind_assoc]
      simp only [pure_bind]
    | true =>
      rw [Chain.nestChecked, if_pos rebuilt, Chain.nest, ih onMembers]
      simp only [bind_assoc, pure_bind]
      refine Diagnosed.bind_congr fun members' isMembers => ?_
      rw [outcome.members] at isMembers
      have someMember' := Compound.ne_nil_of_expansion? isMembers someMember
      rw [Compound.underParentsChecked_eq someMember' wellFormed]
      refine Diagnosed.bind_congr fun parts isParts => goesOn parts ?_
      rw [Diagnosed.value?_ofFailure] at isParts
      exact Compound.wellFormed_of_underParents wellFormed someMember'
        (keeps.members members onMembers members' isMembers) isParts
  case combinator =>
    intro kind rest ih whole place partials _
    rw [Chain.nestChecked, Chain.nest, ih whole place _ (Alternatives.ne_nil_of_followedBy rfl)]
    simp only [bind_assoc, pure_bind, Alternatives.followedBy_assoc]
  case alternative =>
    intro components lineBreak rest ih ihRest whole implicit place
    obtain ⟨nonempty, onComponents, onRest⟩ := Alternatives.wellFormed_cons_iff.mp whole
    rw [Alternatives.nestChecked, Alternatives.nest, ihRest onRest, ih onComponents place [.nil]
      fun _ _ empty => (nonempty empty).elim]
    simp only [bind_assoc, pure_bind, Alternatives.single_nil_followedBy]

end

namespace SelectorList

theorem nestChecked_eq_nest {child parent : SelectorList} (wellFormed : child.wellFormed = true)
    (wellFormedParent : parent.wellFormed = true) (implicit : Bool) :
    child.nestChecked parent implicit = child.nest (some parent) implicit := by
  obtain ⟨someParent, onParent⟩ := wellFormed_iff.mp wellFormedParent
  obtain ⟨-, onChild⟩ := wellFormed_iff.mp wellFormed
  rw [nestChecked, (nestChecked_eq someParent onParent).alternatives child.alternatives onChild]
  exact nestIn_eq_checked someParent onParent wellFormed implicit

/-- Nesting fails just when it must: some compound of the rule, at whatever depth, that `&`
leads has a suffix or further members while some parent alternative ends in a combinator, or
has a suffix while the last simple selector of some parent alternative takes none. The error
says which of the two; it is never about something empty, although every list, alternative and
compound may be built with the checked constructors, and nothing in the result is empty.
Both lists are well-formed, as those are that the checked constructors make. -/
theorem nest_fails_iff (child parent : SelectorList) (implicit : Bool)
    (wellFormed : child.wellFormed = true) (wellFormedParent : parent.wellFormed = true) :
    child.nestChecked parent implicit = child.nest (some parent) implicit ∧
    ((∃ error, (child.nestChecked parent implicit).result = .error error) ↔
      ∃ complex ∈ Alternatives.deep child.alternatives, ∃ suffix others,
        .compound (.parent suffix :: others) ∈ complex.components ∧
          ((suffix.isSome = true ∨ others ≠ []) ∧
              (∃ outer ∈ parent.alternatives, outer.EndsInCombinator) ∨
            suffix.isSome = true ∧ ∃ outer ∈ parent.alternatives, outer.EndsClosed)) ∧
    (∀ error, (child.nestChecked parent implicit).result = .error error →
      ∃ text place, error = .nesting (.parentEndsInCombinator text) place ∨
        error = .nesting (.unsuffixable text) place) ∧
    (∀ list, (child.nestChecked parent implicit).result = .ok list → list.wellFormed = true) := by
  obtain ⟨someParent, onParent⟩ := wellFormed_iff.mp wellFormedParent
  obtain ⟨someChild, onChild⟩ := wellFormed_iff.mp wellFormed
  rw [nestChecked_eq_nest wellFormed wellFormedParent]
  refine ⟨rfl, ?_, failsOnly_nest child parent implicit, fun list nested => ?_⟩
  · rw [result_nest_eq_error_iff, (expansions?_eq_none_iff fun outer isOuter =>
      (Alternatives.wellFormed_iff.mp onParent outer isOuter).1).alternatives]
    exact exists_congr fun complex => and_congr_right fun _ => Chain.has_blocked_iff
  · obtain ⟨alternatives, expanded, rfl⟩ := result_nest_eq_ok_iff.mp nested
    obtain ⟨onAlternatives, some⟩ := (wellFormed_of_expansion? someParent onParent).alternatives
      child.alternatives onChild implicit alternatives expanded
    exact wellFormed_iff.mpr ⟨some someChild, onAlternatives⟩

/-- The rule `.z, .x:not(&-y, .w) > &`. -/
def ruleWithNestedSuffix : SelectorList :=
  ⟨[⟨[.compound [.className "z"]], false⟩,
    ⟨[.compound [.className "x", .pseudo ⟨"not", true, none, some
        ⟨[⟨[.compound [.parent (some "-y")]], false⟩, ⟨[.compound [.className "w"]], false⟩], none⟩⟩],
      .combinator .child, .compound [.parent none]], false⟩], none⟩

/-- The rule `.p, .q > *`. -/
def ruleEndingInUniversal : SelectorList :=
  ⟨[⟨[.compound [.className "p"]], false⟩,
    ⟨[.compound [.className "q"], .combinator .child, .compound [.universal]], true⟩], none⟩

theorem ruleWithNestedSuffix_fails :
    ruleWithNestedSuffix.wellFormed = true ∧ ruleEndingInUniversal.wellFormed = true ∧
      ∃ error, (ruleWithNestedSuffix.nestChecked ruleEndingInUniversal true).result = .error error ∧
        ∃ text place, error = .nesting (.parentEndsInCombinator text) place ∨
          error = .nesting (.unsuffixable text) place := by
  obtain ⟨-, fails, shape, -⟩ :=
    nest_fails_iff ruleWithNestedSuffix ruleEndingInUniversal true rfl rfl
  have closed : ∃ outer ∈ ruleEndingInUniversal.alternatives, outer.EndsClosed :=
    ⟨_, .tail _ (.head _), [.compound [.className "q"], .combinator .child], [], .universal, rfl, rfl⟩
  obtain ⟨error, failed⟩ := fails.mpr
    ⟨⟨[.compound [.parent (some "-y")]], false⟩, by simp [ruleWithNestedSuffix, Alternatives.deep,
      Chain.deep, Compound.deep, Simple.deep], some "-y", [], by simp, .inr ⟨rfl, closed⟩⟩
  exact ⟨rfl, rfl, error, failed, shape error failed⟩

end SelectorList

end Selectors
