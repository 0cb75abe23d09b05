import Selectors.Bare
import Selectors.Proofs.Nesting.Graft
import Selectors.WellFormed

/-!
# Nesting three rules

Of three rules one in the other, the outer two may be flattened first or the inner two:
the same alternatives come out in the same order. What the innermost rule does to an
alternative of the rule around it is an edit of the end, and those may be made at any time.
-/
namespace Selectors

/-! ### Putting chains in the place of the parent reference -/

namespace Compound

/-- The members with the suffix, and then the other members. -/
def ended? (suffix : Option String) (others members : Compound) : Option Compound :=
  (members.suffixed? suffix).map (· ++ others)

theorem suffixed?_nil (suffix : Option String) : suffixed? suffix [] = some [] := by
  cases suffix <;> rfl

theorem suffixed?_append_singleton (suffix : String) (before : Compound) (last : Simple) :
    suffixed? (some suffix) (before ++ [last]) =
      (last.continued suffix).toOption.map fun last => before ++ [last] := by
  rw [suffixed?, continued_append_singleton]
  cases last.continued suffix <;> rfl

end Compound

theorem Simple.mentionsParent_of_continued {suffix : String} {simple simple' : Simple}
    (made : simple.continued suffix = .ok simple') :
    simple.mentionsParent = false ∧ simple'.mentionsParent = false := by
  rcases simple with _ | _ | ⟨_, _, _ | _, _ | _⟩ | _ | _ | _ | _ | _
  case typeName | className | idName | placeholder | pseudo.none.none =>
    obtain rfl := Except.ok.inj made
    exact ⟨rfl, rfl⟩
  all_goals cases made

theorem Compound.graft_ended? {suffix : Option String} {others : Compound}
    (free : others.mentionsParent = false) (more : (suffix.isNone && others.isEmpty) = false) :
    Graft (ended? suffix others) := by
  intro members edited made
  obtain ⟨members', isSuffixed, rfl⟩ := Option.map_eq_some_iff.mp made
  rcases suffix with _ | suffix
  · obtain rfl := Option.some.inj isSuffixed
    exact ⟨members, [], others, by simp, rfl, rfl, free, by simp_all, fun front _ => by
      simp [ended?, suffixed?]⟩
  · rcases List.eq_nil_or_concat' members with rfl | ⟨before, last, rfl⟩
    · rw [suffixed?_nil] at isSuffixed
      obtain rfl := Option.some.inj isSuffixed
      refine ⟨[], [], others, rfl, rfl, rfl, free, fun _ => rfl, fun front isEmpty => ?_⟩
      rw [isEmpty rfl]
      exact made
    · rw [suffixed?_append_singleton] at isSuffixed
      obtain ⟨last', isLast, rfl⟩ := Option.map_eq_some_iff.mp isSuffixed
      have isLast : last.continued suffix = .ok last' := by
        cases h : last.continued suffix <;> simp_all [Except.toOption]
      obtain ⟨freeLast, freeLast'⟩ := Simple.mentionsParent_of_continued isLast
      refine ⟨before, [last], last' :: others, rfl, by simp, ?_, ?_, by simp, fun front _ => ?_⟩
      · simp [mentionsParent, freeLast]
      · simp [mentionsParent, freeLast', free]
      · rw [ended?, suffixed?_append_singleton, isLast]
        simp [Except.toOption]

namespace Chain

theorem placed?_eq_editSubject? {suffix : Option String} {others : Compound}
    (more : (suffix.isNone && others.isEmpty) = false) :
    placed? suffix others = editSubject? (Compound.ended? suffix others) := by
  funext chain
  unfold placed?
  rw [more]
  simp [editSubject?, Compound.ended?, Option.map_map, Function.comp_def]

variable {parents : Alternatives}

theorem graft_placed? (suffix : Option String) {others : Compound} (some_parent : parents ≠ [])
    (nonempty : ∀ outer ∈ parents.chains, outer ≠ []) (free : others.mentionsParent = false) :
    Graft parents (placed? suffix others) := by
  cases more : suffix.isNone && others.isEmpty with
  | true =>
    obtain ⟨rfl, rfl⟩ : suffix = none ∧ others = [] := by simpa using more
    exact Graft.unedited
  | false =>
    rw [placed?_eq_editSubject? more]
    exact graft_editSubject? some_parent nonempty (Compound.graft_ended? free more)

/-- Whether `&` is mentioned at most once, and then where the chain begins. -/
def parentOnlyFirst : Chain → Bool
  | .compound (.parent _ :: others) :: rest =>
    !Compound.mentionsParent others && !Chain.mentionsParent rest
  | chain => !chain.mentionsParent

theorem parentOnlyFirst_cases {chain : Chain} (first : chain.parentOnlyFirst = true) :
    chain.mentionsParent = false ∨
      ∃ suffix others rest, chain = .compound (.parent suffix :: others) :: rest ∧
        Compound.mentionsParent others = false ∧ Chain.mentionsParent rest = false := by
  unfold parentOnlyFirst at first
  split at first
  next suffix others rest => exact .inr ⟨suffix, others, rest, rfl, by simpa using first⟩
  next => exact .inl (by simpa using first)

/-- What the chain of an alternative around a rule becomes, for one alternative of the rule. -/
def placeUnder? : (chain outer : Chain) → Option Chain
  | .compound (.parent suffix :: others) :: rest, outer =>
    (placed? suffix others outer).map (· ++ rest)
  | chain, outer => some (outer ++ chain)

theorem placeUnder?_of_free {chain : Chain} (free : chain.mentionsParent = false) :
    chain.placeUnder? = fun outer => some (outer ++ chain) := by
  funext outer
  unfold placeUnder?
  split
  · simp [mentionsParent, Compound.mentionsParent, Simple.mentionsParent] at free
  · rfl

theorem nested?_eq {chain : Chain} (first : chain.parentOnlyFirst = true) :
    chain.nested? parents = parents.chains.mapM chain.placeUnder? := by
  rcases parentOnlyFirst_cases first with free | ⟨suffix, others, rest, rfl, freeOthers, freeRest⟩
  · rw [nested?, if_neg (by simp [free]), placeUnder?_of_free free]
    exact (List.mapM_pure (m := Option)).symm
  · have mentions : mentionsParent (.compound (.parent suffix :: others) :: rest) = true := rfl
    have kept : Compound.expansion? parents (.parent suffix :: others) =
        some (.parent suffix :: others) := by
      rw [Compound.expansion?_cons, Compound.expansion?_free freeOthers]
      rfl
    rw [nested?, if_pos mentions, ← List.singleton_append, expanded?_append,
      expanded?_free parents freeRest, expanded?_single, Component.expansions?, kept,
      Option.bind_some, chains_underParents]
    simp only [Option.map₂_coe_right, inFront_single, map_mapM_option]
    rfl

theorem graft_placeUnder? {chain : Chain} (some_parent : parents ≠ [])
    (nonempty : ∀ outer ∈ parents.chains, outer ≠ []) (first : chain.parentOnlyFirst = true) :
    Graft parents chain.placeUnder? := by
  rcases parentOnlyFirst_cases first with free | ⟨suffix, others, rest, rfl, freeOthers, freeRest⟩
  · rw [placeUnder?_of_free free]
    exact .append free
  · have placed := graft_placed? suffix some_parent nonempty freeOthers
    have under : placeUnder? (.compound (.parent suffix :: others) :: rest) =
        fun outer => (placed? suffix others outer).bind fun chain => some (chain ++ rest) := by
      funext outer
      exact Option.map_eq_bind
    rw [under]
    exact placed.comp (.append freeRest)

end Chain

/-! ### Three rules -/

-- Lists with the same chains are equal.
theorem SelectorList.beq_of_chains {list list' : SelectorList}
    (same : Alternatives.chains list.alternatives = Alternatives.chains list'.alternatives) :
    (list == list') = true := by
  have erased (alternatives : Alternatives) :
      alternatives.bare = alternatives.chains.map fun chain => ⟨Chain.bare chain, false⟩ := by
    induction alternatives with
    | nil => rfl
    | cons complex rest ih =>
      obtain ⟨components, lineBreak⟩ := complex
      simp [Alternatives.bare, ih]
  rw [beq_iff_bare, bare, bare, erased, erased, same]

theorem Alternatives.chains_expansions? (parents alternatives : Alternatives) :
    (expansions? parents true alternatives).map chains =
      alternatives.chains.flatMapM (Chain.nested? parents) := by
  induction alternatives with
  | nil => rfl
  | cons complex rest ih =>
    obtain ⟨components, lineBreak⟩ := complex
    have here : (Complex.expansions? parents true ⟨components, lineBreak⟩).map chains =
        Chain.nested? parents components := by
      unfold Complex.expansions? Chain.nested?
      split
      · rfl
      · simp
    rw [expansions?_cons, chains_cons, List.flatMapM_cons, ← here, ← ih]
    cases Complex.expansions? parents true ⟨components, lineBreak⟩ <;>
      cases expansions? parents true rest <;> simp

theorem Alternatives.ne_nil_of_wellFormed {alternatives : Alternatives}
    (wellFormed : alternatives.wellFormed = true) : ∀ chain ∈ alternatives.chains, chain ≠ [] := by
  induction alternatives with
  | nil => simp
  | cons complex rest ih =>
    obtain ⟨components, lineBreak⟩ := complex
    simp only [Alternatives.wellFormed, Bool.and_eq_true] at wellFormed
    rw [chains_cons, List.forall_mem_cons]
    exact ⟨by simpa using wellFormed.1.1, ih wellFormed.2⟩

/-- Of three rules, the one in the middle may be put into the outer one before the inner one is
put into it. -/
theorem Alternatives.chains_expansions?_assoc {inner middle outer inner' middle' : Alternatives}
    (some_outer : outer ≠ []) (nonempty : ∀ chain ∈ outer.chains, chain ≠ [])
    (first : ∀ chain ∈ inner.chains, Chain.parentOnlyFirst chain = true)
    (inMiddle : expansions? middle true inner = some inner')
    (inOuter : expansions? outer true middle = some middle') :
    (expansions? outer true inner').map chains = (expansions? middle' true inner).map chains := by
  have isInner' : inner.chains.flatMapM (Chain.nested? middle) = some inner'.chains := by
    rw [← chains_expansions?, inMiddle]
    rfl
  have isMiddle' : middle.chains.flatMapM (Chain.nested? outer) = some middle'.chains := by
    rw [← chains_expansions?, inOuter]
    rfl
  rw [chains_expansions?, chains_expansions?]
  rw [flatMapM_eq] at isInner'
  obtain ⟨groups, grouped, isFlat⟩ := Option.map_eq_some_iff.mp isInner'
  rw [← isFlat, flatMapM_flatten]
  refine flatMapM_of_mapM grouped fun chain placed isChain isPlaced => ?_
  -- One alternative of the inner rule: putting it below the middle rule is an edit of the end.
  have isFirst := first chain isChain
  rw [Chain.nested?_eq isFirst] at isPlaced ⊢
  have graft := Chain.graft_placeUnder? some_outer nonempty isFirst
  rw [flatMapM_of_commutes (fun _ _ made => graft.nested?_edited made) isPlaced, isMiddle']
  rfl

namespace SelectorList

-- Where the same chains come out, so do equal lists, and where none do, both rules fail.
theorem nest_of_chains {child child' parent parent' : SelectorList}
    (same : (Alternatives.expansions? parent.alternatives true child.alternatives).map
        Alternatives.chains =
      (Alternatives.expansions? parent'.alternatives true child'.alternatives).map
        Alternatives.chains) :
    (∃ list list', (child.nest (some parent) true).result = .ok list ∧
        (child'.nest (some parent') true).result = .ok list' ∧ (list == list') = true) ∨
      ∃ error error', (child.nest (some parent) true).result = .error error ∧
        (child'.nest (some parent') true).result = .error error' := by
  cases expanded : Alternatives.expansions? parent.alternatives true child.alternatives with
  | some list =>
    rw [expanded, Option.map_some, eq_comm, Option.map_eq_some_iff] at same
    obtain ⟨list', expanded', same⟩ := same
    exact .inl ⟨⟨list, child.span⟩, ⟨list', child'.span⟩,
      result_nest_eq_ok_iff.mpr ⟨list, expanded, rfl⟩,
      result_nest_eq_ok_iff.mpr ⟨list', expanded', rfl⟩, beq_of_chains same.symm⟩
  | none =>
    rw [expanded, Option.map_none, eq_comm, Option.map_eq_none_iff] at same
    obtain ⟨error, failed⟩ := result_nest_eq_error_iff.mpr expanded
    obtain ⟨error', failed'⟩ := result_nest_eq_error_iff.mpr same
    exact .inr ⟨error, error', failed, failed'⟩

/-- Nesting is associative: flattening the inner two of three rules first gives what flattening
the outer two first gives, and one fails only if the other does. The outermost list is
well-formed, as every list is that the checked constructors make. -/
theorem nest_assoc (inner middle outer inner' middle' : SelectorList)
    (wellFormed : outer.wellFormed = true)
    (first : ∀ complex ∈ inner.alternatives, Chain.parentOnlyFirst complex.components = true)
    (inMiddle : (inner.nest (some middle) true).result = .ok inner')
    (inOuter : (middle.nest (some outer) true).result = .ok middle') :
    (∃ list list', (inner'.nest (some outer) true).result = .ok list ∧
        (inner.nest (some middle') true).result = .ok list' ∧ (list == list') = true) ∨
      ∃ error error', (inner'.nest (some outer) true).result = .error error ∧
        (inner.nest (some middle') true).result = .error error' := by
  obtain ⟨alternatives, expanded, rfl⟩ := result_nest_eq_ok_iff.mp inMiddle
  obtain ⟨alternatives', expanded', rfl⟩ := result_nest_eq_ok_iff.mp inOuter
  obtain ⟨isSome, wellFormed⟩ := by
    simpa only [SelectorList.wellFormed, Bool.and_eq_true] using wellFormed
  refine nest_of_chains (Alternatives.chains_expansions?_assoc (by simpa using isSome)
    (Alternatives.ne_nil_of_wellFormed wellFormed) ?_ expanded expanded')
  simpa only [Alternatives.chains, List.forall_mem_map] using first

/-- The rule `&-x > .q, .z`. -/
def innerOfThree : SelectorList :=
  ⟨[⟨[.compound [.parent (some "-x")], .combinator .child, .compound [.className "q"]], false⟩,
    ⟨[.compound [.className "z"]], false⟩], none⟩

/-- The rule `.b &.c, & .a`. -/
def middleOfThree : SelectorList :=
  ⟨[⟨[.compound [.className "b"], .compound [.parent none, .className "c"]], true⟩,
    ⟨[.compound [.parent none], .compound [.className "a"]], false⟩], none⟩

/-- The rule `.g + .h, #i`. -/
def outerOfThree : SelectorList :=
  ⟨[⟨[.compound [.className "g"], .combinator .nextSibling, .compound [.className "h"]], false⟩,
    ⟨[.compound [.idName "i"]], false⟩], none⟩

theorem innerOfThree_assoc :
    ∃ inner' middle', outerOfThree.wellFormed = true ∧
      (∀ complex ∈ innerOfThree.alternatives, Chain.parentOnlyFirst complex.components = true) ∧
      (innerOfThree.nest (some middleOfThree) true).result = .ok inner' ∧
      (middleOfThree.nest (some outerOfThree) true).result = .ok middle' ∧
      inner'.alternatives.length = 4 ∧ middle'.alternatives.length = 4 ∧
      ((∃ list list', (inner'.nest (some outerOfThree) true).result = .ok list ∧
          (innerOfThree.nest (some middle') true).result = .ok list' ∧ (list == list') = true) ∨
        ∃ error error', (inner'.nest (some outerOfThree) true).result = .error error ∧
          (innerOfThree.nest (some middle') true).result = .error error') := by
  have first : ∀ complex ∈ innerOfThree.alternatives,
      Chain.parentOnlyFirst complex.components = true := by
    simp [innerOfThree, Chain.parentOnlyFirst, Chain.mentionsParent, Compound.mentionsParent,
      Simple.mentionsParent]
  exact ⟨_, _, rfl, first, rfl, rfl, rfl, rfl,
    nest_assoc innerOfThree middleOfThree outerOfThree _ _ rfl first rfl rfl⟩

end SelectorList

end Selectors
