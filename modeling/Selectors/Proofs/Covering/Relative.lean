import Selectors.Proofs.Covering.Inclusion
import Selectors.Proofs.Covering.Logical
import Selectors.Proofs.Covering.Spanning
import Selectors.Proofs.Unification.Siblings

/-!
# Covering through `:has`

The argument of `:has` is relative: an alternative is searched from the element outwards, along
the combinator that it begins with, or else downwards. Covering reads it as it reads any list, and
the walk passes over a combinator that the covered chain begins with. That is right where the
covered alternative leads downwards and wrong where it leads to siblings, unless some alternative
of the covering list leads there too.
-/
namespace Selectors

/-- Whether the step leads to siblings. -/
def Step.isSideways (step : Step) : Bool := step.any (· ≠ .child)

namespace Chain

/-- One compound without nested lists, with a combinator before it or none. -/
def IsRelative (chain : Chain) : Prop :=
  ∃ members : Compound, chain.pastStep = [.compound members] ∧ members.depth = 0

/-- The first chain leads somewhere wherever the second does: it takes the same steps at least and
asks no more of where they end, or it takes the same direction and asks nothing. -/
def Entails (chain other : Chain) : Prop :=
  chain.step.covers other.step = true ∧
      (chain.subject?.getD []).Within (other.subject?.getD []) ∨
    chain.step.isSideways = other.step.isSideways ∧ (chain.subject?.getD []).Within []

end Chain

namespace SelectorList

/-- Whether an alternative, read as relative to the element, leads to some element. -/
def FoundFrom {Element : Type} (document : Document Element) (interpretation : Interpretation Element)
    (list : SelectorList) (element : Element) : Prop :=
  ∃ complex ∈ list.alternatives, ∃ target,
    Chain.Onward document (Compound.Holds document interpretation) complex.components element target

/-- The list `:has(…)` with the list as its argument. -/
def has (list : SelectorList) : SelectorList :=
  ⟨[⟨[.compound [.pseudo ⟨"has", true, none, some list⟩]], false⟩], none⟩

end SelectorList

/-! ### Covering -/

theorem SelectorList.covers_has (first second : SelectorList) :
    first.has.covers second.has = first.covers second := by
  have named (list : SelectorList) :
      Pseudo.family ⟨"has", true, none, some list⟩ = Pseudo.family ⟨"has", true, none, none⟩ :=
    Pseudo.family_of_name rfl
  have related : Pseudo.family ⟨"has", true, none, none⟩ = .related := by decide
  rw [covers_eq, covers_eq, has, has, Alternatives.covers_singletons]
  simp [Chain.covers, Chain.coversBy, Chain.subject?, Chain.splitSubject?, Chain.walk,
    Compound.covers, Compound.coversBy, Compound.coveredByMember, Compound.coveredByPseudo, named, related,
    Compound.nestedOf, Simple.isPlainPseudoElement, Simple.isPseudoElement]

namespace Chain

theorem exists_eq_of_pastStep {chain : Chain} {members : Compound}
    (past : chain.pastStep = [.compound members]) :
    chain = chain.step.toList.map .combinator ++ [.compound members] := by
  rcases chain with _ | ⟨_ | kind, rest⟩
  · cases past
  · exact past
  · exact congrArg (.combinator kind :: ·) past

theorem subject?_of_pastStep {chain : Chain} {members : Compound}
    (past : chain.pastStep = [.compound members]) : chain.subject? = some members := by
  rw [exists_eq_of_pastStep past]
  exact subject?_append_compound _ members

theorem covers_relative_iff {chain other : Chain} {members members' : Compound}
    (past : chain.pastStep = [.compound members]) (past' : other.pastStep = [.compound members'])
    (plain : members.depth = 0) (plain' : members'.depth = 0) :
    chain.covers other = true ↔ chain.step = none ∧ members.IsMetBy members' := by
  have split : other.splitSubject? = some (other.step.toList.map .combinator, members') :=
    splitSubject?_eq_some_iff.mpr (exists_eq_of_pastStep past')
  simp only [Chain.covers, coversBy, subject?_of_pastStep past, subject?_of_pastStep past',
    Option.isSome_some, Bool.true_and]
  rcases chain with _ | ⟨_ | kind, rest⟩
  · cases past
  · obtain ⟨isFirst, rfl⟩ := List.cons_eq_cons.mp past
    obtain rfl := Component.compound.inj isFirst
    simp [walk, split, step, Compound.covers_iff_isMetBy plain plain']
  · simp [walk, step]

end Chain

/-! ### Leading somewhere -/

namespace Document

variable {Element : Type} {document : Document Element} {element target : Element} {step : Step}

-- Where a step leads anywhere, the shortest step of its direction does.
theorem exists_leads_iff :
    (∃ target, document.Leads step element target) ↔
      ∃ target, document.Leads (some (if step.isSideways then .nextSibling else .child)) element
        target := by
  match step with
  | none =>
    constructor
    · rintro ⟨target, leads⟩
      obtain ⟨next, isChild, _⟩ := Relation.TransGen.head'_iff.mp leads
      exact ⟨next, isChild⟩
    · rintro ⟨next, isChild⟩
      exact ⟨next, .single isChild⟩
  | some .child => exact Iff.rfl
  | some .nextSibling => exact Iff.rfl
  | some .subsequentSibling =>
    constructor
    · rintro ⟨target, leads⟩
      obtain ⟨next, adjacent, _⟩ := Relation.TransGen.head'_iff.mp leads
      exact ⟨next, adjacent⟩
    · rintro ⟨next, adjacent⟩
      exact ⟨next, .single adjacent⟩

-- Along a trail a step leads to siblings just when the next element is one.
theorem isSideways_of_trail_leads {beside : Nat → Bool} {first last : Nat}
    (leads : (trail beside).Leads step first last) : step.isSideways = beside first := by
  match step with
  | none => exact (trail_leads_none_iff.mp leads).2.symm
  | some .child => exact (trail_leads_child_iff.mp leads).2.1.symm
  | some .nextSibling => exact (trail_leads_next_iff.mp leads).2.symm
  | some .subsequentSibling =>
    obtain ⟨less, between⟩ := trail_leads_subsequent_iff.mp leads
    exact (between first (Nat.le_refl first) less).symm

end Document

namespace Compound

variable {Element : Type} {document : Document Element} {interpretation : Interpretation Element}
  {element : Element} {members members' : Compound}

theorem Within.holds (within : members.Within members')
    (here : members'.Holds document interpretation element) :
    members.Holds document interpretation element := by
  apply holds_iff.mpr
  intro simple isMember
  rcases within simple isMember with universal | contained
  · rw [Simple.holds_of_beq universal]
    simp [Simple.Holds]
  · exact holds_of_contains contained here

-- What holds at a place of a trail says no more than the place.
theorem within_of_holds_along {places : List Place} {first : Nat} (plain : members.depth = 0)
    (here : members.Holds (.along places) (.along places) first)
    (atMost : ∀ place, places[first]? = some place → place.members ⊆ members') :
    members.Within members' := by
  intro simple isMember
  rcases (holds_along_iff plain).mp here simple isMember with rfl | ⟨place, isPlace, inPlace⟩
  · exact Or.inl BEq.rfl
  · exact Or.inr (List.elem_eq_true_of_mem (atMost place isPlace inPlace))

end Compound

namespace Chain

variable {Element : Type} {document : Document Element} {interpretation : Interpretation Element}
  {element target : Element} {chain other : Chain} {members members' : Compound}

theorem onward_relative_iff {holds : Compound → Element → Prop}
    (past : chain.pastStep = [.compound members]) :
    chain.Onward document holds element target ↔
      document.Leads chain.step element target ∧ holds members target := by
  have nonempty : chain ≠ [] := by
    rintro rfl
    cases past
  simp only [Onward, nonempty, false_and, false_or, past, path_single_iff]
  constructor
  · rintro ⟨next, leads, here, rfl⟩
    exact ⟨leads, here⟩
  · rintro ⟨leads, here⟩
    exact ⟨target, leads, here, rfl⟩

theorem Entails.onward (entails : chain.Entails other)
    (past : chain.pastStep = [.compound members]) (past' : other.pastStep = [.compound members'])
    (onward : other.Onward document (Compound.Holds document interpretation) element target) :
    ∃ target', chain.Onward document (Compound.Holds document interpretation) element target' := by
  obtain ⟨leads, here⟩ := (onward_relative_iff past').mp onward
  simp only [Entails, subject?_of_pastStep past, subject?_of_pastStep past', Option.getD_some] at entails
  rcases entails with ⟨covers, within⟩ | ⟨same, nothing⟩
  · exact ⟨target, (onward_relative_iff past).mpr
      ⟨Document.leads_of_covers covers leads, within.holds here⟩⟩
  · have anywhere := Document.exists_leads_iff.mp ⟨target, leads⟩
    rw [← same] at anywhere
    obtain ⟨target', leads'⟩ := Document.exists_leads_iff.mpr anywhere
    have there : Compound.Holds document interpretation [] target' := trivial
    exact ⟨target', (onward_relative_iff past).mpr ⟨leads', nothing.holds there⟩⟩

/-- The wide trail of the other chain, begun at an element of which nothing is known. -/
abbrev trailFrom (other : Chain) : List Place := Chain.places true (.compound [] :: other)

theorem trailFrom_eq (past' : other.pastStep = [.compound members']) :
    other.trailFrom = ⟨[], other.step.isSideways⟩ :: Step.gap true other.step ++ [⟨members', false⟩] := by
  have nonempty : other ≠ [] := by
    rintro rfl
    cases past'
  rw [trailFrom, places_cons nonempty, past']
  rfl

theorem onward_trailFrom (past' : other.pastStep = [.compound members']) (plain' : members'.depth = 0) :
    ∃ last, other.Onward (.along other.trailFrom)
      (Compound.Holds (.along other.trailFrom) (.along other.trailFrom)) 0 last := by
  have proper : Proper (.compound [] :: other) := .cons [] (past' ▸ .subject members')
  have plain : Chain.depth (.compound [] :: other) = 0 := by
    rw [exists_eq_of_pastStep past', ← List.singleton_append, depth_append, depth_append]
    rcases other.step with _ | _ <;> simp [Chain.depth, Compound.depth, plain']
  have whole : other.trailFrom.drop 0 = Chain.places true (.compound [] :: other) := List.drop_zero
  have path := path_along proper plain whole
  exact ⟨_, (path_cons_iff.mp path).2⟩

/-- Along that trail only what the other chain entails is found. -/
theorem entails_of_trailFrom {last : Nat} (past : chain.pastStep = [.compound members])
    (past' : other.pastStep = [.compound members']) (plain : members.depth = 0)
    (onward : chain.Onward (.along other.trailFrom)
      (Compound.Holds (.along other.trailFrom) (.along other.trailFrom)) 0 last) :
    chain.Entails other := by
  obtain ⟨leads, here⟩ := (onward_relative_iff past).mp onward
  have layout : other.trailFrom.drop 0 =
      ⟨[], other.step.isSideways⟩ :: Step.gap true other.step ++ [⟨members', false⟩] := trailFrom_eq past'
  have sideways : chain.step.isSideways = other.step.isSideways := by
    rw [Document.isSideways_of_trail_leads leads, place_of_drop layout]
    rfl
  have forward := Document.lt_of_trail_leads leads
  simp only [Entails, subject?_of_pastStep past, subject?_of_pastStep past', Option.getD_some]
  by_cases reached : 0 + 1 + (Step.gap true other.step).length ≤ last
  · refine Or.inl ⟨covers_of_trail layout reached leads, ?_⟩
    refine Compound.within_of_holds_along plain here fun place isPlace => ?_
    have isLast : place ∈ [⟨members', false⟩] := by
      rw [← drop_of_drop layout]
      apply List.mem_of_getElem?
      rwa [List.getElem?_drop, Nat.add_sub_cancel' reached]
    obtain rfl := List.mem_singleton.mp isLast
    exact List.Subset.refl members'
  · -- between the two there is nothing to be asked of
    refine Or.inr ⟨sideways, Compound.within_of_holds_along plain here fun place isPlace => ?_⟩
    have inGap : place ∈ Step.gap true other.step := by
      obtain ⟨between, rfl⟩ := Nat.exists_eq_add_of_lt forward
      have inside : between < (Step.gap true other.step).length := by omega
      rw [← List.drop_zero (l := other.trailFrom), layout, Nat.zero_add, List.cons_append,
        List.getElem?_cons_succ, List.getElem?_append_left inside] at isPlace
      exact List.mem_of_getElem? isPlace
    rw [Step.members_of_mem_gap inGap]
    exact List.Subset.refl []

end Chain

/-! ### Lists -/

namespace SelectorList

/-- What the second list finds from an element, the first finds too, whatever the document and
whatever simple selectors say. -/
def FindsAll (first second : SelectorList) : Prop :=
  ∀ ⦃Element : Type⦄ (document : Document Element) (interpretation : Interpretation Element)
    (element : Element), second.FoundFrom document interpretation element →
      first.FoundFrom document interpretation element

section

variable {first second : SelectorList}
  (relative₁ : ∀ complex ∈ first.alternatives, Chain.IsRelative complex.components)
  (relative₂ : ∀ complex ∈ second.alternatives, Chain.IsRelative complex.components)

include relative₁ relative₂

/-- A list is found wherever another is just when each alternative of the other is entailed by a
single one of its own. -/
theorem findsAll_iff : first.FindsAll second ↔
    ∀ other ∈ second.alternatives, ∃ candidate ∈ first.alternatives,
      Chain.Entails candidate.components other.components := by
  constructor
  · intro finds other isOther
    obtain ⟨members', past', plain'⟩ := relative₂ other isOther
    obtain ⟨last, onward⟩ := Chain.onward_trailFrom past' plain'
    obtain ⟨candidate, isCandidate, last', onward'⟩ := finds _ _ 0 ⟨other, isOther, last, onward⟩
    obtain ⟨members, past, plain⟩ := relative₁ candidate isCandidate
    exact ⟨candidate, isCandidate, Chain.entails_of_trailFrom past past' plain onward'⟩
  · rintro entailed Element document interpretation element ⟨other, isOther, target, onward⟩
    obtain ⟨candidate, isCandidate, entails⟩ := entailed other isOther
    obtain ⟨members, past, _⟩ := relative₁ candidate isCandidate
    obtain ⟨members', past', _⟩ := relative₂ other isOther
    exact ⟨candidate, isCandidate, entails.onward past past' onward⟩

theorem covers_has_iff : first.has.covers second.has = true ↔
    ∀ other ∈ second.alternatives, ∃ candidate ∈ first.alternatives,
      Chain.step candidate.components = none ∧
        ((Chain.subject? candidate.components).getD []).IsMetBy
          ((Chain.subject? other.components).getD []) := by
  rw [covers_has, covers_eq, Alternatives.covers_iff]
  refine forall₂_congr fun other isOther => exists_congr fun candidate => ?_
  refine and_congr_right fun isCandidate => ?_
  obtain ⟨members, past, plain⟩ := relative₁ candidate isCandidate
  obtain ⟨members', past', plain'⟩ := relative₂ other isOther
  rw [Chain.covers_relative_iff past past' plain plain', Chain.subject?_of_pastStep past,
    Chain.subject?_of_pastStep past']
  rfl

end

/-- Where `:has` is seen to cover `:has`, the first list is found wherever the second is just when
each alternative of the second that leads to siblings is entailed by one of the first. So covering
is sound for alternatives that lead downwards. -/
theorem covers_has_sound_iff (first second : SelectorList)
    (relative₁ : ∀ complex ∈ first.alternatives, Chain.IsRelative complex.components)
    (relative₂ : ∀ complex ∈ second.alternatives, Chain.IsRelative complex.components)
    (covers : first.has.covers second.has = true) :
    first.FindsAll second ↔
      ∀ other ∈ second.alternatives, (Chain.step other.components).isSideways = true →
        ∃ candidate ∈ first.alternatives, Chain.Entails candidate.components other.components := by
  rw [findsAll_iff relative₁ relative₂]
  constructor
  · intro entailed other isOther _
    exact entailed other isOther
  · intro entailed other isOther
    by_cases sideways : (Chain.step other.components).isSideways = true
    · exact entailed other isOther sideways
    · obtain ⟨candidate, isCandidate, downwards, met⟩ :=
        (covers_has_iff relative₁ relative₂).mp covers other isOther
      refine ⟨candidate, isCandidate, Or.inl ⟨?_, Compound.within_of_subset met.members⟩⟩
      rw [downwards]
      rcases step : Chain.step other.components with _ | _ | _ | _ <;> simp_all [Step.covers, Step.isSideways]

/-- The list `.a`. -/
def belowIsA : SelectorList := ⟨[⟨[.compound [.className "a"]], false⟩], none⟩

/-- The chain `+ .a`. -/
def nextA : Chain := [.combinator .nextSibling, .compound [.className "a"]]

/-- The list `+ .a`. -/
def nextIsA : SelectorList := ⟨[⟨nextA, false⟩], none⟩

/-- Of two siblings the first is followed by `.a` and has nothing below it. -/
theorem belowIsA_covers_nextIsA :
    (∀ complex ∈ belowIsA.alternatives, Chain.IsRelative complex.components) ∧
      (∀ complex ∈ nextIsA.alternatives, Chain.IsRelative complex.components) ∧
      belowIsA.has.covers nextIsA.has = true ∧
      nextIsA.FoundFrom (.along nextA.trailFrom) (.along nextA.trailFrom) 0 ∧
      ¬belowIsA.FoundFrom (.along nextA.trailFrom) (.along nextA.trailFrom) 0 := by
  refine ⟨?_, ?_, by decide, ⟨_, List.mem_singleton_self _, Chain.onward_trailFrom rfl rfl⟩, ?_⟩
  · simp [belowIsA, Chain.IsRelative, Chain.pastStep, Compound.depth, Simple.depth]
  · simp [nextIsA, nextA, Chain.IsRelative, Chain.pastStep, Compound.depth, Simple.depth]
  · rintro ⟨complex, isMember, target, onward⟩
    obtain rfl := List.mem_singleton.mp isMember
    obtain ⟨below, _⟩ := (Chain.onward_relative_iff rfl).mp onward
    have sideways := Document.isSideways_of_trail_leads below
    cases sideways

/-- The list `.a, ~ .a`. -/
def belowOrAfterIsA : SelectorList :=
  ⟨[⟨[.compound [.className "a"]], false⟩,
    ⟨[.combinator .subsequentSibling, .compound [.className "a"]], false⟩], none⟩

/-- The list `> .a.b, + .a`. -/
def childOrNextIsA : SelectorList :=
  ⟨[⟨[.combinator .child, .compound [.className "a", .className "b"]], false⟩,
    ⟨[.combinator .nextSibling, .compound [.className "a"]], false⟩], none⟩

theorem belowOrAfterIsA_findsAll :
    (∀ complex ∈ belowOrAfterIsA.alternatives, Chain.IsRelative complex.components) ∧
      (∀ complex ∈ childOrNextIsA.alternatives, Chain.IsRelative complex.components) ∧
      belowOrAfterIsA.has.covers childOrNextIsA.has = true ∧
      belowOrAfterIsA.FindsAll childOrNextIsA := by
  have relative₁ : ∀ complex ∈ belowOrAfterIsA.alternatives, Chain.IsRelative complex.components := by
    simp [belowOrAfterIsA, Chain.IsRelative, Chain.pastStep, Compound.depth, Simple.depth]
  have relative₂ : ∀ complex ∈ childOrNextIsA.alternatives, Chain.IsRelative complex.components := by
    simp [childOrNextIsA, Chain.IsRelative, Chain.pastStep, Compound.depth, Simple.depth]
  have covers : belowOrAfterIsA.has.covers childOrNextIsA.has = true := by decide
  refine ⟨relative₁, relative₂, covers, ?_⟩
  apply (covers_has_sound_iff belowOrAfterIsA childOrNextIsA relative₁ relative₂ covers).mpr
  intro other isOther sideways
  simp only [childOrNextIsA, List.mem_cons, List.not_mem_nil, or_false] at isOther
  rcases isOther with rfl | rfl
  · cases sideways
  · -- `~ .a` takes the step to the next sibling among others
    exact ⟨⟨[.combinator .subsequentSibling, .compound [.className "a"]], false⟩,
      by simp [belowOrAfterIsA], Or.inl (by decide)⟩

end SelectorList

end Selectors
