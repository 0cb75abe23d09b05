import Mathlib.Data.Set.Card
import Mathlib.Order.Interval.Finset.Nat
import Selectors.Proofs.Covering.Relative

/-!
# Covering through `:nth-child`

The argument of `:nth-child(An+B of S)` counts the siblings that match the list, so a wider list
moves an element to a later place. Covering compares the two lists alone and asks for the same
argument. That is right where the lists match the same elements, or where no place of the argument
is followed by one that is not.
-/
namespace Selectors

/-! ### Places among siblings -/

namespace Document

variable {Element : Type}

/-- The siblings up to an element, itself included, from the first of them or from the last. -/
def upTo (document : Document Element) (fromLast : Bool) (element : Element) : Set Element :=
  {sibling | sibling = element ∨
    if fromLast then document.Leads (some .subsequentSibling) element sibling
    else document.Leads (some .subsequentSibling) sibling element}

/-- The place of an element among the siblings that match, the first of which has the place one. -/
noncomputable def rank (document : Document Element) (fromLast : Bool) (matched : Element → Prop)
    (element : Element) : Nat :=
  {sibling ∈ document.upTo fromLast element | matched sibling}.ncard

/-- There are finitely many siblings after each element. -/
def IsBounded (document : Document Element) : Prop :=
  ∀ element, (document.upTo true element).Finite

variable {document : Document Element} {fromLast : Bool} {element : Element}

-- Only finitely many siblings come before an element in any case.
theorem finite_upTo_first (document : Document Element) (element : Element) :
    (document.upTo false element).Finite := by
  induction element using document.order.induction with
  | _ element ih =>
    cases before : document.previous element with
    | none =>
      apply (Set.finite_singleton element).subset
      rintro sibling (rfl | leads)
      · exact Set.mem_singleton sibling
      · obtain ⟨_, _, adjacent⟩ := Relation.TransGen.tail'_iff.mp leads
        rw [before] at adjacent
        cases adjacent
    | some earlier =>
      apply ((ih earlier before).insert element).subset
      rintro sibling (rfl | leads)
      · exact Set.mem_insert sibling _
      · apply Set.mem_insert_of_mem
        obtain ⟨middle, reaches, adjacent⟩ := Relation.TransGen.tail'_iff.mp leads
        obtain rfl : earlier = middle := Option.some.inj (before.symm.trans adjacent)
        exact (Relation.reflTransGen_iff_eq_or_transGen.mp reaches).imp_left Eq.symm

theorem finite_upTo (bounded : document.IsBounded) : (document.upTo fromLast element).Finite := by
  cases fromLast with
  | false => exact document.finite_upTo_first element
  | true => exact bounded element

theorem rank_le_rank {matched matched' : Element → Prop} (bounded : document.IsBounded)
    (wider : ∀ sibling, matched sibling → matched' sibling) :
    document.rank fromLast matched element ≤ document.rank fromLast matched' element := by
  apply Set.ncard_le_ncard
  · exact fun sibling member => ⟨member.1, wider sibling member.2⟩
  · exact (finite_upTo bounded).subset fun sibling member => member.1

theorem rank_pos {matched : Element → Prop} (bounded : document.IsBounded) (here : matched element) :
    0 < document.rank fromLast matched element := by
  apply (Set.ncard_pos ((finite_upTo bounded).subset fun sibling member => member.1)).mpr
  exact ⟨element, Or.inl rfl, here⟩

/-- A family of one more than `last` siblings, the last of which has descendants. -/
def family (last : Nat) : Document Nat := trail (decide <| · < last)

variable {last : Nat}

theorem family_isBounded (last : Nat) : (family last).IsBounded := by
  intro element
  apply (Set.finite_Iic (max element last)).subset
  rintro sibling (rfl | leads)
  · exact Set.mem_Iic.mpr (le_max_left sibling last)
  · obtain ⟨less, between⟩ := trail_leads_subsequent_iff.mp leads
    have := between (sibling - 1) (by omega) (by omega)
    simp only [decide_eq_true_eq] at this
    exact Set.mem_Iic.mpr (by omega)

/-- The sibling that is counted last. The one that is counted first is `farEnd` of the other
direction. -/
def farEnd (fromLast : Bool) (last : Nat) : Nat := if fromLast then 0 else last

theorem upTo_farEnd (fromLast : Bool) (last : Nat) :
    (family last).upTo fromLast (farEnd fromLast last) = Set.Iic last := by
  have adjacent {first later : Nat} :
      (family last).Leads (some .subsequentSibling) first later ↔ first < later ∧ later ≤ last := by
    rw [family, trail_leads_subsequent_iff]
    refine and_congr_right fun less => ?_
    constructor
    · intro between
      have := between (later - 1) (by omega) (by omega)
      simp only [decide_eq_true_eq] at this
      omega
    · intro upTo middle _ before
      exact decide_eq_true (by omega)
  ext sibling
  cases fromLast with
  | false =>
    simp only [upTo, farEnd, Bool.false_eq_true, if_false, adjacent, Set.mem_ofPred_eq, Set.mem_Iic]
    omega
  | true =>
    simp only [upTo, farEnd, if_true, adjacent, Set.mem_ofPred_eq, Set.mem_Iic]
    omega

theorem rank_farEnd_of_all {matched : Nat → Prop} (all : ∀ sibling ≤ last, matched sibling) :
    (family last).rank fromLast matched (farEnd fromLast last) = last + 1 := by
  have whole : {sibling ∈ Set.Iic last | matched sibling} = Set.Iic last :=
    Set.sep_eq_self_iff_mem_true.mpr all
  rw [rank, upTo_farEnd, whole, ← Finset.coe_Iic, Set.ncard_coe_finset, Nat.card_Iic]

-- The sibling at the other end is the one that is counted first.
theorem rank_farEnd_of_others {matched : Nat → Prop}
    (others : ∀ sibling, matched sibling ↔ sibling ≠ farEnd (!fromLast) last) :
    (family last).rank fromLast matched (farEnd fromLast last) = last := by
  have isEnd : farEnd (!fromLast) last ∈ Set.Iic last := by
    cases fromLast <;> simp [farEnd]
  have whole : {sibling ∈ Set.Iic last | matched sibling} =
      Set.Iic last \ {farEnd (!fromLast) last} := by
    ext sibling
    simp [others]
  rw [rank, upTo_farEnd, whole, Set.ncard_sdiff_singleton_of_mem isEnd, ← Finset.coe_Iic,
    Set.ncard_coe_finset, Nat.card_Iic, Nat.add_sub_cancel]

theorem farEnd_ne (positive : 0 < last) : farEnd fromLast last ≠ farEnd (!fromLast) last := by
  cases fromLast <;> simp [farEnd] <;> omega

end Document

/-! ### Pseudos that count -/

/-- The name of the pseudo that counts from the first sibling, or from the last one. -/
def Pseudo.countingName (fromLast : Bool) : String :=
  if fromLast then "nth-last-child" else "nth-child"

/-- The pseudo `:nth-child` with an argument and a nested list, or `:nth-last-child`. -/
def Pseudo.counting (fromLast : Bool) (argument : Option String) (list : SelectorList) : Pseudo :=
  ⟨countingName fromLast, true, argument, some list⟩

theorem Pseudo.family_counting (fromLast : Bool) (argument : Option String) (list : SelectorList) :
    (counting fromLast argument list).family = .counted := by
  have named : Pseudo.family ⟨countingName fromLast, true, none, none⟩ = .counted := by
    cases fromLast <;> decide
  exact (Pseudo.family_of_name rfl).trans named

/-- The pseudos that count hold of the elements that match the list and have one of the positions
that the argument denotes. -/
def Interpretation.Counts {Element : Type} (interpretation : Interpretation Element)
    (document : Document Element) (positions : Option String → Set Nat) : Prop :=
  ∀ fromLast argument matched element,
    interpretation.nesting (Pseudo.countingName fromLast) true argument matched element ↔
      matched element ∧ document.rank fromLast matched element ∈ positions argument

/-- Gives the pseudos that count their meaning. -/
noncomputable def Interpretation.counting {Element : Type} (plain : Simple → Element → Prop)
    (document : Document Element) (positions : Option String → Set Nat) : Interpretation Element where
  plain := plain
  nesting name _ argument matched element :=
    matched element ∧ document.rank (name == "nth-last-child") matched element ∈ positions argument

theorem Interpretation.counting_counts {Element : Type} (plain : Simple → Element → Prop)
    (document : Document Element) (positions : Option String → Set Nat) :
    (counting plain document positions).Counts document positions := by
  intro fromLast argument matched element
  cases fromLast <;> rfl

/-- All simple selectors hold of every element of a family but the one that is counted first, and
of that one certain members hold. -/
noncomputable def Interpretation.sparing (members : Compound) (fromLast : Bool) (last : Nat)
    (positions : Option String → Set Nat) : Interpretation Nat :=
  .counting (fun simple element => element = Document.farEnd (!fromLast) last → simple ∈ members)
    (.family last) positions

theorem Compound.holds_sparing_iff {compound members : Compound} {fromLast : Bool} {last element : Nat}
    {positions : Option String → Set Nat} (plain : compound.depth = 0) (plain' : members.depth = 0) :
    compound.Holds (.family last) (.sparing members fromLast last positions) element ↔
      (element = Document.farEnd (!fromLast) last → compound.Within members) := by
  rw [Compound.holds_iff, Compound.Within, imp_forall_iff]
  refine forall_congr' fun simple => ?_
  rw [forall_comm]
  refine forall_congr' fun isMember => ?_
  have plainSimple := Simple.depth_eq_zero_of_mem plain isMember
  rw [Simple.holds_iff_of_plain plainSimple, Simple.beq_universal_iff,
    contains_plain_iff plain' plainSimple]
  by_cases isFirst : element = Document.farEnd (!fromLast) last <;>
    simp [Interpretation.sparing, Interpretation.counting, isFirst]

/-- One compound without nested lists. -/
def Chain.IsSingle (chain : Chain) : Prop :=
  ∃ members : Compound, chain = [.compound members] ∧ members.depth = 0

namespace SelectorList

/-- The list `:nth-child(…)` with the argument and the list, or `:nth-last-child(…)`. -/
def counted (fromLast : Bool) (argument : Option String) (list : SelectorList) : SelectorList :=
  ⟨[⟨[.compound [.pseudo (Pseudo.counting fromLast argument list)]], false⟩], none⟩

/-- What the second list matches when it is counted, the first matches too, whatever the document
and whatever simple selectors say. -/
def CountsSoundly (fromLast : Bool) (argument : Option String) (positions : Option String → Set Nat)
    (first second : SelectorList) : Prop :=
  ∀ ⦃Element : Type⦄ (document : Document Element) (interpretation : Interpretation Element),
    document.IsBounded → interpretation.Counts document positions → ∀ element,
      (second.counted fromLast argument).Holds document interpretation element →
        (first.counted fromLast argument).Holds document interpretation element

variable {Element : Type} {document : Document Element} {interpretation : Interpretation Element}
  {element : Element} {fromLast : Bool} {argument : Option String} {positions : Option String → Set Nat}
  {list first second : SelectorList}

theorem covers_counted (fromLast : Bool) (argument : Option String) (first second : SelectorList) :
    (first.counted fromLast argument).covers (second.counted fromLast argument) =
      first.covers second := by
  have family := Pseudo.family_counting fromLast argument first
  simp only [Pseudo.counting] at family
  rw [covers_eq, covers_eq, counted, counted, Alternatives.covers_singletons]
  simp [Chain.covers, Chain.coversBy, Chain.subject?, Chain.splitSubject?, Chain.walk,
    Compound.covers, Compound.coversBy, Compound.coveredByMember, Compound.coveredByPseudo,
    Pseudo.counting, family, Simple.isPlainPseudoElement, Simple.isPseudoElement]

theorem holds_counted_iff (counts : interpretation.Counts document positions) :
    (list.counted fromLast argument).Holds document interpretation element ↔
      list.Holds document interpretation element ∧
        document.rank fromLast (list.Holds document interpretation) element ∈ positions argument := by
  have single : (list.counted fromLast argument).Holds document interpretation element ↔
      Simple.Holds document interpretation
        (.pseudo (Pseudo.counting fromLast argument list)) element := by
    simp [SelectorList.Holds, counted, Alternatives.Holds, Chain.meaning, Link.Reach, Compound.Holds]
  rw [single, Pseudo.holds_nesting rfl]
  exact counts fromLast argument _ element

theorem holds_single_iff (single : ∀ complex ∈ list.alternatives, Chain.IsSingle complex.components) :
    list.Holds document interpretation element ↔
      ∃ complex ∈ list.alternatives, Compound.Holds document interpretation
        ((Chain.subject? complex.components).getD []) element := by
  rw [SelectorList.Holds, Alternatives.holds_iff]
  refine exists_congr fun complex => and_congr_right fun isMember => ?_
  obtain ⟨members, same, _⟩ := single complex isMember
  rw [same]
  rfl

section

variable (single₁ : ∀ complex ∈ first.alternatives, Chain.IsSingle complex.components)
  (single₂ : ∀ complex ∈ second.alternatives, Chain.IsSingle complex.components)

include single₁ single₂

theorem holds_of_within (within : ∀ other ∈ second.alternatives, ∃ candidate ∈ first.alternatives,
      ((Chain.subject? candidate.components).getD []).Within
        ((Chain.subject? other.components).getD []))
    (here : second.Holds document interpretation element) :
    first.Holds document interpretation element := by
  rw [holds_single_iff single₂] at here
  obtain ⟨other, isOther, here⟩ := here
  obtain ⟨candidate, isCandidate, within⟩ := within other isOther
  exact (holds_single_iff single₁).mpr ⟨candidate, isCandidate, within.holds here⟩

theorem within_of_covers (covers : first.covers second = true) :
    ∀ other ∈ second.alternatives, ∃ candidate ∈ first.alternatives,
      ((Chain.subject? candidate.components).getD []).Within
        ((Chain.subject? other.components).getD []) := by
  intro other isOther
  obtain ⟨candidate, isCandidate, covers⟩ := Alternatives.covers_iff.mp covers other isOther
  obtain ⟨members, same, plain⟩ := single₁ candidate isCandidate
  obtain ⟨members', same', plain'⟩ := single₂ other isOther
  refine ⟨candidate, isCandidate, ?_⟩
  rw [same, same'] at covers ⊢
  have met := ((Chain.covers_relative_iff rfl rfl plain plain').mp covers).2
  exact Compound.within_of_subset met.members

end

/-- Counting is sound where the lists match the same elements. -/
theorem countsSoundly_of_same
    (same : ∀ ⦃Element : Type⦄ (document : Document Element) (interpretation : Interpretation Element),
      first.Holds document interpretation = second.Holds document interpretation) :
    first.CountsSoundly fromLast argument positions second := by
  intro Element document interpretation _ counts element here
  rw [holds_counted_iff counts] at here ⊢
  rwa [same]

/-- Counting is sound where the first list matches more and each later place is as good. -/
theorem countsSoundly_of_upward
    (wider : ∀ ⦃Element : Type⦄ (document : Document Element) (interpretation : Interpretation Element)
      element, second.Holds document interpretation element →
        first.Holds document interpretation element)
    (upward : ∀ position ∈ positions argument, 0 < position → position + 1 ∈ positions argument) :
    first.CountsSoundly fromLast argument positions second := by
  intro Element document interpretation bounded counts element here
  rw [holds_counted_iff counts] at here ⊢
  obtain ⟨matched, isPosition⟩ := here
  refine ⟨wider _ _ _ matched, ?_⟩
  have positive : 0 < document.rank fromLast (second.Holds document interpretation) element :=
    Document.rank_pos bounded matched
  have later : document.rank fromLast (second.Holds document interpretation) element ≤
      document.rank fromLast (first.Holds document interpretation) element :=
    Document.rank_le_rank bounded (wider document interpretation)
  generalize document.rank fromLast (first.Holds document interpretation) element = rank at later ⊢
  induction rank, later using Nat.le_induction with
  | base => exact isPosition
  | succ position atLeast ih => exact upward position ih (Nat.lt_of_lt_of_le positive atLeast)

/-! ### Places that are moved -/

section

variable {last : Nat} {candidate : Complex}
  (single₁ : ∀ complex ∈ first.alternatives, Chain.IsSingle complex.components)
  (single₂ : ∀ complex ∈ second.alternatives, Chain.IsSingle complex.components)
  (isCandidate : candidate ∈ first.alternatives)

include single₁ isCandidate

theorem holds_sparing (element : Nat) :
    first.Holds (.family last)
      (.sparing ((Chain.subject? candidate.components).getD []) fromLast last positions) element := by
  obtain ⟨members, same, plain⟩ := single₁ candidate isCandidate
  apply (holds_single_iff single₁).mpr
  refine ⟨candidate, isCandidate, ?_⟩
  rw [same]
  exact (Compound.holds_sparing_iff plain plain).mpr fun _ => refl_of Compound.Within members

include single₂

theorem holds_sparing_iff (nonempty : second.alternatives ≠ [])
    (apart : ∀ other ∈ second.alternatives, ¬((Chain.subject? other.components).getD []).Within
      ((Chain.subject? candidate.components).getD []))
    (element : Nat) :
    second.Holds (.family last)
        (.sparing ((Chain.subject? candidate.components).getD []) fromLast last positions) element ↔
      element ≠ Document.farEnd (!fromLast) last := by
  obtain ⟨members, same, plain⟩ := single₁ candidate isCandidate
  rw [same] at apart ⊢
  rw [holds_single_iff single₂]
  constructor
  · rintro ⟨other, isOther, here⟩ isFirst
    obtain ⟨members', same', plain'⟩ := single₂ other isOther
    apply apart other isOther
    rw [same'] at here ⊢
    exact (Compound.holds_sparing_iff plain' plain).mp here isFirst
  · intro notFirst
    obtain ⟨other, isOther⟩ := List.exists_mem_of_ne_nil _ nonempty
    obtain ⟨members', same', plain'⟩ := single₂ other isOther
    refine ⟨other, isOther, ?_⟩
    rw [same']
    exact (Compound.holds_sparing_iff plain' plain).mpr fun isFirst => (notFirst isFirst).elim

/-- Where only the first list matches the sibling that is counted first, the one that is counted
last has a later place for it. -/
theorem holds_second_only (fromLast : Bool) (argument : Option String)
    (positions : Option String → Set Nat) (nonempty : second.alternatives ≠ [])
    (apart : ∀ other ∈ second.alternatives, ¬((Chain.subject? other.components).getD []).Within
      ((Chain.subject? candidate.components).getD []))
    (positive : 0 < last) (isPosition : last ∈ positions argument)
    (notNext : last + 1 ∉ positions argument) :
    (second.counted fromLast argument).Holds (.family last)
        (.sparing ((Chain.subject? candidate.components).getD []) fromLast last positions)
        (Document.farEnd fromLast last) ∧
      ¬(first.counted fromLast argument).Holds (.family last)
        (.sparing ((Chain.subject? candidate.components).getD []) fromLast last positions)
        (Document.farEnd fromLast last) := by
  have counts : Interpretation.Counts
      (.sparing ((Chain.subject? candidate.components).getD []) fromLast last positions)
      (.family last) positions := Interpretation.counting_counts _ _ _
  have others (element : Nat) : second.Holds (.family last)
      (.sparing ((Chain.subject? candidate.components).getD []) fromLast last positions) element ↔
        element ≠ Document.farEnd (!fromLast) last :=
    holds_sparing_iff single₁ single₂ isCandidate nonempty apart element
  rw [holds_counted_iff counts, holds_counted_iff counts, Document.rank_farEnd_of_others others,
    Document.rank_farEnd_of_all fun sibling _ => holds_sparing single₁ isCandidate sibling]
  exact ⟨⟨(others _).mpr (Document.farEnd_ne positive), isPosition⟩, fun moved => notNext moved.2⟩

end

/-- Where counting with one list is seen to cover counting with another, it is sound just when the
argument denotes with each position the next one too, or each alternative of the first list says no
less than one of the second, so that both match the same elements; or when the second is empty. -/
theorem covers_counted_sound_iff (fromLast : Bool) (argument : Option String)
    (positions : Option String → Set Nat) (first second : SelectorList)
    (single₁ : ∀ complex ∈ first.alternatives, Chain.IsSingle complex.components)
    (single₂ : ∀ complex ∈ second.alternatives, Chain.IsSingle complex.components)
    (covers : (first.counted fromLast argument).covers (second.counted fromLast argument) = true) :
    first.CountsSoundly fromLast argument positions second ↔
      second.alternatives = [] ∨
        (∀ position ∈ positions argument, 0 < position → position + 1 ∈ positions argument) ∨
        ∀ candidate ∈ first.alternatives, ∃ other ∈ second.alternatives,
          ((Chain.subject? other.components).getD []).Within
            ((Chain.subject? candidate.components).getD []) := by
  rw [covers_counted] at covers
  have within := within_of_covers single₁ single₂ covers
  constructor
  · intro sound
    by_contra neither
    push Not at neither
    obtain ⟨nonempty, ⟨position, isPosition, positive, notNext⟩, candidate, isCandidate, apart⟩ := neither
    obtain ⟨here, nowhere⟩ := holds_second_only single₁ single₂ isCandidate fromLast argument positions
      nonempty apart positive isPosition notNext
    apply nowhere
    exact sound _ _ (Document.family_isBounded position) (Interpretation.counting_counts _ _ _) _ here
  · rintro (none | upward | conversely)
    · intro Element document interpretation _ counts element here
      rw [holds_counted_iff counts, holds_single_iff single₂, none] at here
      obtain ⟨⟨_, isOther, _⟩, _⟩ := here
      cases isOther
    · apply countsSoundly_of_upward _ upward
      intro Element document interpretation element
      exact holds_of_within single₁ single₂ within
    · apply countsSoundly_of_same
      intro Element document interpretation
      funext element
      apply propext
      exact ⟨holds_of_within single₂ single₁ conversely, holds_of_within single₁ single₂ within⟩

/-- The list `.a`. -/
def isA : SelectorList := ⟨[⟨[.compound [.className "a"]], false⟩], none⟩

/-- The list `.a.b`. -/
def isAB : SelectorList := ⟨[⟨[.compound [.className "a", .className "b"]], false⟩], none⟩

/-- The list `.a, .a.b`. -/
def isAOrAB : SelectorList := ⟨isA.alternatives ++ isAB.alternatives, none⟩

theorem isAOrAB_single : ∀ complex ∈ isAOrAB.alternatives, Chain.IsSingle complex.components := by
  simp [isAOrAB, isA, isAB, Chain.IsSingle, Compound.depth, Simple.depth]

theorem isA_single : ∀ complex ∈ isA.alternatives, Chain.IsSingle complex.components :=
  fun complex isMember => isAOrAB_single complex (List.mem_append_left _ isMember)

theorem isAB_single : ∀ complex ∈ isAB.alternatives, Chain.IsSingle complex.components :=
  fun complex isMember => isAOrAB_single complex (List.mem_append_right _ isMember)

/-- Of the siblings `.a`, `.a.b` and `.a.b` the last one is the second of `.a.b` and not of `.a`. -/
theorem secondOfA_covers_secondOfAB :
    let reading := Interpretation.sparing [.className "a"] false 2 fun _ => {2}
    (∀ complex ∈ isA.alternatives, Chain.IsSingle complex.components) ∧
      (∀ complex ∈ isAB.alternatives, Chain.IsSingle complex.components) ∧
      (isA.counted false (some "2 of")).covers (isAB.counted false (some "2 of")) = true ∧
      (Document.family 2).IsBounded ∧ reading.Counts (.family 2) (fun _ => {2}) ∧
      (isAB.counted false (some "2 of")).Holds (.family 2) reading 2 ∧
      ¬(isA.counted false (some "2 of")).Holds (.family 2) reading 2 := by
  have apart : ∀ other ∈ isAB.alternatives,
      ¬((Chain.subject? other.components).getD []).Within [.className "a"] := by
    simp only [isAB, List.forall_mem_singleton]
    decide
  have isAlternative : ⟨[.compound [.className "a"]], false⟩ ∈ isA.alternatives :=
    List.mem_singleton_self _
  have only := holds_second_only isA_single isAB_single isAlternative false (some "2 of")
    (fun _ => {2}) (List.cons_ne_nil _ _) apart Nat.two_pos (Set.mem_singleton 2) (by simp)
  exact ⟨isA_single, isAB_single, by decide, Document.family_isBounded 2,
    Interpretation.counting_counts _ _ _, only⟩

theorem isAOrAB_countsSoundly :
    (isAOrAB.counted true (some "n+2 of")).covers (isAB.counted true (some "n+2 of")) = true ∧
      isAOrAB.CountsSoundly true (some "n+2 of") (fun _ => {position | 2 ≤ position}) isAB ∧
      (isAOrAB.counted false (some "2n of")).covers (isA.counted false (some "2n of")) = true ∧
      ∀ positions, isAOrAB.CountsSoundly false (some "2n of") positions isA := by
  have covers : (isAOrAB.counted true (some "n+2 of")).covers
      (isAB.counted true (some "n+2 of")) = true := by decide
  have covers' : (isAOrAB.counted false (some "2n of")).covers
      (isA.counted false (some "2n of")) = true := by decide
  refine ⟨covers, ?_, covers', fun positions => ?_⟩
  · apply (covers_counted_sound_iff true _ _ isAOrAB isAB isAOrAB_single isAB_single covers).mpr
    right; left
    intro position isPosition _
    exact Nat.le_succ_of_le isPosition
  · apply (covers_counted_sound_iff false _ positions isAOrAB isA isAOrAB_single isA_single covers').mpr
    -- each of `.a` and `.a.b` is `.a`
    right; right
    simp only [isAOrAB, isA, isAB, List.singleton_append, List.forall_mem_cons]
    decide

end SelectorList

end Selectors
