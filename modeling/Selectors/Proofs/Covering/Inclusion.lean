import Selectors.Proofs.Covering.Walk
import Selectors.Proofs.Matching.Trail

/-!
# Inclusion of chains

A chain includes another when it matches all that the other matches, in every document.
Among plain chains the wide trail of the other chain decides that alone: a path of a chain
without lone `*` along the trail is one along any way that the other chain holds along.
A lone `*` may stand for an element between two places, which not every document has.
-/
namespace Selectors

namespace Document

variable {Element : Type} {document : Document Element}

theorem child_of_subsequent {above earlier later : Element}
    (parent : document.Leads (some .child) above earlier)
    (after : document.Leads (some .subsequentSibling) earlier later) :
    document.Leads (some .child) above later := by
  change Relation.TransGen _ _ _ at after
  change document.parent later = some above
  induction after with
  | single adjacent => exact (document.parent_previous adjacent).symm.trans parent
  | tail _ adjacent ih => exact (document.parent_previous adjacent).symm.trans ih

end Document

theorem Step.members_of_mem_gap {wide : Bool} {step : Step} {place : Place}
    (member : place ∈ step.gap wide) : place.members = [] := by
  rcases wide with _ | _ <;> rcases step with _ | _ | _ | _ <;> simp_all [Step.gap]

namespace Chain

/-- The chain matches all that the other chain matches, whatever the document and whatever
simple selectors say. -/
def Includes (chain other : Chain) : Prop :=
  ∀ ⦃Element : Type⦄ (document : Document Element) (interpretation : Interpretation Element)
    (element : Element),
    other.Matches document (Compound.Holds document interpretation) element →
      chain.Matches document (Compound.Holds document interpretation) element

/-- No compound is a lone `*`. -/
def IsNamed (chain : Chain) : Prop :=
  ∀ members, .compound members ∈ chain → ∃ simple ∈ members, simple ≠ .universal

/-- The chain matches the last element of the wide trail of the other chain. -/
def MatchesTrail (chain other : Chain) : Prop :=
  chain.Matches (.along (other.places true))
    (Compound.Holds (.along (other.places true)) (.along (other.places true)))
    ((other.places true).length - 1)

variable {Element : Type} {document : Document Element} {holds : Compound → Element → Prop}
  {places : List Place}

/-! ### Steps along a wide trail -/

section

variable {members : Compound} {step step' : Step} {others : List Place} {first later : Nat}

-- Where a step along a wide trail reaches the next compound at least, the step that the
-- trail takes first is counted as taking it.
theorem covers_of_trail
    (here : places.drop first = ⟨members, step.any (· ≠ .child)⟩ :: Step.gap true step ++ others)
    (upTo : first + 1 + (Step.gap true step).length ≤ later)
    (leads : (Document.along places).Leads step' first later) : step'.covers step = true := by
  have isFirst := place_of_drop here
  have isSecond := congrArg (·[1]?) here
  simp only [List.getElem?_drop] at isSecond
  match step' with
  | none =>
    obtain ⟨_, down⟩ := Document.trail_leads_none_iff.mp leads
    rcases step with _ | _ | _ | _ <;> simp_all [Step.covers]
  | some .child =>
    obtain ⟨_, down, between⟩ := Document.trail_leads_child_iff.mp leads
    rcases step with _ | _ | _ | _
    · have := between (first + 1) (by omega) (by simp [Step.gap] at upTo; omega)
      simp_all [Step.gap]
    · rfl
    · simp_all
    · simp_all
  | some .nextSibling =>
    obtain ⟨rfl, beside⟩ := Document.trail_leads_next_iff.mp leads
    rcases step with _ | _ | _ | _
    · simp_all
    · simp_all
    · rfl
    · simp only [Step.gap, if_true, List.length_singleton] at upTo
      omega
  | some .subsequentSibling =>
    obtain ⟨_, between⟩ := Document.trail_leads_subsequent_iff.mp leads
    have := between first (by omega) (by omega)
    rcases step with _ | _ | _ | _ <;> simp_all [Step.covers]

-- Past the next compound a step of the trail other than descent only goes to siblings.
theorem subsequent_of_trail
    (past : first + 1 + (Step.gap true step).length < later)
    (leads : (Document.along places).Leads step' first later) :
    step' = none ∨ step' ≠ some .nextSibling ∧ (Document.along places).Leads
      (some .subsequentSibling) (first + 1 + (Step.gap true step).length) later := by
  match step' with
  | none => exact Or.inl rfl
  | some .child =>
    obtain ⟨_, _, between⟩ := Document.trail_leads_child_iff.mp leads
    refine Or.inr ⟨by simp, Document.trail_leads_subsequent_iff.mpr ⟨past, fun middle after => ?_⟩⟩
    exact between middle (by omega)
  | some .nextSibling =>
    obtain ⟨rfl, _⟩ := Document.trail_leads_next_iff.mp leads
    omega
  | some .subsequentSibling =>
    obtain ⟨_, between⟩ := Document.trail_leads_subsequent_iff.mp leads
    refine Or.inr ⟨by simp, Document.trail_leads_subsequent_iff.mpr ⟨past, fun middle after => ?_⟩⟩
    exact between middle (by omega)

end

/-- The element has the place of the trail: from it on a chain holds that takes what is left
of the trail. -/
def Stands (document : Document Element) (holds : Compound → Element → Prop) (places : List Place)
    (last : Element) (first : Nat) (element : Element) : Prop :=
  ∃ part : Chain, part.Proper ∧ places.drop first = part.places true ∧
    Path document holds part element last

/-- What stands at a place and what stands at a later one are related as the places are. -/
theorem Stands.onward {last element : Element} {first later : Nat} {place : Place}
    (stands : Stands document holds places last first element) (less : first < later)
    (isPlace : places[later]? = some place) (labelled : place.members ≠ []) :
    ∃ next, Stands document holds places last later next ∧
      (∀ step, (Document.along places).Leads step first later → document.Leads step element next) ∧
      ∀ above, document.Leads none above element → document.Leads none above next := by
  obtain ⟨part, proper, here, path⟩ := stands
  induction part, proper using Proper.induct generalizing first element with
  | subject members =>
    have length := congrArg List.length here
    have inside := (List.getElem?_eq_some_iff.mp isPlace).1
    simp only [List.length_drop, Chain.places, List.isEmpty_nil, if_true, List.append_nil,
      List.length_singleton] at length
    omega
  | onward members rest more past ih =>
    rw [places_cons more] at here
    have isFirst := place_of_drop here
    obtain ⟨_, ⟨rfl, _⟩ | ⟨next, leads, path⟩⟩ := path_cons_iff.mp path
    · exact (more rfl).elim
    have standsNext : Stands document holds places last _ next :=
      ⟨rest.pastStep, past, drop_of_drop here, path⟩
    have direct {step : Step} {later : Nat}
        (upTo : first + 1 + (Step.gap true rest.step).length ≤ later)
        (steps : (Document.along places).Leads step first later) : document.Leads step element next :=
      Document.leads_of_covers (covers_of_trail here upTo steps) leads
    rcases Nat.lt_trichotomy later (first + 1 + (Step.gap true rest.step).length) with
      before | rfl | after
    · -- the places between two compounds hold nothing
      obtain ⟨between, rfl⟩ := Nat.exists_eq_add_of_lt less
      have inside : between < (Step.gap true rest.step).length := by omega
      have inGap := congrArg (·[between + 1]?) here
      simp only [List.getElem?_drop, List.cons_append, List.getElem?_cons_succ,
        List.getElem?_append_left inside, ← Nat.add_assoc, isPlace] at inGap
      exact (labelled (Step.members_of_mem_gap (List.mem_of_getElem? inGap.symm))).elim
    · exact ⟨next, standsNext, fun step => direct (Nat.le_refl _),
        fun above below => Document.below_of_leads below leads⟩
    · obtain ⟨final, standsFinal, related, below⟩ := ih after (drop_of_drop here) path
      refine ⟨final, standsFinal, fun step steps => ?_, fun above higher =>
        below above (Document.below_of_leads higher leads)⟩
      -- the step is taken to the next compound, and what follows does not lead out of it
      have toNext := direct (Nat.le_of_lt after) steps
      rcases subsequent_of_trail after steps with rfl | ⟨notNext, subsequent⟩
      · exact below element toNext
      · have onward := related _ subsequent
        rcases step with _ | _ | _ | _
        · exact below element toNext
        · exact Document.child_of_subsequent toNext onward
        · exact (notNext rfl).elim
        · exact Relation.TransGen.trans toNext onward

/-! ### Paths along a wide trail -/

variable {interpretation : Interpretation Element}

-- Where a compound with a name holds on a trail there is a place with members.
theorem exists_labelled {members : Compound} {first : Nat} (plain : members.depth = 0)
    (named : ∃ simple ∈ members, simple ≠ .universal)
    (here : members.Holds (.along places) (.along places) first) :
    ∃ place, places[first]? = some place ∧ place.members ≠ [] := by
  obtain ⟨simple, isMember, notUniversal⟩ := named
  rcases (Compound.holds_along_iff plain).mp here simple isMember with
    universal | ⟨place, isPlace, inPlace⟩
  · exact (notUniversal universal).elim
  · exact ⟨place, isPlace, List.ne_nil_of_mem inPlace⟩

/-- What holds at a place of a trail holds of the element that stands there. -/
theorem Stands.members_hold {last element : Element} {first : Nat} {members : Compound}
    (stands : Stands document (Compound.Holds document interpretation) places last first element)
    (plain : members.depth = 0) (here : members.Holds (.along places) (.along places) first) :
    members.Holds document interpretation element := by
  obtain ⟨part, proper, left, path⟩ := stands
  obtain ⟨others, rest, rfl⟩ := proper.exists_eq_cons
  have othersHold := Compound.holds_iff.mp path.holds_first
  have isFirst := place_of_drop left
  apply Compound.holds_iff.mpr
  intro simple isMember
  have plainSimple := Simple.depth_eq_zero_of_mem plain isMember
  rcases (Compound.holds_along_iff plain).mp here simple isMember with
    universal | ⟨place, isPlace, inPlace⟩
  · exact (Simple.holds_iff_of_plain plainSimple).mpr (Or.inl universal)
  · obtain rfl := Option.some.inj (isFirst.symm.trans isPlace)
    exact othersHold simple inPlace

-- The last place is that of the subject.
theorem Stands.eq_last {last element : Element}
    (stands : Stands document holds places last (places.length - 1) element) : element = last := by
  obtain ⟨part, proper, left, path⟩ := stands
  have length := congrArg List.length left
  obtain ⟨members, rest, rfl⟩ := proper.exists_eq_cons
  by_cases more : rest = []
  · subst more
    exact (path_single_iff.mp path).2
  · obtain ⟨next, after, past⟩ := (proper.pastStep more).exists_eq_cons
    rw [places_cons more, past] at length
    simp only [Chain.places, List.cons_append, List.length_cons, List.length_append,
      List.length_drop] at length
    omega

-- A named chain begins at a labelled place of its path.
theorem Path.exists_labelled {chain : Chain} {first last : Nat}
    (path : Path (.along places) (Compound.Holds (.along places) (.along places)) chain first last)
    (plain : chain.depth = 0) (named : chain.IsNamed) :
    ∃ place, places[first]? = some place ∧ place.members ≠ [] := by
  obtain ⟨members, rest, rfl⟩ := path.exists_eq_cons
  have isMember : .compound members ∈ .compound members :: rest := List.mem_cons_self ..
  exact Chain.exists_labelled (Compound.depth_eq_zero_of_mem plain isMember) (named members isMember)
    path.holds_first

/-- A path of a named chain along a trail is one from the element at its first place. -/
theorem Path.of_along {chain : Chain} {last element : Element} {first : Nat}
    (path : Path (.along places) (Compound.Holds (.along places) (.along places)) chain first
      (places.length - 1))
    (plain : chain.depth = 0) (named : chain.IsNamed)
    (stands : Stands document (Compound.Holds document interpretation) places last first element) :
    Path document (Compound.Holds document interpretation) chain element last := by
  generalize isLast : places.length - 1 = final at path
  induction path generalizing element with
  | subject here =>
    subst isLast
    have here := stands.members_hold (by simpa using plain) here
    obtain rfl := stands.eq_last
    exact .subject here
  | @onward members rest _ _ _ here leads path ih =>
    have within := rest.pastStep_subset_cons (.compound members)
    have plainRest := depth_eq_zero_of_subset plain within
    have plainMembers := Compound.depth_eq_zero_of_mem plain (List.mem_cons_self ..)
    have namedRest : rest.pastStep.IsNamed := fun members' isMember => named members' (within isMember)
    obtain ⟨place, isPlace, labelled⟩ := path.exists_labelled plainRest namedRest
    obtain ⟨next, standsNext, related, _⟩ :=
      stands.onward (Document.lt_of_trail_leads leads) isPlace labelled
    exact .onward (stands.members_hold plainMembers here) (related _ leads)
      (ih plainRest namedRest standsNext isLast)

/-- Inclusion in a named chain is decided on the wide trail of the other chain. -/
theorem includes_iff_matchesTrail {chain other : Chain} (plain : chain.depth = 0)
    (named : chain.IsNamed) (proper : other.Proper) (plain' : other.depth = 0) :
    chain.Includes other ↔ chain.MatchesTrail other := by
  have whole := List.drop_zero (l := other.places true)
  constructor
  · intro includes
    exact includes _ _ _ (matches_iff_path.mpr ⟨0, path_along proper plain' whole⟩)
  · intro matched Element document interpretation element matchedOther
    obtain ⟨first, path⟩ := matches_iff_path.mp matched
    obtain ⟨top, pathOther⟩ := matches_iff_path.mp matchedOther
    have stands : Stands document (Compound.Holds document interpretation) (other.places true) element
        0 top := ⟨other, proper, whole, pathOther⟩
    -- the path may begin further along than the trail
    rcases Nat.eq_zero_or_pos first with rfl | later
    · exact matches_iff_path.mpr ⟨top, path.of_along plain named stands⟩
    · obtain ⟨place, isPlace, labelled⟩ := path.exists_labelled plain named
      obtain ⟨next, standsNext, _⟩ := stands.onward later isPlace labelled
      exact matches_iff_path.mpr ⟨next, path.of_along plain named standsNext⟩

end Chain

end Selectors
