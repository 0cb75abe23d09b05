import Selectors.Depth
import Selectors.Proofs.Matching.Path

/-!
# Trails of elements

In a trail each element is either the first child or the next sibling of the one before
it, so the steps between two elements can be read off the moves between them. A trail
serves as a model: of examples when it is a line, in which all moves go down, and of
chains that are not to match.
-/
namespace Selectors

namespace Document

private theorem lt_wellFounded_of {next : Nat → Nat → Prop}
    (increases : ∀ first second, next first second → first < second) : WellFounded next :=
  Subrelation.wf (fun {first second} isNext => increases first second isNext) Nat.lt_wfRel.wf

/-- The parent of an element of a trail; siblings have that of the first of them. -/
def trailParent (beside : Nat → Bool) : Nat → Option Nat
  | 0 => none
  | before + 1 => if beside before then trailParent beside before else some before

theorem lt_of_trailParent {beside : Nat → Bool} {above below : Nat}
    (isParent : trailParent beside below = some above) : above < below := by
  induction below with
  | zero => simp [trailParent] at isParent
  | succ before ih =>
    unfold trailParent at isParent
    split at isParent
    · exact Nat.lt_succ_of_lt (ih isParent)
    · obtain rfl := Option.some.inj isParent
      exact Nat.lt_succ_self before

/-- The numbers, each followed by its next sibling or, where it has none, by its child. -/
def trail (beside : Nat → Bool) : Document Nat where
  parent := trailParent beside
  previous
    | 0 => none
    | before + 1 => if beside before then some before else none
  parent_previous {earlier later} isPrevious := by
    rcases later with _ | before
    · simp at isPrevious
    · simp only [Option.ite_none_right_eq_some, Option.some.injEq] at isPrevious
      obtain ⟨isBeside, rfl⟩ := isPrevious
      simp [trailParent, isBeside]
  previous_injective {earlier later later'} isPrevious isPrevious' := by
    rcases later with _ | before <;> rcases later' with _ | before' <;> simp_all
  ascent := lt_wellFounded_of fun _ _ isParent => lt_of_trailParent isParent
  order := lt_wellFounded_of fun earlier later isPrevious => by
    rcases later with _ | before
    · simp at isPrevious
    · simp only [Option.ite_none_right_eq_some, Option.some.injEq] at isPrevious
      omega

variable {beside : Nat → Bool} {first last : Nat}

theorem trail_leads_next_iff :
    (trail beside).Leads (some .nextSibling) first last ↔ last = first + 1 ∧ beside first = true := by
  rcases last with _ | before
  · simp [Leads, trail]
  · simp only [Leads, trail, Option.ite_none_right_eq_some, Option.some.injEq, Nat.add_right_cancel_iff]
    constructor
    · rintro ⟨isBeside, rfl⟩
      exact ⟨rfl, isBeside⟩
    · rintro ⟨rfl, isBeside⟩
      exact ⟨isBeside, rfl⟩

theorem trail_leads_child_iff :
    (trail beside).Leads (some .child) first last ↔
      first < last ∧ beside first = false ∧
        ∀ middle, first < middle → middle < last → beside middle = true := by
  change trailParent beside last = some first ↔ _
  induction last with
  | zero => simp [trailParent]
  | succ before ih =>
    by_cases isBeside : beside before = true
    · simp only [trailParent, isBeside, if_true, ih]
      constructor
      · rintro ⟨less, down, between⟩
        refine ⟨Nat.lt_succ_of_lt less, down, fun middle after upTo => ?_⟩
        rcases Nat.lt_succ_iff_lt_or_eq.mp upTo with earlier | rfl
        · exact between middle after earlier
        · exact isBeside
      · rintro ⟨less, down, between⟩
        rcases Nat.lt_succ_iff_lt_or_eq.mp less with earlier | rfl
        · exact ⟨earlier, down, fun middle after upTo => between middle after (Nat.lt_succ_of_lt upTo)⟩
        · simp [down] at isBeside
    · simp only [trailParent, isBeside, Bool.false_eq_true, if_false, Option.some.injEq]
      constructor
      · rintro rfl
        refine ⟨Nat.lt_succ_self _, by simpa using isBeside, fun middle after upTo => ?_⟩
        omega
      · rintro ⟨less, _, between⟩
        rcases Nat.lt_succ_iff_lt_or_eq.mp less with earlier | rfl
        · exact (isBeside (between before earlier (Nat.lt_succ_self _))).elim
        · rfl

theorem trail_leads_none_iff :
    (trail beside).Leads none first last ↔ first < last ∧ beside first = false := by
  constructor
  · intro leads
    induction leads with
    | single isParent =>
      obtain ⟨less, down, _⟩ := trail_leads_child_iff.mp isParent
      exact ⟨less, down⟩
    | tail _ isParent ih =>
      obtain ⟨less, _, _⟩ := trail_leads_child_iff.mp isParent
      exact ⟨Nat.lt_trans ih.1 less, ih.2⟩
  · rintro ⟨less, down⟩
    induction last with
    | zero => omega
    | succ before ih =>
      rcases Nat.lt_succ_iff_lt_or_eq.mp less with earlier | rfl
      · by_cases isBeside : beside before = true
        · exact below_next (trail_leads_next_iff.mpr ⟨rfl, isBeside⟩) (ih earlier)
        · refine (ih earlier).tail (trail_leads_child_iff.mpr ?_)
          exact ⟨Nat.lt_succ_self _, by simpa using isBeside, fun middle _ _ => by omega⟩
      · exact .single (trail_leads_child_iff.mpr ⟨less, down, fun middle _ _ => by omega⟩)

theorem trail_leads_subsequent_iff :
    (trail beside).Leads (some .subsequentSibling) first last ↔
      first < last ∧ ∀ middle, first ≤ middle → middle < last → beside middle = true := by
  constructor
  · intro leads
    change Relation.TransGen _ _ _ at leads
    induction leads with
    | single adjacent =>
      obtain ⟨rfl, isBeside⟩ := trail_leads_next_iff.mp adjacent
      refine ⟨Nat.lt_succ_self _, fun middle after upTo => ?_⟩
      obtain rfl : middle = first := by omega
      exact isBeside
    | tail _ adjacent ih =>
      obtain ⟨rfl, isBeside⟩ := trail_leads_next_iff.mp adjacent
      refine ⟨Nat.lt_succ_of_lt ih.1, fun middle after upTo => ?_⟩
      rcases Nat.lt_succ_iff_lt_or_eq.mp upTo with earlier | rfl
      · exact ih.2 middle after earlier
      · exact isBeside
  · rintro ⟨less, between⟩
    induction last with
    | zero => omega
    | succ before ih =>
      have adjacent : (trail beside).Leads (some .nextSibling) before (before + 1) :=
        trail_leads_next_iff.mpr ⟨rfl, between before (by omega) (by omega)⟩
      rcases Nat.lt_succ_iff_lt_or_eq.mp less with earlier | rfl
      · refine (ih earlier fun middle after upTo => ?_).tail adjacent
        exact between middle after (Nat.lt_succ_of_lt upTo)
      · exact .single adjacent

-- Steps only lead forward.
theorem lt_of_trail_leads {step : Step} (leads : (trail beside).Leads step first last) :
    first < last := by
  match step with
  | none => exact (trail_leads_none_iff.mp leads).1
  | some .child => exact (trail_leads_child_iff.mp leads).1
  | some .nextSibling =>
    obtain ⟨rfl, _⟩ := trail_leads_next_iff.mp leads
    exact Nat.lt_succ_self first
  | some .subsequentSibling => exact (trail_leads_subsequent_iff.mp leads).1

-- A combinator leads past no element that has the next one as its child.
theorem not_trail_leads_past {kind : Combinator} (down : beside (first + 1) = false) :
    ¬(trail beside).Leads (some kind) first (first + 2) := by
  intro leads
  cases kind with
  | child =>
    obtain ⟨_, _, between⟩ := trail_leads_child_iff.mp leads
    have := between (first + 1) (by omega) (by omega)
    simp [down] at this
  | nextSibling =>
    obtain ⟨same, _⟩ := trail_leads_next_iff.mp leads
    omega
  | subsequentSibling =>
    obtain ⟨_, between⟩ := trail_leads_subsequent_iff.mp leads
    have := between (first + 1) (by omega) (by omega)
    simp [down] at this

/-- The trail in which all moves go down. -/
def line : Document Nat := trail fun _ => false

theorem line_leads_none_iff : line.Leads none first last ↔ first < last := by
  simp [line, trail_leads_none_iff]

theorem line_leads_child_iff : line.Leads (some .child) first last ↔ last = first + 1 := by
  constructor
  · intro leads
    obtain ⟨less, _, between⟩ := trail_leads_child_iff.mp leads
    rcases Nat.lt_or_ge (first + 1) last with far | near
    · have := between (first + 1) (Nat.lt_succ_self first) far
      simp at this
    · omega
  · rintro rfl
    exact trail_leads_child_iff.mpr ⟨Nat.lt_succ_self first, rfl, fun middle _ _ => by omega⟩

end Document

/-! ### Chains along trails -/

/-- What a trail has at an element: the members that hold there, and whether the next
element is a sibling. -/
structure Place where
  members : Compound
  besideNext : Bool

/-- The places between two compounds of a wide trail: neither descent nor `~` says that
there are none. -/
def Step.gap (wide : Bool) : Step → List Place
  | none => if wide then [⟨[], false⟩] else []
  | some .subsequentSibling => if wide then [⟨[], true⟩] else []
  | some _ => []

@[simp] theorem Step.gap_false (step : Step) : Step.gap false step = [] := by
  rcases step with _ | _ | _ | _ <;> rfl

/-- The trail that takes the steps of the chain. A narrow one takes each in a single move. -/
def Chain.places (wide : Bool) : Chain → List Place
  | [] => []
  | .compound members :: rest =>
    ⟨members, (step rest).any (· ≠ .child)⟩ ::
      (if rest.isEmpty then [] else Step.gap wide (step rest)) ++ places wide rest
  | .combinator _ :: rest => places wide rest

def Document.along (places : List Place) : Document Nat :=
  trail fun element => places[element]?.any Place.besideNext

/-- Nothing holds of an element but `*` and the members at its place. -/
def Interpretation.along (places : List Place) : Interpretation Nat where
  plain simple element := ∃ place, places[element]? = some place ∧ simple ∈ place.members
  nesting _ _ _ _ _ := False

theorem Simple.holds_iff_of_plain {Element : Type} {document : Document Element}
    {interpretation : Interpretation Element} {simple : Simple} {element : Element}
    (plain : simple.depth = 0) :
    simple.Holds document interpretation element ↔
      simple = .universal ∨ interpretation.plain simple element := by
  rcases simple with _ | _ | ⟨_, _, _, _ | ⟨_, _⟩⟩ | _ | _ | _ | _ | _ <;>
    simp_all [Simple.Holds, Simple.depth]

/-- A plain compound holds on a trail where its members, but for `*`, are at the place. -/
theorem Compound.holds_along_iff {places : List Place} {members : Compound} {first : Nat}
    (plain : members.depth = 0) :
    members.Holds (.along places) (.along places) first ↔
      ∀ simple ∈ members, simple = .universal ∨
        ∃ place, places[first]? = some place ∧ simple ∈ place.members := by
  rw [Compound.holds_iff]
  refine forall₂_congr fun simple isMember => ?_
  exact Simple.holds_iff_of_plain (Simple.depth_eq_zero_of_mem plain isMember)

namespace Chain

variable {wide : Bool} {places : List Place} {first : Nat}

@[simp] theorem places_pastStep (chain : Chain) : chain.pastStep.places wide = chain.places wide := by
  rcases chain with _ | ⟨_ | _, _⟩ <;> rfl

theorem places_cons {members : Compound} {rest : Chain} (more : rest ≠ []) :
    Chain.places wide (.compound members :: rest) =
      ⟨members, rest.step.any (· ≠ .child)⟩ :: Step.gap wide rest.step ++ rest.pastStep.places wide := by
  rcases rest with _ | ⟨component, rest⟩
  · exact (more rfl).elim
  · rw [places_pastStep]
    rfl

theorem places_append_compound (before after : Chain) (members : Compound) :
    Chain.places false (before ++ .compound members :: after) =
      before.places false ++ Chain.places false (.compound members :: after) := by
  induction before with
  | nil => rfl
  | cons component rest ih =>
    rcases component with first | kind
    · simp only [List.cons_append, Chain.places, Step.gap_false, ite_self, List.nil_append, ih,
        step_append_compound]
    · exact ih

theorem place_of_drop {place : Place} {others : List Place}
    (here : places.drop first = place :: others) : places[first]? = some place := by
  have := congrArg (·[0]?) here
  simpa using this

theorem drop_of_drop {place : Place} {between others : List Place}
    (here : places.drop first = place :: between ++ others) :
    places.drop (first + 1 + between.length) = others := by
  rw [Nat.add_assoc, ← List.drop_drop, here, Nat.add_comm 1]
  simp

-- A trail takes the step that it has the places of.
theorem leads_along {members : Compound} {step : Step} {others : List Place}
    (here : places.drop first = ⟨members, step.any (· ≠ .child)⟩ :: Step.gap wide step ++ others) :
    Document.Leads (.along places) step first (first + 1 + (Step.gap wide step).length) := by
  have isFirst := place_of_drop here
  match step with
  | none =>
    refine Document.trail_leads_none_iff.mpr ⟨by omega, ?_⟩
    simp [isFirst]
  | some .child =>
    refine Document.trail_leads_child_iff.mpr
      ⟨by omega, by simp [isFirst], fun middle after upTo => ?_⟩
    simp only [Step.gap, List.length_nil] at upTo
    omega
  | some .nextSibling => exact Document.trail_leads_next_iff.mpr ⟨rfl, by simp [isFirst]⟩
  | some .subsequentSibling =>
    refine Document.trail_leads_subsequent_iff.mpr ⟨by omega, fun middle after upTo => ?_⟩
    rcases Nat.eq_or_lt_of_le after with rfl | further
    · simp [isFirst]
    · cases wide with
      | false =>
        simp only [Step.gap, Bool.false_eq_true, if_false, List.length_nil] at upTo
        omega
      | true =>
        simp only [Step.gap, if_true, List.length_singleton] at upTo
        obtain rfl : middle = first + 1 := by omega
        have gap := congrArg (·[1]?) here
        simp [Step.gap] at gap
        simp [gap]

/-- A proper chain has a path along its own trail. -/
theorem path_along {chain : Chain} (proper : chain.Proper) (plain : chain.depth = 0)
    (here : places.drop first = chain.places wide) :
    Path (.along places) (Compound.Holds (.along places) (.along places)) chain first
      (places.length - 1) := by
  induction chain, proper using Proper.induct generalizing first with
  | subject members =>
    have length : places.length = first + 1 := by
      have := congrArg List.length here
      simp only [List.length_drop, Chain.places, List.isEmpty_nil, if_true, List.append_nil,
        List.length_singleton] at this
      omega
    rw [length, Nat.add_sub_cancel]
    have plainMembers := Compound.depth_eq_zero_of_mem plain (List.mem_cons_self ..)
    refine .subject ((Compound.holds_along_iff plainMembers).mpr fun simple isMember => ?_)
    exact Or.inr ⟨_, place_of_drop here, isMember⟩
  | onward members rest more past ih =>
    rw [places_cons more] at here
    have plainRest := depth_eq_zero_of_subset plain (rest.pastStep_subset_cons _)
    have plainMembers := Compound.depth_eq_zero_of_mem plain (List.mem_cons_self ..)
    refine .onward ((Compound.holds_along_iff plainMembers).mpr fun simple isMember => ?_)
      (leads_along here) (ih plainRest (drop_of_drop here))
    exact Or.inr ⟨_, place_of_drop here, isMember⟩

-- A path passes as many elements as the chain has compounds.
theorem Path.length_places {beside : Nat → Bool} {holds : Compound → Nat → Prop} {chain : Chain}
    {first last : Nat} (path : Path (.trail beside) holds chain first last) :
    (chain.places false).length + first ≤ last + 1 := by
  induction path with
  | subject here =>
    simp only [Chain.places, List.isEmpty_nil, if_true, List.append_nil, List.length_singleton]
    omega
  | onward here leads path ih =>
    have forward := Document.lt_of_trail_leads leads
    rw [places_pastStep] at ih
    simp only [Chain.places, Step.gap_false, ite_self, List.length_cons, List.cons_append,
      List.nil_append]
    omega

end Chain

end Selectors
