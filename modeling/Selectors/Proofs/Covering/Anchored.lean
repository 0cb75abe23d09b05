import Mathlib.Data.Fintype.EquivFin
import Selectors.Covering.List
import Selectors.Proofs.Covering.Inclusion
import Selectors.Proofs.Matching.Bare

/-!
# Covering beside combinators

Among plain chains, those whose simple selectors hold no lists, covering is right for an
anchored chain. For any other chain without a lone `*` it goes wrong: after a combinator
that is not bound to its place the walk skips a compound that it must not skip, so the
chain is taken to cover one with a foreign compound there.
-/
namespace Selectors

theorem Step.covers_self (step : Step) : step.covers step = true := by
  rcases step with _ | _ | _ | _ <;> rfl

/-! ### Plain compounds -/

theorem Simple.impliesByNested_plain {simple member : Simple} (plain : member.depth = 0) :
    simple.impliesByNested member = false := by
  unfold impliesByNested
  split
  next => simp at plain
  next => rfl

namespace Compound

theorem implies_plain_iff {compound : Compound} {simple : Simple} (plain : compound.depth = 0) :
    compound.implies simple = true ↔ compound.contains simple = true := by
  rw [implies, List.any_eq_true, List.contains_iff_exists_mem_beq]
  refine exists_congr fun member => and_congr_right fun isMember => ?_
  rw [Simple.impliesByNested_plain (Simple.depth_eq_zero_of_mem plain isMember), Bool.or_false]

/-- A plain compound covers another when its members are members of the other, and it
shares the pseudo-elements of the other. -/
theorem covers_plain_iff {compound₁ compound₂ : Compound} {above : Chain}
    (plain₁ : compound₁.depth = 0) (plain₂ : compound₂.depth = 0) :
    Compound.covers compound₁ compound₂ above = true ↔
      (∀ simple ∈ compound₁, compound₂.contains simple = true) ∧
        ∀ simple ∈ compound₂, simple.isPlainPseudoElement = true →
          compound₁.contains simple = true := by
  have covered (simple : Simple) (isMember : simple ∈ compound₁) :
      coveredByMember Alternatives.covers compound₂ above simple = true ↔
        compound₂.contains simple = true := by
    have plain := depth_le_of_mem isMember
    unfold coveredByMember
    split
    next => simp [plain₁] at plain
    next => exact implies_plain_iff plain₂
  simp only [covers, coversBy, Bool.and_eq_true, List.all_eq_true, Bool.or_eq_true, Bool.not_eq_true',
    implies_plain_iff plain₁]
  refine and_congr (forall₂_congr covered) (forall₂_congr fun simple _ => ?_)
  cases simple.isPlainPseudoElement <;> simp

theorem covers_plain_self {compound : Compound} (plain : compound.depth = 0) (above : Chain) :
    Compound.covers compound compound above = true := by
  have contains (simple : Simple) (isMember : simple ∈ compound) : compound.contains simple = true :=
    List.contains_iff_exists_mem_beq.mpr ⟨simple, isMember, BEq.rfl⟩
  exact (covers_plain_iff plain plain).mpr ⟨contains, fun simple isMember _ => contains simple isMember⟩

end Compound

namespace Chain

/-! ### Anchored chains -/

theorem includes_of_anchored {chain other : Chain} (plain : chain.depth = 0) (plain' : other.depth = 0)
    (isAnchored : chain.anchored = true) (covers : chain.covers other = true) :
    chain.Includes other := by
  intro Element document interpretation element matched
  have sound : RuleSound document (Compound.Holds document interpretation) Compound.covers chain
      other := by
    intro first second above isFirst isSecond _ covers element here _
    have plainFirst := Compound.depth_eq_zero_of_mem plain isFirst
    have plainSecond := Compound.depth_eq_zero_of_mem plain' isSecond
    obtain ⟨contains, _⟩ := (Compound.covers_plain_iff plainFirst plainSecond).mp covers
    exact Compound.holds_iff.mpr fun simple isMember =>
      Compound.holds_of_contains (contains simple isMember) here
  simp only [Chain.covers, coversBy, Bool.and_eq_true] at covers
  obtain ⟨top, path⟩ := matches_iff_path.mp matched
  obtain ⟨top', path', _⟩ := walk_sound isAnchored sound covers.2 path
  exact matches_iff_path.mpr ⟨top', path'⟩

/-! ### A foreign compound after a combinator -/

section

variable {rule : CompoundRule}

-- How the walk takes a step, whichever form the step has.
theorem walk_of_found {first : Compound} {rest other left : Chain} (more : rest ≠ [])
    (fits : rest.length + 1 ≤ other.length)
    (found : afterFirst? (rule first) [] other = some left)
    (covers : Step.covers rest.step left.step = true)
    (bound : rest.step.isSome = true → rest.length = 2 → other.length ≤ 3)
    (inner : walk rule rest.pastStep left.pastStep = true) :
    walk rule (.compound first :: rest) other = true := by
  rcases rest with _ | ⟨second | kind, rest⟩
  · exact (more rfl).elim
  · rw [walk, found, Option.any_some, Bool.and_eq_true, Bool.and_eq_true]
    exact ⟨decide_eq_true fits, covers, inner⟩
  · rw [walk, found, Option.any_some, Bool.and_eq_true, Bool.and_eq_true, Bool.and_eq_true,
      Bool.not_eq_true', Bool.and_eq_false_imp]
    refine ⟨decide_eq_true fits, ⟨covers, fun last => ?_⟩, inner⟩
    have short : rest.length = 1 := of_decide_eq_true last
    have := bound rfl (by simp [short])
    exact decide_eq_false (by omega)

theorem afterFirst?_head {test : Compound → Chain → Bool} {members : Compound} {rest : Chain}
    (more : rest ≠ []) (accepted : test members [] = true) :
    afterFirst? test [] (.compound members :: rest) = some rest := by
  rcases rest with _ | ⟨next, rest⟩
  · exact (more rfl).elim
  · simp [afterFirst?, accepted]

-- A proper chain is walked through along itself.
theorem walk_self {chain : Chain} (proper : chain.Proper)
    (self : ∀ members, .compound members ∈ chain → rule members members [] = true) :
    walk rule chain chain = true := by
  induction chain, proper using Proper.induct with
  | subject members =>
    have split : splitSubject? [.compound members] = some ([], members) :=
      splitSubject?_append_compound [] members
    simp [walk, split, self members (by simp)]
  | onward members rest more past ih =>
    have inner : walk rule rest.pastStep rest.pastStep = true :=
      ih fun members' member => self members' (rest.pastStep_subset_cons _ member)
    have found := afterFirst?_head more (self members (List.mem_cons_self ..))
    refine walk_of_found more (Nat.le_refl _) found (Step.covers_self _) (fun _ two => ?_) inner
    rw [List.length_cons, two]

-- A common beginning of the two chains does not matter as long as more than one step is
-- left.
theorem walk_append_compound (before : Chain) {after after' : Chain} {members : Compound}
    (proper : Proper (before ++ .compound members :: after))
    (self : ∀ members', .compound members' ∈ before → rule members' members' [] = true)
    (long : 3 ≤ after.length) (longer : after.length ≤ after'.length)
    (covers : walk rule (.compound members :: after) (.compound members :: after') = true) :
    walk rule (before ++ .compound members :: after) (before ++ .compound members :: after') = true := by
  match before with
  | [] => exact covers
  | .combinator kind :: between =>
    have := proper.begins
    simp [step] at this
  | .compound first :: between =>
    have shorter : (pastStep between).length < between.length + 1 :=
      Nat.lt_succ_of_le (pastStep_suffix between).length_le
    have more (after : Chain) : between ++ .compound members :: after ≠ [] := by simp
    have past : (pastStep (between ++ .compound members :: after)).Proper :=
      proper.pastStep (more after)
    rw [pastStep_append_compound] at past
    have inner := walk_append_compound (pastStep between) past
      (fun members' member => self members' (pastStep_subset_cons _ between member)) long longer covers
    have found := afterFirst?_head (more after') (self first (List.mem_cons_self ..))
    rw [List.cons_append, List.cons_append]
    refine walk_of_found (more after) ?_ found ?_ (fun _ two => ?_) ?_
    · simp only [List.length_append, List.length_cons]
      omega
    · rw [step_append_compound, step_append_compound]
      exact Step.covers_self _
    · -- more than one step is left
      simp only [List.length_append, List.length_cons] at two
      omega
    · rwa [pastStep_append_compound, pastStep_append_compound]
termination_by before.length

-- A compound that the first one does not cover is skipped, and what follows is walked
-- through along itself.
theorem walk_skip {rest : Chain} {foreign : Compound} (proper : rest.Proper)
    (unbound : isBound rest = false)
    (self : ∀ members, .compound members ∈ rest → rule members members [] = true)
    (refused : ∀ members, .compound members ∈ rest → rule members foreign [] = false) :
    walk rule rest (.compound foreign :: rest) = true := by
  obtain ⟨first, after, rfl⟩ := proper.exists_eq_cons
  have more : after ≠ [] := by
    rintro rfl
    simp [isBound] at unbound
  have inner : walk rule after.pastStep after.pastStep = true :=
    walk_self (proper.pastStep more) fun members member =>
      self members (after.pastStep_subset_cons _ member)
  have found : afterFirst? (rule first) [] (.compound foreign :: .compound first :: after) = some after := by
    rcases after with _ | ⟨next, after⟩
    · exact (more rfl).elim
    · simp [afterFirst?, refused first (by simp), self first (by simp)]
  have free : ¬(after.step.isSome = true ∧ after.length = 2) := by
    rintro ⟨isSome, two⟩
    rcases after with _ | ⟨_ | _, _ | ⟨_, _ | _⟩⟩ <;> simp_all [isBound, step]
  exact walk_of_found more (Nat.le_succ _) found (Step.covers_self _)
    (fun isSome two => (free ⟨isSome, two⟩).elim) inner

-- In a chain that is not anchored more than one step is left after some combinator.
theorem exists_unbound {chain : Chain} (proper : chain.Proper) (unanchored : chain.anchored = false) :
    ∃ before members kind rest,
      chain = before ++ .compound members :: .combinator kind :: rest ∧ isBound rest = false := by
  induction chain, proper using Proper.induct with
  | subject members => simp [anchored] at unanchored
  | onward members rest more past ih =>
    rcases rest with _ | ⟨second | kind, rest⟩
    · exact (more rfl).elim
    · obtain ⟨before, members', kind, after, whole, unbound⟩ := ih unanchored
      have whole : .compound second :: rest = before ++ .compound members' :: .combinator kind :: after :=
        whole
      exact ⟨.compound members :: before, members', kind, after, by rw [whole]; rfl, unbound⟩
    · by_cases bound : isBound rest = true
      · simp only [anchored, bound, Bool.true_and] at unanchored
        obtain ⟨before, members', kind', after, whole, unbound⟩ := ih unanchored
        have whole : rest = before ++ .compound members' :: .combinator kind' :: after := whole
        exact ⟨.compound members :: .combinator kind :: before, members', kind', after,
          by rw [whole]; rfl, unbound⟩
      · exact ⟨[], members, kind, rest, rfl, by simpa using bound⟩

-- A foreign compound after a combinator that more than one step follows is skipped.
theorem walk_foreign {before rest : Chain} {members foreign : Compound} {kind : Combinator}
    (proper : Proper (before ++ .compound members :: .combinator kind :: rest))
    (unbound : isBound rest = false)
    (self : ∀ members', .compound members' ∈ before ++ .compound members :: .combinator kind :: rest →
      rule members' members' [] = true)
    (refused : ∀ members', .compound members' ∈ rest → rule members' foreign [] = false) :
    walk rule (before ++ .compound members :: .combinator kind :: rest)
      (before ++ .compound members :: .combinator kind :: .compound foreign :: rest) = true := by
  have properRest : rest.Proper := ((Proper.append_iff _ _ _).mp proper).2.pastStep (by simp)
  have long : 2 ≤ rest.length := by
    obtain ⟨first, after, rfl⟩ := properRest.exists_eq_cons
    rcases after with _ | ⟨_, _⟩
    · simp [isBound] at unbound
    · simp
  have inner := walk_skip properRest unbound (fun members' member => self members' (by simp [member]))
    refused
  refine walk_append_compound before proper (fun members' member => self members' (by simp [member]))
    (Nat.succ_le_succ long) (by simp) ?_
  have found : afterFirst? (rule members) []
      (.compound members :: .combinator kind :: .compound foreign :: rest) =
        some (.combinator kind :: .compound foreign :: rest) :=
    afterFirst?_head (by simp) (self members (by simp))
  refine walk_of_found (by simp) (by simp) found (Step.covers_self _) (fun _ two => ?_) inner
  have : rest.length = 1 := Nat.succ.inj two
  omega

end

/-- A chain without lone `*` does not match all that it matches once a foreign class stands
between a combinator and what follows it. -/
theorem not_includes_foreign {chain other before rest : Chain} {members : Compound}
    {kind : Combinator} {name : String}
    (whole : chain = before ++ .compound members :: .combinator kind :: rest)
    (whole' : other =
      before ++ .compound members :: .combinator kind :: .compound [.className name] :: rest)
    (proper : chain.Proper) (proper' : other.Proper) (plain : chain.depth = 0)
    (plain' : other.depth = 0)
    (named : chain.IsNamed)
    (fresh : ∀ members', .compound members' ∈ chain → .className name ∉ members') :
    ¬chain.Includes other := by
  intro includes
  have properRest : rest.Proper := by
    subst whole
    exact ((Proper.append_iff _ _ _).mp proper).2.pastStep (by simp)
  have along := path_along proper' plain' (List.drop_zero (l := other.places false))
  obtain ⟨top, path⟩ := matches_iff_path.mp (includes _ _ _ (matches_iff_path.mpr ⟨0, along⟩))
  have layout : other.places false = before.places false ++ ⟨members, kind ≠ .child⟩ ::
      ⟨[.className name], false⟩ :: rest.places false := by
    rw [whole', places_append_compound]
    simp only [places, properRest.begins, Step.gap_false, ite_self]
    rfl
  have atForeign :
      (other.places false)[(before.places false).length + 1]? = some ⟨[.className name], false⟩ := by
    simp [layout]
  -- only the foreign class holds at its place
  have notForeign {members' : Compound} {element : Nat} (isMember : .compound members' ∈ chain)
      (here : members'.Holds (.along (other.places false)) (.along (other.places false)) element) :
      element ≠ (before.places false).length + 1 := by
    rintro rfl
    obtain ⟨simple, inMembers, notUniversal⟩ := named members' isMember
    have plainMembers := Compound.depth_eq_zero_of_mem plain isMember
    rcases (Compound.holds_along_iff plainMembers).mp here simple inMembers with
      universal | ⟨place, isPlace, inPlace⟩
    · exact notUniversal universal
    · obtain rfl := Option.some.inj (atForeign.symm.trans isPlace)
      obtain rfl := List.mem_singleton.mp inPlace
      exact fresh members' isMember inMembers
  subst whole
  obtain ⟨middle, outer, inner⟩ := (path_append_iff before _ members top _).mp path
  obtain ⟨here, onward⟩ := path_cons_iff.mp inner
  obtain ⟨next, leads, inner⟩ := onward_cons.mp onward
  have inner : rest.Path _ _ next ((other.places false).length - 1) := inner
  -- no place is left over, so the two compounds keep the foreign one between them
  have nextPlace : next ≠ (before.places false).length + 1 := by
    obtain ⟨first, after, rfl⟩ := properRest.exists_eq_cons
    exact notForeign (by simp) inner.holds_first
  have middlePlace : middle ≠ (before.places false).length + 1 := notForeign (by simp) here
  have forward : middle < next := Document.lt_of_trail_leads leads
  have outerLength := outer.length_places
  have innerLength := inner.length_places
  rw [places_append_compound, List.length_append] at outerLength
  have total := congrArg List.length layout
  simp only [places, List.length_append, List.length_cons, List.length_nil] at outerLength total
  obtain rfl : middle = (before.places false).length := by omega
  obtain rfl : next = (before.places false).length + 2 := by omega
  exact Document.not_trail_leads_past (by simp [atForeign]) leads

/-! ### Where covering is right -/

/-- What the chain is seen to cover it includes. -/
def CoversSoundly (chain : Chain) : Prop :=
  ∀ other : Chain, other.Proper → other.depth = 0 → chain.covers other = true → chain.Includes other

/-- The class names in the chain. -/
def classNames (chain : Chain) : List String :=
  (chain.filterMap Component.members?).flatten.filterMap fun
    | .className name => some name
    | _ => none

theorem exists_fresh_class (chain : Chain) :
    ∃ name, ∀ members, .compound members ∈ chain → .className name ∉ members := by
  obtain ⟨name, fresh⟩ := Infinite.exists_notMem_finset chain.classNames.toFinset
  refine ⟨name, fun members isMember isClass => fresh ?_⟩
  rw [List.mem_toFinset]
  refine List.mem_filterMap.mpr ⟨.className name, List.mem_flatten.mpr ⟨members, ?_, isClass⟩, rfl⟩
  exact List.mem_filterMap.mpr ⟨.compound members, isMember, rfl⟩

theorem not_covers_fresh_class {members : Compound} {name : String} {above : Chain}
    (plain : members.depth = 0) (nonempty : members ≠ []) (fresh : .className name ∉ members) :
    Compound.covers members [.className name] above = false := by
  rw [Bool.eq_false_iff]
  intro covers
  obtain ⟨contains, _⟩ := (Compound.covers_plain_iff plain rfl).mp covers
  obtain ⟨simple, rest, rfl⟩ := List.exists_cons_of_ne_nil nonempty
  obtain ⟨_, isClass, equal⟩ := List.contains_iff_exists_mem_beq.mp (contains simple (by simp))
  obtain rfl := List.mem_singleton.mp isClass
  have bare : simple.bare = .className name := Simple.beq_iff_bare.mp equal
  obtain rfl : simple = .className name := by
    rcases simple with _ | _ | ⟨_, _, _, _ | ⟨_, _⟩⟩ | _ | _ | _ | _ | _ <;> simp_all [Simple.bare]
  exact fresh (by simp)

theorem anchored_of_coversSoundly {chain : Chain} (proper : chain.Proper) (plain : chain.depth = 0)
    (named : chain.IsNamed) (sound : chain.CoversSoundly) : chain.anchored = true := by
  rw [← Bool.not_eq_false]
  intro unanchored
  obtain ⟨before, members, kind, rest, whole, unbound⟩ := exists_unbound proper unanchored
  obtain ⟨name, fresh⟩ := exists_fresh_class chain
  obtain ⟨other, whole'⟩ : ∃ other : Chain, other =
      before ++ .compound members :: .combinator kind :: .compound [.className name] :: rest := ⟨_, rfl⟩
  have plainMembers (members' : Compound) (isMember : .compound members' ∈ chain) :
      members'.depth = 0 := Compound.depth_eq_zero_of_mem plain isMember
  have proper' : other.Proper := by
    rw [whole, Proper.append_iff] at proper
    obtain ⟨first, after, rfl⟩ := (proper.2.pastStep (by simp)).exists_eq_cons
    rw [whole', Proper.append_iff]
    exact ⟨proper.1, .cons members (.cons [.className name] (proper.2.pastStep (by simp)))⟩
  have plain' : other.depth = 0 := by
    apply Nat.le_zero.mp
    apply depth_le_iff.mpr
    intro members' isMember
    rw [whole'] at isMember
    by_cases isForeign : members' = [.className name]
    · rw [isForeign]
      exact Nat.le_refl 0
    · apply Nat.le_zero.mpr
      apply plainMembers members'
      rw [whole]
      simpa [isForeign] using isMember
  have covers : chain.covers other = true := by
    have self (members' : Compound) (isMember : .compound members' ∈ chain) :
        Compound.covers members' members' [] = true :=
      Compound.covers_plain_self (plainMembers members' isMember) []
    have refused (members' : Compound) (isMember : .compound members' ∈ chain) :
        Compound.covers members' [.className name] [] = false := by
      refine not_covers_fresh_class (plainMembers members' isMember) ?_ (fresh members' isMember)
      obtain ⟨simple, inMembers, _⟩ := named members' isMember
      exact List.ne_nil_of_mem inMembers
    have walks : walk Compound.covers chain other = true := by
      subst whole
      rw [whole']
      exact walk_foreign proper unbound self fun members' isMember => refused members' (by simp [isMember])
    simp only [Chain.covers, coversBy, proper.ends, proper'.ends, walks, Bool.and_self]
  exact not_includes_foreign whole whole' proper proper' plain plain' named fresh
    (sound other proper' plain' covers)

/-! ### What only the combinators decide -/

/-- The chain with these members in place of each of its compounds. -/
def uniform (members : Compound) (chain : Chain) : Chain :=
  chain.map fun
    | .compound _ => .compound members
    | .combinator kind => .combinator kind

@[simp] theorem uniform_uniform (members members' : Compound) (chain : Chain) :
    uniform members' (uniform members chain) = uniform members' chain := by
  induction chain with
  | nil => rfl
  | cons component rest ih => cases component <;> simpa [uniform] using ih

theorem eq_of_mem_uniform {members members' : Compound} {chain : Chain}
    (isMember : .compound members' ∈ uniform members chain) : members' = members := by
  obtain ⟨component, _, same⟩ := List.mem_map.mp isMember
  cases component with
  | compound => exact (Component.compound.inj same).symm
  | combinator => simp at same

theorem isBound_uniform (members : Compound) (chain : Chain) :
    isBound (uniform members chain) = isBound chain := by
  rcases chain with _ | ⟨_ | _, _ | ⟨_ | _, _ | ⟨_ | _, _ | _⟩⟩⟩ <;> rfl

theorem anchored_uniform (members : Compound) (chain : Chain) :
    anchored (uniform members chain) = anchored chain := by
  induction chain with
  | nil => rfl
  | cons component rest ih =>
    cases component with
    | compound => exact ih
    | combinator kind =>
      have bound := isBound_uniform members rest
      simp only [uniform, List.map_cons, anchored] at ih bound ⊢
      rw [ih, bound]

theorem uniform_pastStep (members : Compound) (chain : Chain) :
    uniform members chain.pastStep = (uniform members chain).pastStep := by
  rcases chain with _ | ⟨_ | _, _⟩ <;> rfl

theorem proper_uniform {chain : Chain} (members : Compound) (proper : chain.Proper) :
    (uniform members chain).Proper := by
  induction chain, proper using Proper.induct with
  | subject => exact .subject members
  | onward _ rest more past ih =>
    rw [uniform_pastStep] at ih
    exact .cons members ih

/-- Covering is right just for anchored chains: for whatever compounds stand beside the
combinators, and without a lone `*` also for the compounds that stand there. In the latter
case it is right about a single pair just when the trail of the covered chain is matched. -/
theorem anchored_iff_coversSoundly (chain : Chain) (proper : chain.Proper) (plain : chain.depth = 0) :
    (chain.anchored = true ↔
      ∀ chain' : Chain, chain'.uniform [] = chain.uniform [] → chain'.depth = 0 →
        chain'.CoversSoundly) ∧
      (chain.IsNamed →
        (chain.anchored = true ↔ chain.CoversSoundly) ∧
          ∀ other : Chain, other.Proper → other.depth = 0 →
            (chain.Includes other ↔ chain.MatchesTrail other)) := by
  have sound (chain' : Chain) (plain' : chain'.depth = 0) (isAnchored : chain'.anchored = true) :
      chain'.CoversSoundly := fun other _ plainOther covers =>
    includes_of_anchored plain' plainOther isAnchored covers
  refine ⟨⟨?_, ?_⟩, fun named => ⟨⟨sound chain plain, anchored_of_coversSoundly proper plain named⟩,
    fun other proper' plain' => includes_iff_matchesTrail plain named proper' plain'⟩⟩
  · intro isAnchored chain' same plain'
    apply sound chain' plain'
    rw [← anchored_uniform [], same, anchored_uniform, isAnchored]
  · intro soundly
    -- all compounds may be the same one
    have plain' : (chain.uniform [.className "a"]).depth = 0 := by
      apply Nat.le_zero.mp
      apply depth_le_iff.mpr
      intro members' isMember
      rw [eq_of_mem_uniform isMember]
      exact Nat.le_refl 0
    have named : (chain.uniform [.className "a"]).IsNamed := by
      intro members' isMember
      rw [eq_of_mem_uniform isMember]
      exact ⟨.className "a", List.mem_singleton.mpr rfl, by simp⟩
    rw [← anchored_uniform [.className "a"]]
    apply anchored_of_coversSoundly (proper_uniform _ proper) plain' named
    exact soundly _ (uniform_uniform ..) plain'

/-- The chain `.a > .b .c`. -/
def childThenBelow : Chain :=
  [.compound [.className "a"], .combinator .child, .compound [.className "b"],
    .compound [.className "c"]]

/-- The chain `.a > .x .b .c`. -/
def childFarAbove : Chain :=
  [.compound [.className "a"], .combinator .child, .compound [.className "x"],
    .compound [.className "b"], .compound [.className "c"]]

/-- The chain `.a > .b`. -/
def childOnly : Chain :=
  [.compound [.className "a"], .combinator .child, .compound [.className "b"]]

/-- Covering skips the `.x` that has to be `.b`. -/
theorem childThenBelow_covers_not_includes :
    childThenBelow.Proper ∧ childFarAbove.Proper ∧ childThenBelow.depth = 0 ∧ childFarAbove.depth = 0 ∧
      childThenBelow.covers childFarAbove = true ∧ ¬childThenBelow.Includes childFarAbove := by
  have proper : childThenBelow.Proper := ⟨rfl, rfl, rfl⟩
  have proper' : childFarAbove.Proper := ⟨rfl, rfl, rfl⟩
  refine ⟨proper, proper', rfl, rfl, by decide, ?_⟩
  have whole : childThenBelow = [] ++ .compound [.className "a"] :: .combinator .child ::
      [.compound [.className "b"], .compound [.className "c"]] := rfl
  exact not_includes_foreign whole rfl proper proper' rfl rfl
    (by simp [IsNamed, childThenBelow]) (by simp [childThenBelow])

theorem childOnly_coversSoundly :
    childOnly.Proper ∧ childOnly.depth = 0 ∧ childOnly.CoversSoundly ∧
      childThenBelow.Proper ∧ childThenBelow.depth = 0 ∧ childThenBelow.IsNamed ∧
      ¬childThenBelow.CoversSoundly := by
  have proper : childOnly.Proper := ⟨rfl, rfl, rfl⟩
  have proper' : childThenBelow.Proper := ⟨rfl, rfl, rfl⟩
  have named : childThenBelow.IsNamed := by simp [IsNamed, childThenBelow]
  obtain ⟨sound, _⟩ := anchored_iff_coversSoundly childOnly proper rfl
  obtain ⟨_, same⟩ := anchored_iff_coversSoundly childThenBelow proper' rfl
  refine ⟨proper, rfl, sound.mp rfl childOnly rfl rfl, proper', rfl, named, fun soundly => ?_⟩
  have isAnchored := (same named).1.mpr soundly
  simp [childThenBelow, anchored, isBound] at isAnchored

end Chain

end Selectors
