import Selectors.Proofs.Covering.Embedding

/-!
# Covering by nested chains

The nested list of `:is` may hold a chain, and then the pseudo covers a compound together with
what stands above it. At the end of a chain the pseudo is shown everything that is left above the
other subject. The search shows it one component less, so where others follow the pseudo it does
not cover the very chain that it names, unless something else stands above that chain.
-/
namespace Selectors

/-! ### The search -/

namespace Chain

/-- The search stops at the latest at a compound that passes the test. -/
theorem afterFirst?_of_accepted {test : Compound → Chain → Bool} {passed skipped left : Chain}
    {members : Compound} (accepted : test members (passed ++ skipped).tail = true)
    (more : left ≠ []) :
    ∃ found, afterFirst? test passed (skipped ++ .compound members :: left) = some found ∧
      left <:+ found := by
  induction skipped generalizing passed with
  | nil =>
    obtain ⟨next, rest, rfl⟩ := List.exists_cons_of_ne_nil more
    rw [List.append_nil] at accepted
    exact ⟨_, by simp [afterFirst?, accepted], List.suffix_refl _⟩
  | cons component rest ih =>
    obtain ⟨next, after, whole⟩ := List.exists_cons_of_ne_nil
      (List.append_ne_nil_of_right_ne_nil rest (List.cons_ne_nil (.compound members) left))
    have tested : test members ((passed ++ [component]) ++ rest).tail = true := by simpa using accepted
    obtain ⟨found, search, isSuffix⟩ := ih tested
    rw [whole] at search
    rw [List.cons_append, whole]
    rcases component with outer | kind
    · by_cases earlier : test outer passed.tail = true
      · refine ⟨next :: after, by simp [afterFirst?, earlier], ?_⟩
        rw [← whole]
        exact (List.suffix_cons _ left).trans (List.suffix_append rest _)
      · exact ⟨found, by simpa [afterFirst?, earlier] using search, isSuffix⟩
    · exact ⟨found, by simpa [afterFirst?] using search, isSuffix⟩

theorem tail_descend (compounds : List Compound) :
    (descend compounds).tail = descend compounds.tail :=
  List.map_tail.symm

theorem descend_eq_append {compounds : List Compound} {skipped left : Chain} {members : Compound}
    (same : descend compounds = skipped ++ .compound members :: left) :
    ∃ front back, compounds = front ++ members :: back ∧ skipped = descend front ∧
      left = descend back := by
  obtain ⟨front, rest, rfl, rfl, others⟩ := List.map_eq_append_iff.mp same
  obtain ⟨first, back, rfl, isFirst, rfl⟩ := List.map_eq_cons_iff.mp others
  obtain rfl := Component.compound.inj isFirst
  exact ⟨front, back, rfl, rfl, rfl⟩

theorem of_afterFirst?_descend {test : Compound → Chain → Bool} {compounds : List Compound}
    {left : Chain} (found : afterFirst? test [] (descend compounds) = some left) :
    ∃ front members back, compounds = front ++ members :: back ∧ left = descend back ∧ back ≠ [] ∧
      test members (descend front.tail) = true := by
  obtain ⟨skipped, members, whole, more, accepted⟩ := afterFirst?_eq_some found
  obtain ⟨front, back, rfl, rfl, rfl⟩ := descend_eq_append whole
  rw [List.nil_append, tail_descend] at accepted
  exact ⟨front, members, back, rfl, rfl, by simpa [descend] using more, accepted⟩

theorem afterFirst?_descend_of_accepted {test : Compound → Chain → Bool} {front back : List Compound}
    {members : Compound} (accepted : test members (descend front.tail) = true) (more : back ≠ []) :
    ∃ skipped, afterFirst? test [] (descend (front ++ members :: back)) =
      some (descend (skipped ++ back)) := by
  have tested : test members ([] ++ descend front).tail = true := by
    rwa [List.nil_append, tail_descend]
  have some : descend back ≠ [] := by simpa [descend] using more
  obtain ⟨left, found, skipped, rfl⟩ := afterFirst?_of_accepted tested some
  have whole : descend (front ++ members :: back) = descend front ++ .compound members :: descend back := by
    rw [descend_append, descend_cons]
  rw [← whole] at found
  obtain ⟨_, _, others, _, same, _, _⟩ := of_afterFirst?_descend found
  -- what is left is compounds alone, and so is what was passed over of it
  obtain ⟨passed, rest, rfl, rfl, isBack⟩ := List.map_eq_append_iff.mp same.symm
  refine ⟨passed, ?_⟩
  rw [found, descend_append, ← isBack]
  rfl

theorem afterFirst?_descend_subset {test : Compound → Chain → Bool} {compounds left : List Compound}
    (found : afterFirst? test [] (descend compounds) = some (descend left)) : left ⊆ compounds := by
  obtain ⟨skipped, members, whole, -⟩ := afterFirst?_eq_some found
  intro inside isMember
  apply mem_descend.mp
  rw [whole]
  exact List.mem_append_right _ (List.mem_cons_of_mem _ (mem_descend.mpr isMember))

theorem IsDescent.descend {compounds : List Compound}
    (plain : ∀ members ∈ compounds, Compound.depth members = 0) : (descend compounds).IsDescent where
  free component isComponent := by
    obtain ⟨_, _, rfl⟩ := List.mem_map.mp isComponent
    rfl
  plain := by
    apply Nat.le_zero.mp
    apply depth_le_iff.mpr
    intro members isMember
    exact (plain members (mem_descend.mp isMember)).le

theorem covers_eq_walk (before before' : List Compound) (subject subject' : Compound) :
    Chain.covers (descend (before ++ [subject])) (descend (before' ++ [subject'])) =
      walk Compound.covers (descend (before ++ [subject])) (descend (before' ++ [subject'])) := by
  simp [Chain.covers, coversBy, descend_append]

-- Among plain compounds the walk decides what covering does.
theorem walk_plain_iff {before before' : List Compound} {subject subject' : Compound}
    (plain : ∀ members ∈ before ++ [subject], Compound.depth members = 0)
    (plain' : ∀ members ∈ before' ++ [subject'], Compound.depth members = 0) :
    walk Compound.covers (descend (before ++ [subject])) (descend (before' ++ [subject'])) = true ↔
      Fits Compound.IsMetBy before before' ∧ subject.IsMetBy subject' := by
  have covers := covers_iff_embeds (IsDescent.descend plain) (IsDescent.descend plain')
  rwa [compounds_descend, compounds_descend, Embeds.append_iff, covers_eq_walk] at covers

end Chain

theorem Alternatives.covers_singletons (complex other : Complex) :
    Alternatives.covers [complex] [other] = Chain.covers complex.components other.components := by
  rw [Bool.eq_iff_iff, covers_iff]
  simp

/-! ### The pseudo and a compound -/

namespace Compound

theorem nestedOf_plain {compound : Compound} (plain : compound.depth = 0) (name : String)
    (isClass : Bool) : compound.nestedOf name isClass = [] := by
  apply List.eq_nil_iff_forall_not_mem.mpr
  intro list isNested
  have := depth_nestedOf_lt isNested
  omega

section

variable {pseudo : Pseudo} {inner : List Compound} {subject : Compound} {lineBreak : Bool}
  {span : Option Span} (anyOf : pseudo.family = .anyOf)
  (nested : pseudo.nested = some ⟨[⟨Chain.descend (inner ++ [subject]), lineBreak⟩], span⟩)

include anyOf nested

-- A plain simple selector is implied by the nested chain only if that is a single compound.
theorem implies_spanning_iff {simple : Simple} (plain : simple.depth = 0) :
    implies [.pseudo pseudo] simple = true ↔ inner = [] ∧ subject.contains simple = true := by
  obtain ⟨name, isClass, argument, _⟩ := pseudo
  obtain rfl := nested
  have differs : (simple == Simple.pseudo ⟨name, isClass, argument,
      some ⟨[⟨Chain.descend (inner ++ [subject]), lineBreak⟩], span⟩⟩) = false := by
    rcases simple with _ | _ | ⟨_, _, _, _ | ⟨_, _⟩⟩ | _ | _ | _ | _ | _
    case pseudo.some => cases plain
    all_goals rfl
  simp only [implies, List.any_cons, List.any_nil, Bool.or_false, differs, Bool.false_or,
    Simple.impliesByNested, anyOf, Family.impliesNested, Bool.true_and, List.all_cons, List.all_nil,
    Bool.and_true]
  rcases inner with _ | ⟨first, _ | ⟨second, rest⟩⟩
  · simp
  · simp
  · simp

-- The question for the pseudo is that for its chain and the compound with what stands above.
theorem coveredByMember_spanning_iff {other : Compound} {above : List Compound}
    (plain : ∀ members ∈ inner ++ [subject], Compound.depth members = 0)
    (plain' : ∀ members ∈ above ++ [other], Compound.depth members = 0) :
    coveredByMember Alternatives.covers other (Chain.descend above) (.pseudo pseudo) = true ↔
      Fits IsMetBy inner above ∧ subject.IsMetBy other := by
  have plainOther : other.depth = 0 := plain' other (by simp)
  rw [← Chain.walk_plain_iff plain plain']
  obtain ⟨name, isClass, argument, _⟩ := pseudo
  obtain rfl := nested
  simp only [coveredByMember, coveredByPseudo, anyOf, nestedOf_plain plainOther, List.any_nil,
    Bool.false_or, Alternatives.covers_singletons]
  simp [Chain.covers, Chain.coversBy, Chain.descend_append]

-- A pseudo-element that the subject of the chain shares is seen to be shared only where the chain
-- is a single compound.
theorem shared_spanning_iff {other : Compound} (plain : other.depth = 0)
    (met : subject.IsMetBy other) :
    (∀ simple ∈ other, (!simple.isPlainPseudoElement || implies [.pseudo pseudo] simple) = true) ↔
      inner = [] ∨ ∀ simple ∈ other, simple.isPseudoElement = false := by
  have shared (simple : Simple) (isMember : simple ∈ other) :
      (!simple.isPlainPseudoElement || implies [.pseudo pseudo] simple) = true ↔
        inner = [] ∨ simple.isPseudoElement = false := by
    have plainSimple := Simple.depth_eq_zero_of_mem plain isMember
    rw [Simple.isPlainPseudoElement_of_plain plainSimple, Bool.or_eq_true,
      implies_spanning_iff anyOf nested plainSimple]
    by_cases isElement : simple.isPseudoElement = true
    · have contained : subject.contains simple = true :=
        List.elem_eq_true_of_mem (met.pseudoElements simple isMember isElement)
      simp [isElement, contained]
    · simp [isElement]
  rw [forall₂_congr shared]
  by_cases single : inner = []
  · simp [single]
  · simp [single]

/-- The pseudo covers a compound where its chain is found in that compound and what stands above,
but a pseudo-element only where the chain is a single compound. -/
theorem covers_spanning_iff {other : Compound} {above : List Compound}
    (plain : ∀ members ∈ inner ++ [subject], Compound.depth members = 0)
    (plain' : ∀ members ∈ above ++ [other], Compound.depth members = 0) :
    covers [.pseudo pseudo] other (Chain.descend above) = true ↔
      Fits IsMetBy inner above ∧ subject.IsMetBy other ∧
        (inner = [] ∨ ∀ simple ∈ other, simple.isPseudoElement = false) := by
  have plainOther : other.depth = 0 := plain' other (by simp)
  have found := coveredByMember_spanning_iff anyOf nested plain plain'
  simp only [covers, coversBy, List.all_cons, List.all_nil, Bool.and_true, Bool.and_eq_true,
    List.all_eq_true, found, and_assoc]
  refine and_congr_right fun _ => and_congr_right fun met => ?_
  exact shared_spanning_iff anyOf nested plainOther met

end

end Compound

/-! ### The pseudo in a chain -/

namespace Chain

-- Where the search finds the chain of the pseudo and leaves enough for what follows, something
-- else stood above the chain.
theorem above_ne_nil_of_found {above inner front back after : List Compound}
    {subject members : Compound}
    (whole : above ++ (inner ++ [subject]) ++ after = front ++ members :: back)
    (fits : Fits Compound.IsMetBy inner front.tail) (enough : after.length ≤ back.length)
    (several : inner ≠ []) : above ≠ [] := by
  have lengths := congrArg List.length whole
  have inside := fits.length_le
  have positive := List.length_pos_iff.mpr several
  simp only [List.length_append, List.length_cons, List.length_nil, List.length_tail] at lengths inside
  apply List.length_pos_iff.mp
  omega

section

variable {pseudo : Pseudo} {above inner : List Compound} {subject : Compound} {lineBreak : Bool}
  {span : Option Span} (anyOf : pseudo.family = .anyOf)
  (nested : pseudo.nested = some ⟨[⟨descend (inner ++ [subject]), lineBreak⟩], span⟩)

include anyOf nested

-- At the end of a chain the pseudo is shown all that stands above the last compound.
theorem covers_spanning_last_iff
    (plain : ∀ members ∈ above ++ (inner ++ [subject]), Compound.depth members = 0) :
    Chain.covers (descend [[.pseudo pseudo]]) (descend (above ++ (inner ++ [subject]))) = true ↔
      inner = [] ∨ ∀ simple ∈ subject, simple.isPseudoElement = false := by
  have judged : Chain.covers (descend [[.pseudo pseudo]]) (descend (above ++ (inner ++ [subject]))) =
      Compound.covers [.pseudo pseudo] subject (descend (above ++ inner)) := by
    have alone : subject? [.compound [.pseudo pseudo]] = some [.pseudo pseudo] := rfl
    rw [← List.append_assoc, descend_append]
    simp [Chain.covers, coversBy, alone, walk]
  rw [judged, Compound.covers_spanning_iff anyOf nested (fun members isMember => plain members (by simp_all))
    (fun members isMember => plain members (by simpa using isMember))]
  have fits : Fits Compound.IsMetBy inner (above ++ inner) := (Fits.refl inner).append_left above
  simp [fits, Compound.IsMetBy.refl]

-- The search finds the chain of the pseudo once something else stands above it, and a single
-- compound in any case.
theorem exists_found_spanning (after : List Compound)
    (plain : ∀ members ∈ above ++ (inner ++ [subject]), Compound.depth members = 0)
    (more : after ≠ [])
    (place : inner = [] ∨ (∀ simple ∈ subject, simple.isPseudoElement = false) ∧ above ≠ []) :
    ∃ skipped, afterFirst? (Compound.covers [.pseudo pseudo]) []
      (descend (above ++ (inner ++ [subject]) ++ after)) = some (descend (skipped ++ after)) := by
  have fits : Fits Compound.IsMetBy inner (above ++ inner).tail := by
    rcases place with rfl | ⟨_, other⟩
    · exact .nil
    · obtain ⟨outer, rest, rfl⟩ := List.exists_cons_of_ne_nil other
      exact (Fits.refl inner).append_left rest
  have accepted : Compound.covers [.pseudo pseudo] subject (descend (above ++ inner).tail) = true := by
    refine (Compound.covers_spanning_iff anyOf nested ?_ ?_).mpr
      ⟨fits, Compound.IsMetBy.refl subject, place.imp_right And.left⟩
    · intro members isMember
      exact plain members (List.mem_append_right _ isMember)
    · intro members isMember
      rcases List.mem_append.mp isMember with isMember | isMember
      · have isOuter := List.mem_of_mem_tail isMember
        exact plain members (by rw [← List.append_assoc]; exact List.mem_append_left _ isOuter)
      · exact plain members (by simp_all)
  have whole : above ++ (inner ++ [subject]) ++ after = above ++ inner ++ subject :: after := by simp
  rw [whole]
  exact afterFirst?_descend_of_accepted accepted more

-- What the search leaves has to suffice for the compounds behind, so it cannot have gone far.
theorem place_of_covers_spanning {mid : List Compound} {last : Compound}
    (plain : ∀ members ∈ above ++ (inner ++ [subject]) ++ (mid ++ [last]), Compound.depth members = 0)
    (covers : Chain.covers (descend ([.pseudo pseudo] :: mid ++ [last]))
      (descend (above ++ (inner ++ [subject]) ++ mid ++ [last])) = true) :
    inner = [] ∨ (∀ simple ∈ subject, simple.isPseudoElement = false) ∧ above ≠ [] := by
  have plainNested : ∀ members ∈ inner ++ [subject], Compound.depth members = 0 := fun members isMember =>
    plain members (List.mem_append_left _ (List.mem_append_right _ isMember))
  have plainBehind : ∀ members ∈ mid ++ [last], Compound.depth members = 0 := fun members isMember =>
    plain members (List.mem_append_right _ isMember)
  rw [covers_eq_walk, walk_descend_cons] at covers
  simp only [Bool.and_eq_true, decide_eq_true_eq, Option.any_eq_true] at covers
  obtain ⟨_, left, found, _, inward⟩ := covers
  obtain ⟨front, members, back, whole, rfl, more, accepted⟩ := of_afterFirst?_descend found
  obtain ⟨rest, final, rfl⟩ := (List.eq_nil_or_concat' back).resolve_left more
  rw [List.append_assoc _ mid] at whole
  rw [whole] at plain
  have plainFront : ∀ inside ∈ front.tail ++ [members], Compound.depth inside = 0 := by
    intro inside isMember
    rcases List.mem_append.mp isMember with isMember | isMember
    · exact plain inside (List.mem_append_left _ (List.mem_of_mem_tail isMember))
    · exact plain inside (by simp_all)
  have plainBack : ∀ inside ∈ rest ++ [final], Compound.depth inside = 0 := fun inside isMember =>
    plain inside (List.mem_append_right _ (List.mem_cons_of_mem _ isMember))
  rw [Compound.covers_spanning_iff anyOf nested plainNested plainFront] at accepted
  rw [pastStep_descend, walk_plain_iff plainBehind plainBack] at inward
  obtain ⟨fits, met, place⟩ := accepted
  by_cases single : inner = []
  · exact Or.inl single
  · refine Or.inr ⟨fun simple isMember => ?_, ?_⟩
    · exact place.resolve_left single simple (met.members isMember)
    · have enough := inward.1.length_le
      exact above_ne_nil_of_found whole fits (by simpa using enough) single

theorem covers_spanning_of_place {mid : List Compound} {last : Compound}
    (plain : ∀ members ∈ above ++ (inner ++ [subject]) ++ (mid ++ [last]), Compound.depth members = 0)
    (place : inner = [] ∨ (∀ simple ∈ subject, simple.isPseudoElement = false) ∧ above ≠ []) :
    Chain.covers (descend ([.pseudo pseudo] :: mid ++ [last]))
      (descend (above ++ (inner ++ [subject]) ++ mid ++ [last])) = true := by
  have plainBehind : ∀ members ∈ mid ++ [last], Compound.depth members = 0 := fun members isMember =>
    plain members (List.mem_append_right _ isMember)
  obtain ⟨skipped, found⟩ := exists_found_spanning anyOf nested (mid ++ [last])
    (fun members isMember => plain members (List.mem_append_left _ isMember)) (by simp) place
  have plainLeft : ∀ members ∈ skipped ++ mid ++ [last], Compound.depth members = 0 := by
    rw [List.append_assoc]
    exact fun members isMember => plain members (afterFirst?_descend_subset found isMember)
  have inward : walk Compound.covers (descend (mid ++ [last])) (descend (skipped ++ mid ++ [last])) = true :=
    (walk_plain_iff plainBehind plainLeft).mpr
      ⟨(Fits.refl mid).append_left skipped, Compound.IsMetBy.refl last⟩
  rw [← List.append_assoc _ mid, ← List.append_assoc _ mid] at found
  rw [covers_eq_walk, walk_descend_cons]
  simp only [Bool.and_eq_true, decide_eq_true_eq, Option.any_eq_true]
  refine ⟨by simp; omega, _, found, by rw [step_descend]; rfl, ?_⟩
  rwa [pastStep_descend]

end

/-- A pseudo of the `:is` family over a chain, with other compounds behind it, covers the same
compounds behind that chain just when the chain is a single compound or something else stands
above it. With nothing behind it no more is asked than that the chain does not end in a
pseudo-element. -/
theorem covers_spanning_chain_iff (pseudo : Pseudo) (above inner after : List Compound)
    (subject : Compound) (lineBreak : Bool) (span : Option Span) (anyOf : pseudo.family = .anyOf)
    (nested : pseudo.nested = some ⟨[⟨descend (inner ++ [subject]), lineBreak⟩], span⟩)
    (plain : ∀ members ∈ above ++ (inner ++ [subject]) ++ after, Compound.depth members = 0) :
    Chain.covers (descend ([.pseudo pseudo] :: after))
        (descend (above ++ (inner ++ [subject]) ++ after)) = true ↔
      inner = [] ∨ (∀ simple ∈ subject, simple.isPseudoElement = false) ∧
        (above ≠ [] ∨ after = []) := by
  rcases List.eq_nil_or_concat' after with rfl | ⟨mid, last, rfl⟩
  · rw [List.append_nil] at plain ⊢
    rw [covers_spanning_last_iff anyOf nested plain]
    simp
  · have onward : mid ++ [last] ≠ [] := by simp
    simp only [onward, or_false]
    rw [← List.append_assoc _ mid]
    exact ⟨place_of_covers_spanning anyOf nested plain, covers_spanning_of_place anyOf nested plain⟩

/-- The pseudo `:is(.a .b)`. -/
def isBelowA : Pseudo :=
  ⟨"is", true, none, some ⟨[⟨descend [[.className "a"], [.className "b"]], false⟩], none⟩⟩

/-- The pseudo covers `.a .b`, but with `.c` behind it, it does not cover `.a .b .c`. -/
theorem isBelowA_not_covers :
    Chain.covers (descend [[.pseudo isBelowA]])
        (descend [[.className "a"], [.className "b"]]) = true ∧
      Chain.covers (descend [[.pseudo isBelowA], [.className "c"]])
        (descend [[.className "a"], [.className "b"], [.className "c"]]) = false := by
  decide

/-- Below `.x` the chain is found. -/
theorem isBelowA_covers_below :
    isBelowA.family = .anyOf ∧ isBelowA.nested =
        some ⟨[⟨descend ([[.className "a"]] ++ [[.className "b"]]), false⟩], none⟩ ∧
      Chain.covers (descend ([.pseudo isBelowA] :: [[.className "c"]]))
        (descend ([[.className "x"]] ++ ([[.className "a"]] ++ [[.className "b"]]) ++
          [[.className "c"]])) = true := by
  have anyOf : isBelowA.family = .anyOf := by decide
  refine ⟨anyOf, rfl, ?_⟩
  have decides := covers_spanning_chain_iff isBelowA [[.className "x"]] [[.className "a"]]
    [[.className "c"]] [.className "b"] false none anyOf rfl (by decide)
  exact decides.mpr (Or.inr ⟨by decide, Or.inl (by decide)⟩)

end Chain

end Selectors
