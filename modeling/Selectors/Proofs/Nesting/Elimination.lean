import Selectors.Proofs.Nesting.Associativity
import Selectors.Proofs.Nesting.Expansion

/-!
# References that nesting leaves

An `&` that leads a compound gives way to a parent alternative; one that stands further on is
kept. Under a parent without `&`, a nested rule therefore mentions `&` after expanding just
when some compound of it, at whatever depth, has an `&` that does not lead. All expansions of
one alternative agree on this.
-/
namespace Selectors

/-- Some `&` of the compound does not lead it. -/
def Compound.RefersLater (members : Compound) : Prop :=
  ∃ simple ∈ members.tail, simple.isParent = true

/-- An `&` that the member is, or one nested in it that does not lead its compound. -/
def Simple.Keeps (simple : Simple) : Prop :=
  simple.isParent = true ∨ Simple.Somewhere Compound.RefersLater simple

theorem Compound.mentionsParent_of_refersLater (members : Compound)
    (later : members.RefersLater) : members.mentionsParent = true := by
  obtain ⟨simple, member, isParent⟩ := later
  have mentions : simple.mentionsParent = true := by
    cases simple <;> first | rfl | cases isParent
  rw [Compound.mentionsParent_eq_any]
  exact List.any_eq_true.mpr ⟨simple, List.mem_of_mem_tail member, mentions⟩

/-! ### What is put in the place of a reference -/

theorem Compound.mentionsParent_of_suffixed {suffix : Option String} {subject subject' : Compound}
    (suffixed : Suffixed suffix subject subject') (free : subject.mentionsParent = false) :
    subject'.mentionsParent = false := by
  cases suffixed with
  | none => exact free
  | empty => exact free
  | last before isLast =>
    rw [mentionsParent_append, Bool.or_eq_false_iff] at free
    rw [mentionsParent_append, free.1]
    simp [mentionsParent, (Simple.mentionsParent_of_continued isLast).2]

/-- A parent alternative without `&` brings none; those of the other members remain. -/
theorem Chain.mentionsParent_of_placed? {suffix : Option String} {others : Compound}
    {outer placed : Chain} (free : outer.mentionsParent = false)
    (isPlaced : placed? suffix others outer = some placed) :
    placed.mentionsParent = others.mentionsParent := by
  unfold placed? at isPlaced
  split at isPlaced
  next bare =>
    obtain ⟨-, rfl⟩ : suffix = none ∧ others = [] := by simpa using bare
    obtain rfl := Option.some.inj isPlaced
    exact free
  next =>
    obtain ⟨⟨before, subject⟩, split, isSuffixed⟩ := Option.bind_eq_some_iff.mp isPlaced
    obtain ⟨subject', isSubject, rfl⟩ := Option.map_eq_some_iff.mp isSuffixed
    obtain rfl := splitSubject?_eq_some_iff.mp split
    simp only [mentionsParent_append, mentionsParent, Bool.or_false, Bool.or_eq_false_iff] at free
    have freeSubject := Compound.mentionsParent_of_suffixed
      (Compound.suffixed_of_suffixed? isSubject) free.2
    simp [mentionsParent_append, mentionsParent, Compound.mentionsParent_append, free.1,
      freeSubject]

/-! ### Members -/

section

variable {parents : Alternatives}

/-- Members that keep what they should make a compound that does. -/
theorem Compound.mentionsParent_of_expansion? {members members' : Compound}
    (each : ∀ simple ∈ members, ∀ simple', simple.expansion? parents = some simple' →
      (simple'.mentionsParent = true ↔ simple.Keeps))
    (expanded : members.expansion? parents = some members') :
    members'.mentionsParent = true ↔ ∃ simple ∈ members, simple.Keeps := by
  induction members generalizing members' with
  | nil =>
    obtain rfl := Option.some.inj expanded
    simp [mentionsParent]
  | cons simple rest ih =>
    obtain ⟨simple', rest', isFirst, isRest, rfl⟩ :=
      Option.map₂_eq_some_iff.mp (expansion?_cons simple rest ▸ expanded)
    obtain ⟨here, others⟩ := List.forall_mem_cons.mp each
    simp [mentionsParent, here simple' isFirst, ih others isRest]

/-- Whatever stands for a compound mentions `&` if the compound has one that does not lead, or
one is kept in a nested list. -/
theorem Component.mentionsParent_of_expansions? {members : Compound} {parts : Alternatives}
    (free : parents.mentionsParent = false)
    (each : ∀ simple ∈ members, ∀ simple', simple.expansion? parents = some simple' →
      (simple'.mentionsParent = true ↔ simple.Keeps))
    (expanded : Component.expansions? parents (.compound members) = some parts) :
    ∀ part ∈ parts, Chain.mentionsParent part.components = true ↔
      members.RefersLater ∨ ∃ simple ∈ members, Simple.Somewhere Compound.RefersLater simple := by
  intro part isPart
  by_cases leads : members.isReference = true
  · obtain ⟨suffix, others, rfl⟩ := Compound.isReference_iff.mp leads
    rw [expansions?_parent] at expanded
    obtain ⟨others', isOthers, places⟩ := Option.bind_eq_some_iff.mp expanded
    obtain ⟨outer, isOuter, placed⟩ := exists_of_mem_mapM places isPart
    obtain ⟨chain, isPlaced, rfl⟩ := Option.map_eq_some_iff.mp placed
    have freeOuter : Chain.mentionsParent outer.components = false := by
      rw [Alternatives.mentionsParent_eq_any, List.any_eq_false] at free
      simpa using free outer isOuter
    rw [Chain.mentionsParent_of_placed? freeOuter isPlaced,
      Compound.mentionsParent_of_expansion? (List.forall_mem_cons.mp each).2 isOthers]
    simp [Simple.Keeps, Compound.RefersLater, and_or_left, exists_or]
  · have plain : members.isReference = false := by simpa using leads
    rw [expansions?_plain plain] at expanded
    obtain ⟨members', isMembers, rfl⟩ := Option.map_eq_some_iff.mp expanded
    obtain rfl := List.mem_singleton.mp isPart
    simp only [Complex.single, Chain.mentionsParent, Bool.or_false]
    rw [Compound.mentionsParent_of_expansion? each isMembers]
    -- the first member is no `&`, so only a list nested in it can keep one
    rcases members with _ | ⟨simple, rest⟩
    · simp [Compound.RefersLater]
    · rw [Compound.isReference_cons] at plain
      simp [Simple.Keeps, Compound.RefersLater, and_or_left, exists_or, plain]

/-! ### Chains and alternatives -/

-- An alternative without `&` stays so below such parents.
theorem Alternatives.mentionsParent_below (free : parents.mentionsParent = false)
    {complex : Complex} (unmentioned : Chain.mentionsParent complex.components = false) :
    Alternatives.mentionsParent (parents.followedBy [complex]) = false := by
  rw [mentionsParent_eq_any, List.any_eq_false] at free ⊢
  intro below isBelow
  obtain ⟨outer, isOuter, _, isRest, rfl⟩ := mem_followedBy.mp isBelow
  obtain rfl := List.mem_singleton.mp isRest
  simpa [Chain.mentionsParent_append, unmentioned] using free outer isOuter

/-- What nesting leaves, for every kind of selector. -/
theorem keeps_of_expansion? (someParent : parents ≠ []) (free : parents.mentionsParent = false) :
    Induction
      (fun simple => ∀ simple', simple.expansion? parents = some simple' →
        (simple'.mentionsParent = true ↔ simple.Keeps))
      (fun members => ∀ simple ∈ members, ∀ simple', simple.expansion? parents = some simple' →
        (simple'.mentionsParent = true ↔ simple.Keeps))
      (fun chain => ∀ expansions, chain.expansions? parents = some expansions →
        ∀ expansion ∈ expansions, Chain.mentionsParent expansion.components = true ↔
          chain.Somewhere Compound.RefersLater)
      (fun alternatives => ∀ implicit expansions,
        Alternatives.expansions? parents implicit alternatives = some expansions →
          (expansions.mentionsParent = true ↔
            alternatives.Somewhere Compound.RefersLater)) := by
  have nowhere := mentionsParent_of_somewhere Compound.mentionsParent_of_refersLater
  constructor
  case parent | placeholder | typeName | universal | className | idName | attr | plainPseudo =>
    intros
    rename_i expanded
    obtain rfl := Option.some.inj expanded
    simp [Simple.mentionsParent, Simple.Keeps, Simple.isParent, Simple.Somewhere, Simple.deep]
  case nestingPseudo =>
    intro name isClass argument alternatives span ih simple' expanded
    rw [Simple.expansion?_nesting] at expanded
    simp only [Simple.Keeps, Simple.somewhere_nesting, Simple.isParent]
    split at expanded
    next =>
      obtain ⟨expansions, isExpansions, rfl⟩ := Option.map_eq_some_iff.mp expanded
      simpa [Simple.mentionsParent] using ih false expansions isExpansions
    next unmentioned =>
      obtain rfl := Option.some.inj expanded
      have somewhere := mt (nowhere.alternatives alternatives) unmentioned
      simp [Simple.mentionsParent, unmentioned, somewhere]
  case noMember => simp
  case member =>
    intro simple rest ih ihRest
    exact List.forall_mem_cons.mpr ⟨ih, ihRest⟩
  case noComponent =>
    intro expansions expanded
    obtain rfl := Option.some.inj expanded
    simp [Complex.nil, Chain.mentionsParent]
  case compound =>
    intro members rest each ih expansions expanded expansion isExpansion
    obtain ⟨parts, others, isParts, isOthers, part, isPart, other, isOther, rfl⟩ :=
      Chain.exists_of_mem_expansions? expanded isExpansion
    rw [Complex.components_append, Chain.mentionsParent_append, Bool.or_eq_true,
      Component.mentionsParent_of_expansions? free each isParts part isPart,
      ih others isOthers other isOther, Chain.somewhere_compound]
  case combinator =>
    intro kind rest ih expansions expanded expansion isExpansion
    obtain ⟨parts, others, isParts, isOthers, part, isPart, other, isOther, rfl⟩ :=
      Chain.exists_of_mem_expansions? expanded isExpansion
    obtain rfl := Option.some.inj isParts
    obtain rfl := List.mem_singleton.mp isPart
    rw [Chain.somewhere_combinator, ← ih others isOthers other isOther]
    rfl
  case noAlternative =>
    intro implicit expansions expanded
    obtain rfl := Option.some.inj expanded
    simp [Alternatives.mentionsParent]
  case alternative =>
    intro components lineBreak rest ih ihRest implicit expansions expanded
    rw [Alternatives.expansions?_cons] at expanded
    obtain ⟨here, others, isHere, isOthers, rfl⟩ := Option.map₂_eq_some_iff.mp expanded
    rw [Alternatives.mentionsParent_append, Bool.or_eq_true, ihRest implicit others isOthers,
      Alternatives.somewhere_cons]
    refine or_congr_left ?_
    unfold Complex.expansions? at isHere
    split at isHere
    next =>
      -- all expansions agree and there is one, so it decides for the alternative
      obtain ⟨expansion, isExpansion⟩ :=
        List.exists_mem_of_ne_nil here (Chain.expansions?_ne_nil someParent isHere)
      rw [Alternatives.mentionsParent_eq_any, List.any_eq_true]
      constructor
      · rintro ⟨expansion, isExpansion, mentions⟩
        exact (ih here isHere expansion isExpansion).mp mentions
      · intro somewhere
        exact ⟨expansion, isExpansion, (ih here isHere expansion isExpansion).mpr somewhere⟩
    next unmentioned =>
      have somewhere := mt (nowhere.chain components) unmentioned
      rw [Bool.not_eq_true] at unmentioned
      suffices mentions : here.mentionsParent = false by simp [mentions, somewhere]
      split at isHere
      · obtain rfl := Option.some.inj isHere
        exact Alternatives.mentionsParent_below free unmentioned
      · obtain rfl := Option.some.inj isHere
        simp [Alternatives.mentionsParent, unmentioned]

end

namespace SelectorList

/-- Under a parent without `&`, a nested rule mentions `&` after expanding just when some
compound of it, at whatever depth, has an `&` that does not lead. The parent has an alternative,
as every list has that the checked constructors make. -/
theorem nest_mentionsParent_iff (child parent list : SelectorList) (implicit : Bool)
    (someParent : parent.alternatives ≠ []) (free : parent.mentionsParent = false)
    (nested : (child.nest (some parent) implicit).result = .ok list) :
    (list.mentionsParent = true ↔
      ∃ complex ∈ Alternatives.deep child.alternatives, ∃ members, .compound members ∈ complex.components ∧
        ∃ simple ∈ members.tail, simple.isParent = true) ∧
    ((∀ complex ∈ Alternatives.deep child.alternatives, ∀ members, .compound members ∈ complex.components →
        ∀ simple ∈ members.tail, simple.isParent = false) → list.mentionsParent = false) := by
  obtain ⟨alternatives, expanded, rfl⟩ := result_nest_eq_ok_iff.mp nested
  have keeps := (keeps_of_expansion? someParent free).alternatives child.alternatives implicit
    alternatives expanded
  refine ⟨keeps, fun allLead => ?_⟩
  rw [mentionsParent, ← Bool.not_eq_true, keeps]
  rintro ⟨complex, isComplex, members, isMembers, simple, isSimple, isParent⟩
  have leads := allLead complex isComplex members isMembers simple isSimple
  simp [isParent] at leads

/-- The rule `&-x:is(.b&, &) .c, .d`. -/
def ruleReferringTwice : SelectorList :=
  ⟨[⟨[.compound [.parent (some "-x"), .pseudo ⟨"is", true, none, some
        ⟨[⟨[.compound [.className "b", .parent none]], false⟩,
          ⟨[.compound [.parent none]], false⟩], none⟩⟩],
      .compound [.className "c"]], false⟩,
    ⟨[.compound [.className "d"]], false⟩], none⟩

/-- The rule `.p, .q > .r`. -/
def ruleOfTwo : SelectorList :=
  ⟨[⟨[.compound [.className "p"]], false⟩,
    ⟨[.compound [.className "q"], .combinator .child, .compound [.className "r"]], true⟩], none⟩

theorem ruleReferringTwice_mentionsParent :
    ∃ list, ruleOfTwo.alternatives ≠ [] ∧ ruleOfTwo.mentionsParent = false ∧
      (ruleReferringTwice.nest (some ruleOfTwo) true).result = .ok list ∧
      list.alternatives.length = 4 ∧ list.mentionsParent = true ∧
      ∃ complex ∈ Alternatives.deep ruleReferringTwice.alternatives,
        ∃ members, .compound members ∈ complex.components ∧
          ∃ simple ∈ members.tail, simple.isParent = true := by
  refine ⟨_, List.cons_ne_nil _ _, rfl, rfl, rfl, rfl, ?_⟩
  exact (nest_mentionsParent_iff ruleReferringTwice ruleOfTwo _ true (List.cons_ne_nil _ _) rfl
    rfl).1.mp rfl

end SelectorList

end Selectors
