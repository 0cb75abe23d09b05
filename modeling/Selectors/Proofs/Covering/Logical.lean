import Selectors.Covering.List
import Selectors.Proofs.Covering.Walk
import Selectors.Proofs.Matching.Bare
import Selectors.Proofs.Matching.Trail
import Selectors.Rules

/-!
# Covering through `:is` and `:not`

Where the only pseudos with a nested list are those of the `:is` family and `:not`, and
no combinator stands anywhere, covering is sound at every depth. A nested `:not` swaps
the two sides, so a round of the rule for lists is proved sound for all lists at once.
-/
namespace Selectors

/-! ### Logical selectors -/

mutual

/-- Whether each pseudo with a nested list is a pseudo-class that says that an element
matches the list or that it does not, and no combinator stands in the list. -/
def Simple.isLogical : Simple → Bool
  | .pseudo ⟨name, isClass, argument, some ⟨alternatives, span⟩⟩ =>
    isClass &&
      (match Pseudo.family ⟨name, isClass, argument, some ⟨alternatives, span⟩⟩ with
        | .anyOf | .noneOf => true
        | _ => false) &&
      Alternatives.isLogical alternatives
  | _ => true
termination_by structural simple => simple

def Compound.isLogical : Compound → Bool
  | [] => true
  | simple :: rest => simple.isLogical && Compound.isLogical rest
termination_by structural compound => compound

def Chain.isLogical : Chain → Bool
  | [] => true
  | .compound members :: rest => Compound.isLogical members && Chain.isLogical rest
  | .combinator _ :: _ => false
termination_by structural chain => chain

def Alternatives.isLogical : Alternatives → Bool
  | [] => true
  | ⟨components, _⟩ :: rest => Chain.isLogical components && Alternatives.isLogical rest
termination_by structural alternatives => alternatives

end

def SelectorList.isLogical (list : SelectorList) : Bool := Alternatives.isLogical list.alternatives

theorem Compound.isLogical_iff {compound : Compound} :
    compound.isLogical = true ↔ ∀ simple ∈ compound, simple.isLogical = true := by
  induction compound with
  | nil => simp [Compound.isLogical]
  | cons simple rest ih => simp [Compound.isLogical, ih]

theorem Chain.isLogical_iff {chain : Chain} :
    chain.isLogical = true ↔
      ∀ component ∈ chain, ∃ members, component = .compound members ∧ Compound.isLogical members = true := by
  induction chain with
  | nil => simp [Chain.isLogical]
  | cons component rest ih => cases component <;> simp [Chain.isLogical, ih]

theorem Alternatives.isLogical_iff {alternatives : Alternatives} :
    alternatives.isLogical = true ↔
      ∀ complex ∈ alternatives, Chain.isLogical complex.components = true := by
  induction alternatives with
  | nil => simp [Alternatives.isLogical]
  | cons complex rest ih =>
    cases complex
    simp [Alternatives.isLogical, ih]

theorem Chain.isLogical_of_mem {chain : Chain} {members : Compound} (logical : chain.isLogical = true)
    (member : .compound members ∈ chain) : Compound.isLogical members = true := by
  obtain ⟨_, same, logical⟩ := isLogical_iff.mp logical _ member
  obtain rfl := Component.compound.inj same
  exact logical

theorem Chain.isLogical_subject {above : Chain} {members : Compound}
    (logical : Chain.isLogical (above ++ [.compound members]) = true) :
    Compound.isLogical members = true := by
  have member : .compound members ∈ above ++ [.compound members] := by simp
  exact isLogical_of_mem logical member

theorem Chain.isLogical_of_subset {chain part : Chain} (logical : chain.isLogical = true)
    (within : part ⊆ chain) : part.isLogical = true :=
  isLogical_iff.mpr fun component member => isLogical_iff.mp logical component (within member)

theorem Alternatives.isLogical_single {alternatives : Alternatives} {complex : Complex}
    (logical : alternatives.isLogical = true) (member : complex ∈ alternatives) :
    Alternatives.isLogical [complex] = true := by
  have := isLogical_iff.mp logical complex member
  exact isLogical_iff.mpr (by simpa using this)

-- Chains without combinators are anchored.
theorem Chain.anchored_of_isLogical {chain : Chain} (logical : chain.isLogical = true) :
    chain.anchored = true := by
  induction chain with
  | nil => rfl
  | cons component rest ih =>
    cases component with
    | compound members =>
      simp only [Chain.isLogical, Bool.and_eq_true] at logical
      exact ih logical.2
    | combinator kind => simp [Chain.isLogical] at logical

-- What a logical pseudo with a nested list can be.
theorem Pseudo.isLogical_iff {pseudo : Pseudo} {list : SelectorList}
    (nested : pseudo.nested = some list) :
    Simple.isLogical (.pseudo pseudo) = true ↔
      pseudo.isClass = true ∧ (pseudo.family = .anyOf ∨ pseudo.family = .noneOf) ∧
        list.isLogical = true := by
  obtain ⟨name, isClass, argument, _⟩ := pseudo
  obtain rfl := nested
  obtain ⟨alternatives, span⟩ := list
  rw [Simple.isLogical]
  cases Pseudo.family ⟨name, isClass, argument, some ⟨alternatives, span⟩⟩ <;>
    simp [SelectorList.isLogical]

/-- By their bare names they are pseudo-classes of the `:is` family and `:not`. -/
theorem Pseudo.isLogical_iff_bareName {pseudo : Pseudo} {list : SelectorList}
    (nested : pseudo.nested = some list) :
    Simple.isLogical (.pseudo pseudo) = true ↔
      pseudo.isClass = true ∧ pseudo.bareName ∈ ["is", "matches", "any", "where", "not"] ∧
        list.isLogical = true := by
  rw [isLogical_iff nested, family_eq_iff (by decide), family_eq_iff (by decide)]
  simp only [Family.names, List.mem_cons, List.not_mem_nil, or_false, or_assoc]

/-! ### Logical readings -/

variable {Element : Type}

/-- The nested lists of `:is` and `:not` are read as what they say, and an element has
at most one type and one id. -/
structure Interpretation.IsLogical (interpretation : Interpretation Element) : Prop where
  anyOf : ∀ pseudo : Pseudo, pseudo.isClass = true → pseudo.family = .anyOf → ∀ matched element,
    interpretation.nesting pseudo.name pseudo.isClass pseudo.argument matched element ↔
      matched element
  noneOf : ∀ pseudo : Pseudo, pseudo.isClass = true → pseudo.family = .noneOf → ∀ matched element,
    interpretation.nesting pseudo.name pseudo.isClass pseudo.argument matched element ↔
      ¬matched element
  oneType : ∀ name name' element, interpretation.plain (.typeName name) element →
    interpretation.plain (.typeName name') element → name = name'
  oneId : ∀ name name' element, interpretation.plain (.idName name) element →
    interpretation.plain (.idName name') element → name = name'

/-- By their bare names, `:is`, `:matches`, `:any` and `:where` say that the element matches their
list, and `:not` says that it does not. -/
theorem Interpretation.isLogical_iff {interpretation : Interpretation Element} :
    interpretation.IsLogical ↔
      (∀ pseudo : Pseudo, pseudo.isClass = true →
        pseudo.bareName ∈ ["is", "matches", "any", "where"] → ∀ matched element,
          interpretation.nesting pseudo.name pseudo.isClass pseudo.argument matched element ↔
            matched element) ∧
      (∀ pseudo : Pseudo, pseudo.isClass = true → pseudo.bareName = "not" → ∀ matched element,
        interpretation.nesting pseudo.name pseudo.isClass pseudo.argument matched element ↔
          ¬matched element) ∧
      (∀ name name' element, interpretation.plain (.typeName name) element →
        interpretation.plain (.typeName name') element → name = name') ∧
      ∀ name name' element, interpretation.plain (.idName name) element →
        interpretation.plain (.idName name') element → name = name' := by
  have anyOf {pseudo : Pseudo} : pseudo.family = .anyOf ↔
      pseudo.bareName ∈ ["is", "matches", "any", "where"] :=
    Pseudo.family_eq_iff (by decide)
  have noneOf {pseudo : Pseudo} : pseudo.family = .noneOf ↔ pseudo.bareName = "not" :=
    (Pseudo.family_eq_iff (by decide)).trans List.mem_singleton
  simp only [← anyOf, ← noneOf]
  exact ⟨fun reading => ⟨reading.anyOf, reading.noneOf, reading.oneType, reading.oneId⟩,
    fun ⟨isAny, isNone, oneType, oneId⟩ => ⟨isAny, isNone, oneType, oneId⟩⟩

/-- Gives `:is` and `:not` their meaning, and none to other pseudos with a nested list. -/
def Interpretation.logical (plain : Simple → Element → Prop) : Interpretation Element where
  plain := plain
  nesting name isClass argument matched element :=
    match Pseudo.family ⟨name, isClass, argument, none⟩ with
    | .anyOf => matched element
    | .noneOf => ¬matched element
    | _ => False

theorem Interpretation.logical_isLogical (plain : Simple → Element → Prop)
    (oneType : ∀ name name' element, plain (.typeName name) element →
      plain (.typeName name') element → name = name')
    (oneId : ∀ name name' element, plain (.idName name) element → plain (.idName name') element →
      name = name') : (Interpretation.logical plain).IsLogical where
  anyOf pseudo _ family matched element := by
    have family : Pseudo.family ⟨pseudo.name, pseudo.isClass, pseudo.argument, none⟩ = .anyOf := family
    simp [logical, family]
  noneOf pseudo _ family matched element := by
    have family : Pseudo.family ⟨pseudo.name, pseudo.isClass, pseudo.argument, none⟩ = .noneOf := family
    simp [logical, family]
  oneType := oneType
  oneId := oneId

variable {document : Document Element} {interpretation : Interpretation Element}

theorem Pseudo.holds_nesting {pseudo : Pseudo} {list : SelectorList}
    (nested : pseudo.nested = some list) :
    Simple.Holds document interpretation (.pseudo pseudo) =
      interpretation.nesting pseudo.name pseudo.isClass pseudo.argument
        (Alternatives.Holds document interpretation list.alternatives) := by
  obtain ⟨_, _, _, _⟩ := pseudo
  obtain rfl := nested
  cases list
  rfl

theorem Pseudo.holds_anyOf (reading : interpretation.IsLogical) {pseudo : Pseudo}
    {list : SelectorList} (isClass : pseudo.isClass = true) (family : pseudo.family = .anyOf)
    (nested : pseudo.nested = some list) {element : Element} :
    Simple.Holds document interpretation (.pseudo pseudo) element ↔
      list.Holds document interpretation element := by
  rw [Pseudo.holds_nesting nested]
  exact reading.anyOf pseudo isClass family _ element

theorem Pseudo.holds_noneOf (reading : interpretation.IsLogical) {pseudo : Pseudo}
    {list : SelectorList} (isClass : pseudo.isClass = true) (family : pseudo.family = .noneOf)
    (nested : pseudo.nested = some list) {element : Element} :
    Simple.Holds document interpretation (.pseudo pseudo) element ↔
      ¬list.Holds document interpretation element := by
  rw [Pseudo.holds_nesting nested]
  exact reading.noneOf pseudo isClass family _ element

theorem Chain.holds_subject {chain : Chain} {holds : Compound → Element → Prop} {subject : Compound}
    {element : Element} (isSubject : chain.subject? = some subject)
    (matched : chain.Matches document holds element) : holds subject element := by
  obtain ⟨⟨before, members⟩, split, same⟩ := Option.map_eq_some_iff.mp isSubject
  obtain rfl : members = subject := same
  obtain rfl := splitSubject?_eq_some_iff.mp split
  exact matched.holds_subject

/-! ### Members of a compound -/

namespace Compound

-- What a nested list implies holds with it.
theorem holds_of_impliesByNested (reading : interpretation.IsLogical) {simple member : Simple}
    {element : Element} (logical : member.isLogical = true)
    (implied : simple.impliesByNested member = true)
    (here : member.Holds document interpretation element) :
    simple.Holds document interpretation element := by
  unfold Simple.impliesByNested at implied
  split at implied
  next name isClass argument list =>
    simp only [Bool.and_eq_true, List.all_eq_true] at implied
    obtain ⟨family, each⟩ := implied
    obtain ⟨isClass, isFamily, _⟩ := (Pseudo.isLogical_iff rfl).mp logical
    rcases isFamily with anyOf | noneOf
    · have matched := (Pseudo.holds_anyOf reading isClass anyOf rfl).mp here
      obtain ⟨complex, member, matched⟩ := Alternatives.holds_iff.mp matched
      have single := each complex member
      split at single
      next only same =>
        have isSubject : Chain.subject? complex.components = some only := by
          rw [same]
          exact Chain.subject?_append_compound [] only
        exact holds_of_contains single (Chain.holds_subject isSubject matched)
      next => simp at single
    · simp [noneOf, Family.impliesNested] at family
  next => simp at implied

theorem holds_of_implies (reading : interpretation.IsLogical) {compound : Compound} {simple : Simple}
    {element : Element} (logical : compound.isLogical = true) (implied : compound.implies simple = true)
    (here : compound.Holds document interpretation element) :
    simple.Holds document interpretation element := by
  obtain ⟨member, isMember, implied⟩ := List.any_eq_true.mp implied
  have memberHolds := holds_iff.mp here member isMember
  rcases Bool.or_eq_true_iff.mp implied with equal | nested
  · rw [Simple.holds_of_beq equal]
    exact memberHolds
  · exact holds_of_impliesByNested reading (isLogical_iff.mp logical member isMember) nested memberHolds

end Compound

theorem Pseudo.family_of_name {pseudo pseudo' : Pseudo} (same : pseudo.name = pseudo'.name) :
    pseudo.family = pseudo'.family := by
  simp only [family, bareName, same]

-- Differing types or ids exclude one another.
theorem Simple.not_holds_of_excludes (reading : interpretation.IsLogical) {simple other : Simple}
    {element : Element} (excludes : simple.excludes other = true)
    (here : simple.Holds document interpretation element) :
    ¬other.Holds document interpretation element := by
  intro there
  unfold Simple.excludes at excludes
  split at excludes
  next name name' =>
    have := reading.oneType name name' element here there
    simp [this] at excludes
  next name name' =>
    have := reading.oneId name name' element here there
    simp [this] at excludes
  next => simp at excludes

/-! ### Rounds -/

/-- The rule is right about all logical lists. -/
def ListRule.Sound (document : Document Element) (interpretation : Interpretation Element)
    (rule : ListRule) : Prop :=
  ∀ candidates others : Alternatives, candidates.isLogical = true → others.isLogical = true →
    rule candidates others = true → ∀ element, others.Holds document interpretation element →
      candidates.Holds document interpretation element

namespace Compound

variable {rule : ListRule}

/-- A refuted alternative does not match. -/
theorem not_matches_of_refutes (reading : interpretation.IsLogical)
    (sound : rule.Sound document interpretation) {name : String} {simple : Simple} {complex : Complex}
    {element : Element} (isName : ∀ pseudo : Pseudo, pseudo.name = name → pseudo.family = .noneOf)
    (logical : simple.isLogical = true) (logical' : Alternatives.isLogical [complex] = true)
    (refuted : refutes rule name simple complex = true)
    (here : simple.Holds document interpretation element) :
    ¬Alternatives.Holds document interpretation [complex] element := by
  intro matched
  have subjectExcluded (excluded :
      ((Chain.subject? complex.components).getD []).any simple.excludes = true) : False := by
    cases isSubject : Chain.subject? complex.components with
    | none => simp [isSubject] at excluded
    | some subject =>
      simp only [isSubject, Option.getD_some, List.any_eq_true] at excluded
      obtain ⟨other, isMember, excludes⟩ := excluded
      obtain ⟨_, same, matchedComplex⟩ := Alternatives.holds_iff.mp matched
      obtain rfl := List.mem_singleton.mp same
      have subjectHolds := holds_iff.mp (Chain.holds_subject isSubject matchedComplex)
      exact Simple.not_holds_of_excludes reading excludes here (subjectHolds other isMember)
  unfold refutes at refuted
  split at refuted
  next => exact subjectExcluded refuted
  next => exact subjectExcluded refuted
  next pseudo =>
    simp only [Bool.and_eq_true, beq_iff_eq, Option.any_eq_true] at refuted
    obtain ⟨same, list, nested, covered⟩ := refuted
    obtain ⟨isClass, _, logicalList⟩ := (Pseudo.isLogical_iff nested).mp logical
    -- the element is outside the list of this `:not`, which covers the alternative
    have outside := (Pseudo.holds_noneOf reading isClass (isName pseudo same) nested).mp here
    exact outside (sound list.alternatives [complex] logicalList logical' covered element matched)
  next => simp at refuted

/-- A pseudo that covers a compound holds where the compound does. -/
theorem holds_of_coveredByPseudo (reading : interpretation.IsLogical)
    (sound : rule.Sound document interpretation) {pseudo : Pseudo} {list : SelectorList}
    {compound : Compound} {above : Chain} {element : Element}
    (nested : pseudo.nested = some list) (logical : Simple.isLogical (.pseudo pseudo) = true)
    (logical' : Chain.isLogical (above ++ [.compound compound]) = true)
    (covered : coveredByPseudo rule pseudo list compound above = true)
    (matched : Chain.Matches document (Compound.Holds document interpretation)
      (above ++ [.compound compound]) element) :
    Simple.Holds document interpretation (.pseudo pseudo) element := by
  have here : compound.Holds document interpretation element :=
    matched.holds_subject
  have logicalMembers := isLogical_iff.mp (Chain.isLogical_subject logical')
  obtain ⟨isClass, isFamily, logicalList⟩ := (Pseudo.isLogical_iff nested).mp logical
  rcases isFamily with anyOf | noneOf
  · -- the nested list covers one of the same pseudo or the whole of the compound
    rw [Pseudo.holds_anyOf reading isClass anyOf nested]
    simp only [coveredByPseudo, anyOf, Bool.or_eq_true, List.any_eq_true] at covered
    rcases covered with ⟨list', member, covered⟩ | covered
    · obtain ⟨pseudo', isMember, sameName, isClass', nested'⟩ := mem_nestedOf member
      have logical' := logicalMembers _ isMember
      obtain ⟨_, _, logicalList'⟩ := (Pseudo.isLogical_iff nested').mp logical'
      have anyOf' : pseudo'.family = .anyOf := (Pseudo.family_of_name sameName).trans anyOf
      have matched' := (Pseudo.holds_anyOf reading isClass' anyOf' nested').mp
        (holds_iff.mp here _ isMember)
      exact sound _ _ logicalList logicalList' covered element matched'
    · refine sound _ _ logicalList ?_ covered element ?_
      · exact Alternatives.isLogical_iff.mpr (by simpa using logical')
      · exact Alternatives.holds_iff.mpr ⟨_, List.mem_singleton.mpr rfl, matched⟩
  · -- each alternative of the nested list is refuted by a member of the compound
    rw [Pseudo.holds_noneOf reading isClass noneOf nested]
    simp only [coveredByPseudo, noneOf, List.all_eq_true, List.any_eq_true] at covered
    intro matchedList
    obtain ⟨complex, isMember, matchedComplex⟩ := Alternatives.holds_iff.mp matchedList
    obtain ⟨simple, isSimple, refuted⟩ := covered complex isMember
    have sameFamily (other : Pseudo) (same : other.name = pseudo.name) : other.family = .noneOf :=
      (Pseudo.family_of_name same).trans noneOf
    refine not_matches_of_refutes reading sound sameFamily (logicalMembers simple isSimple)
      (Alternatives.isLogical_single logicalList isMember) refuted
      (holds_iff.mp here simple isSimple) ?_
    exact Alternatives.holds_iff.mpr ⟨complex, List.mem_singleton.mpr rfl, matchedComplex⟩

theorem holds_of_coversBy (reading : interpretation.IsLogical)
    (sound : rule.Sound document interpretation) {compound₁ compound₂ : Compound} {above : Chain}
    {element : Element} (logical : compound₁.isLogical = true)
    (logical' : Chain.isLogical (above ++ [.compound compound₂]) = true)
    (covered : coversBy rule compound₁ compound₂ above = true)
    (matched : Chain.Matches document (Compound.Holds document interpretation)
      (above ++ [.compound compound₂]) element) :
    compound₁.Holds document interpretation element := by
  rw [holds_iff]
  intro simple member
  simp only [coversBy, Bool.and_eq_true, List.all_eq_true] at covered
  have coveredMember := covered.1 simple member
  have logicalSimple := isLogical_iff.mp logical simple member
  unfold coveredByMember at coveredMember
  split at coveredMember
  next => exact holds_of_coveredByPseudo reading sound rfl logicalSimple logical' coveredMember matched
  next =>
    have logicalMembers := Chain.isLogical_subject logical'
    exact holds_of_implies reading logicalMembers coveredMember matched.holds_subject

end Compound

namespace Alternatives

/-- A round is sound when the rule that it puts the question for nested lists to is. -/
theorem coversRound_sound (reading : interpretation.IsLogical) {rule : ListRule}
    (sound : rule.Sound document interpretation) :
    ListRule.Sound document interpretation (coversRound rule) := by
  intro candidates others logical logical' covers element matched
  obtain ⟨other, isOther, matched⟩ := holds_iff.mp matched
  simp only [coversRound, List.all_eq_true, List.any_eq_true] at covers
  obtain ⟨candidate, isCandidate, covers⟩ := covers other isOther
  simp only [Chain.coversBy, Bool.and_eq_true] at covers
  have logicalOther := isLogical_iff.mp logical' other isOther
  have logicalCandidate := isLogical_iff.mp logical candidate isCandidate
  have ruleSound : Chain.RuleSound document (Compound.Holds document interpretation)
      (Compound.coversBy rule) candidate.components other.components := by
    intro first second above isFirst isSecond isAbove covered element _ path
    have logicalChain : Chain.isLogical (above ++ [.compound second]) = true := by
      apply Chain.isLogical_of_subset logicalOther
      simpa using ⟨isAbove, isSecond⟩
    -- without combinators all that stands above the compound may be relied on
    have plain : ∀ component ∈ above, component.isCombinator = false := by
      intro component member
      obtain ⟨_, rfl, _⟩ := Chain.isLogical_iff.mp logicalOther component (isAbove member)
      rfl
    refine Compound.holds_of_coversBy reading sound (Chain.isLogical_of_mem logicalCandidate isFirst)
      logicalChain covered ?_
    exact Chain.matches_iff_path.mpr (path plain)
  obtain ⟨top, path⟩ := Chain.matches_iff_path.mp matched
  obtain ⟨top', path', _⟩ :=
    Chain.walk_sound (Chain.anchored_of_isLogical logicalCandidate) ruleSound covers.2 path
  exact holds_iff.mpr ⟨candidate, isCandidate, Chain.matches_iff_path.mpr ⟨top', path'⟩⟩

theorem coversWithin_sound (reading : interpretation.IsLogical) (rounds : Nat) :
    ListRule.Sound document interpretation (coversWithin rounds) := by
  induction rounds with
  | zero =>
    intro candidates others _ _ covers
    simp [coversWithin] at covers
  | succ rounds ih => exact coversRound_sound reading ih

end Alternatives

namespace SelectorList

/-- A logical list that covers another matches every element that the other does, at any
nesting depth. -/
theorem covers_logical_sound (candidates others : SelectorList)
    (logical : candidates.isLogical = true) (logical' : others.isLogical = true)
    (covers : candidates.covers others = true) (document : Document Element)
    (interpretation : Interpretation Element) (reading : interpretation.IsLogical) (element : Element)
    (matched : others.Holds document interpretation element) :
    candidates.Holds document interpretation element := by
  have sound : ListRule.Sound document interpretation Alternatives.covers := fun first second =>
    Alternatives.coversWithin_sound reading (first.depth + second.depth + 1) first second
  exact sound candidates.alternatives others.alternatives logical logical' covers element matched

/-- The list `:not(:is(.a.b))`. -/
def outsideBoth : SelectorList :=
  ⟨[⟨[.compound [.pseudo ⟨"not", true, none, some ⟨[⟨[.compound [.pseudo ⟨"is", true, none,
    some ⟨[⟨[.compound [.className "a", .className "b"]], false⟩], none⟩⟩]], false⟩], none⟩⟩]],
    false⟩], none⟩

/-- The list `.x :not(.b)`. -/
def outsideOne : SelectorList :=
  ⟨[⟨[.compound [.className "x"], .compound [.pseudo ⟨"not", true, none,
    some ⟨[⟨[.compound [.className "b"]], false⟩], none⟩⟩]], false⟩], none⟩

/-- The first element of a line has the class `x`, and nothing else is known. -/
def firstIsX : Interpretation Nat :=
  .logical fun
    | .className name => fun element => name = "x" ∧ element = 0
    | _ => fun _ => False

theorem outsideBoth_holds :
    outsideBoth.isLogical = true ∧ outsideOne.isLogical = true ∧
      outsideBoth.covers outsideOne = true ∧ firstIsX.IsLogical ∧
      outsideOne.Holds .line firstIsX 1 ∧ outsideBoth.Holds .line firstIsX 1 := by
  have reading : firstIsX.IsLogical :=
    Interpretation.logical_isLogical _ (fun _ _ _ here => here.elim) fun _ _ _ here => here.elim
  have covers : outsideBoth.covers outsideOne = true := by decide
  have matched : outsideOne.Holds .line firstIsX 1 := by
    have noneOf : Pseudo.family ⟨"not", true, none, none⟩ = .noneOf := by decide
    have below : Document.line.Leads none 0 1 := Document.line_leads_none_iff.mpr Nat.one_pos
    simp only [outsideOne, SelectorList.Holds, Alternatives.Holds, Chain.meaning, Compound.Holds,
      Simple.Holds, firstIsX, Interpretation.logical, noneOf, List.reverse_cons, List.reverse_nil,
      List.nil_append, List.singleton_append, Link.Reach]
    refine Or.inl ⟨⟨?_, trivial⟩, 0, below, ⟨trivial, rfl⟩, trivial⟩
    simp
  exact ⟨by decide, by decide, covers, reading, matched,
    covers_logical_sound outsideBoth outsideOne (by decide) (by decide) covers .line firstIsX reading 1
      matched⟩

end SelectorList

end Selectors
