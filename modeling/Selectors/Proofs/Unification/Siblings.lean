import Selectors.Proofs.Unification.Completeness
import Selectors.Proofs.Unification.Overlay

/-!
# Unification of sibling chains

The compounds before a subject that `~` joins to it speak of earlier siblings in their order,
and not of certain ones: two chains may be satisfied by different siblings, of which their
unification knows nothing, since it merges the compounds place by place. It loses nothing just
when, place by place, the compounds of one chain say no more than those of the other.
-/
namespace Selectors

/-! ### What compounds say -/

namespace Compound

/-- The compound says no more than the other: its members, but for `*`, are members there. -/
def Within (compound other : Compound) : Prop :=
  ∀ simple ∈ compound, (simple == .universal) = true ∨ other.contains simple = true

/-- The last compound says what the first two say together. -/
def Joins (first second joined : Compound) : Prop :=
  ∀ ⦃Element : Type⦄ (assignment : Assignment Element) (element : Element),
    assignment.Members joined element ↔
      assignment.Members first element ∧ assignment.Members second element

theorem contains_of_beq {compound : Compound} {simple simple' : Simple}
    (equal : (simple == simple') = true) (contained : compound.contains simple' = true) :
    compound.contains simple = true := by
  obtain ⟨member, isMember, same⟩ := List.contains_iff_exists_mem_beq.mp contained
  exact List.contains_iff_exists_mem_beq.mpr ⟨member, isMember, BEq.trans equal same⟩

theorem Within.members {Element : Type} {assignment : Assignment Element} {element : Element}
    {compound other : Compound} (within : compound.Within other)
    (here : assignment.Members other element) : assignment.Members compound element := by
  intro simple member
  rcases within simple member with equal | contained
  · rw [assignment.same equal]
    exact assignment.universal element
  · exact Assignment.members_of_contains contained here

instance (compound other : Compound) : Decidable (compound.Within other) :=
  inferInstanceAs (Decidable (∀ simple ∈ compound,
    (simple == .universal) = true ∨ other.contains simple = true))

theorem within_of_subset {compound other : Compound} (subset : compound ⊆ other) :
    compound.Within other :=
  fun simple member =>
    .inr (List.contains_iff_exists_mem_beq.mpr ⟨simple, subset member, BEq.rfl⟩)

instance : Std.Refl Within where
  refl _ := within_of_subset (List.Subset.refl _)

instance : IsTrans Compound Within where
  trans first second third within within' simple member := by
    rcases within simple member with equal | contained
    · exact .inl equal
    · obtain ⟨simple', member', same⟩ := List.contains_iff_exists_mem_beq.mp contained
      rcases within' simple' member' with equal | contained
      · exact .inl (BEq.trans same equal)
      · exact .inr (contains_of_beq same contained)

theorem Joins.symm {first second joined : Compound} (joins : Joins first second joined) :
    Joins second first joined :=
  fun _ assignment element => (joins assignment element).trans and_comm

theorem joins_of_merge {first second merged : Compound}
    (merges : merge first second = some merged) :
    Joins first second merged :=
  fun _ _ _ => ⟨Assignment.members_of_merge merges,
    fun both => Assignment.members_merge merges both.1 both.2⟩

theorem joins_of_beq {first second : Compound} (equal : (first == second) = true) :
    Joins first second second :=
  fun _ _ _ => ⟨fun here => ⟨(Assignment.members_of_beq equal).mpr here, here⟩, And.right⟩

end Compound

/-! ### Rows of siblings -/

/-- Siblings in a row. -/
def Document.row : Document Nat := trail fun _ => true

theorem Document.row_leads_iff {first last : Nat} :
    row.Leads (some .subsequentSibling) first last ↔ first < last := by
  simp [row, trail_leads_subsequent_iff]

/-- Of an element holds what the compound at its place says. The compounds are given from the
last one backwards. -/
def Assignment.row (compounds : List Compound) : Assignment Nat where
  holds simple element := (simple == .universal) = true ∨
    ∃ members, compounds.reverse[element]? = some members ∧ members.contains simple = true
  universal _ := .inl rfl
  same {simple simple'} equal := by
    have less {simple simple' : Simple} (equal : (simple == simple') = true) (element : Nat)
        (holds : (simple' == .universal) = true ∨
          ∃ members, compounds.reverse[element]? = some members ∧
            members.contains simple' = true) :
        (simple == .universal) = true ∨
          ∃ members, compounds.reverse[element]? = some members ∧
            members.contains simple = true := by
      rcases holds with isUniversal | ⟨members, here, contained⟩
      · exact .inl (BEq.trans equal isUniversal)
      · exact .inr ⟨members, here, Compound.contains_of_beq equal contained⟩
    exact funext fun element => propext ⟨less (BEq.symm equal) element, less equal element⟩

-- The element with so many elements before it is where the rest of the row begins.
theorem Assignment.members_row_iff {compounds word : List Compound} {members compound : Compound}
    (part : members :: word <:+ compounds) :
    (row compounds).Members compound word.length ↔ compound.Within members := by
  have here : compounds.reverse[word.length]? = some members := by
    obtain ⟨front, rfl⟩ := part
    simp
  refine forall₂_congr fun simple _ => or_congr_right ?_
  simp [here]

theorem Compound.within_of_joins {first second joined members : Compound}
    (joins : Joins first second joined) (within : joined.Within members) :
    first.Within members ∧ second.Within members := by
  have alone : [members] <:+ [members] := List.suffix_refl _
  rw [← Assignment.members_row_iff alone] at within
  obtain ⟨here, here'⟩ := (joins _ _).mp within
  exact ⟨(Assignment.members_row_iff alone).mp here, (Assignment.members_row_iff alone).mp here'⟩

namespace Chain

/-- The chain that `~` joins to a subject, given from its end backwards as its compounds are. -/
def siblings (outer : List Compound) : Chain :=
  outer.flatMap fun members => [.combinator .subsequentSibling, .compound members]

@[simp] theorem siblings_nil : siblings [] = [] := rfl

@[simp] theorem siblings_cons (members : Compound) (outer : List Compound) :
    siblings (members :: outer) =
      .combinator .subsequentSibling :: .compound members :: siblings outer := rfl

/-- The subject behind siblings that the compounds speak of, the nearest one first. -/
def afterSiblings (outer : List Compound) (subject : Compound) : Chain :=
  (siblings outer).reverse ++ [.compound subject]

/-- The compounds before the subject, from the right. -/
def outer (chain : Chain) : List Compound :=
  (chain.reverse.filterMap Component.members?).tail

theorem exists_eq_afterSiblings {chain : Chain}
    (alternates : chain.alternates (· == .subsequentSibling) = true) :
    ∃ subject, chain = afterSiblings chain.outer subject := by
  obtain ⟨before, subject, rfl, bound⟩ := exists_bound_of_alternates alternates
  have outer_eq : outer (before ++ [.compound subject]) =
      before.reverse.filterMap Component.members? := by
    simp [outer, Component.members?]
  have backwards : before.reverse = siblings (before.reverse.filterMap Component.members?) := by
    generalize before.reverse = backwards at bound
    induction bound with
    | nil => rfl
    | @cons kind members rest isAllowed _ ih =>
      obtain rfl : kind = .subsequentSibling := eq_of_beq isAllowed
      change _ = siblings (members :: rest.filterMap Component.members?)
      rw [siblings_cons, ← ih]
  refine ⟨subject, ?_⟩
  rw [outer_eq, afterSiblings, ← backwards, List.reverse_reverse]

theorem afterSiblings_matches_iff {Element : Type} {document : Document Element}
    {assignment : Assignment Element} {element : Element} {outer : List Compound}
    {subject : Compound} :
    (afterSiblings outer subject).Matches document assignment.Members element ↔
      Link.Reach document (.holds (assignment.Members subject) ::
        (siblings outer).links assignment.Members) element := by
  rw [afterSiblings, matches_append_subject_iff, List.reverse_reverse]

/-! ### Matching in a row -/

-- A list is cut before the items that a smaller number counts from its end.
theorem exists_cut {α : Type} {word : List α} {later : Nat} (less : later < word.length) :
    ∃ front w rest, word = front ++ w :: rest ∧ rest.length = later := by
  induction word with
  | nil => cases less
  | cons w word ih =>
    rcases Nat.lt_succ_iff_lt_or_eq.mp less with earlier | same
    · obtain ⟨front, w', rest, rfl, length⟩ := ih earlier
      exact ⟨w :: front, w', rest, rfl, length⟩
    · exact ⟨[], w, word, rfl, same.symm⟩

/-- In a row, what `~` joins to a subject has to fit what comes before the element of the
subject. -/
theorem reach_row_iff {compounds before word : List Compound} {subject members : Compound}
    (part : members :: word <:+ compounds) :
    Link.Reach .row (.holds ((Assignment.row compounds).Members subject) ::
        (siblings before).links (Assignment.row compounds).Members) word.length ↔
      subject.Within members ∧ Fits Compound.Within before word := by
  induction before generalizing subject members word with
  | nil =>
    rw [siblings_nil, links_nil]
    exact (Assignment.members_row_iff part).trans (and_iff_left .nil).symm
  | cons first before ih =>
    rw [siblings_cons, links_combinator, links_compound]
    simp only [Link.Reach, Assignment.members_row_iff part, Document.row_leads_iff]
    refine and_congr_right fun _ => ?_
    rw [Fits.cons_iff]
    have shorter {front : List Compound} {w : Compound} {rest : List Compound}
        (cut : word = front ++ w :: rest) : w :: rest <:+ compounds := by
      rw [cut] at part
      exact (List.suffix_append front _).trans ((List.suffix_cons _ _).trans part)
    constructor
    · rintro ⟨origin, less, reached⟩
      obtain ⟨front, w, rest, cut, rfl⟩ := exists_cut less
      exact ⟨front, w, rest, cut, (ih (shorter cut)).mp reached⟩
    · rintro ⟨front, w, rest, cut, fits⟩
      refine ⟨rest.length, ?_, (ih (shorter cut)).mpr fits⟩
      simp [cut]
      omega

theorem afterSiblings_row_matches_iff {compounds before word : List Compound}
    {subject members : Compound} (part : members :: word <:+ compounds) :
    (afterSiblings before subject).Matches .row (Assignment.row compounds).Members word.length ↔
      subject.Within members ∧ Fits Compound.Within before word :=
  afterSiblings_matches_iff.trans (reach_row_iff part)

/-! ### Woven rows -/

theorem overlay_of_beq {outer₁ outer₂ : List Compound}
    (equal : (siblings outer₁ == siblings outer₂) = true) :
    Overlay Compound.Joins outer₁ outer₂ outer₂ := by
  induction outer₁ generalizing outer₂ with
  | nil => exact .left outer₂
  | cons members₁ outer₁ ih =>
    cases outer₂ with
    | nil => cases equal
    | cons members₂ outer₂ =>
      rw [siblings_cons, siblings_cons, List.cons_beq_cons, List.cons_beq_cons, Bool.and_eq_true,
        Bool.and_eq_true] at equal
      obtain ⟨_, first, others⟩ := equal
      have first : (members₁ == members₂) = true := by
        rw [← Compound.same_eq_beq]
        exact first
      exact .cons (Compound.joins_of_beq first) (ih others)

/-- Rows of siblings are woven by laying one over the other. -/
theorem weaveBackwards_siblings {outer₁ outer₂ : List Compound} {woven : List Chain}
    (weaves : weaveBackwards (siblings outer₁) (siblings outer₂) = some woven) :
    ∃ outer, woven = [(siblings outer).reverse] ∧ Overlay Compound.Joins outer₁ outer₂ outer := by
  induction outer₁ generalizing outer₂ woven with
  | nil =>
    rw [siblings_nil, weaveBackwards_nil_left] at weaves
    exact ⟨outer₂, (Option.some.inj weaves).symm, .left outer₂⟩
  | cons members₁ outer₁ ih =>
    cases outer₂ with
    | nil =>
      rw [siblings_nil, weaveBackwards_nil_right] at weaves
      exact ⟨members₁ :: outer₁, (Option.some.inj weaves).symm, .right _⟩
    | cons members₂ outer₂ =>
      rw [siblings_cons, siblings_cons, weaveBackwards_bound] at weaves
      split at weaves
      next equal => exact ⟨members₂ :: outer₂, (Option.some.inj weaves).symm, overlay_of_beq equal⟩
      next =>
        rw [if_pos rfl] at weaves
        obtain ⟨members, merges, weaves⟩ := Option.bind_eq_some_iff.mp weaves
        obtain ⟨inner, weavesInner, rfl⟩ := Option.map_eq_some_iff.mp weaves
        obtain ⟨outer, rfl, overlay⟩ := ih weavesInner
        refine ⟨members :: outer, ?_, .cons (Compound.joins_of_merge merges) overlay⟩
        simp

/-- Sibling chains are unified by merging their subjects and laying one row over the other. -/
theorem unify_afterSiblings {outer₁ outer₂ : List Compound} {subject₁ subject₂ : Compound}
    {chains : List Chain}
    (unifies : unify (afterSiblings outer₁ subject₁) (afterSiblings outer₂ subject₂) =
      some chains) :
    ∃ outer subject, chains = [afterSiblings outer subject] ∧
      Compound.Joins subject₁ subject₂ subject ∧ Overlay Compound.Joins outer₁ outer₂ outer := by
  rw [afterSiblings, afterSiblings, unify_append_compound, weave, List.reverse_reverse,
    List.reverse_reverse] at unifies
  obtain ⟨subject, merges, unifies⟩ := Option.bind_eq_some_iff.mp unifies
  obtain ⟨woven, weaves, rfl⟩ := Option.map_eq_some_iff.mp unifies
  obtain ⟨outer, rfl, overlay⟩ := weaveBackwards_siblings weaves
  exact ⟨outer, subject, rfl, Compound.joins_of_merge merges, overlay⟩

/-! ### What unification loses -/

section

variable {outer₁ outer₂ outer : List Compound} {subject₁ subject₂ subject : Compound}

-- Laying a row over one that says as much at each place adds nothing.
theorem reach_of_aligned {Element : Type} {document : Document Element}
    {assignment : Assignment Element} {condition : Element → Prop} {element : Element}
    (overlay : Overlay Compound.Joins outer₁ outer₂ outer)
    (aligned : Aligned Compound.Within outer₁ outer₂)
    (reached : Link.Reach document
      (.holds condition :: (siblings outer₂).links assignment.Members) element) :
    Link.Reach document
      (.holds condition :: (siblings outer).links assignment.Members) element := by
  induction overlay generalizing condition element with
  | left => exact reached
  | right outer₁ =>
    cases outer₁ with
    | nil => exact reached
    | cons => exact aligned.elim
  | @cons members₁ members₂ members outer₁ outer₂ outer joins _ ih =>
    obtain ⟨within, aligned⟩ := aligned
    obtain ⟨here, origin, leads, rest⟩ := reached
    have holds₂ := Link.holds_of_reach rest
    have both := (joins assignment origin).mpr ⟨within.members holds₂, holds₂⟩
    exact ⟨here, origin, leads, ih aligned (Link.reach_of_holds rest both)⟩

/-- Nothing is lost where one row says no more than the other. -/
theorem matches_of_aligned {Element : Type} {document : Document Element}
    {assignment : Assignment Element} {element : Element}
    (joins : Compound.Joins subject₁ subject₂ subject)
    (overlay : Overlay Compound.Joins outer₁ outer₂ outer)
    (aligned : Aligned Compound.Within outer₁ outer₂)
    (matched₁ : (afterSiblings outer₁ subject₁).Matches document assignment.Members element)
    (matched₂ : (afterSiblings outer₂ subject₂).Matches document assignment.Members element) :
    (afterSiblings outer subject).Matches document assignment.Members element := by
  have both := (joins assignment element).mpr ⟨matched₁.holds_subject, matched₂.holds_subject⟩
  rw [afterSiblings_matches_iff] at matched₂ ⊢
  exact reach_of_aligned overlay aligned (Link.reach_of_holds matched₂ both)

/-- Where neither row says no more than the other, both chains match the last of some siblings
and the laid rows do not. -/
theorem exists_unmatched (overlay : Overlay Compound.Joins outer₁ outer₂ outer)
    (apart : ¬Aligned Compound.Within outer₁ outer₂)
    (apart' : ¬Aligned Compound.Within outer₂ outer₁) (subject₁ subject₂ subject : Compound) :
    ∃ (assignment : Assignment Nat) (element : Nat),
      (afterSiblings outer₁ subject₁).Matches .row assignment.Members element ∧
        (afterSiblings outer₂ subject₂).Matches .row assignment.Members element ∧
          ¬(afterSiblings outer subject).Matches .row assignment.Members element := by
  obtain ⟨word, fits₁, fits₂, unfit⟩ := exists_unfit (r := Compound.Within)
    (fun x y z (joins : Compound.Joins x y z) => joins.symm)
    (fun x y z joins w => Compound.within_of_joins joins) overlay apart apart'
  -- the siblings are the word, and the subject of both chains comes last
  have whole := List.suffix_refl ((subject₁ ++ subject₂) :: word)
  have within₁ := Compound.within_of_subset (List.subset_append_left subject₁ subject₂)
  have within₂ := Compound.within_of_subset (List.subset_append_right subject₁ subject₂)
  refine ⟨.row ((subject₁ ++ subject₂) :: word), word.length, ?_, ?_, fun matched => unfit ?_⟩
  · exact (afterSiblings_row_matches_iff whole).mpr ⟨within₁, fits₁⟩
  · exact (afterSiblings_row_matches_iff whole).mpr ⟨within₂, fits₂⟩
  · exact ((afterSiblings_row_matches_iff whole).mp matched).2

end

/-- Where `~` joins the compounds of both chains, their unification matches all that both match
just when the compounds of one chain say no more than those of the other, place by place from
the subject on. -/
theorem unify_siblings_complete_iff (chain₁ chain₂ : Chain) (chains : List Chain)
    (alternates₁ : chain₁.alternates (· == .subsequentSibling) = true)
    (alternates₂ : chain₂.alternates (· == .subsequentSibling) = true)
    (unifies : unify chain₁ chain₂ = some chains) :
    (∀ (Element : Type) (document : Document Element) (assignment : Assignment Element)
        (element : Element), chain₁.Matches document assignment.Members element →
          chain₂.Matches document assignment.Members element →
            ∃ chain ∈ chains, chain.Matches document assignment.Members element) ↔
      Aligned Compound.Within chain₁.outer chain₂.outer ∨
        Aligned Compound.Within chain₂.outer chain₁.outer := by
  obtain ⟨subject₁, isChain₁⟩ := exists_eq_afterSiblings alternates₁
  obtain ⟨subject₂, isChain₂⟩ := exists_eq_afterSiblings alternates₂
  generalize chain₁.outer = outer₁ at *
  generalize chain₂.outer = outer₂ at *
  subst isChain₁ isChain₂
  obtain ⟨outer, subject, rfl, joins, overlay⟩ := unify_afterSiblings unifies
  constructor
  · intro complete
    by_contra apart
    obtain ⟨apart, apart'⟩ := not_or.mp apart
    obtain ⟨assignment, element, matched₁, matched₂, unmatched⟩ :=
      exists_unmatched overlay apart apart' subject₁ subject₂ subject
    obtain ⟨chain, member, matched⟩ := complete Nat .row assignment element matched₁ matched₂
    obtain rfl := List.mem_singleton.mp member
    exact unmatched matched
  · intro aligned Element document assignment element matched₁ matched₂
    refine ⟨_, List.mem_singleton.mpr rfl, ?_⟩
    rcases aligned with aligned | aligned
    · exact matches_of_aligned joins overlay aligned matched₁ matched₂
    · have overlay := overlay.symm fun x y z (joins : Compound.Joins x y z) => joins.symm
      exact matches_of_aligned joins.symm overlay aligned matched₂ matched₁

/-- The chain `.name ~ .x`. -/
def besideX (name : String) : Chain :=
  [.compound [.className name], .combinator .subsequentSibling, .compound [.className "x"]]

/-- The siblings `.a`, `.b` and `.x`, the last one first. -/
def threeSiblings : List Compound :=
  [[.className "x"], [.className "b"], [.className "a"]]

theorem besideX_unify_incomplete :
    ∃ chains, unify (besideX "a") (besideX "b") = some chains ∧
      (besideX "a").Matches .row (Assignment.row threeSiblings).Members 2 ∧
      (besideX "b").Matches .row (Assignment.row threeSiblings).Members 2 ∧
      ¬∃ chain ∈ chains, chain.Matches .row (Assignment.row threeSiblings).Members 2 := by
  have matches_iff (members : Compound) :
      (afterSiblings [members] [.className "x"]).Matches .row
          (Assignment.row threeSiblings).Members 2 ↔
        Compound.Within [.className "x"] [.className "x"] ∧
          Fits Compound.Within [members] [[.className "b"], [.className "a"]] :=
    afterSiblings_row_matches_iff (List.suffix_refl threeSiblings)
  refine ⟨_, rfl, (matches_iff _).mpr ⟨by decide, ?_⟩, (matches_iff _).mpr ⟨by decide, ?_⟩, ?_⟩
  · exact .cons_right (.cons (by decide) .nil)
  · exact .cons (by decide) .nil
  · rintro ⟨chain, member, matched⟩
    obtain rfl := List.mem_singleton.mp member
    obtain ⟨_, fits⟩ := (matches_iff _).mp matched
    have past := (fits.past (by decide)).past (by decide)
    cases past

/-- The chain `.a ~ .b.c ~ .x`. -/
def besideLonger : Chain :=
  [.compound [.className "a"], .combinator .subsequentSibling,
    .compound [.className "b", .className "c"], .combinator .subsequentSibling,
    .compound [.className "x"]]

/-- The chain `*.c ~ .y`. -/
def besideShorter : Chain :=
  [.compound [.universal, .className "c"], .combinator .subsequentSibling,
    .compound [.className "y"]]

theorem besideLonger_unify_complete :
    besideLonger.alternates (· == .subsequentSibling) = true ∧
      besideShorter.alternates (· == .subsequentSibling) = true ∧
      ∃ chains, unify besideLonger besideShorter = some chains ∧
        ∀ (Element : Type) (document : Document Element) (assignment : Assignment Element)
          (element : Element), besideLonger.Matches document assignment.Members element →
            besideShorter.Matches document assignment.Members element →
              ∃ chain ∈ chains, chain.Matches document assignment.Members element := by
  have aligned : Aligned Compound.Within besideShorter.outer besideLonger.outer := by
    refine ⟨?_, trivial⟩
    decide
  obtain ⟨chains, unifies⟩ : ∃ chains, unify besideLonger besideShorter = some chains := ⟨_, rfl⟩
  have complete := unify_siblings_complete_iff besideLonger besideShorter chains rfl rfl unifies
  exact ⟨rfl, rfl, chains, unifies, complete.mpr (.inr aligned)⟩

end Chain

end Selectors
