import Selectors.Proofs.Nesting.Outcome

/-!
# Edits of the end of a chain

Rules inside a rule only add to the end of its alternatives. An edit of the end that brings no
`&` may be made before the rule is put into the one around it or afterwards: the same chains
come out, and where the edit cannot be made in one order it cannot be made in the other.
-/
namespace Selectors

/-! ### Chains of alternatives -/

/-- The alternatives without their line breaks. -/
def Alternatives.chains (alternatives : Alternatives) : List Chain :=
  alternatives.map Complex.components

/-- Each of the first chains before each of the second, the first varying slowest. -/
def Chain.inFront (first second : List Chain) : List Chain :=
  first.flatMap fun chain => second.map (chain ++ ·)

@[simp] theorem Chain.inFront_single (first : List Chain) (chain : Chain) :
    inFront first [chain] = first.map (· ++ chain) :=
  (List.map_eq_flatMap (f := (· ++ chain)) (l := first)).symm

namespace Alternatives

@[simp] theorem chains_nil : chains [] = [] := rfl

@[simp] theorem chains_cons (complex : Complex) (rest : Alternatives) :
    chains (complex :: rest) = complex.components :: chains rest := rfl

@[simp] theorem chains_append (first second : Alternatives) :
    chains (first ++ second) = chains first ++ chains second :=
  List.map_append

@[simp] theorem chains_followedBy (first second : Alternatives) :
    chains (first.followedBy second) = Chain.inFront (chains first) (chains second) := by
  simp only [chains, followedBy, Chain.inFront, List.map_flatMap, List.flatMap_map, List.map_map]
  rfl

end Alternatives

/-! ### Chains with and without the parent reference -/

section

variable {parents : Alternatives}

theorem Chain.expansions?_free {chain : Chain} (free : chain.mentionsParent = false) :
    chain.expansions? parents = some [⟨chain, false⟩] := by
  induction chain with
  | nil => rfl
  | cons component rest ih =>
    rcases component with members | kind
    · simp only [mentionsParent, Bool.or_eq_false_iff] at free
      rw [expansions?_cons, ih free.2, Component.expansions?, Compound.expansion?_free free.1,
        Option.bind_some, Compound.underParents_of_not_reference (Compound.isReference_of_free free.1)]
      rfl
    · rw [expansions?_cons, ih free]
      rfl

theorem Compound.length_of_expansion? {members members' : Compound}
    (expanded : members.expansion? parents = some members') : members'.length = members.length := by
  induction members generalizing members' with
  | nil =>
    obtain rfl := Option.some.inj expanded
    rfl
  | cons simple rest ih =>
    rw [expansion?_cons] at expanded
    obtain ⟨simple', rest', _, expandedRest, rfl⟩ := Option.map₂_eq_some_iff.mp expanded
    simp [ih expandedRest]

theorem Component.expansions?_ne_nil {component : Component} {parts : Alternatives}
    (nonempty : parents ≠ []) (expanded : component.expansions? parents = some parts) :
    parts ≠ [] := by
  rcases component with members | kind
  · obtain ⟨members', _, under⟩ := Option.bind_eq_some_iff.mp expanded
    by_cases leads : Compound.isReference members' = true
    · obtain ⟨suffix, others, rfl⟩ := Compound.isReference_iff.mp leads
      rw [Compound.underParents_parent] at under
      rintro rfl
      cases forall₂_of_mapM under
      exact nonempty rfl
    · rw [Compound.underParents_of_not_reference (by simpa using leads)] at under
      obtain rfl := Option.some.inj under
      simp
  · obtain rfl := Option.some.inj expanded
    simp

theorem Chain.expansions?_ne_nil {chain : Chain} {expansions : Alternatives}
    (nonempty : parents ≠ []) (expanded : chain.expansions? parents = some expansions) : expansions ≠ [] := by
  induction chain generalizing expansions with
  | nil =>
    obtain rfl := Option.some.inj expanded
    simp
  | cons component rest ih =>
    rw [expansions?_cons] at expanded
    obtain ⟨parts, others, isParts, expandedRest, rfl⟩ := Option.map₂_eq_some_iff.mp expanded
    have someParts := Component.expansions?_ne_nil nonempty isParts
    have someOthers := ih expandedRest
    obtain ⟨part, parts, rfl⟩ := List.exists_cons_of_ne_nil someParts
    obtain ⟨other, others, rfl⟩ := List.exists_cons_of_ne_nil someOthers
    simp [Alternatives.followedBy]

end

/-! ### Edits of the end of a chain -/

/-- The chains that stand for a chain. -/
def Chain.expanded? (parents : Alternatives) (chain : Chain) : Option (List Chain) :=
  (chain.expansions? parents).map Alternatives.chains

theorem Chain.expanded?_append (parents : Alternatives) (first second : Chain) :
    expanded? parents (first ++ second) =
      Option.map₂ inFront (expanded? parents first) (expanded? parents second) := by
  rw [expanded?, expansions?_append]
  exact Option.map_map₂_distrib Alternatives.chains_followedBy

theorem Chain.expanded?_free (parents : Alternatives) {chain : Chain}
    (free : chain.mentionsParent = false) : expanded? parents chain = some [chain] := by
  rw [expanded?, expansions?_free free]
  rfl

/-- The chains that stand for an alternative with this chain in a nested rule. -/
def Chain.nested? (parents : Alternatives) (chain : Chain) : Option (List Chain) :=
  if chain.mentionsParent then chain.expanded? parents
  else some (parents.chains.map (· ++ chain))

/-- An edit of the end of a chain that brings no `&`, and that may be made before or after
expanding. -/
structure Chain.Graft (parents : Alternatives) (edit : Chain → Option Chain) : Prop where
  mentions : ∀ {chain edited}, edit chain = some edited →
    mentionsParent edited = mentionsParent chain
  expands : ∀ {chain edited}, edit chain = some edited →
    expanded? parents edited = (expanded? parents chain).bind (·.mapM edit)
  below : ∀ {chain edited}, edit chain = some edited →
    ∀ before, edit (before ++ chain) = some (before ++ edited)

namespace Chain.Graft

variable {parents : Alternatives} {edit edit' : Chain → Option Chain}

theorem unedited : Graft parents some where
  mentions made := by
    obtain rfl := Option.some.inj made
    rfl
  expands {chain edited} made := by
    obtain rfl := Option.some.inj made
    cases expanded? parents chain with
    | none => rfl
    | some chains => exact (mapM_some chains).symm
  below made before := by
    obtain rfl := Option.some.inj made
    rfl

theorem comp (first : Graft parents edit) (second : Graft parents edit') :
    Graft parents fun chain => (edit chain).bind edit' where
  mentions made := by
    obtain ⟨middle, isMiddle, isEdited⟩ := Option.bind_eq_some_iff.mp made
    exact (second.mentions isEdited).trans (first.mentions isMiddle)
  expands made := by
    obtain ⟨middle, isMiddle, isEdited⟩ := Option.bind_eq_some_iff.mp made
    rw [second.expands isEdited, first.expands isMiddle, Option.bind_assoc]
    simp only [bind_mapM_option]
  below made before := by
    obtain ⟨middle, isMiddle, isEdited⟩ := Option.bind_eq_some_iff.mp made
    rw [first.below isMiddle before, Option.bind_some, second.below isEdited before]

theorem append {rest : Chain} (free : rest.mentionsParent = false) :
    Graft parents fun chain => some (chain ++ rest) where
  mentions made := by
    obtain rfl := Option.some.inj made
    rw [mentionsParent_append, free, Bool.or_false]
  expands {chain edited} made := by
    obtain rfl := Option.some.inj made
    rw [expanded?_append, expanded?_free parents free]
    cases expanded? parents chain with
    | none => rfl
    | some chains =>
      rw [Option.map₂_some_some, inFront_single]
      exact (List.mapM_pure (m := Option)).symm
  below made before := by
    obtain rfl := Option.some.inj made
    rw [List.append_assoc]

/-- An alternative of a nested rule may be edited before or after expanding. -/
theorem nested?_edited (graft : Graft parents edit) {chain edited : Chain}
    (made : edit chain = some edited) :
    edited.nested? parents = (chain.nested? parents).bind (·.mapM edit) := by
  unfold nested?
  rw [graft.mentions made]
  split
  · exact graft.expands made
  · rw [Option.bind_some, List.mapM_map]
    have inFront : (edit ∘ fun outer => outer ++ chain) = fun outer => some (outer ++ edited) :=
      funext fun outer => graft.below made outer
    rw [inFront]
    exact (List.mapM_pure (m := Option)).symm

end Chain.Graft

/-! ### Edits of the subject -/

/-- The chain with its subject edited. -/
def Chain.editSubject? (edit : Compound → Option Compound) (chain : Chain) : Option Chain :=
  chain.splitSubject?.bind fun (before, subject) =>
    (edit subject).map fun subject => before ++ [.compound subject]

/-- The members are edited at their end, where `&` is mentioned neither before nor after, and
the edit is the same whatever stands in front, save that a front may not appear from nothing. -/
def Compound.Regrown (edit : Compound → Option Compound) (members edited : Compound) : Prop :=
  ∃ front final final', members = front ++ final ∧ edited = front ++ final' ∧
    mentionsParent final = false ∧ mentionsParent final' = false ∧ (final' = [] → front = []) ∧
    ∀ front', (front = [] → front' = []) → edit (front' ++ final) = some (front' ++ final')

/-- Edits of the end of a compound that bring no `&`. -/
def Compound.Graft (edit : Compound → Option Compound) : Prop :=
  ∀ {members edited}, edit members = some edited → Regrown edit members edited

namespace Compound.Regrown

variable {parents : Alternatives} {edit : Compound → Option Compound} {members edited : Compound}

theorem mentionsParent_eq (regrown : Regrown edit members edited) :
    edited.mentionsParent = members.mentionsParent := by
  obtain ⟨front, final, final', rfl, rfl, free, free', -, -⟩ := regrown
  rw [mentionsParent_append, mentionsParent_append, free, free']

theorem edit_eq (regrown : Regrown edit members edited) : edit members = some edited := by
  obtain ⟨front, final, final', rfl, rfl, -, -, -, same⟩ := regrown
  exact same front id

/-- The members may be expanded before they are edited. -/
theorem expansion (regrown : Regrown edit members edited) {expanded : Compound}
    (expands : members.expansion? parents = some expanded) :
    ∃ expanded', edited.expansion? parents = some expanded' ∧ Regrown edit expanded expanded' := by
  obtain ⟨front, final, final', rfl, rfl, free, free', kept, same⟩ := regrown
  rw [expansion?_append, expansion?_free free] at expands
  obtain ⟨front', _, isFront, isFinal, rfl⟩ := Option.map₂_eq_some_iff.mp expands
  obtain rfl := Option.some.inj isFinal
  have empty_iff : front' = [] ↔ front = [] := by
    rw [← List.length_eq_zero_iff, ← List.length_eq_zero_iff, length_of_expansion? isFront]
  refine ⟨front' ++ final', ?_, front', final, final', rfl, rfl, free, free', ?_, ?_⟩
  · rw [expansion?_append, expansion?_free free', isFront]
    rfl
  · rwa [empty_iff]
  · rwa [empty_iff]

theorem expansion?_eq_none (regrown : Regrown edit members edited)
    (fails : members.expansion? parents = none) : edited.expansion? parents = none := by
  obtain ⟨front, final, final', rfl, rfl, free, free', -, -⟩ := regrown
  rw [expansion?_append, expansion?_free free, Option.map₂_eq_none_iff] at fails
  rw [expansion?_append, fails.resolve_right (by simp)]
  rfl

theorem not_reference (regrown : Regrown edit members edited)
    (plain : members.isReference = false) : edited.isReference = false := by
  obtain ⟨front, final, final', rfl, rfl, -, free', -, -⟩ := regrown
  rcases front with _ | ⟨simple, front⟩
  · rcases final' with _ | ⟨_ | _, _⟩
    case cons.parent => cases free'
    all_goals rfl
  · rwa [List.cons_append, isReference_cons] at plain ⊢

-- Where `&` leads the members, only what stands after it is edited.
theorem after_parent {suffix : Option String} {others : Compound}
    (regrown : Regrown edit (.parent suffix :: others) edited) :
    ∃ others', others' ≠ [] ∧ edited = .parent suffix :: others' ∧
      ∀ front, edit (front ++ others) = some (front ++ others') := by
  obtain ⟨front, final, final', split, rfl, free, -, kept, same⟩ := regrown
  rcases front with _ | ⟨simple, front⟩
  · rw [List.nil_append] at split
    subst split
    cases free
  · obtain ⟨rfl, rfl⟩ := List.cons.inj split
    refine ⟨front ++ final', ?_, rfl, fun front' => ?_⟩
    · intro empty
      cases kept (List.append_eq_nil_iff.mp empty).2
    · have edited := same (front' ++ front) (by simp)
      rwa [List.append_assoc, List.append_assoc] at edited

end Compound.Regrown

namespace Chain

variable {parents : Alternatives} {edit : Compound → Option Compound}

@[simp] theorem editSubject?_append_compound (edit : Compound → Option Compound) (before : Chain)
    (subject : Compound) :
    editSubject? edit (before ++ [.compound subject]) =
      (edit subject).map fun subject => before ++ [.compound subject] := by
  simp [editSubject?]

theorem editSubject?_eq_some_iff {chain edited : Chain} :
    editSubject? edit chain = some edited ↔
      ∃ before subject subject', chain = before ++ [.compound subject] ∧
        edit subject = some subject' ∧ before ++ [.compound subject'] = edited := by
  constructor
  · intro made
    obtain ⟨⟨before, subject⟩, split, isEdited⟩ := Option.bind_eq_some_iff.mp made
    obtain ⟨subject', isSubject, rfl⟩ := Option.map_eq_some_iff.mp isEdited
    exact ⟨before, subject, subject', splitSubject?_eq_some_iff.mp split, isSubject, rfl⟩
  · rintro ⟨before, subject, subject', rfl, isSubject, rfl⟩
    rw [editSubject?_append_compound, isSubject]
    rfl

-- Only the last chain matters to an edit of the subject.
theorem editSubject?_append (before : Chain) {chain : Chain} (nonempty : chain ≠ []) :
    editSubject? edit (before ++ chain) = (editSubject? edit chain).map (before ++ ·) := by
  rcases List.eq_nil_or_concat' chain with rfl | ⟨front, last, rfl⟩
  · exact (nonempty rfl).elim
  · rcases last with members | kind
    · rw [← List.append_assoc, editSubject?_append_compound, editSubject?_append_compound]
      cases edit members <;> simp
    · rw [← List.append_assoc]
      simp [editSubject?, splitSubject?]

theorem mapM_editSubject?_map (before : Chain) {chains : List Chain}
    (nonempty : ∀ chain ∈ chains, chain ≠ []) :
    (chains.map (before ++ ·)).mapM (editSubject? edit) =
      (chains.mapM (editSubject? edit)).map (List.map (before ++ ·)) := by
  induction chains with
  | nil => rfl
  | cons chain rest ih =>
    obtain ⟨here, others⟩ := List.forall_mem_cons.mp nonempty
    rw [List.map_cons, List.mapM_cons, List.mapM_cons, editSubject?_append before here, ih others]
    cases editSubject? edit chain <;> cases rest.mapM (editSubject? edit) <;> rfl

theorem mapM_editSubject?_inFront (edit : Compound → Option Compound) {first second : List Chain}
    (someFirst : first ≠ []) (nonempty : ∀ chain ∈ second, chain ≠ []) :
    (inFront first second).mapM (editSubject? edit) =
      (second.mapM (editSubject? edit)).map (inFront first) := by
  have step (before : Chain) (rest : List Chain) :
      (inFront (before :: rest) second).mapM (editSubject? edit) =
        Option.map₂ (· ++ ·) ((second.mapM (editSubject? edit)).map (List.map (before ++ ·)))
          ((inFront rest second).mapM (editSubject? edit)) := by
    rw [← mapM_editSubject?_map before nonempty, ← mapM_append_option]
    rfl
  cases edited : second.mapM (editSubject? edit) with
  | none =>
    obtain ⟨before, rest, rfl⟩ := List.exists_cons_of_ne_nil someFirst
    rw [step, edited]
    rfl
  | some chains =>
    clear someFirst
    induction first with
    | nil => rfl
    | cons before rest ih =>
      rw [step, edited, ih]
      rfl

/-! ### Expanding an edited subject -/

theorem expanded?_single (component : Component) :
    expanded? parents [component] = (component.expansions? parents).map Alternatives.chains := by
  rw [expanded?, expansions?_cons, expansions?_nil]
  cases component.expansions? parents <;> simp

-- The chains that stand for a compound that `&` leads.
theorem chains_underParents (parents : Alternatives) (suffix : Option String) (others : Compound) :
    (Compound.underParents parents (.parent suffix :: others)).toOption.map Alternatives.chains =
      parents.chains.mapM (placed? suffix others) := by
  rw [Compound.underParents_parent, Alternatives.chains, List.mapM_map]
  refine (map_mapM_option _ Complex.components parents).trans ?_
  simp only [Option.map_map, Function.comp_def, Option.map_id']

theorem placed?_ne_nil {suffix : Option String} {others : Compound} {chain placed : Chain}
    (nonempty : chain ≠ []) (isPlaced : placed? suffix others chain = some placed) :
    placed ≠ [] := by
  unfold placed? at isPlaced
  split at isPlaced
  · obtain rfl := Option.some.inj isPlaced
    exact nonempty
  · obtain ⟨_, _, isSuffixed⟩ := Option.bind_eq_some_iff.mp isPlaced
    obtain ⟨_, _, rfl⟩ := Option.map_eq_some_iff.mp isSuffixed
    simp

-- The chains that stand for a component are not empty.
theorem ne_nil_of_expansions? {component : Component} {parts : Alternatives}
    (nonempty : ∀ outer ∈ parents.chains, outer ≠ [])
    (expanded : component.expansions? parents = some parts) :
    ∀ chain ∈ parts.chains, chain ≠ [] := by
  rcases component with members | kind
  · obtain ⟨members', _, under⟩ := Option.bind_eq_some_iff.mp expanded
    by_cases leads : Compound.isReference members' = true
    · obtain ⟨suffix, others, rfl⟩ := Compound.isReference_iff.mp leads
      have placed := chains_underParents parents suffix others
      rw [under] at placed
      intro chain member
      obtain ⟨outer, isOuter, isPlaced⟩ := exists_of_mem_mapM placed.symm member
      exact placed?_ne_nil (nonempty outer isOuter) isPlaced
    · rw [Compound.underParents_of_not_reference (by simpa using leads)] at under
      obtain rfl := Option.some.inj under
      simp [Complex.single]
  · obtain rfl := Option.some.inj expanded
    simp [Complex.single]

/-- Editing the subject of what is put in the place of an `&` amounts to putting it in the
place of an `&` with the edited members after it. -/
theorem placed?_after {suffix : Option String} {others others' : Compound} (more : others' ≠ [])
    (after : ∀ front, edit (front ++ others) = some (front ++ others')) (chain : Chain) :
    placed? suffix others' chain = (placed? suffix others chain).bind (editSubject? edit) := by
  have notBare : ¬(suffix.isNone && others'.isEmpty) = true := by simp [more]
  rw [placed?, if_neg notBare]
  unfold placed?
  split
  next bare =>
    obtain ⟨rfl, rfl⟩ : suffix = none ∧ others = [] := by simpa using bare
    simp only [List.append_nil] at after
    simp [editSubject?, after, Compound.suffixed?]
  next =>
    cases chain.splitSubject? with
    | none => rfl
    | some split =>
      simp only [Option.bind_some]
      cases Compound.suffixed? suffix split.2 with
      | none => rfl
      | some subject => simp [after]

/-- The subject may be edited before or after expanding. -/
theorem expanded?_edited_subject {subject subject' : Compound}
    (regrown : Compound.Regrown edit subject subject') :
    expanded? parents [.compound subject'] =
      (expanded? parents [.compound subject]).bind (·.mapM (editSubject? edit)) := by
  rw [expanded?_single, expanded?_single, Component.expansions?, Component.expansions?]
  cases expands : subject.expansion? parents with
  | none =>
    rw [regrown.expansion?_eq_none expands]
    rfl
  | some expanded =>
    obtain ⟨expanded', isExpanded', regrown⟩ := regrown.expansion expands
    simp only [isExpanded', Option.bind_some]
    by_cases leads : Compound.isReference expanded = true
    · obtain ⟨suffix, others, rfl⟩ := Compound.isReference_iff.mp leads
      obtain ⟨others', more, rfl, after⟩ := regrown.after_parent
      rw [chains_underParents, chains_underParents, bind_mapM_option]
      exact congrArg (parents.chains.mapM ·) (funext (placed?_after more after))
    · have plain : Compound.isReference expanded = false := by simpa using leads
      have single : editSubject? edit [.compound expanded] = some [.compound expanded'] := by
        have edited := editSubject?_append_compound edit [] expanded
        simpa [regrown.edit_eq] using edited
      rw [Compound.underParents_of_not_reference plain,
        Compound.underParents_of_not_reference (regrown.not_reference plain)]
      have mapped : [[Component.compound expanded]].mapM (editSubject? edit) =
          some [[.compound expanded']] := by
        simp [single]
      exact mapped.symm

theorem graft_editSubject? (some_parent : parents ≠ [])
    (nonempty : ∀ outer ∈ parents.chains, outer ≠ []) (graft : Compound.Graft edit) :
    Graft parents (editSubject? edit) where
  mentions made := by
    obtain ⟨before, subject, subject', rfl, isSubject, rfl⟩ := editSubject?_eq_some_iff.mp made
    simp only [mentionsParent_append, mentionsParent, (graft isSubject).mentionsParent_eq]
  expands made := by
    obtain ⟨before, subject, subject', rfl, isSubject, rfl⟩ := editSubject?_eq_some_iff.mp made
    rw [expanded?_append, expanded?_append, expanded?_edited_subject (graft isSubject)]
    cases isFirst : expansions? parents before with
    | none => simp [expanded?, isFirst]
    | some first =>
      have someFirst : first.chains ≠ [] := by
        simpa [Alternatives.chains] using expansions?_ne_nil some_parent isFirst
      rw [expanded?_single]
      cases isSecond : Component.expansions? parents (.compound subject) with
      | none => simp [expanded?]
      | some second =>
        have edited := mapM_editSubject?_inFront edit someFirst
          (ne_nil_of_expansions? nonempty isSecond)
        simp [expanded?, isFirst, edited]
  below made front := by
    obtain ⟨before, subject, subject', rfl, isSubject, rfl⟩ := editSubject?_eq_some_iff.mp made
    rw [← List.append_assoc, ← List.append_assoc, editSubject?_append_compound, isSubject]
    rfl

end Chain

end Selectors
