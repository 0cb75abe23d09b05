import Selectors.Proofs.Nesting.Associativity
import Selectors.Proofs.Nesting.Expansion
import Selectors.WellFormed

/-!
# Nesting keeps selectors well-formed

Nothing empty comes out of nesting if nothing empty went in: a compound that `&` leads turns
into a chain that ends in at least the parent's subject, a chain has as many parts as it had
components, and every alternative has an expansion because there is a parent alternative.
-/
namespace Selectors

/-! ### Suffixes -/

theorem Simple.wellFormed_of_continued {suffix : String} {simple simple' : Simple}
    (continued : simple.continued suffix = .ok simple') : simple'.wellFormed = true := by
  rcases simple with _ | _ | ⟨_, _, _ | _, _ | _⟩ | _ | _ | _ | _ | _
  case typeName | className | idName | placeholder | pseudo.none.none =>
    obtain rfl := Except.ok.inj continued
    rfl
  all_goals cases continued

theorem Compound.wellFormed_of_suffixed {suffix : Option String} {subject subject' : Compound}
    (suffixed : Suffixed suffix subject subject') (wellFormed : subject.wellFormed = true) :
    subject'.wellFormed = true := by
  cases suffixed with
  | none => exact wellFormed
  | empty => exact wellFormed
  | last before isLast =>
    rw [wellFormed_iff] at wellFormed ⊢
    intro simple member
    rcases List.mem_append.mp member with inFront | isLast'
    · exact wellFormed simple (List.mem_append_left _ inFront)
    · obtain rfl := List.mem_singleton.mp isLast'
      exact Simple.wellFormed_of_continued isLast

theorem Compound.ne_nil_of_suffixed {suffix : Option String} {subject subject' : Compound}
    (suffixed : Suffixed suffix subject subject') (nonempty : subject ≠ []) : subject' ≠ [] := by
  cases suffixed with
  | none => exact nonempty
  | empty => exact nonempty
  | last => simp

/-- A chain that ends in a compound is well-formed if what stands before is and the subject
is, which is not empty. -/
theorem Chain.wellFormed_append_compound {before : Chain} {subject : Compound} :
    Chain.wellFormed (before ++ [.compound subject]) = true ↔
      before.wellFormed = true ∧ subject ≠ [] ∧ subject.wellFormed = true := by
  simp [wellFormed_append, wellFormed]

/-! ### What stands for the parts of a chain -/

theorem Chain.wellFormed_of_placed? {suffix : Option String} {others : Compound}
    {outer placed : Chain} (wellFormed : outer.wellFormed = true)
    (wellFormedOthers : others.wellFormed = true)
    (isPlaced : placed? suffix others outer = some placed) : placed.wellFormed = true := by
  unfold placed? at isPlaced
  split at isPlaced
  · obtain rfl := Option.some.inj isPlaced
    exact wellFormed
  · obtain ⟨⟨before, subject⟩, split, isSuffixed⟩ := Option.bind_eq_some_iff.mp isPlaced
    obtain ⟨subject', isSubject, rfl⟩ := Option.map_eq_some_iff.mp isSuffixed
    obtain rfl := splitSubject?_eq_some_iff.mp split
    obtain ⟨onBefore, nonempty, onSubject⟩ := wellFormed_append_compound.mp wellFormed
    have suffixed := Compound.suffixed_of_suffixed? isSubject
    have onSubject' := Compound.wellFormed_of_suffixed suffixed onSubject
    refine wellFormed_append_compound.mpr ⟨onBefore, ?_, ?_⟩
    · simp [Compound.ne_nil_of_suffixed suffixed nonempty]
    · rw [Compound.wellFormed_iff] at onSubject' wellFormedOthers ⊢
      exact List.forall_mem_append.mpr ⟨onSubject', wellFormedOthers⟩

section

variable {parents : Alternatives}

-- Expanding the members leaves their number as it is.
theorem Compound.ne_nil_of_expansion? {members members' : Compound}
    (expanded : members.expansion? parents = some members') (nonempty : members ≠ []) :
    members' ≠ [] := by
  rw [← List.length_pos_iff, length_of_expansion? expanded, List.length_pos_iff]
  exact nonempty

theorem Compound.wellFormed_of_underParents {members : Compound} {parts : Alternatives}
    (wellFormed : parents.wellFormed = true) (nonempty : members ≠ [])
    (onMembers : members.wellFormed = true)
    (under : (members.underParents parents).toOption = some parts) : parts.wellFormed = true := by
  rw [Alternatives.wellFormed_iff] at wellFormed ⊢
  intro part isPart
  by_cases leads : members.isReference = true
  · obtain ⟨suffix, others, rfl⟩ := isReference_iff.mp leads
    rw [underParents_parent] at under
    obtain ⟨outer, isOuter, placed⟩ := exists_of_mem_mapM under isPart
    obtain ⟨chain, isPlaced, rfl⟩ := Option.map_eq_some_iff.mp placed
    obtain ⟨someOuter, onOuter⟩ := wellFormed outer isOuter
    simp only [Compound.wellFormed, Bool.and_eq_true] at onMembers
    exact ⟨Chain.placed?_ne_nil someOuter isPlaced,
      Chain.wellFormed_of_placed? onOuter onMembers.2 isPlaced⟩
  · rw [underParents_of_not_reference (by simpa using leads)] at under
    obtain rfl := Option.some.inj under
    obtain rfl := List.mem_singleton.mp isPart
    simp [Complex.single, Chain.wellFormed, nonempty, onMembers]

theorem Alternatives.wellFormed_below (wellFormed : parents.wellFormed = true) {complex : Complex}
    (nonempty : complex.components ≠ [])
    (onComplex : Chain.wellFormed complex.components = true) :
    Alternatives.wellFormed (parents.followedBy [complex]) = true := by
  rw [wellFormed_iff] at wellFormed ⊢
  intro below isBelow
  obtain ⟨outer, isOuter, _, isRest, rfl⟩ := mem_followedBy.mp isBelow
  obtain rfl := List.mem_singleton.mp isRest
  simp [Chain.wellFormed_append, (wellFormed outer isOuter).2, nonempty, onComplex]

/-- Nesting keeps every kind of selector well-formed. -/
theorem wellFormed_of_expansion? (someParent : parents ≠ [])
    (wellFormed : parents.wellFormed = true) :
    Induction
      (fun simple => simple.wellFormed = true → ∀ simple', simple.expansion? parents = some simple' →
        simple'.wellFormed = true)
      (fun members => members.wellFormed = true → ∀ members',
        members.expansion? parents = some members' → members'.wellFormed = true)
      (fun chain => chain.wellFormed = true → ∀ expansions,
        chain.expansions? parents = some expansions →
          ∀ expansion ∈ expansions, Chain.wellFormed expansion.components = true ∧
            (chain ≠ [] → expansion.components ≠ []))
      (fun alternatives => alternatives.wellFormed = true → ∀ implicit expansions,
        Alternatives.expansions? parents implicit alternatives = some expansions →
          expansions.wellFormed = true ∧ (alternatives ≠ [] → expansions ≠ [])) := by
  constructor
  case parent | placeholder | typeName | universal | className | idName | attr | plainPseudo =>
    intros
    rename_i expanded
    obtain rfl := Option.some.inj expanded
    rfl
  case nestingPseudo =>
    intro name isClass argument alternatives span ih whole simple' expanded
    rw [Simple.expansion?_nesting] at expanded
    split at expanded
    · obtain ⟨expansions, isExpansions, rfl⟩ := Option.map_eq_some_iff.mp expanded
      rw [Simple.wellFormed_nesting_iff] at whole ⊢
      obtain ⟨each, some⟩ := ih whole.2 false expansions isExpansions
      exact ⟨some whole.1, each⟩
    · obtain rfl := Option.some.inj expanded
      exact whole
  case noMember =>
    intro _ members' expanded
    obtain rfl := Option.some.inj expanded
    rfl
  case member =>
    intro simple rest ih ihRest whole members' expanded
    rw [Compound.expansion?_cons] at expanded
    obtain ⟨simple', rest', isFirst, isRest, rfl⟩ := Option.map₂_eq_some_iff.mp expanded
    simp only [Compound.wellFormed, Bool.and_eq_true] at whole ⊢
    exact ⟨ih whole.1 simple' isFirst, ihRest whole.2 rest' isRest⟩
  case noComponent =>
    intro _ expansions expanded
    obtain rfl := Option.some.inj expanded
    simp [Complex.nil, Chain.wellFormed]
  case compound =>
    intro members rest ih ihRest whole expansions expanded expansion isExpansion
    obtain ⟨parts, others, isParts, isOthers, part, isPart, other, isOther, rfl⟩ :=
      Chain.exists_of_mem_expansions? expanded isExpansion
    obtain ⟨members', isMembers, under⟩ := Option.bind_eq_some_iff.mp isParts
    obtain ⟨nonempty, onMembers, onRest⟩ := Chain.wellFormed_compound_iff.mp whole
    have onParts := Compound.wellFormed_of_underParents wellFormed
      (Compound.ne_nil_of_expansion? isMembers nonempty) (ih onMembers members' isMembers) under
    obtain ⟨somePart, onPart⟩ := Alternatives.wellFormed_iff.mp onParts part isPart
    have onOther := (ihRest onRest others isOthers other isOther).1
    rw [Complex.components_append, Chain.wellFormed_append, onPart, onOther]
    simp [somePart]
  case combinator =>
    intro kind rest ih whole expansions expanded expansion isExpansion
    obtain ⟨parts, others, isParts, isOthers, part, isPart, other, isOther, rfl⟩ :=
      Chain.exists_of_mem_expansions? expanded isExpansion
    obtain rfl := Option.some.inj isParts
    obtain rfl := List.mem_singleton.mp isPart
    exact ⟨(ih whole others isOthers other isOther).1, fun _ => List.cons_ne_nil _ _⟩
  case noAlternative =>
    intro _ implicit expansions expanded
    obtain rfl := Option.some.inj expanded
    simp [Alternatives.wellFormed]
  case alternative =>
    intro components lineBreak rest ih ihRest whole implicit expansions expanded
    rw [Alternatives.expansions?_cons] at expanded
    obtain ⟨here, others, isHere, isOthers, rfl⟩ := Option.map₂_eq_some_iff.mp expanded
    obtain ⟨nonempty, onComponents, onRest⟩ := Alternatives.wellFormed_cons_iff.mp whole
    have onOthers := (ihRest onRest implicit others isOthers).1
    suffices here.wellFormed = true ∧ here ≠ [] by
      rw [Alternatives.wellFormed_iff] at onOthers ⊢
      exact ⟨List.forall_mem_append.mpr ⟨Alternatives.wellFormed_iff.mp this.1, onOthers⟩,
        fun _ => by simp [this.2]⟩
    unfold Complex.expansions? at isHere
    split at isHere
    next =>
      refine ⟨Alternatives.wellFormed_iff.mpr fun expansion isExpansion => ?_,
        Chain.expansions?_ne_nil someParent isHere⟩
      obtain ⟨onExpansion, some⟩ := ih onComponents here isHere expansion isExpansion
      exact ⟨some nonempty, onExpansion⟩
    next =>
      split at isHere
      · obtain rfl := Option.some.inj isHere
        exact ⟨Alternatives.wellFormed_below wellFormed nonempty onComponents,
          by simpa [Alternatives.followedBy_single] using someParent⟩
      · obtain rfl := Option.some.inj isHere
        simp [Alternatives.wellFormed, nonempty, onComponents]

end

end Selectors
