import Selectors.Compound.Merge
import Selectors.Proofs.Equality.Covering

/-!
# Merged compounds

A merge has the members of both compounds and no others; only `*` may be missing, where something
else stands beside it. There is none when a member of one compound clashes with a member of the
other.
-/
namespace Selectors

namespace Compound

/-! ### Where members come from -/

theorem subset_of_insert (before : Simple → Bool) (simple : Simple) (compound : Compound) :
    insert before simple compound ⊆ simple :: compound := by
  unfold insert
  split
  · simp
  · split
    · exact List.subset_cons_self _ _
    · intro member isMember
      rcases List.mem_append.mp isMember with early | late
      · exact List.mem_cons_of_mem _ (List.takeWhile_subset _ early)
      · rcases List.mem_cons.mp late with rfl | late
        · exact List.mem_cons_self
        · exact List.mem_cons_of_mem _ (List.dropWhile_subset _ late)

theorem subset_of_addElemental {simple : Simple} {compound merged : Compound}
    (added : addElemental simple compound = some merged) : merged ⊆ simple :: compound := by
  unfold addElemental at added
  split at added
  · obtain rfl := Option.some.inj added
    simp
  · obtain ⟨_, same⟩ := Option.ite_none_right_eq_some.mp added
    obtain rfl := Option.some.inj same
    exact List.subset_cons_self _ _
  · obtain rfl := Option.some.inj added
    simp
  · obtain rfl := Option.some.inj added
    split
    · exact List.subset_cons_self _ _
    · exact List.Subset.refl _

theorem subset_of_add {simple : Simple} {compound merged : Compound}
    (added : add simple compound = some merged) : merged ⊆ simple :: compound := by
  unfold add at added
  split at added
  · exact subset_of_addElemental added
  · exact subset_of_addElemental added
  · obtain ⟨_, same⟩ := Option.ite_none_left_eq_some.mp added
    obtain rfl := Option.some.inj same
    exact subset_of_insert _ _ _
  · obtain ⟨_, same⟩ := Option.ite_none_left_eq_some.mp added
    obtain rfl := Option.some.inj same
    exact subset_of_insert _ _ _
  · obtain rfl := Option.some.inj added
    exact subset_of_insert _ _ _

/-- Merging brings nothing new. -/
theorem subset_of_merge {first second merged : Compound} (merges : merge first second = some merged) :
    merged ⊆ first ++ second := by
  induction second generalizing first with
  | nil =>
    obtain rfl := Option.some.inj merges
    simp
  | cons simple rest ih =>
    rw [merge_cons] at merges
    obtain ⟨middle, added, merges⟩ := Option.bind_eq_some_iff.mp merges
    intro member isMember
    rcases List.mem_append.mp (ih merges isMember) with isMember | isMember
    · rcases List.mem_cons.mp (subset_of_add added isMember) with rfl | isMember <;> simp [*]
    · simp [isMember]

/-! ### Members that are kept -/

section

variable {simple member : Simple} {compound first second merged : Compound}

theorem mem_insert_of_mem {before : Simple → Bool} (named : member ≠ .universal)
    (isMember : member ∈ compound) : member ∈ insert before simple compound := by
  unfold insert
  split
  · exact (named (List.mem_singleton.mp isMember)).elim
  · split
    · exact isMember
    · rw [← List.takeWhile_append_dropWhile (p := fun member => !before member) (l := compound)]
        at isMember
      rcases List.mem_append.mp isMember with early | late
      · exact List.mem_append_left _ early
      · exact List.mem_append_right _ (List.mem_cons_of_mem _ late)

theorem contains_insert (before : Simple → Bool) (simple : Simple) (compound : Compound) :
    (insert before simple compound).contains simple = true := by
  unfold insert
  split
  · simp
  · split
    next contained => exact contained
    next => simp

theorem mem_addElemental_of_mem (added : addElemental simple compound = some merged)
    (named : member ≠ .universal) (isMember : member ∈ compound) : member ∈ merged := by
  unfold addElemental at added
  split at added
  · obtain rfl := Option.some.inj added
    exact List.mem_cons_of_mem _ ((List.mem_cons.mp isMember).resolve_left named)
  · obtain ⟨_, same⟩ := Option.ite_none_right_eq_some.mp added
    obtain rfl := Option.some.inj same
    exact isMember
  · cases isMember
  · obtain rfl := Option.some.inj added
    split
    · exact isMember
    · exact List.mem_cons_of_mem _ isMember

theorem contains_addElemental (added : addElemental simple compound = some merged)
    (named : simple ≠ .universal) : merged.contains simple = true := by
  have other : (simple == .universal) = false := Bool.eq_false_iff.mpr (mt Simple.beq_universal_iff.mp named)
  unfold addElemental at added
  split at added
  · obtain rfl := Option.some.inj added
    simp
  next name rest =>
    obtain ⟨fits, same⟩ := Option.ite_none_right_eq_some.mp added
    obtain rfl := Option.some.inj same
    rw [other, Bool.false_or] at fits
    rw [List.contains_cons, fits, Bool.true_or]
  · obtain rfl := Option.some.inj added
    simp
  · obtain rfl := Option.some.inj added
    simp [other]

theorem mem_add_of_mem (added : add simple compound = some merged) (named : member ≠ .universal)
    (isMember : member ∈ compound) : member ∈ merged := by
  unfold add at added
  split at added
  · exact mem_addElemental_of_mem added named isMember
  · exact mem_addElemental_of_mem added named isMember
  · obtain ⟨_, same⟩ := Option.ite_none_left_eq_some.mp added
    obtain rfl := Option.some.inj same
    exact mem_insert_of_mem named isMember
  · obtain ⟨_, same⟩ := Option.ite_none_left_eq_some.mp added
    obtain rfl := Option.some.inj same
    exact mem_insert_of_mem named isMember
  · obtain rfl := Option.some.inj added
    exact mem_insert_of_mem named isMember

theorem contains_add (added : add simple compound = some merged) (named : simple ≠ .universal) :
    merged.contains simple = true := by
  unfold add at added
  split at added
  · exact contains_addElemental added named
  · exact (named rfl).elim
  · obtain ⟨_, same⟩ := Option.ite_none_left_eq_some.mp added
    obtain rfl := Option.some.inj same
    exact contains_insert _ _ _
  · obtain ⟨_, same⟩ := Option.ite_none_left_eq_some.mp added
    obtain rfl := Option.some.inj same
    exact contains_insert _ _ _
  · obtain rfl := Option.some.inj added
    exact contains_insert _ _ _

theorem mem_merge_of_mem (merges : merge first second = some merged) (named : member ≠ .universal)
    (isMember : member ∈ first) : member ∈ merged := by
  induction second generalizing first with
  | nil =>
    obtain rfl := Option.some.inj merges
    exact isMember
  | cons simple rest ih =>
    rw [merge_cons] at merges
    obtain ⟨middle, added, merges⟩ := Option.bind_eq_some_iff.mp merges
    exact ih merges (mem_add_of_mem added named isMember)

theorem contains_merge (merges : merge first second = some merged) (named : simple ≠ .universal)
    (isMember : simple ∈ second) : merged.contains simple = true := by
  induction second generalizing first with
  | nil => cases isMember
  | cons head rest ih =>
    rw [merge_cons] at merges
    obtain ⟨middle, added, mergesRest⟩ := Option.bind_eq_some_iff.mp merges
    rcases List.mem_cons.mp isMember with rfl | isMember
    · obtain ⟨member, isMember, equal⟩ :=
        List.contains_iff_exists_mem_beq.mp (contains_add added named)
      have named' : member ≠ .universal := by
        rintro rfl
        exact named (Simple.beq_universal_iff.mp equal)
      exact List.contains_iff_exists_mem_beq.mpr ⟨member, mem_merge_of_mem mergesRest named' isMember, equal⟩
    · exact ih mergesRest isMember

/-- But for `*`, what a merge contains is contained in one of the compounds. -/
theorem contains_merge_iff (merges : merge first second = some merged) (named : simple ≠ .universal) :
    merged.contains simple = true ↔ first.contains simple = true ∨ second.contains simple = true := by
  have named' {member : Simple} (equal : (simple == member) = true) : member ≠ .universal := by
    rintro rfl
    exact named (Simple.beq_universal_iff.mp equal)
  constructor
  · intro contained
    obtain ⟨member, isMember, equal⟩ := List.contains_iff_exists_mem_beq.mp contained
    have contains {compound : Compound} (isMember : member ∈ compound) :
        compound.contains simple = true :=
      List.contains_iff_exists_mem_beq.mpr ⟨member, isMember, equal⟩
    exact (List.mem_append.mp (subset_of_merge merges isMember)).imp contains contains
  · rintro (contained | contained)
    · obtain ⟨member, isMember, equal⟩ := List.contains_iff_exists_mem_beq.mp contained
      exact List.contains_iff_exists_mem_beq.mpr
        ⟨member, mem_merge_of_mem merges (named' equal) isMember, equal⟩
    · obtain ⟨member, isMember, equal⟩ := List.contains_iff_exists_mem_beq.mp contained
      obtain ⟨member', isMember', equal'⟩ :=
        List.contains_iff_exists_mem_beq.mp (contains_merge merges (named' equal) isMember)
      exact List.contains_iff_exists_mem_beq.mpr ⟨member', isMember', BEq.trans equal equal'⟩

theorem ne_nil_of_add (added : add simple compound = some merged) : merged ≠ [] := by
  rintro rfl
  by_cases isUniversal : simple = .universal
  · -- `*` alone may be dropped, and then something else is there
    subst isUniversal
    have added : addElemental .universal compound = some [] := added
    rcases compound with _ | ⟨head, rest⟩
    · cases added
    · cases head <;> simp [addElemental] at added
  · have contained := contains_add added isUniversal
    cases contained

theorem ne_nil_of_merge (merges : merge first second = some merged)
    (nonempty : first ≠ [] ∨ second ≠ []) : merged ≠ [] := by
  induction second generalizing first with
  | nil =>
    obtain rfl := Option.some.inj merges
    exact nonempty.resolve_right fun more => more rfl
  | cons simple rest ih =>
    rw [merge_cons] at merges
    obtain ⟨middle, added, mergesRest⟩ := Option.bind_eq_some_iff.mp merges
    exact ih mergesRest (.inl (ne_nil_of_add added))

end

end Compound

/-! ### Members that clash -/

/-- Whether both are of a kind that an element has one of, and differ. -/
def Simple.clashes (simple other : Simple) : Bool :=
  simple.excludes other ||
    (simple.isPseudoElement && other.isPseudoElement && !(simple == other))

namespace Simple

theorem excludes_comm (simple other : Simple) : simple.excludes other = other.excludes simple := by
  cases simple
  case typeName | idName =>
    cases other
    case typeName | idName => first | exact bne_comm | rfl
    all_goals rfl
  all_goals cases other <;> rfl

theorem clashes_comm (simple other : Simple) : simple.clashes other = other.clashes simple := by
  rw [clashes, clashes, excludes_comm, Bool.and_comm simple.isPseudoElement, BEq.comm]

theorem clashes_self (simple : Simple) : simple.clashes simple = false := by
  rw [clashes, Bool.or_eq_false_iff]
  constructor
  · cases simple <;> first | rfl | exact bne_self_eq_false _
  · rw [BEq.rfl, Bool.not_true, Bool.and_false]

theorem ne_universal_of_clashes {simple other : Simple} (clashes : simple.clashes other = true) :
    other ≠ .universal := by
  rintro rfl
  rw [clashes_comm] at clashes
  cases clashes

theorem clashes_of_beq {simple member member' : Simple} (equal : (member == member') = true) :
    simple.clashes member = simple.clashes member' := by
  have bare (member : Simple) : simple.clashes member = simple.bare.clashes member.bare := by
    rw [clashes, clashes, excludes_bare, isPseudoElement_bare, isPseudoElement_bare, bare_beq_bare]
  rw [bare, bare member', beq_iff_bare.mp equal]

/-- Two type names, two ids or two pseudo-elements clash if they differ, and nothing else does. -/
theorem clashes_iff {simple other : Simple} :
    simple.clashes other = true ↔
      (∃ name name', simple = .typeName name ∧ other = .typeName name' ∧ name ≠ name') ∨
      (∃ name name', simple = .idName name ∧ other = .idName name' ∧ name ≠ name') ∨
      simple.isPseudoElement = true ∧ other.isPseudoElement = true ∧ (simple == other) = false := by
  cases simple <;> cases other <;> simp [clashes, excludes, isPseudoElement, and_assoc]

end Simple

/-- Type names and `*` stand first, and there are neither two ids nor two pseudo-elements. -/
structure Compound.Orderly (compound : Compound) : Prop where
  leads : ∀ simple ∈ compound.tail, simple.isElemental = false
  idName : ∀ {name name'}, .idName name ∈ compound → .idName name' ∈ compound → name = name'
  pseudoElement : ∀ {simple simple'}, simple ∈ compound → simple' ∈ compound →
    simple.isPseudoElement = true → simple'.isPseudoElement = true → (simple == simple') = true

namespace Compound

/-- No two members clash. -/
def Agrees (compound : Compound) : Prop :=
  ∀ simple ∈ compound, ∀ other ∈ compound, simple.clashes other = false

variable {simple : Simple} {compound first second merged : Compound}

theorem Agrees.mono (agrees : first.Agrees) (subset : second ⊆ first) : second.Agrees :=
  fun simple isMember other isOther => agrees simple (subset isMember) other (subset isOther)

theorem Agrees.cons (agrees : compound.Agrees)
    (fits : ∀ member ∈ compound, simple.clashes member = false) : Agrees (simple :: compound) := by
  refine List.forall_mem_cons.mpr ⟨?_, fun member isMember => ?_⟩
  · exact List.forall_mem_cons.mpr ⟨Simple.clashes_self simple, fits⟩
  · refine List.forall_mem_cons.mpr ⟨?_, agrees member isMember⟩
    rw [Simple.clashes_comm]
    exact fits member isMember

theorem eq_head_of_elemental (leads : ∀ member ∈ compound.tail, member.isElemental = false)
    (isMember : simple ∈ compound) (elemental : simple.isElemental = true) :
    ∃ rest, compound = simple :: rest := by
  rcases compound with _ | ⟨head, rest⟩
  · cases isMember
  · rcases List.mem_cons.mp isMember with rfl | isMember
    · exact ⟨rest, rfl⟩
    · rw [leads simple isMember] at elemental
      cases elemental

theorem Orderly.agrees (orderly : compound.Orderly) : compound.Agrees := by
  intro simple isMember other isMember'
  rw [Simple.clashes, Bool.or_eq_false_iff]
  constructor
  · cases simple <;> cases other <;> try rfl
    case typeName.typeName name name' =>
      obtain ⟨rest, rfl⟩ := eq_head_of_elemental orderly.leads isMember rfl
      obtain ⟨rest', same⟩ := eq_head_of_elemental orderly.leads isMember' rfl
      obtain rfl := Simple.typeName.inj (List.cons.inj same).1
      exact bne_self_eq_false name
    case idName.idName name name' =>
      obtain rfl := orderly.idName isMember isMember'
      exact bne_self_eq_false name
  · rw [Bool.and_eq_false_imp, Bool.and_eq_true]
    rintro ⟨isElement, isElement'⟩
    rw [orderly.pseudoElement isMember isMember' isElement isElement', Bool.not_true]

theorem holdsOtherId_iff {name : String} :
    compound.holdsOtherId name = true ↔
      ∃ member ∈ compound, Simple.clashes (.idName name) member = true := by
  rw [holdsOtherId, List.any_eq_true]
  refine exists_congr fun member => and_congr_right fun _ => ?_
  cases member
  case idName other =>
    simp only [Simple.clashes, Simple.excludes, Simple.isPseudoElement, Bool.false_and, Bool.or_false]
    rw [bne_comm]
  all_goals simp [Simple.clashes, Simple.excludes, Simple.isPseudoElement]

theorem addElemental_eq_none_iff {name : String}
    (leads : ∀ member ∈ compound.tail, member.isElemental = false) :
    addElemental (.typeName name) compound = none ↔
      ∃ member ∈ compound, Simple.clashes (.typeName name) member = true := by
  rcases compound with _ | ⟨head, rest⟩
  · simp [addElemental]
  · have later : ¬∃ member ∈ rest, Simple.clashes (.typeName name) member = true := by
      rintro ⟨member, isMember, clashes⟩
      have := leads member isMember
      cases member <;> first | cases clashes | cases this
    simp only [List.mem_cons, or_and_right, exists_or, exists_eq_left]
    rw [or_iff_left later]
    cases head
    case typeName other =>
      by_cases same : name = other
      · subst same
        simp [addElemental, Simple.clashes, Simple.excludes, Simple.isPseudoElement]
      · have differs : (name == other) = false := beq_false_of_ne same
        have differs : (Simple.typeName name == .typeName other) = false := differs
        have elemental : (Simple.typeName name == .universal) = false := rfl
        simp [addElemental, Simple.clashes, Simple.excludes, same, differs, elemental]
    all_goals simp [addElemental, Simple.clashes, Simple.excludes, Simple.isPseudoElement]

/-- A member cannot be added just when it clashes with one that is there. -/
theorem add_eq_none_iff (agrees : compound.Agrees)
    (leads : simple.isElemental = true → ∀ member ∈ compound.tail, member.isElemental = false) :
    add simple compound = none ↔ ∃ member ∈ compound, simple.clashes member = true := by
  cases simple
  case typeName name => exact addElemental_eq_none_iff (leads rfl)
  case universal =>
    rcases compound with _ | ⟨head, rest⟩
    · simp [add, addElemental]
    · cases head <;> simp [add, addElemental, Simple.clashes, Simple.excludes, Simple.isPseudoElement]
  case idName name =>
    rw [← holdsOtherId_iff, add]
    simp
  case pseudo pseudo =>
    have element (member : Simple) : Simple.clashes (.pseudo pseudo) member = true ↔
        pseudo.isClass = false ∧ member.isPseudoElement = true ∧ (.pseudo pseudo == member) = false := by
      simp [Simple.clashes, Simple.excludes, Simple.isPseudoElement, and_assoc]
    have refused : add (.pseudo pseudo) compound = none ↔
        pseudo.isClass = false ∧ (∃ member ∈ compound, member.isPseudoElement = true) ∧
          compound.contains (.pseudo pseudo) = false := by
      simp [add, and_assoc, ← exists_and_right]
    rw [refused]
    constructor
    · rintro ⟨isElement, ⟨member, isMember, isElement'⟩, absent⟩
      refine ⟨member, isMember, (element member).mpr ⟨isElement, isElement', ?_⟩⟩
      apply Bool.eq_false_iff.mpr
      intro equal
      rw [List.contains_iff_exists_mem_beq.mpr ⟨member, isMember, equal⟩] at absent
      cases absent
    · rintro ⟨member, isMember, clashes⟩
      obtain ⟨isElement, isElement', _⟩ := (element member).mp clashes
      refine ⟨isElement, ⟨member, isMember, isElement'⟩, ?_⟩
      apply Bool.eq_false_iff.mpr
      intro contained
      -- an equal member would clash with this one as well
      obtain ⟨same, isSame, equal⟩ := List.contains_iff_exists_mem_beq.mp contained
      have apart := agrees member isMember same isSame
      rw [← Simple.clashes_of_beq equal, Simple.clashes_comm, clashes] at apart
      cases apart
  all_goals simp [add, Simple.clashes, Simple.excludes, Simple.isPseudoElement]

/-- Orderly compounds have no merge just when a member of one clashes with a member of the other. -/
theorem merge_eq_none_iff (agrees₁ : first.Agrees) (agrees₂ : second.Agrees)
    (leads₁ : ∀ simple ∈ second, simple.isElemental = true →
      ∀ member ∈ first.tail, member.isElemental = false)
    (leads₂ : ∀ simple ∈ second.tail, simple.isElemental = false) :
    merge first second = none ↔
      ∃ simple ∈ second, ∃ member ∈ first, simple.clashes member = true := by
  induction second generalizing first with
  | nil => simp
  | cons simple rest ih =>
    have refused := add_eq_none_iff agrees₁ (leads₁ simple List.mem_cons_self)
    rw [merge_cons]
    cases added : add simple first with
    | none =>
      obtain ⟨member, isMember, clashes⟩ := refused.mp added
      exact iff_of_true rfl ⟨simple, List.mem_cons_self, member, isMember, clashes⟩
    | some middle =>
      have fits (member : Simple) (isMember : member ∈ first) : simple.clashes member = false := by
        apply Bool.eq_false_iff.mpr
        intro clashes
        rw [refused.mpr ⟨member, isMember, clashes⟩] at added
        cases added
      -- what is merged so far agrees still, and holds all of the first compound that could clash
      have agreesMiddle : middle.Agrees := (agrees₁.cons fits).mono (subset_of_add added)
      have agreesRest : Agrees rest := agrees₂.mono (List.subset_cons_self _ _)
      -- what is left to add holds nothing that has to stand first
      have leadsRest (later : Simple) (isLater : later ∈ rest) (elemental : later.isElemental = true) :
          ∀ member ∈ middle.tail, member.isElemental = false := by
        rw [leads₂ later isLater] at elemental
        cases elemental
      have leadsTail (later : Simple) (isLater : later ∈ rest.tail) : later.isElemental = false :=
        leads₂ later (List.mem_of_mem_tail isLater)
      rw [Option.bind_some, ih agreesMiddle agreesRest leadsRest leadsTail]
      constructor
      · rintro ⟨later, isLater, member, isMember, clashes⟩
        have isLater := List.mem_cons_of_mem simple isLater
        rcases List.mem_cons.mp (subset_of_add added isMember) with rfl | isMember
        · rw [agrees₂ later isLater member List.mem_cons_self] at clashes
          cases clashes
        · exact ⟨later, isLater, member, isMember, clashes⟩
      · rintro ⟨later, isLater, member, isMember, clashes⟩
        rcases List.mem_cons.mp isLater with rfl | isLater
        · rw [fits member isMember] at clashes
          cases clashes
        · exact ⟨later, isLater, member, mem_add_of_mem added (Simple.ne_universal_of_clashes clashes)
            isMember, clashes⟩

end Compound

end Selectors
