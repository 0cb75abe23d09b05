import Selectors.Proofs.Unification.Merge

/-!
# Canonical compounds

In a canonical compound nothing is said twice and the members stand in the customary order: a type
name or `*` first, pseudo-classes after all that is no pseudo, a pseudo-element last. Each way of
adding a member finds the place that keeps this order, so what is merged into a canonical compound
leaves it canonical.
-/
namespace Selectors

namespace Simple

/-- The group a member belongs to, in the order in which the groups follow one another: no pseudo,
pseudo-class, pseudo-element. -/
def rank : Simple → Nat
  | pseudo p => if p.isClass then 1 else 2
  | _ => 0

theorem isPseudo_eq_rank (simple : Simple) : simple.isPseudo = decide (0 < simple.rank) := by
  rcases simple with _ | _ | ⟨_, _ | _, _, _⟩ | _ | _ | _ | _ | _ <;> rfl

theorem isPseudoElement_eq_rank (simple : Simple) :
    simple.isPseudoElement = decide (1 < simple.rank) := by
  rcases simple with _ | _ | ⟨_, _ | _, _, _⟩ | _ | _ | _ | _ | _ <;> rfl

theorem rank_le_two (simple : Simple) : simple.rank ≤ 2 := by
  unfold rank
  split
  · split <;> omega
  · omega

theorem rank_eq_zero_of_elemental {simple : Simple} (elemental : simple.isElemental = true) :
    simple.rank = 0 := by
  cases simple <;> first | rfl | cases elemental

/-- Whether a member belongs behind what is added. -/
def precedes (simple member : Simple) : Bool :=
  if simple.isPseudo then member.isPseudoElement else member.isPseudo

theorem rank_le_of_precedes {simple member : Simple} (precedes : simple.precedes member = true) :
    simple.rank ≤ member.rank := by
  have := rank_le_two simple
  unfold Simple.precedes at precedes
  simp only [isPseudo_eq_rank, isPseudoElement_eq_rank, decide_eq_true_eq] at precedes
  split at precedes <;> simp only [decide_eq_true_eq] at precedes <;> omega

theorem rank_le_of_not_precedes {simple member : Simple}
    (behind : simple.precedes member = false) : member.rank ≤ simple.rank := by
  unfold Simple.precedes at behind
  simp only [isPseudo_eq_rank, isPseudoElement_eq_rank, decide_eq_true_eq] at behind
  split at behind <;> simp only [decide_eq_false_iff_not] at behind <;> omega

theorem plain_of_precedes {simple member : Simple} (precedes : simple.precedes member = true) :
    member.isElemental = false := by
  apply Bool.eq_false_iff.mpr
  intro elemental
  unfold Simple.precedes at precedes
  simp only [isPseudo_eq_rank, isPseudoElement_eq_rank, rank_eq_zero_of_elemental elemental] at precedes
  split at precedes <;> cases precedes

theorem isElemental_of_beq {simple other : Simple} (equal : (simple == other) = true) :
    simple.isElemental = other.isElemental := by
  have bare (simple : Simple) : simple.bare.isElemental = simple.isElemental := by
    rcases simple with _ | _ | ⟨_, _, _, _ | ⟨_, _⟩⟩ | _ | _ | _ | _ | _ <;> rfl
  rw [← bare, beq_iff_bare.mp equal, bare]

end Simple

namespace Compound

variable {before : Simple → Bool} {simple : Simple} {compound first second merged : Compound}

theorem orderly_of_agrees (leads : ∀ member ∈ compound.tail, member.isElemental = false)
    (agrees : compound.Agrees) : compound.Orderly where
  leads := leads
  idName {name name'} isMember isMember' := by
    by_contra different
    have apart := agrees _ isMember _ isMember'
    rw [Simple.clashes_iff.mpr (.inr (.inl ⟨name, name', rfl, rfl, different⟩))] at apart
    cases apart
  pseudoElement {member member'} isMember isMember' isElement isElement' := by
    by_contra different
    have apart := agrees _ isMember _ isMember'
    have different : (member == member') = false := by simpa using different
    rw [Simple.clashes_iff.mpr (.inr (.inr ⟨isElement, isElement', different⟩))] at apart
    cases apart

/-- Orderly, without repetition, and in the order of the groups. -/
structure Canonical (compound : Compound) : Prop extends Orderly compound where
  distinct : compound.Pairwise fun member other => (member == other) = false
  ordered : compound.Pairwise fun member other => member.rank ≤ other.rank

instance (compound : Compound) : Decidable compound.Canonical :=
  decidable_of_iff
    ((∀ member ∈ compound.tail, member.isElemental = false) ∧
      (∀ member ∈ compound, ∀ other ∈ compound, member.clashes other = false) ∧
      (compound.Pairwise fun member other => (member == other) = false) ∧
      compound.Pairwise fun member other => member.rank ≤ other.rank)
    ⟨fun ⟨leads, agrees, distinct, ordered⟩ => ⟨orderly_of_agrees leads agrees, distinct, ordered⟩,
      fun canonical => ⟨canonical.leads, canonical.toOrderly.agrees, canonical.distinct, canonical.ordered⟩⟩

/-! ### Insertion -/

/-- What stands behind the place of insertion belongs to a later group or the same. -/
theorem rank_le_of_mem_dropWhile (simple : Simple)
    (ordered : compound.Pairwise fun member other => member.rank ≤ other.rank) :
    ∀ member ∈ compound.dropWhile (fun member => !simple.precedes member),
      simple.rank ≤ member.rank := by
  induction compound with
  | nil => simp
  | cons head rest ih =>
    obtain ⟨headFirst, orderedRest⟩ := List.pairwise_cons.mp ordered
    rw [List.dropWhile_cons]
    split
    · exact ih orderedRest
    next stops =>
      have headLater : simple.rank ≤ head.rank := Simple.rank_le_of_precedes (by simpa using stops)
      exact List.forall_mem_cons.mpr
        ⟨headLater, fun member isMember => Nat.le_trans headLater (headFirst member isMember)⟩

/-- A member that is inserted where its group ends keeps the order of the groups. -/
theorem ordered_insert (ordered : compound.Pairwise fun member other => member.rank ≤ other.rank) :
    (insert simple.precedes simple compound).Pairwise fun member other => member.rank ≤ other.rank := by
  unfold insert
  split
  · exact List.pairwise_singleton _ _
  · split
    · exact ordered
    · have behind := rank_le_of_mem_dropWhile simple ordered
      have inFront (member : Simple)
          (isMember : member ∈ compound.takeWhile fun member => !simple.precedes member) :
          member.rank ≤ simple.rank := by
        apply Simple.rank_le_of_not_precedes
        simpa using List.all_eq_true.mp List.all_takeWhile member isMember
      refine List.pairwise_append.mpr ⟨ordered.sublist (List.takeWhile_sublist _), ?_, ?_⟩
      · exact List.pairwise_cons.mpr ⟨behind, ordered.sublist (List.dropWhile_sublist _)⟩
      · intro member isMember other isOther
        rcases List.mem_cons.mp isOther with rfl | isOther
        · exact inFront member isMember
        · exact Nat.le_trans (inFront member isMember) (behind other isOther)

theorem distinct_insert (distinct : compound.Pairwise fun member other => (member == other) = false) :
    (insert before simple compound).Pairwise fun member other => (member == other) = false := by
  unfold insert
  split
  · exact List.pairwise_singleton _ _
  · split
    · exact distinct
    next absent =>
      have new (member : Simple) (isMember : member ∈ compound) : (simple == member) = false := by
        apply Bool.eq_false_iff.mpr
        intro equal
        exact absent (List.contains_iff_exists_mem_beq.mpr ⟨member, isMember, equal⟩)
      rw [← List.takeWhile_append_dropWhile (p := fun member => !before member) (l := compound),
        List.pairwise_append] at distinct
      obtain ⟨inFront, behind, across⟩ := distinct
      refine List.pairwise_append.mpr ⟨inFront, List.pairwise_cons.mpr ⟨?_, behind⟩, ?_⟩
      · exact fun member isMember => new member (List.dropWhile_subset _ isMember)
      · intro member isMember
        refine List.forall_mem_cons.mpr ⟨?_, across member isMember⟩
        rw [BEq.comm]
        exact new member (List.takeWhile_subset _ isMember)

/-- A member that need not lead is not put in front of one that does. -/
theorem leads_insert (leads : ∀ member ∈ compound.tail, member.isElemental = false)
    (plain : simple.isElemental = false) :
    ∀ member ∈ (insert simple.precedes simple compound).tail, member.isElemental = false := by
  unfold insert
  split
  · simp
  · split
    · exact leads
    · cases compound with
      | nil => simp
      | cons head rest =>
        rw [List.takeWhile_cons, List.dropWhile_cons]
        split
        · -- the head stays in front
          rw [List.cons_append, List.tail_cons]
          intro member isMember
          rcases List.mem_append.mp isMember with isMember | isMember
          · exact leads member (List.takeWhile_subset _ isMember)
          · rcases List.mem_cons.mp isMember with rfl | isMember
            · exact plain
            · exact leads member (List.dropWhile_subset _ isMember)
        next stops =>
          have plainHead : head.isElemental = false := Simple.plain_of_precedes (by simpa using stops)
          exact List.forall_mem_cons.mpr ⟨plainHead, leads⟩

/-! ### Adding and merging -/

-- A member that need not lead is put in front of the later groups.
theorem eq_insert_of_add (plain : simple.isElemental = false)
    (added : add simple compound = some merged) : merged = insert simple.precedes simple compound := by
  cases simple
  case typeName | universal => cases plain
  case idName | pseudo =>
    obtain ⟨_, same⟩ := Option.ite_none_left_eq_some.mp added
    exact (Option.some.inj same).symm
  all_goals exact (Option.some.inj added).symm

namespace Canonical

theorem of_cons (canonical : Canonical (simple :: compound)) : compound.Canonical where
  leads member isMember := canonical.leads member (List.mem_of_mem_tail isMember)
  idName isMember isMember' :=
    canonical.idName (List.mem_cons_of_mem _ isMember) (List.mem_cons_of_mem _ isMember')
  pseudoElement isMember isMember' :=
    canonical.pseudoElement (List.mem_cons_of_mem _ isMember) (List.mem_cons_of_mem _ isMember')
  distinct := canonical.distinct.of_cons
  ordered := canonical.ordered.of_cons

theorem cons_elemental (canonical : compound.Canonical) (elemental : simple.isElemental = true)
    (plain : ∀ member ∈ compound, member.isElemental = false)
    (agrees : Agrees (simple :: compound)) : Canonical (simple :: compound) where
  toOrderly := orderly_of_agrees plain agrees
  distinct := by
    refine List.pairwise_cons.mpr ⟨fun member isMember => ?_, canonical.distinct⟩
    -- a repetition of the leading member would have to lead as well
    apply Bool.eq_false_iff.mpr
    intro equal
    have apart := plain member isMember
    rw [← Simple.isElemental_of_beq equal, elemental] at apart
    cases apart
  ordered := by
    refine List.pairwise_cons.mpr ⟨fun member _ => ?_, canonical.ordered⟩
    rw [Simple.rank_eq_zero_of_elemental elemental]
    exact Nat.zero_le _

theorem addElemental (canonical : compound.Canonical) (elemental : simple.isElemental = true)
    (agrees : merged.Agrees) (added : Compound.addElemental simple compound = some merged) :
    merged.Canonical := by
  unfold Compound.addElemental at added
  split at added
  next rest =>
    obtain rfl := Option.some.inj added
    exact canonical.of_cons.cons_elemental elemental canonical.leads agrees
  · obtain ⟨_, same⟩ := Option.ite_none_right_eq_some.mp added
    exact Option.some.inj same ▸ canonical
  · obtain rfl := Option.some.inj added
    exact canonical.cons_elemental elemental (List.forall_mem_nil _) agrees
  next notUniversal notType notEmpty =>
    -- nothing in the compound leads it
    have plain : ∀ member ∈ compound, member.isElemental = false := by
      intro member isMember
      apply Bool.eq_false_iff.mpr
      intro leading
      obtain ⟨rest, rfl⟩ := eq_head_of_elemental canonical.leads isMember leading
      cases member
      case typeName name => exact notType name rest rfl
      case universal => exact notUniversal rest rfl
      all_goals cases leading
    split at added
    · exact Option.some.inj added ▸ canonical
    · obtain rfl := Option.some.inj added
      exact canonical.cons_elemental elemental plain agrees

/-- A canonical compound stays canonical, whatever is added. -/
theorem add (canonical : compound.Canonical) (added : Compound.add simple compound = some merged) :
    merged.Canonical := by
  -- what clashed with a member would not have been added
  have fits : ∀ member ∈ compound, simple.clashes member = false := by
    intro member isMember
    apply Bool.eq_false_iff.mpr
    intro clashes
    have refused := (add_eq_none_iff canonical.toOrderly.agrees fun _ => canonical.leads).mpr
      ⟨member, isMember, clashes⟩
    rw [refused] at added
    cases added
  have agrees : merged.Agrees := (canonical.toOrderly.agrees.cons fits).mono (subset_of_add added)
  cases elemental : simple.isElemental with
  | true =>
    apply canonical.addElemental elemental agrees
    cases simple <;> first | exact added | cases elemental
  | false =>
    obtain rfl := eq_insert_of_add elemental added
    exact ⟨orderly_of_agrees (leads_insert canonical.leads elemental) agrees,
      distinct_insert canonical.distinct, ordered_insert canonical.ordered⟩

/-- What is merged into a canonical compound leaves it canonical. -/
theorem merge (canonical : first.Canonical) (merges : Compound.merge first second = some merged) :
    merged.Canonical := by
  induction second generalizing first with
  | nil => exact Option.some.inj merges ▸ canonical
  | cons simple rest ih =>
    rw [merge_cons] at merges
    obtain ⟨middle, added, merges⟩ := Option.bind_eq_some_iff.mp merges
    exact ih (canonical.add added) merges

end Canonical

/-- Canonical compounds have no merge just when they hold two type names, two ids or two
pseudo-elements that differ. Otherwise the merge is canonical and has the members of both, and no
others; only `*` may be missing, where something else stands. -/
theorem merge_canonical (first second : Compound) (canonical₁ : first.Canonical)
    (canonical₂ : second.Canonical) :
    (merge first second = none ↔
      (∃ name name', .typeName name ∈ first ∧ .typeName name' ∈ second ∧ name ≠ name') ∨
      (∃ name name', .idName name ∈ first ∧ .idName name' ∈ second ∧ name ≠ name') ∨
      ∃ simple ∈ first, ∃ simple' ∈ second, simple.isPseudoElement = true ∧
        simple'.isPseudoElement = true ∧ (simple == simple') = false) ∧
    ∀ merged, merge first second = some merged →
      merged.Canonical ∧ ∀ simple,
        (merged.contains simple = true →
          first.contains simple = true ∨ second.contains simple = true) ∧
        (first.contains simple = true ∨ second.contains simple = true →
          merged.contains simple = true ∨
            simple = .universal ∧ ∃ other ∈ merged, other ≠ .universal) := by
  constructor
  · rw [merge_eq_none_iff canonical₁.agrees canonical₂.agrees (fun _ _ _ => canonical₁.leads)
      canonical₂.leads]
    constructor
    · rintro ⟨simple', isMember', simple, isMember, clashes⟩
      rw [Simple.clashes_comm] at clashes
      rcases Simple.clashes_iff.mp clashes with
        ⟨name, name', rfl, rfl, different⟩ | ⟨name, name', rfl, rfl, different⟩ | different
      · exact .inl ⟨name, name', isMember, isMember', different⟩
      · exact .inr (.inl ⟨name, name', isMember, isMember', different⟩)
      · exact .inr (.inr ⟨simple, isMember, simple', isMember', different⟩)
    · have clash {simple simple' : Simple} (isMember : simple ∈ first) (isMember' : simple' ∈ second)
          (clashes : simple.clashes simple' = true) :
          ∃ simple ∈ second, ∃ member ∈ first, simple.clashes member = true :=
        ⟨simple', isMember', simple, isMember, Simple.clashes_comm simple simple' ▸ clashes⟩
      rintro (⟨name, name', isMember, isMember', different⟩ |
        ⟨name, name', isMember, isMember', different⟩ | ⟨simple, isMember, simple', isMember', different⟩)
      · exact clash isMember isMember' (Simple.clashes_iff.mpr (.inl ⟨name, name', rfl, rfl, different⟩))
      · exact clash isMember isMember'
          (Simple.clashes_iff.mpr (.inr (.inl ⟨name, name', rfl, rfl, different⟩)))
      · exact clash isMember isMember' (Simple.clashes_iff.mpr (.inr (.inr different)))
  · intro merged merges
    refine ⟨canonical₁.merge merges, fun simple => ⟨?_, fun contained => ?_⟩⟩
    · simp only [List.contains_iff_exists_mem_beq]
      rintro ⟨member, isMember, equal⟩
      have from' := List.mem_append.mp (subset_of_merge merges isMember)
      exact from'.imp (⟨member, ·, equal⟩) (⟨member, ·, equal⟩)
    · by_cases present : merged.contains simple = true
      · exact .inl present
      · obtain rfl : simple = .universal := by
          by_contra named
          exact present ((contains_merge_iff merges named).mpr contained)
        have nonempty : first ≠ [] ∨ second ≠ [] := by
          apply contained.imp <;>
          · rintro contained rfl
            cases contained
        obtain ⟨other, isOther⟩ := List.exists_mem_of_ne_nil _ (ne_nil_of_merge merges nonempty)
        refine .inr ⟨rfl, other, isOther, ?_⟩
        rintro rfl
        exact present (List.contains_iff_exists_mem_beq.mpr ⟨_, isOther, BEq.rfl⟩)

/-- The compound `p.a:hover::before`. -/
def paragraphBefore : Compound :=
  [.typeName "p", .className "a", .pseudo ⟨"hover", true, none, none⟩,
    .pseudo ⟨"before", false, none, none⟩]

/-- The compound `*#i:hover:focus`. -/
def anyFocused : Compound :=
  [.universal, .idName "i", .pseudo ⟨"hover", true, none, none⟩, .pseudo ⟨"focus", true, none, none⟩]

/-- The compound `p.a#i:hover:focus::before`. -/
def paragraphFocusedBefore : Compound :=
  [.typeName "p", .className "a", .idName "i", .pseudo ⟨"hover", true, none, none⟩,
    .pseudo ⟨"focus", true, none, none⟩, .pseudo ⟨"before", false, none, none⟩]

theorem paragraphFocusedBefore_canonical :
    paragraphBefore.Canonical ∧ anyFocused.Canonical ∧
      merge paragraphBefore anyFocused = some paragraphFocusedBefore ∧
      paragraphFocusedBefore.Canonical ∧
      (anyFocused.contains (.idName "i") = true → paragraphFocusedBefore.contains (.idName "i") = true) ∧
      paragraphFocusedBefore.contains .universal = false := by
  have canonical₁ : paragraphBefore.Canonical := by decide
  have canonical₂ : anyFocused.Canonical := by decide
  have merges : merge paragraphBefore anyFocused = some paragraphFocusedBefore := by rfl
  obtain ⟨canonical, members⟩ := (merge_canonical _ _ canonical₁ canonical₂).2 _ merges
  refine ⟨canonical₁, canonical₂, merges, canonical, fun contained => ?_, by decide⟩
  exact ((members (.idName "i")).2 (.inr contained)).resolve_right (by simp)

end Compound

end Selectors
