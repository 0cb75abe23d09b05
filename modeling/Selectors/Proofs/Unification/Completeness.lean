import Selectors.Proofs.Chain.Alternation
import Selectors.Proofs.Unification.Soundness

/-!
# Completeness of unification

Where `>` and `+` join the compounds of two chains, each compound before the subject speaks
of one certain element. Merging the compounds that speak of the same one then loses nothing,
and if there is no merge, then there is no element that both chains match.
-/
namespace Selectors

variable {Element : Type}

/-! ### Merged compounds -/

namespace Assignment

/-- No element has two type names, two ids or two pseudo-elements. -/
structure Exclusive (assignment : Assignment Element) : Prop where
  typeName : ∀ {name name' element}, assignment.holds (.typeName name) element →
    assignment.holds (.typeName name') element → name = name'
  idName : ∀ {name name' element}, assignment.holds (.idName name) element →
    assignment.holds (.idName name') element → name = name'
  pseudoElement : ∀ {simple simple' element}, simple.isPseudoElement = true →
    simple'.isPseudoElement = true → assignment.holds simple element →
    assignment.holds simple' element → (simple == simple') = true

variable {assignment : Assignment Element} {element : Element}

theorem members_insert {before : Simple → Bool} {simple : Simple} {compound : Compound}
    (here : assignment.Members compound element) (added : assignment.holds simple element) :
    assignment.Members (Compound.insert before simple compound) element := by
  unfold Compound.insert
  split
  · exact members_cons.mpr ⟨added, members_nil.mpr trivial⟩
  · split
    · exact here
    · rw [← List.takeWhile_append_dropWhile (p := fun member => !before member) (l := compound),
        members_append] at here
      exact members_append.mpr ⟨here.1, members_cons.mpr ⟨added, here.2⟩⟩

theorem members_addElemental {simple : Simple} {compound merged : Compound}
    (added : Compound.addElemental simple compound = some merged)
    (here : assignment.Members compound element) (holds : assignment.holds simple element) :
    assignment.Members merged element := by
  unfold Compound.addElemental at added
  split at added
  next rest =>
    obtain rfl := Option.some.inj added
    exact members_cons.mpr ⟨holds, (members_cons.mp here).2⟩
  next name rest =>
    obtain ⟨_, same⟩ := Option.ite_none_right_eq_some.mp added
    obtain rfl := Option.some.inj same
    exact here
  next =>
    obtain rfl := Option.some.inj added
    exact members_cons.mpr ⟨holds, here⟩
  next =>
    obtain rfl := Option.some.inj added
    split
    · exact here
    · exact members_cons.mpr ⟨holds, here⟩

theorem members_add {simple : Simple} {compound merged : Compound}
    (added : Compound.add simple compound = some merged)
    (here : assignment.Members compound element) (holds : assignment.holds simple element) :
    assignment.Members merged element := by
  unfold Compound.add at added
  split at added
  next => exact members_addElemental added here holds
  next => exact members_addElemental added here holds
  next =>
    obtain ⟨_, same⟩ := Option.ite_none_left_eq_some.mp added
    obtain rfl := Option.some.inj same
    exact members_insert here holds
  next =>
    obtain ⟨_, same⟩ := Option.ite_none_left_eq_some.mp added
    obtain rfl := Option.some.inj same
    exact members_insert here holds
  next =>
    obtain rfl := Option.some.inj added
    exact members_insert here holds

/-- A merged compound holds where both compounds do. -/
theorem members_merge {first second merged : Compound}
    (merges : Compound.merge first second = some merged)
    (here : assignment.Members first element) (here' : assignment.Members second element) :
    assignment.Members merged element := by
  induction second generalizing first with
  | nil =>
    obtain rfl := Option.some.inj merges
    exact here
  | cons simple rest ih =>
    rw [Compound.merge_cons] at merges
    obtain ⟨more, added, merges⟩ := Option.bind_eq_some_iff.mp merges
    obtain ⟨holds, hereRest⟩ := members_cons.mp here'
    exact ih merges (members_add added here holds) hereRest

/-! ### Compounds that cannot be merged -/

namespace Exclusive

variable (exclusive : assignment.Exclusive)
include exclusive

theorem isSome_addElemental {simple : Simple} {compound : Compound}
    (elemental : simple.isElemental = true) (here : assignment.Members compound element)
    (holds : assignment.holds simple element) :
    (Compound.addElemental simple compound).isSome = true := by
  unfold Compound.addElemental
  split
  · rfl
  next name rest =>
    have fits : (simple == .universal || simple == .typeName name) = true := by
      cases simple
      case typeName name' =>
        obtain rfl := exclusive.typeName holds (members_cons.mp here).1
        simp
      case universal => rfl
      all_goals cases elemental
    rw [if_pos fits]
    rfl
  · rfl
  · rfl

/-- A member can be added to those that hold of the same element. -/
theorem isSome_add {simple : Simple} {compound : Compound}
    (here : assignment.Members compound element) (holds : assignment.holds simple element) :
    (Compound.add simple compound).isSome = true := by
  unfold Compound.add
  split
  next => exact exclusive.isSome_addElemental rfl here holds
  next => exact exclusive.isSome_addElemental rfl here holds
  next name =>
    have noOther : compound.holdsOtherId name = false := by
      refine List.any_eq_false.mpr fun member isMember => ?_
      cases member
      case idName other =>
        obtain rfl := exclusive.idName holds (here _ isMember)
        simp
      all_goals simp
    simp [noOther]
  next pseudo =>
    have fits : ¬(!pseudo.isClass && compound.any Simple.isPseudoElement &&
        !compound.contains (.pseudo pseudo)) = true := by
      simp only [Bool.and_eq_true, List.any_eq_true, Bool.not_eq_true']
      rintro ⟨⟨isElement, other, isMember, otherElement⟩, absent⟩
      have isElement : (Simple.pseudo pseudo).isPseudoElement = true := by
        simpa [Simple.isPseudoElement] using isElement
      have equal := exclusive.pseudoElement isElement otherElement holds (here other isMember)
      have contained := List.contains_iff_exists_mem_beq.mpr ⟨other, isMember, equal⟩
      rw [contained] at absent
      cases absent
    rw [if_neg fits]
    rfl
  next => rfl

/-- Compounds that hold of the same element have a merge. -/
theorem isSome_merge {first second : Compound} (here : assignment.Members first element)
    (here' : assignment.Members second element) : (Compound.merge first second).isSome = true := by
  induction second generalizing first with
  | nil => rfl
  | cons simple rest ih =>
    obtain ⟨holds, hereRest⟩ := members_cons.mp here'
    obtain ⟨more, added⟩ := Option.isSome_iff_exists.mp (exclusive.isSome_add here holds)
    rw [Compound.merge_cons, added]
    exact ih (members_add added here holds) hereRest

end Exclusive

end Assignment

/-! ### Woven chains -/

/-- A tight combinator leads to an element from one element only. -/
theorem Document.leads_unique {document : Document Element} {kind : Combinator}
    {origin origin' element : Element} (tight : kind.isTight = true)
    (leads : document.Leads (some kind) origin element)
    (leads' : document.Leads (some kind) origin' element) : origin = origin' := by
  cases kind with
  | child => exact Option.some.inj (leads.symm.trans leads')
  | nextSibling => exact Option.some.inj (leads.symm.trans leads')
  | subsequentSibling => cases tight

namespace Chain

variable {document : Document Element} {assignment : Assignment Element}

theorem weaveBackwards_nil_left (chain : Chain) :
    weaveBackwards [] chain = some [List.reverse chain] := by
  unfold weaveBackwards
  rfl

theorem weaveBackwards_nil_right (chain : Chain) :
    weaveBackwards chain [] = some [List.reverse chain] := by
  rcases chain with _ | ⟨component, rest⟩ <;> unfold weaveBackwards <;> rfl

/-- Bound chains are woven by merging the compounds nearest to the subject. -/
theorem weaveBackwards_bound (kind₁ kind₂ : Combinator) (members₁ members₂ : Compound)
    (outer₁ outer₂ : Chain) :
    weaveBackwards (.combinator kind₁ :: .compound members₁ :: outer₁)
        (.combinator kind₂ :: .compound members₂ :: outer₂) =
      if (Component.combinator kind₁ :: .compound members₁ :: outer₁) ==
          .combinator kind₂ :: .compound members₂ :: outer₂ then
        some [List.reverse (.combinator kind₂ :: .compound members₂ :: outer₂)]
      else if kind₁ = kind₂ then
        (Compound.merge members₁ members₂).bind fun members =>
          (weaveBackwards outer₁ outer₂).map fun woven =>
            woven.map (· ++ [.compound members, .combinator kind₁])
      else none := by
  rw [weaveBackwards.eq_def]
  simp only [List.isEmpty_cons, Bool.false_or, Bool.false_eq_true, if_false, Option.map_eq_bind]
  rfl

/-- Where two bound chains stand before an element, one of the woven chains does. -/
theorem reach_of_weaveBackwards {chain₁ chain₂ : Chain} {woven : List Chain}
    {condition : Element → Prop} {element : Element} (bound₁ : Bound Combinator.isTight chain₁)
    (bound₂ : Bound Combinator.isTight chain₂) (weaves : weaveBackwards chain₁ chain₂ = some woven)
    (reached₁ : Link.Reach document (.holds condition :: chain₁.links assignment.Members) element)
    (reached₂ : Link.Reach document (.holds condition :: chain₂.links assignment.Members) element) :
    ∃ chain ∈ woven, Link.Reach document
      (.holds condition :: (chain.links assignment.Members).reverse) element := by
  induction bound₁ generalizing chain₂ woven condition element with
  | nil =>
    rw [weaveBackwards_nil_left] at weaves
    obtain rfl := Option.some.inj weaves
    exact ⟨_, List.mem_singleton.mpr rfl, by simpa using reached₂⟩
  | @cons kind members₁ outer₁ tight bound₁ ih =>
    cases bound₂ with
    | nil =>
      rw [weaveBackwards_nil_right] at weaves
      obtain rfl := Option.some.inj weaves
      exact ⟨_, List.mem_singleton.mpr rfl, by simpa using reached₁⟩
    | @cons kind₂ members₂ outer₂ _ bound₂ =>
      rw [weaveBackwards_bound] at weaves
      split at weaves
      · obtain rfl := Option.some.inj weaves
        exact ⟨_, List.mem_singleton.mpr rfl, by simpa using reached₂⟩
      · obtain ⟨same, merged⟩ := Option.ite_none_right_eq_some.mp weaves
        subst same
        obtain ⟨members, merges, weaves⟩ := Option.bind_eq_some_iff.mp merged
        obtain ⟨inner, weavesInner, rfl⟩ := Option.map_eq_some_iff.mp weaves
        obtain ⟨here, origin, leads, outer₁⟩ := reached₁
        obtain ⟨_, origin', leads', outer₂⟩ := reached₂
        -- the compounds before the combinator speak of the same element
        obtain rfl := Document.leads_unique tight leads leads'
        have both := Assignment.members_merge merges (Link.holds_of_reach outer₁)
          (Link.holds_of_reach outer₂)
        obtain ⟨chain, isWoven, reached⟩ := ih bound₂ weavesInner
          (Link.reach_of_holds outer₁ both) (Link.reach_of_holds outer₂ both)
        refine ⟨_, List.mem_map.mpr ⟨chain, isWoven, rfl⟩, ?_⟩
        simpa using ⟨here, origin, leads, reached⟩

/-- Where two bound chains with the same combinators stand before an element, they can be
woven. -/
theorem isSome_weaveBackwards {chain₁ chain₂ : Chain} {condition : Element → Prop}
    {element : Element} (exclusive : assignment.Exclusive)
    (bound₁ : Bound Combinator.isTight chain₁) (bound₂ : Bound Combinator.isTight chain₂)
    (agree : chain₁.combinators <+: chain₂.combinators ∨ chain₂.combinators <+: chain₁.combinators)
    (reached₁ : Link.Reach document (.holds condition :: chain₁.links assignment.Members) element)
    (reached₂ : Link.Reach document (.holds condition :: chain₂.links assignment.Members) element) :
    (weaveBackwards chain₁ chain₂).isSome = true := by
  induction bound₁ generalizing chain₂ condition element with
  | nil =>
    rw [weaveBackwards_nil_left]
    rfl
  | @cons kind members₁ outer₁ tight bound₁ ih =>
    cases bound₂ with
    | nil =>
      rw [weaveBackwards_nil_right]
      rfl
    | @cons kind₂ members₂ outer₂ _ bound₂ =>
      rw [weaveBackwards_bound]
      split
      · rfl
      · simp only [combinators_combinator, combinators_compound, List.cons_prefix_cons] at agree
        obtain rfl : kind = kind₂ := agree.elim And.left fun agrees => agrees.1.symm
        obtain ⟨_, origin, leads, outer₁⟩ := reached₁
        obtain ⟨_, origin', leads', outer₂⟩ := reached₂
        obtain rfl := Document.leads_unique tight leads leads'
        have here₁ := Link.holds_of_reach outer₁
        have here₂ := Link.holds_of_reach outer₂
        obtain ⟨members, merges⟩ := Option.isSome_iff_exists.mp (exclusive.isSome_merge here₁ here₂)
        have both := Assignment.members_merge merges here₁ here₂
        have woven := ih bound₂ (agree.imp And.right And.right) (Link.reach_of_holds outer₁ both)
          (Link.reach_of_holds outer₂ both)
        simp [merges, woven]

-- A chain matches where its subject holds and the chain before it leads there.
theorem matches_append_subject_iff {before : Chain} {subject : Compound} {element : Element} :
    Matches document assignment.Members (before ++ [.compound subject]) element ↔
      Link.Reach document (.holds (assignment.Members subject) ::
        links assignment.Members (List.reverse before)) element := by
  simp [Matches]

section

variable {chain₁ chain₂ : Chain} {element : Element}
  (alternates₁ : chain₁.alternates Combinator.isTight = true)
  (alternates₂ : chain₂.alternates Combinator.isTight = true)
  (matched₁ : chain₁.Matches document assignment.Members element)
  (matched₂ : chain₂.Matches document assignment.Members element)
include alternates₁ alternates₂ matched₁ matched₂

/-- What both chains match is matched by a chain of their unification. -/
theorem exists_matches_of_unify {chains : List Chain} (unifies : unify chain₁ chain₂ = some chains) :
    ∃ chain ∈ chains, chain.Matches document assignment.Members element := by
  obtain ⟨before₁, subject₁, rfl, bound₁⟩ := exists_bound_of_alternates alternates₁
  obtain ⟨before₂, subject₂, rfl, bound₂⟩ := exists_bound_of_alternates alternates₂
  rw [unify_append_compound] at unifies
  obtain ⟨subject, merges, unifies⟩ := Option.bind_eq_some_iff.mp unifies
  obtain ⟨woven, weaves, rfl⟩ := Option.map_eq_some_iff.mp unifies
  have both := Assignment.members_merge merges matched₁.holds_subject matched₂.holds_subject
  rw [matches_append_subject_iff] at matched₁ matched₂
  obtain ⟨before, isWoven, reached⟩ := reach_of_weaveBackwards bound₁ bound₂ weaves
    (Link.reach_of_holds matched₁ both) (Link.reach_of_holds matched₂ both)
  refine ⟨_, List.mem_map.mpr ⟨before, isWoven, rfl⟩, matches_append_subject_iff.mpr ?_⟩
  rwa [links_reverse]

/-- Chains that match the same element have a unification if their combinators agree. -/
theorem isSome_unify (exclusive : assignment.Exclusive)
    (agree : chain₁.combinators <:+ chain₂.combinators ∨
      chain₂.combinators <:+ chain₁.combinators) : (unify chain₁ chain₂).isSome = true := by
  obtain ⟨before₁, subject₁, rfl, bound₁⟩ := exists_bound_of_alternates alternates₁
  obtain ⟨before₂, subject₂, rfl, bound₂⟩ := exists_bound_of_alternates alternates₂
  have agree : combinators (List.reverse before₁) <+: combinators (List.reverse before₂) ∨
      combinators (List.reverse before₂) <+: combinators (List.reverse before₁) := by
    simpa using agree
  obtain ⟨subject, merges⟩ := Option.isSome_iff_exists.mp
    (exclusive.isSome_merge matched₁.holds_subject matched₂.holds_subject)
  have both := Assignment.members_merge merges matched₁.holds_subject matched₂.holds_subject
  rw [matches_append_subject_iff] at matched₁ matched₂
  have woven := isSome_weaveBackwards exclusive bound₁ bound₂ agree
    (Link.reach_of_holds matched₁ both) (Link.reach_of_holds matched₂ both)
  simpa [unify_append_compound, merges, weave] using woven

end

/-- Where `>` and `+` join the compounds of both chains, their unification matches exactly what
both match. Without one, and if the combinators are the same as far as both chains go, there is
nothing that both match. -/
theorem unify_tight (chain₁ chain₂ : Chain)
    (alternates₁ : chain₁.alternates Combinator.isTight = true)
    (alternates₂ : chain₂.alternates Combinator.isTight = true)
    (document : Document Element) (assignment : Assignment Element)
    (exclusive : assignment.Exclusive) :
    (∀ chains, unify chain₁ chain₂ = some chains → ∀ element,
        (∃ chain ∈ chains, chain.Matches document assignment.Members element) ↔
          chain₁.Matches document assignment.Members element ∧
            chain₂.Matches document assignment.Members element) ∧
      (unify chain₁ chain₂ = none →
        chain₁.combinators <:+ chain₂.combinators ∨ chain₂.combinators <:+ chain₁.combinators →
          ∀ element, ¬(chain₁.Matches document assignment.Members element ∧
            chain₂.Matches document assignment.Members element)) := by
  constructor
  · intro chains unifies element
    constructor
    · rintro ⟨chain, member, matched⟩
      exact unify_matches (step_of_alternates alternates₁) (step_of_alternates alternates₂)
        unifies member matched
    · rintro ⟨matched₁, matched₂⟩
      exact exists_matches_of_unify alternates₁ alternates₂ matched₁ matched₂ unifies
  · rintro fails agree element ⟨matched₁, matched₂⟩
    have unifies := isSome_unify alternates₁ alternates₂ matched₁ matched₂ exclusive agree
    rw [fails] at unifies
    cases unifies

open SelectorList (lineClasses)

/-- The chain `.c > .a > .b`. -/
def childOfChild : Chain :=
  [.compound [.className "c"], .combinator .child, .compound [.className "a"], .combinator .child,
    .compound [.className "b"]]

/-- The chain `* > .d`. -/
def childOfAny : Chain :=
  [.compound [.universal], .combinator .child, .compound [.className "d"]]

/-- The chain `name.b > .d`. -/
def childOfType (name : String) : Chain :=
  [.compound [.typeName name, .className "b"], .combinator .child, .compound [.className "d"]]

theorem lineClasses_exclusive : lineClasses.Exclusive where
  typeName here := by cases here
  idName here := by cases here
  pseudoElement {simple simple' element} isElement _ here _ := by
    cases simple
    case pseudo pseudo =>
      obtain ⟨_, _, _, _ | ⟨_, _⟩⟩ := pseudo <;> cases here
    all_goals cases isElement

theorem childOfChild_unify :
    childOfChild.alternates Combinator.isTight = true ∧
      childOfAny.alternates Combinator.isTight = true ∧
      (∀ name, (childOfType name).alternates Combinator.isTight = true) ∧
      lineClasses.Exclusive ∧
      (∃ chains, unify childOfChild childOfAny = some chains ∧
        ∃ chain ∈ chains, chain.Matches .line lineClasses.Members 2) ∧
      unify (childOfType "x") (childOfType "y") = none ∧
      (childOfType "x").combinators <:+ (childOfType "y").combinators ∧
      ∀ element, ¬((childOfType "x").Matches .line lineClasses.Members element ∧
        (childOfType "y").Matches .line lineClasses.Members element) := by
  have hereC : lineClasses.Members [.className "c"] 0 := by
    simp [lineClasses, Assignment.ofBare, Simple.bare]
  have hereA : lineClasses.Members [.className "a"] 1 := by
    simp [lineClasses, Assignment.ofBare, Simple.bare]
  have hereB : lineClasses.Members [.className "b"] 2 := by
    simp [lineClasses, Assignment.ofBare, Simple.bare]
  have hereD : lineClasses.Members [.className "d"] 2 := by
    simp [lineClasses, Assignment.ofBare, Simple.bare]
  have hereAny : lineClasses.Members [.universal] 1 := by
    simp [lineClasses, Assignment.ofBare, Simple.bare]
  have down (above : Nat) : Document.line.Leads (some .child) above (above + 1) :=
    Document.line_leads_child_iff.mpr rfl
  have matched₁ : childOfChild.Matches .line lineClasses.Members 2 :=
    matches_iff_path.mpr ⟨0, .onward hereC (down 0) (.onward hereA (down 1) (.subject hereB))⟩
  have matched₂ : childOfAny.Matches .line lineClasses.Members 2 :=
    matches_iff_path.mpr ⟨1, .onward hereAny (down 1) (.subject hereD)⟩
  obtain ⟨chains, unifies⟩ : ∃ chains, unify childOfChild childOfAny = some chains := ⟨_, rfl⟩
  have found := (unify_tight childOfChild childOfAny rfl rfl .line lineClasses
    lineClasses_exclusive).1 chains unifies 2
  have apart := (unify_tight (childOfType "x") (childOfType "y") rfl rfl .line
    lineClasses lineClasses_exclusive).2 rfl (.inl (List.suffix_refl _))
  exact ⟨rfl, rfl, fun _ => rfl, lineClasses_exclusive,
    ⟨chains, unifies, found.mpr ⟨matched₁, matched₂⟩⟩, rfl, List.suffix_refl _, apart⟩

end Chain

end Selectors
