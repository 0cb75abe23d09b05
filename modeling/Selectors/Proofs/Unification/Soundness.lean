import Selectors.Proofs.Matching.Trail
import Selectors.Proofs.Matching.Path
import Selectors.Proofs.Unification.Woven
import Selectors.Rules

/-!
# Soundness of unification

What a unification matches is matched by both lists. The subject of a woven chain holds
what both subjects hold, and a chain that is put between the other one and its subject
still leaves that one above the subject.
-/
namespace Selectors

variable {Element : Type}

/-- What simple selectors say of elements, pseudos being taken as they stand. -/
structure Assignment (Element : Type) where
  holds : Simple → Element → Prop
  universal : ∀ element, holds .universal element
  /-- Equal selectors say the same. -/
  same : ∀ {simple simple' : Simple}, (simple == simple') = true → holds simple = holds simple'

namespace Assignment

/-- Reads simple selectors by their bare forms. -/
def ofBare (plain : Simple → Element → Prop) (universal : ∀ element, plain .universal element) :
    Assignment Element where
  holds simple := plain simple.bare
  universal := universal
  same equal := congrArg plain (Simple.beq_iff_bare.mp equal)

/-- Whether all members of the compound hold of the element. -/
def Members (assignment : Assignment Element) (compound : Compound) (element : Element) : Prop :=
  ∀ simple ∈ compound, assignment.holds simple element

variable {assignment : Assignment Element} {element : Element}

@[simp] theorem members_nil : assignment.Members [] element ↔ True := by
  simp [Members]

@[simp] theorem members_cons {simple : Simple} {rest : Compound} :
    assignment.Members (simple :: rest) element ↔
      assignment.holds simple element ∧ assignment.Members rest element := by
  simp [Members]

@[simp] theorem members_append {first second : Compound} :
    assignment.Members (first ++ second) element ↔
      assignment.Members first element ∧ assignment.Members second element := by
  simp [Members, or_imp, forall_and]

theorem members_of_contains {compound : Compound} {simple : Simple}
    (contained : compound.contains simple = true) (here : assignment.Members compound element) :
    assignment.holds simple element := by
  obtain ⟨member, isMember, equal⟩ := List.contains_iff_exists_mem_beq.mp contained
  rw [assignment.same equal]
  exact here member isMember

-- Equal compounds say the same.
theorem members_of_beq {compound compound' : Compound} (equal : (compound == compound') = true) :
    assignment.Members compound element ↔ assignment.Members compound' element := by
  induction compound generalizing compound' with
  | nil =>
    cases compound' with
    | nil => exact Iff.rfl
    | cons => simp at equal
  | cons simple rest ih =>
    cases compound' with
    | nil => simp at equal
    | cons simple' rest' =>
      rw [List.cons_beq_cons, Bool.and_eq_true] at equal
      rw [members_cons, members_cons, assignment.same equal.1, ih equal.2]

-- Equal chains are the same conditions on elements.
theorem links_of_beq {chain chain' : Chain} (equal : (chain == chain') = true) :
    chain.links assignment.Members = chain'.links assignment.Members := by
  induction chain generalizing chain' with
  | nil =>
    cases chain' with
    | nil => rfl
    | cons => simp at equal
  | cons component rest ih =>
    cases chain' with
    | nil => simp at equal
    | cons component' rest' =>
      rw [List.cons_beq_cons, Bool.and_eq_true] at equal
      obtain ⟨first, others⟩ := equal
      cases component with
      | compound members =>
        cases component' with
        | compound members' =>
          have first : (members == members') = true := by
            rw [← Compound.same_eq_beq]
            exact first
          have same : assignment.Members members = assignment.Members members' :=
            funext fun element => propext (members_of_beq first)
          simp only [Chain.links_compound, same, ih others]
        | combinator => cases first
      | combinator kind =>
        cases component' with
        | compound => cases first
        | combinator kind' =>
          have first : (kind == kind') = true := first
          simp only [Chain.links_combinator, eq_of_beq first, ih others]

/-! ### Merged compounds -/

theorem members_of_insert {before : Simple → Bool} {simple : Simple} {compound : Compound}
    (here : assignment.Members (Compound.insert before simple compound) element) :
    assignment.Members compound element ∧ assignment.holds simple element := by
  unfold Compound.insert at here
  split at here
  · have universal := assignment.universal element
    simp only [members_cons, members_nil, and_true] at here ⊢
    exact ⟨universal, here⟩
  · split at here
    next contained => exact ⟨here, members_of_contains contained here⟩
    next =>
      rw [members_append, members_cons] at here
      obtain ⟨early, added, late⟩ := here
      refine ⟨?_, added⟩
      rw [← List.takeWhile_append_dropWhile (p := fun member => !before member) (l := compound)]
      exact members_append.mpr ⟨early, late⟩

theorem members_of_addElemental {simple : Simple} {compound merged : Compound}
    (added : Compound.addElemental simple compound = some merged)
    (here : assignment.Members merged element) :
    assignment.Members compound element ∧ assignment.holds simple element := by
  have universal := assignment.universal element
  unfold Compound.addElemental at added
  split at added
  next rest =>
    obtain rfl := Option.some.inj added
    rw [members_cons] at here ⊢
    exact ⟨⟨universal, here.2⟩, here.1⟩
  next name rest =>
    split at added
    next fits =>
      obtain rfl := Option.some.inj added
      refine ⟨here, ?_⟩
      rcases Bool.or_eq_true_iff.mp fits with equal | equal
      · rw [assignment.same equal]
        exact universal
      · rw [assignment.same equal]
        exact (members_cons.mp here).1
    next => simp at added
  next =>
    obtain rfl := Option.some.inj added
    exact ⟨members_nil.mpr trivial, (members_cons.mp here).1⟩
  next =>
    obtain rfl := Option.some.inj added
    split at here
    next equal =>
      rw [assignment.same equal]
      exact ⟨here, universal⟩
    next => exact (members_cons.mp here).symm

theorem members_of_add {simple : Simple} {compound merged : Compound}
    (added : Compound.add simple compound = some merged) (here : assignment.Members merged element) :
    assignment.Members compound element ∧ assignment.holds simple element := by
  unfold Compound.add at added
  split at added
  next => exact members_of_addElemental added here
  next => exact members_of_addElemental added here
  next =>
    split at added
    · simp at added
    · obtain rfl := Option.some.inj added
      exact members_of_insert here
  next =>
    split at added
    · simp at added
    · obtain rfl := Option.some.inj added
      exact members_of_insert here
  next =>
    obtain rfl := Option.some.inj added
    exact members_of_insert here

/-- A merged compound says what both compounds say. -/
theorem members_of_merge {first second merged : Compound}
    (merges : Compound.merge first second = some merged) (here : assignment.Members merged element) :
    assignment.Members first element ∧ assignment.Members second element := by
  induction second generalizing first with
  | nil =>
    obtain rfl := Option.some.inj merges
    exact ⟨here, members_nil.mpr trivial⟩
  | cons simple rest ih =>
    rw [Compound.merge_cons] at merges
    obtain ⟨more, added, merges⟩ := Option.bind_eq_some_iff.mp merges
    obtain ⟨hereMore, hereRest⟩ := ih merges
    obtain ⟨hereFirst, hereSimple⟩ := members_of_add added hereMore
    exact ⟨hereFirst, members_cons.mpr ⟨hereSimple, hereRest⟩⟩

end Assignment

/-! ### Woven chains -/

namespace Chain

variable {document : Document Element} {assignment : Assignment Element}

/-- A chain that ends in a compound and stands above another one still stands above the
subject of that one. -/
theorem matches_of_concat {holds : Compound → Element → Prop} {above inner : Chain}
    {subject : Compound} {element : Element} (ends : above.subject?.isSome)
    (begins : inner.step = none)
    (matched : Matches document holds (above ++ inner ++ [.compound subject]) element) :
    Matches document holds (above ++ [.compound subject]) element ∧
      Matches document holds (inner ++ [.compound subject]) element := by
  have subjectHolds := matched.holds_subject
  by_cases nonempty : inner = []
  · subst nonempty
    rw [List.append_nil] at matched
    exact ⟨matched, matches_iff_path.mpr ⟨element, .subject subjectHolds⟩⟩
  · obtain ⟨outer, last, rfl⟩ := subject?_isSome_iff.mp ends
    obtain ⟨first, rest, rfl⟩ := exists_eq_cons_of_step begins nonempty
    simp only [List.append_assoc, List.cons_append, List.nil_append] at matched ⊢
    obtain ⟨middle, outerMatched, onward⟩ := (matches_append_iff _ _ _ _).mp matched
    obtain ⟨next, leads, path⟩ := onward_cons.mp onward
    constructor
    · -- all that comes below `next` is below `middle` too
      have below : document.Leads none middle element := path.below_last leads
      refine (matches_append_iff outer [.compound subject] last element).mpr ⟨middle, outerMatched, ?_⟩
      exact onward_cons.mpr ⟨element, below, .subject subjectHolds⟩
    · exact matches_iff_path.mpr ⟨next, path⟩

/-- A woven chain above a subject matches what both chains above it match. -/
theorem matches_of_woven {chain₁ chain₂ chain : Chain} {subject : Compound} {element : Element}
    (woven : Woven chain₁ chain₂ chain) (begins₁ : chain₁.step = none) (begins₂ : chain₂.step = none)
    (matched : Matches document assignment.Members (chain ++ [.compound subject]) element) :
    Matches document assignment.Members (chain₁ ++ [.compound subject]) element ∧
      Matches document assignment.Members (chain₂ ++ [.compound subject]) element := by
  have alone : Matches document assignment.Members [.compound subject] element :=
    matches_iff_path.mpr ⟨element, .subject matched.holds_subject⟩
  induction woven generalizing subject element with
  | same equal =>
    refine ⟨?_, matched⟩
    simpa [Matches, Assignment.links_of_beq equal] using matched
  | onlyFirst => exact ⟨matched, alone⟩
  | onlySecond => exact ⟨alone, matched⟩
  | bound _ merges kind ih =>
    -- the compounds before the shared combinator are merged like subjects
    simp only [List.append_assoc, List.cons_append, List.nil_append] at matched ⊢
    obtain ⟨middle, outerMatched, onward⟩ := (matches_append_iff _ _ _ _).mp matched
    have middleHolds := outerMatched.holds_subject
    obtain ⟨holds₁, holds₂⟩ := Assignment.members_of_merge merges middleHolds
    obtain ⟨matched₁, matched₂⟩ := ih (step_of_append begins₁) (step_of_append begins₂) outerMatched
      (matches_iff_path.mpr ⟨middle, .subject middleHolds⟩)
    constructor
    · exact (matches_append_iff _ _ _ _).mpr ⟨middle, matched₁.with_subject holds₁, onward⟩
    · exact (matches_append_iff _ _ _ _).mpr ⟨middle, matched₂.with_subject holds₂, onward⟩
  | firstAbove ends => exact matches_of_concat ends begins₂ matched
  | secondAbove _ ends => exact (matches_of_concat ends begins₁ matched).symm

/-- Every chain of a unification matches what both chains match. -/
theorem unify_matches {chain₁ chain₂ chain : Chain} {chains : List Chain} {element : Element}
    (begins₁ : chain₁.step = none) (begins₂ : chain₂.step = none)
    (unifies : unify chain₁ chain₂ = some chains) (member : chain ∈ chains)
    (matched : chain.Matches document assignment.Members element) :
    chain₁.Matches document assignment.Members element ∧
      chain₂.Matches document assignment.Members element := by
  obtain ⟨before₁, before₂, before, subject₁, subject₂, subject, rfl, rfl, rfl, woven, merges⟩ :=
    woven_of_unify unifies member
  obtain ⟨holds₁, holds₂⟩ := Assignment.members_of_merge merges matched.holds_subject
  obtain ⟨matched₁, matched₂⟩ := matches_of_woven woven (step_of_append begins₁)
    (step_of_append begins₂) matched
  exact ⟨matched₁.with_subject holds₁, matched₂.with_subject holds₂⟩

end Chain

namespace SelectorList

/-- Whether an alternative matches the element, for a given meaning of compounds. -/
def Matches (document : Document Element) (holds : Compound → Element → Prop) (list : SelectorList)
    (element : Element) : Prop :=
  ∃ complex ∈ list.alternatives, Chain.Matches document holds complex.components element

-- Each alternative of a unification comes from a pair of alternatives.
theorem mem_unify {first second unified : SelectorList} (unifies : first.unify second = some unified)
    {complex : Complex} (member : complex ∈ unified.alternatives) :
    ∃ complex₁ ∈ first.alternatives, ∃ complex₂ ∈ second.alternatives, ∃ chains,
      Chain.unify complex₁.components complex₂.components = some chains ∧
        complex.components ∈ chains := by
  rw [unify_eq] at unifies
  unfold ofAnswers ofAlternatives at unifies
  dsimp only at unifies
  split at unifies
  · simp [Except.toOption] at unifies
  · obtain rfl := Option.some.inj unifies
    obtain ⟨chain, isChain, rfl⟩ := List.mem_map.mp member
    obtain ⟨isAnswer, _⟩ := List.mem_filter.mp isChain
    obtain ⟨chains, isAnswer, isChain⟩ := List.mem_flatten.mp isAnswer
    obtain ⟨answer, isAnswer, same⟩ := List.mem_filterMap.mp isAnswer
    obtain ⟨⟨chain₁, chain₂⟩, isPair, rfl⟩ := List.mem_map.mp isAnswer
    obtain ⟨complex₁, member₁, isPair⟩ := List.mem_flatMap.mp isPair
    obtain ⟨complex₂, member₂, same₂⟩ := List.mem_map.mp isPair
    obtain ⟨rfl, rfl⟩ := Prod.mk.inj same₂
    exact ⟨complex₁, member₁, complex₂, member₂, chains, same, isChain⟩

/-- Where no alternative begins with a combinator, all that a unification matches is
matched by both lists. -/
theorem unify_sound (first second unified : SelectorList)
    (begins₁ : ∀ complex ∈ first.alternatives, Chain.step complex.components = none)
    (begins₂ : ∀ complex ∈ second.alternatives, Chain.step complex.components = none)
    (unifies : first.unify second = some unified) (document : Document Element)
    (assignment : Assignment Element) (element : Element)
    (matched : unified.Matches document assignment.Members element) :
    first.Matches document assignment.Members element ∧
      second.Matches document assignment.Members element := by
  obtain ⟨complex, member, matched⟩ := matched
  obtain ⟨complex₁, member₁, complex₂, member₂, chains, unifies, isChain⟩ := mem_unify unifies member
  obtain ⟨matched₁, matched₂⟩ := Chain.unify_matches (begins₁ complex₁ member₁)
    (begins₂ complex₂ member₂) unifies isChain matched
  exact ⟨⟨complex₁, member₁, matched₁⟩, ⟨complex₂, member₂, matched₂⟩⟩

/-- The list `.a > .b`. -/
def childOfA : SelectorList :=
  ⟨[⟨[.compound [.className "a"], .combinator .child, .compound [.className "b"]], false⟩], none⟩

/-- The list `.c .d`. -/
def belowC : SelectorList :=
  ⟨[⟨[.compound [.className "c"], .compound [.className "d"]], false⟩], none⟩

/-- The list `.c .a > .b.d`. -/
def childOfABelowC : SelectorList :=
  ⟨[⟨[.compound [.className "c"], .compound [.className "a"], .combinator .child,
    .compound [.className "b", .className "d"]], false⟩], none⟩

/-- The first three elements of a line have the classes `c`, `a` and `b.d`. -/
def lineClasses : Assignment Nat :=
  .ofBare (fun
    | .universal => fun _ => True
    | .className "c" => (· = 0)
    | .className "a" => (· = 1)
    | .className "b" | .className "d" => (· = 2)
    | _ => fun _ => False) fun _ => trivial

theorem childOfABelowC_matches :
    (∀ complex ∈ childOfA.alternatives, Chain.step complex.components = none) ∧
      (∀ complex ∈ belowC.alternatives, Chain.step complex.components = none) ∧
      childOfA.unify belowC = some childOfABelowC ∧
      childOfABelowC.Matches .line lineClasses.Members 2 ∧
      childOfA.Matches .line lineClasses.Members 2 ∧ belowC.Matches .line lineClasses.Members 2 := by
  have begins₁ : ∀ complex ∈ childOfA.alternatives, Chain.step complex.components = none := by decide
  have begins₂ : ∀ complex ∈ belowC.alternatives, Chain.step complex.components = none := by decide
  have unifies : childOfA.unify belowC = some childOfABelowC := by rfl
  have matched : childOfABelowC.Matches .line lineClasses.Members 2 := by
    have hereC : lineClasses.Members [.className "c"] 0 := by
      simp [lineClasses, Assignment.ofBare, Simple.bare]
    have hereA : lineClasses.Members [.className "a"] 1 := by
      simp [lineClasses, Assignment.ofBare, Simple.bare]
    have hereBD : lineClasses.Members [.className "b", .className "d"] 2 := by
      simp [lineClasses, Assignment.ofBare, Simple.bare]
    have path : Chain.Path .line lineClasses.Members
        [.compound [.className "c"], .compound [.className "a"], .combinator .child,
          .compound [.className "b", .className "d"]] 0 2 :=
      .onward hereC (Document.line_leads_none_iff.mpr Nat.one_pos)
        (.onward hereA (Document.line_leads_child_iff.mpr rfl) (.subject hereBD))
    exact ⟨_, List.mem_singleton.mpr rfl, Chain.matches_iff_path.mpr ⟨0, path⟩⟩
  exact ⟨begins₁, begins₂, unifies, matched,
    unify_sound childOfA belowC childOfABelowC begins₁ begins₂ unifies .line lineClasses 2 matched⟩

end SelectorList

end Selectors
