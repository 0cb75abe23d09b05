import Selectors.Covering.Chain
import Selectors.Proofs.Chain.Shape
import Selectors.Proofs.Matching.Path

/-!
# Soundness of the walk

The walk looks for the next compound everywhere in what is left of the other chain.
That is right after a descent, and after a combinator only where a count of what is
left binds the compound to its place. In an anchored chain no combinator leads to any
other compound, and then the walk is sound whenever its rule for compounds is.
-/
namespace Selectors

-- A pair that takes the second step takes the first.
theorem Document.leads_of_covers {Element : Type} {document : Document Element} {step step' : Step}
    {origin element : Element} (covers : step.covers step' = true)
    (leads : document.Leads step' origin element) : document.Leads step origin element := by
  rcases step with _ | _ | _ | _ <;> rcases step' with _ | _ | _ | _ <;>
    first
      | exact leads
      | exact Relation.TransGen.single leads
      | exact absurd covers (by decide)

namespace Chain

/-- Whether what is left after a combinator is so short that the walk cannot skip any of it. -/
def isBound : Chain → Bool
  | [_] | [_, .combinator _, _] => true
  | _ => false

/-- Whether combinators are among the last two steps only, and the last step is one if
there is any. -/
def anchored : Chain → Bool
  | .combinator _ :: rest => isBound rest && anchored rest
  | .compound _ :: rest => anchored rest
  | [] => true

-- The search finds a compound that passes the test and leaves what comes after.
theorem afterFirst?_eq_some {test : Compound → Chain → Bool} {passed chain left : Chain}
    (found : afterFirst? test passed chain = some left) :
    ∃ skipped members, chain = skipped ++ .compound members :: left ∧ left ≠ [] ∧
      test members (passed ++ skipped).tail = true := by
  fun_induction afterFirst? test passed chain with
  | case1 passed members next rest accepted =>
    obtain rfl := Option.some.inj found
    exact ⟨[], members, rfl, by simp, by simpa using accepted⟩
  | case2 passed members next rest refused ih =>
    obtain ⟨skipped, found, whole, more, accepted⟩ := ih found
    exact ⟨.compound members :: skipped, found, by simp [whole], more, by simpa using accepted⟩
  | case3 passed kind next rest ih =>
    obtain ⟨skipped, found, whole, more, accepted⟩ := ih found
    exact ⟨.combinator kind :: skipped, found, by simp [whole], more, by simpa using accepted⟩
  | case4 => simp at found

variable {Element : Type} {document : Document Element} {holds : Compound → Element → Prop}

/-- The rule is right about the compounds of the chains. It may rely on what stands above
the second compound where that holds no combinator. -/
def RuleSound (document : Document Element) (holds : Compound → Element → Prop)
    (rule : CompoundRule) (chain₁ chain₂ : Chain) : Prop :=
  ∀ first second above, .compound first ∈ chain₁ → .compound second ∈ chain₂ → above ⊆ chain₂ →
    rule first second above = true → ∀ element, holds second element →
      ((∀ component ∈ above, component.isCombinator = false) →
        ∃ top, Path document holds (above ++ [.compound second]) top element) →
      holds first element

theorem RuleSound.mono {rule : CompoundRule} {chain₁ chain₂ part₁ part₂ : Chain}
    (sound : RuleSound document holds rule chain₁ chain₂) (within₁ : part₁ ⊆ chain₁)
    (within₂ : part₂ ⊆ chain₂) : RuleSound document holds rule part₁ part₂ := by
  intro first second above isFirst isSecond isAbove
  exact sound first second above (within₁ isFirst) (within₂ isSecond) (List.Subset.trans isAbove within₂)

-- The compound that the search finds holds what it was found for.
theorem RuleSound.found {rule : CompoundRule} {chain₁ skipped left : Chain}
    {first members : Compound} {top middle : Element}
    (sound : RuleSound document holds rule chain₁ (skipped ++ .compound members :: left))
    (isFirst : .compound first ∈ chain₁) (accepted : rule first members skipped.tail = true)
    (path : Path document holds (skipped ++ [.compound members]) top middle) :
    holds first middle := by
  have here := path.holds_last
  have within : skipped.tail ⊆ skipped ++ .compound members :: left := fun _ member =>
    List.mem_append_left _ (List.mem_of_mem_tail member)
  apply sound first members _ isFirst (by simp) within accepted _ here
  intro plain
  rcases skipped with _ | ⟨outer | kind, rest⟩
  · exact ⟨top, path⟩
  · obtain ⟨_, onward⟩ := path_cons_iff.mp path
    rcases rest with _ | ⟨_ | kind, rest⟩
    · obtain ⟨next, _, path⟩ := onward_cons.mp onward
      exact ⟨next, path⟩
    · obtain ⟨next, _, path⟩ := onward_cons.mp onward
      exact ⟨next, path⟩
    · -- a combinator before the found compound is no plain component
      have := plain (.combinator kind) (by simp)
      simp [Component.isCombinator] at this
  · cases path

-- The count binds the last combinator of the walk to its place.
theorem walk_last_step {rule : CompoundRule} {first : Compound} {kind : Combinator}
    {last : Component} {other : Chain}
    (covers : walk rule [.compound first, .combinator kind, last] other = true) :
    ∃ outer kind' inner final, last = .compound final ∧
      other = [.compound outer, .combinator kind', .compound inner] ∧
      Step.covers (some kind) (some kind') = true ∧
      rule first outer [] = true ∧ rule final inner [] = true := by
  simp only [walk, List.length_singleton, decide_true, Bool.true_and, Bool.and_eq_true,
    decide_eq_true_eq, Option.any_eq_true, Bool.not_eq_true', decide_eq_false_iff_not] at covers
  obtain ⟨atLeast, left, found, ⟨step, atMost⟩, inner⟩ := covers
  obtain ⟨skipped, members, rfl, _, accepted⟩ := afterFirst?_eq_some found
  rcases left with _ | ⟨outer | kind', left⟩
  · simp [Chain.step, Step.covers] at step
  · rcases kind <;> simp [Chain.step, Step.covers] at step
  · rcases last with final | _
    · simp only [pastStep, walk, Option.any_eq_true] at inner
      obtain ⟨⟨before, subject⟩, split, ends⟩ := inner
      obtain rfl := splitSubject?_eq_some_iff.mp split
      have short : skipped.length = 0 ∧ before.length = 0 := by
        simp only [List.length_append, List.length_cons, List.length_nil, Nat.not_lt] at atMost
        omega
      obtain rfl := List.eq_nil_of_length_eq_zero short.1
      obtain rfl := List.eq_nil_of_length_eq_zero short.2
      exact ⟨members, kind', subject, final, rfl, rfl, step, accepted, ends⟩
    · simp [walk] at inner

theorem walk_last_path {rule : CompoundRule} {first : Compound} {kind : Combinator}
    {last : Component} {other : Chain} {top element : Element}
    (sound : RuleSound document holds rule [.compound first, .combinator kind, last] other)
    (covers : walk rule [.compound first, .combinator kind, last] other = true)
    (path : Path document holds other top element) :
    Path document holds [.compound first, .combinator kind, last] top element := by
  obtain ⟨outer, kind', inner, final, rfl, rfl, step, accepted, ends⟩ := walk_last_step covers
  obtain ⟨here, onward⟩ := path_cons_iff.mp path
  obtain ⟨next, leads, path⟩ := onward_cons.mp onward
  obtain ⟨there, rfl⟩ := path_single_iff.mp path
  have holdsFirst : holds first top :=
    sound first outer [] (by simp) (by simp) (by simp) accepted top here fun _ =>
      ⟨top, .subject here⟩
  have holdsLast : holds final next :=
    sound final inner [] (by simp) (by simp) (by simp) ends next there fun _ =>
      ⟨next, .subject there⟩
  exact .onward holdsFirst (Document.leads_of_covers step leads) (.subject holdsLast)

/-- The walk of an anchored chain is sound: a path of the covered chain yields one of
the covering chain that begins no higher and ends in the same element. -/
theorem walk_sound {rule : CompoundRule} {chain₁ chain₂ : Chain} {top element : Element}
    (isAnchored : chain₁.anchored = true)
    (sound : RuleSound document holds rule chain₁ chain₂) (covers : walk rule chain₁ chain₂ = true)
    (path : Path document holds chain₂ top element) :
    ∃ top', Path document holds chain₁ top' element ∧
      ∀ above, document.Leads none above top → document.Leads none above top' := by
  fun_induction walk rule chain₁ chain₂ generalizing top with
  | case1 first kind rest other _ =>
    simp only [anchored, Bool.and_eq_true] at isAnchored
    obtain ⟨place, _⟩ := isAnchored
    unfold isBound at place
    split at place
    next last _ _ =>
      have same := walk_last_path sound (by simpa [walk] using covers) path
      exact ⟨top, same, fun _ below => below⟩
    next second kind' last _ _ =>
      -- the count binds the last of the two steps, and so the one before it to its place
      simp only [Bool.and_eq_true, Option.any_eq_true] at covers
      obtain ⟨_, left, found, ⟨step, _⟩, inner⟩ := covers
      obtain ⟨skipped, members, rfl, more, accepted⟩ := afterFirst?_eq_some found
      obtain ⟨middle, outer, path⟩ := (path_append_iff skipped left members top element).mp path
      obtain ⟨_, ⟨rfl, _⟩ | ⟨next, leads, path⟩⟩ := path_cons_iff.mp path
      · exact (more rfl).elim
      rcases second with second | _
      · have within : left.pastStep ⊆ skipped ++ .compound members :: left := fun _ member =>
          List.mem_append_right _ (List.mem_cons_of_mem _ (left.pastStep_suffix.subset member))
        have onward := walk_last_path (sound.mono (by simp) within) inner path
        have here := sound.found (by simp) accepted outer
        refine ⟨middle, .onward here (Document.leads_of_covers step leads) onward, fun _ below => ?_⟩
        exact outer.below_last below
      · simp [walk] at inner
    next => simp at place
  | case2 first second rest other ih =>
    simp only [Bool.and_eq_true, Option.any_eq_true] at covers
    obtain ⟨_, left, found, step, inner⟩ := covers
    obtain ⟨skipped, members, rfl, more, accepted⟩ := afterFirst?_eq_some found
    obtain ⟨middle, outer, path⟩ := (path_append_iff skipped left members top element).mp path
    obtain ⟨_, ⟨rfl, _⟩ | ⟨next, leads, path⟩⟩ := path_cons_iff.mp path
    · exact (more rfl).elim
    have within : left.pastStep ⊆ skipped ++ .compound members :: left := fun _ member =>
      List.mem_append_right _ (List.mem_cons_of_mem _ (left.pastStep_suffix.subset member))
    obtain ⟨start, onward, higher⟩ := ih left (by simpa [anchored] using isAnchored)
      (sound.mono (by simp) within) inner path
    have here := sound.found (by simp) accepted outer
    -- descent joins whatever the search skipped
    have below : document.Leads none middle next := Document.leads_of_covers step leads
    refine ⟨middle, .onward here (higher _ below) onward, fun _ below => ?_⟩
    exact outer.below_last below
  | case3 last other =>
    simp only [Option.any_eq_true] at covers
    obtain ⟨⟨before, subject⟩, split, ends⟩ := covers
    obtain rfl := splitSubject?_eq_some_iff.mp split
    have holdsLast := sound last subject before (by simp) (by simp) (by simp) ends _ path.holds_last
      fun _ => ⟨top, path⟩
    exact ⟨_, .subject holdsLast, fun _ below => path.below_last below⟩
  | case4 => simp at covers

end Chain

end Selectors
