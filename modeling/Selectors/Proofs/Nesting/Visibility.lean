import Selectors.Proofs.Nesting.Expansion
import Selectors.Visibility

/-!
# Visibility of nested rules

A chain is hidden if any part of it is, and a list only if all its alternatives are. The expansions
of an alternative take all combinations of parent alternatives, and among them the one that puts a
visible parent alternative everywhere. So where `&` does nothing but lead compounds of the rule
itself, a nested rule is hidden just when the rule or the one around it is.
-/
namespace Selectors

/-! ### Lists of chains -/

namespace Alternatives

theorem isHidden_append (first second : Alternatives) :
    isHidden (first ++ second) = (first.isHidden && second.isHidden) := by
  simp only [isHidden_eq_all, List.all_append]

/-- All combinations are hidden only if all first parts are, or all second parts. -/
theorem isHidden_followedBy (first second : Alternatives) :
    isHidden (first.followedBy second) = (first.isHidden || second.isHidden) := by
  rw [Bool.eq_iff_iff, Bool.or_eq_true]
  simp only [isHidden_eq_all, List.all_eq_true]
  constructor
  · intro combinations
    by_contra visible
    simp only [not_or, not_forall] at visible
    obtain ⟨⟨part, isPart, visiblePart⟩, rest, isRest, visibleRest⟩ := visible
    -- two visible parts make a visible whole
    have hidden := combinations (part ++ rest) (mem_followedBy.mpr ⟨part, isPart, rest, isRest, rfl⟩)
    rw [Complex.isHidden, Complex.components_append, Chain.isHidden_append, Bool.or_eq_true] at hidden
    exact hidden.elim visiblePart visibleRest
  · intro parts combination isCombination
    obtain ⟨part, isPart, rest, isRest, rfl⟩ := mem_followedBy.mp isCombination
    rw [Complex.isHidden, Complex.components_append, Chain.isHidden_append, Bool.or_eq_true]
    exact parts.imp (· part isPart) (· rest isRest)

theorem isHidden_congr {first second : Alternatives}
    (alike : List.Forall₂ (fun complex complex' => complex.isHidden = complex'.isHidden) first second) :
    first.isHidden = second.isHidden := by
  rw [isHidden_eq_all, isHidden_eq_all]
  induction alike with
  | nil => rfl
  | cons here _ ih => rw [List.all_cons, List.all_cons, here, ih]

end Alternatives

/-! ### What is put in the place of a reference -/

/-- A suffix neither hides nor shows what it is written after. -/
theorem Simple.isHidden_of_continued {suffix : String} {simple simple' : Simple}
    (made : simple.continued suffix = .ok simple') : simple'.isHidden = simple.isHidden := by
  rcases simple with _ | _ | ⟨_, _, _ | _, _ | _⟩ | _ | _ | _ | _ | _
  case typeName | className | idName | placeholder | pseudo.none.none =>
    obtain rfl := Except.ok.inj made
    rfl
  all_goals cases made

namespace Compound

theorem isHidden_append (first second : Compound) :
    isHidden (first ++ second) = (first.isHidden || second.isHidden) := by
  simp only [isHidden_eq_any, List.any_append]

theorem isHidden_of_suffixed {suffix : Option String} {subject subject' : Compound}
    (suffixed : Suffixed suffix subject subject') : subject'.isHidden = subject.isHidden := by
  cases suffixed with
  | none => rfl
  | empty => rfl
  | last before isLast =>
    simp only [isHidden_append, isHidden, Simple.isHidden_of_continued isLast]

/-- Whether `&` is mentioned nowhere but at the head. -/
def parentOnlyLeads : Compound → Bool
  | .parent _ :: others => !Compound.mentionsParent others
  | members => !members.mentionsParent

theorem parentOnlyLeads_cases {members : Compound} (leads : members.parentOnlyLeads = true) :
    members.mentionsParent = false ∨
      ∃ suffix others, members = .parent suffix :: others ∧ Compound.mentionsParent others = false := by
  unfold parentOnlyLeads at leads
  split at leads
  next suffix others => exact .inr ⟨suffix, others, rfl, by simpa using leads⟩
  next => exact .inl (by simpa using leads)

end Compound

/-- What takes the place of `&` is hidden if the parent alternative is or another member. -/
theorem Chain.isHidden_of_placed? {suffix : Option String} {others : Compound} {outer placed : Chain}
    (isPlaced : placed? suffix others outer = some placed) :
    placed.isHidden = (outer.isHidden || others.isHidden) := by
  unfold placed? at isPlaced
  split at isPlaced
  next bare =>
    obtain ⟨-, rfl⟩ : suffix = none ∧ others = [] := by simpa using bare
    obtain rfl := Option.some.inj isPlaced
    rw [Compound.isHidden, Bool.or_false]
  next =>
    obtain ⟨⟨before, subject⟩, split, isSuffixed⟩ := Option.bind_eq_some_iff.mp isPlaced
    obtain ⟨subject', isSubject, rfl⟩ := Option.map_eq_some_iff.mp isSuffixed
    obtain rfl := splitSubject?_eq_some_iff.mp split
    have same := Compound.isHidden_of_suffixed (Compound.suffixed_of_suffixed? isSubject)
    simp only [isHidden_append, isHidden, Compound.isHidden_append, same, Bool.or_false, Bool.or_assoc]

/-! ### Expansions -/

section

variable {parents : Alternatives}

theorem Component.isHidden_of_expansions? {component : Component} {parts : Alternatives}
    (leads : ∀ members, component = .compound members → Compound.parentOnlyLeads members = true)
    (expanded : component.expansions? parents = some parts) :
    parts.isHidden =
      (Chain.isHidden [component] || (Chain.mentionsParent [component] && parents.isHidden)) := by
  rcases component with members | kind
  · simp only [Chain.isHidden, Chain.mentionsParent, Bool.or_false]
    rcases Compound.parentOnlyLeads_cases (leads members rfl) with free | ⟨suffix, others, rfl, free⟩
    · rw [expansions?_plain (Compound.isReference_of_free free),
        Compound.expansion?_free free] at expanded
      obtain rfl := Option.some.inj expanded
      simp [Alternatives.isHidden, Complex.single, Chain.isHidden, free]
    · rw [expansions?_parent, Compound.expansion?_free free, Option.bind_some] at expanded
      -- joining the other members to the subject hides what putting them below it would
      have alike : List.Forall₂ (fun part below => part.isHidden = below.isHidden) parts
          (parents.followedBy [.single (.compound others)]) := by
        rw [Alternatives.followedBy_single, List.forall₂_map_right_iff]
        refine (forall₂_of_mapM expanded).flip.imp fun part outer isPart => ?_
        obtain ⟨placed, isPlaced, rfl⟩ := Option.map_eq_some_iff.mp isPart
        rw [Complex.isHidden, Complex.isHidden, Chain.isHidden_of_placed? isPlaced,
          Complex.components_append, Chain.isHidden_append]
        simp [Complex.single, Chain.isHidden]
      rw [Alternatives.isHidden_congr alike, Alternatives.isHidden_followedBy, Bool.or_comm]
      simp [Alternatives.isHidden, Complex.single, Chain.isHidden, Compound.isHidden,
        Compound.mentionsParent, Simple.mentionsParent, Simple.isHidden]
  · obtain rfl := Option.some.inj expanded
    rfl

/-- The expansions of a chain are hidden if the chain is, or if it has a reference and the parents
are. -/
theorem Chain.isHidden_of_expansions? {chain : Chain} {expansions : Alternatives}
    (leads : ∀ members, .compound members ∈ chain → Compound.parentOnlyLeads members = true)
    (expanded : chain.expansions? parents = some expansions) :
    expansions.isHidden = (chain.isHidden || (chain.mentionsParent && parents.isHidden)) := by
  induction chain generalizing expansions with
  | nil =>
    obtain rfl := Option.some.inj expanded
    rfl
  | cons component rest ih =>
    rw [expansions?_cons] at expanded
    obtain ⟨parts, others, isParts, isOthers, rfl⟩ := Option.map₂_eq_some_iff.mp expanded
    have here := Component.isHidden_of_expansions?
      (fun members same => leads members (same ▸ List.mem_cons_self)) isParts
    have later := ih (fun members isMember => leads members (List.mem_cons_of_mem _ isMember)) isOthers
    have whole : component :: rest = [component] ++ rest := rfl
    rw [Alternatives.isHidden_followedBy, here, later, whole, isHidden_append, mentionsParent_append,
      Bool.and_or_distrib_right]
    ac_rfl

theorem Complex.isHidden_of_expansions? {complex : Complex} {expansions : Alternatives}
    (leads : ∀ members, .compound members ∈ complex.components →
      Compound.parentOnlyLeads members = true)
    (expanded : complex.expansions? parents true = some expansions) :
    expansions.isHidden = (complex.isHidden || parents.isHidden) := by
  unfold expansions? at expanded
  split at expanded
  next mentions =>
    rw [Chain.isHidden_of_expansions? leads expanded, mentions, Bool.true_and, isHidden]
  next =>
    obtain rfl := Option.some.inj expanded
    rw [Alternatives.isHidden_followedBy, Bool.or_comm]
    simp [Alternatives.isHidden_eq_all]

theorem Alternatives.isHidden_of_expansions? {alternatives expansions : Alternatives}
    (leads : ∀ complex ∈ alternatives, ∀ members, .compound members ∈ complex.components →
      Compound.parentOnlyLeads members = true)
    (expanded : Alternatives.expansions? parents true alternatives = some expansions) :
    expansions.isHidden = (alternatives.isHidden || parents.isHidden) := by
  induction alternatives generalizing expansions with
  | nil =>
    obtain rfl := Option.some.inj expanded
    rfl
  | cons complex rest ih =>
    rw [expansions?_cons] at expanded
    obtain ⟨here, others, isHere, isOthers, rfl⟩ := Option.map₂_eq_some_iff.mp expanded
    obtain ⟨leadsHere, leadsRest⟩ := List.forall_mem_cons.mp leads
    rw [isHidden_append, Complex.isHidden_of_expansions? leadsHere isHere, ih leadsRest isOthers,
      ← Bool.or_and_distrib_right]
    simp [isHidden_eq_all]

end

namespace SelectorList

/-- Where `&` does nothing but lead compounds of the rule itself, a nested rule is hidden just when
the rule or the one around it is. -/
theorem nest_isHidden_iff (child parent list : SelectorList)
    (leads : ∀ complex ∈ child.alternatives, ∀ members, .compound members ∈ complex.components →
      Compound.parentOnlyLeads members = true)
    (nested : (child.nest (some parent) true).result = .ok list) :
    list.isHidden = true ↔ child.isHidden = true ∨ parent.isHidden = true := by
  obtain ⟨alternatives, expanded, rfl⟩ := result_nest_eq_ok_iff.mp nested
  rw [← Bool.or_eq_true, isHidden, Alternatives.isHidden_of_expansions? leads expanded]
  rfl

/-- The rule `&-x > &.c, .d`. -/
def ruleReferringAgain : SelectorList :=
  ⟨[⟨[.compound [.parent (some "-x")], .combinator .child,
      .compound [.parent none, .className "c"]], false⟩,
    ⟨[.compound [.className "d"]], false⟩], none⟩

/-- The rule `%h, .a`. -/
def placeholderOrA : SelectorList :=
  ⟨[⟨[.compound [.placeholder "h"]], false⟩, ⟨[.compound [.className "a"]], false⟩], none⟩

/-- The rule `%h, :is(%k) .b`. -/
def placeholderOrBelowIt : SelectorList :=
  ⟨[⟨[.compound [.placeholder "h"]], false⟩,
    ⟨[.compound [.pseudo ⟨"is", true, none, some ⟨[⟨[.compound [.placeholder "k"]], false⟩], none⟩⟩],
      .compound [.className "b"]], false⟩], none⟩

theorem ruleReferringAgain_isHidden :
    ∃ partly wholly,
      (∀ complex ∈ ruleReferringAgain.alternatives, ∀ members, .compound members ∈ complex.components →
        Compound.parentOnlyLeads members = true) ∧
      (ruleReferringAgain.nest (some placeholderOrA) true).result = .ok partly ∧
      partly.alternatives.length = 6 ∧ partly.isHidden = false ∧
      (ruleReferringAgain.nest (some placeholderOrBelowIt) true).result = .ok wholly ∧
      wholly.alternatives.length = 6 ∧ wholly.isHidden = true := by
  have leads : ∀ complex ∈ ruleReferringAgain.alternatives, ∀ members,
      .compound members ∈ complex.components → Compound.parentOnlyLeads members = true := by
    simp [ruleReferringAgain, Compound.parentOnlyLeads, Compound.mentionsParent, Simple.mentionsParent]
  refine ⟨_, _, leads, rfl, rfl, ?_, rfl, rfl, ?_⟩
  · rw [Bool.eq_false_iff, ne_eq, nest_isHidden_iff ruleReferringAgain placeholderOrA _ leads rfl]
    decide
  · exact (nest_isHidden_iff ruleReferringAgain placeholderOrBelowIt _ leads rfl).mpr (.inr rfl)

end SelectorList

end Selectors
