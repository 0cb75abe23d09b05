import Selectors.Basic

/-!
# Covering of chains

A chain covers another when every element the other matches is matched by it.
The walk goes through the covering chain from left to right and finds for each
of its compounds the first compound of the other chain that it covers, given a
rule for compounds. The answer `false` means only that this walk finds no cover.
-/
namespace Selectors

/-- A rule that tells whether the first compound covers the second, which stands
below the components of the chain. -/
abbrev CompoundRule := Compound → Compound → Chain → Bool

/-- Whether a pair that takes the second step is counted as taking the first:
descent covers a child step but no sibling step, and `~` covers `+`. -/
def Step.covers : Step → Step → Bool
  | none, step => step == none || step == some .child
  | some .subsequentSibling, some kind => kind != .child
  | some kind, step => step == some kind

namespace Chain

/-- What is left of a chain after its first compound that passes the test. The
last component is not tried, so something is always left. The test also sees the
components between the first one and the one tried; `passed` holds those that
were tried or skipped before. -/
def afterFirst? (test : Compound → Chain → Bool) (passed : Chain) : Chain → Option Chain
  | .compound members :: next :: rest =>
    if test members passed.tail then some (next :: rest)
    else afterFirst? test (passed ++ [.compound members]) (next :: rest)
  | .combinator kind :: next :: rest => afterFirst? test (passed ++ [.combinator kind]) (next :: rest)
  | _ => none

/-- The walk, on what is left of both chains. -/
def walk (rule : CompoundRule) : Chain → Chain → Bool
  | .compound first :: .combinator kind :: rest, other =>
    rest.length + 2 ≤ other.length &&
      (afterFirst? (rule first) [] other).any fun left =>
        -- `.a > .c` does not cover `.a > .b > .c`, although `.c` covers `.b > .c`
        Step.covers (some kind) left.step && !(rest.length = 1 && 3 < other.length) &&
          walk rule rest left.pastStep
  | .compound first :: .compound second :: rest, other =>
    rest.length + 2 ≤ other.length &&
      (afterFirst? (rule first) [] other).any fun left =>
        Step.covers none left.step && walk rule (.compound second :: rest) left.pastStep
  | [.compound last], other =>
    other.splitSubject?.any fun (before, subject) => rule last subject before
  | _, _ => false
termination_by structural chain => chain

/-- Whether the first chain is seen to cover the second. Chains that end in a
combinator neither cover nor are covered. -/
def coversBy (rule : CompoundRule) (chain₁ chain₂ : Chain) : Bool :=
  chain₁.subject?.isSome && chain₂.subject?.isSome && walk rule chain₁ chain₂

/-- What is left is an end of the chain. -/
theorem afterFirst?_suffix {test : Compound → Chain → Bool} {passed chain left : Chain}
    (h : afterFirst? test passed chain = some left) : left <:+ chain := by
  fun_induction afterFirst? test passed chain with
  | case1 passed members next rest accepted =>
    obtain rfl := Option.some.inj h
    exact List.suffix_cons _ _
  | case2 passed members next rest refused ih => exact (ih h).trans (List.suffix_cons _ _)
  | case3 passed kind next rest ih => exact (ih h).trans (List.suffix_cons _ _)
  | case4 => simp at h

/-- The search asks about the compounds of the chain alone, each below some of
its components. -/
theorem afterFirst?_congr {test test' : Compound → Chain → Bool} {passed chain : Chain}
    (h : ∀ members above, .compound members ∈ chain → above ⊆ passed ++ chain →
      test members above = test' members above) :
    afterFirst? test passed chain = afterFirst? test' passed chain := by
  have tail_subset (chain : Chain) : passed.tail ⊆ passed ++ chain := fun _ hc =>
    List.mem_append_left _ (List.mem_of_mem_tail hc)
  fun_induction afterFirst? test passed chain with
  | case1 passed members next rest accepted =>
    rw [h members _ (by simp) (tail_subset _)] at accepted
    simp [afterFirst?, accepted]
  | case2 passed members next rest refused ih =>
    rw [h members _ (by simp) (tail_subset _)] at refused
    simp only [afterFirst?, refused, Bool.false_eq_true, if_false]
    exact ih (fun m above hm ha => h m above (List.mem_cons_of_mem _ hm) (by simpa using ha))
      fun _ _ hc => List.mem_append_left _ (List.mem_of_mem_tail hc)
  | case3 passed kind next rest ih =>
    simp only [afterFirst?]
    exact ih (fun m above hm ha => h m above (List.mem_cons_of_mem _ hm) (by simpa using ha))
      fun _ _ hc => List.mem_append_left _ (List.mem_of_mem_tail hc)
  | case4 passed chain => rcases chain with _ | ⟨_ | _, _ | _⟩ <;> simp_all [afterFirst?]

/-- The walk asks about a compound of the first chain and one of the second, below
some of the components of the second. -/
theorem walk_congr {rule rule' : CompoundRule} {chain₁ chain₂ : Chain}
    (h : ∀ first second above, .compound first ∈ chain₁ → .compound second ∈ chain₂ →
      above ⊆ chain₂ → rule first second above = rule' first second above) :
    walk rule chain₁ chain₂ = walk rule' chain₁ chain₂ := by
  have search {first : Compound} {chain₁ chain₂ : Chain}
      (h : ∀ first second above, .compound first ∈ chain₁ → .compound second ∈ chain₂ →
        above ⊆ chain₂ → rule first second above = rule' first second above)
      (hf : .compound first ∈ chain₁) :
      afterFirst? (rule first) [] chain₂ = afterFirst? (rule' first) [] chain₂ :=
    afterFirst?_congr fun m above hm ha => h first m above hf hm ha
  have narrow {chain₁ chain₂ rest left : Chain}
      (h : ∀ first second above, .compound first ∈ chain₁ → .compound second ∈ chain₂ →
        above ⊆ chain₂ → rule first second above = rule' first second above)
      (hrest : rest <:+ chain₁) (hleft : left <:+ chain₂) (first second : Compound) (above : Chain)
      (hf : .compound first ∈ rest) (hs : .compound second ∈ left.pastStep)
      (ha : above ⊆ left.pastStep) : rule first second above = rule' first second above :=
    have hpast := left.pastStep_suffix.trans hleft
    h first second above (hrest.subset hf) (hpast.subset hs) (List.Subset.trans ha hpast.subset)
  fun_induction walk rule chain₁ chain₂ with
  | case1 first kind rest other ih =>
    rw [walk, ← search h (by simp)]
    cases found : afterFirst? (rule first) [] other with
    | none => rfl
    | some left =>
      have hrest : rest <:+ .compound first :: .combinator kind :: rest := ⟨[_, _], rfl⟩
      simp only [Option.any_some, ih left (narrow h hrest (afterFirst?_suffix found))]
  | case2 first second rest other ih =>
    rw [walk, ← search h (by simp)]
    cases found : afterFirst? (rule first) [] other with
    | none => rfl
    | some left =>
      have hrest := List.suffix_cons (Component.compound first) (.compound second :: rest)
      simp only [Option.any_some, ih left (narrow h hrest (afterFirst?_suffix found))]
  | case3 last other =>
    rw [walk]
    cases split : other.splitSubject? with
    | none => rfl
    | some parts =>
      obtain rfl := splitSubject?_eq_some_iff.mp split
      exact h last parts.2 parts.1 (by simp) (by simp) (by simp)
  | case4 chain other noCombinator noCompound noLast =>
    rcases chain with _ | ⟨first | kind, rest⟩
    · rfl
    · rcases rest with _ | ⟨second | kind, rest⟩
      · exact (noLast first rfl).elim
      · exact (noCompound first second rest rfl).elim
      · exact (noCombinator first kind rest rfl).elim
    · rfl

end Chain

end Selectors
