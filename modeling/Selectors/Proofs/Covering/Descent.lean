import Selectors.Proofs.Covering.Anchored
import Selectors.Proofs.Unification.Overlay

/-!
# Covering of chains without combinators

Between compounds alone every step is a descent, and the walk may take the first compound that
will do: what comes after it holds whatever comes after a later one. So a chain is walked through
just when its compounds are found in the other chain in their order, the last in the last, and the
count of what is left never stands in the way.
-/
namespace Selectors

namespace Chain

/-- Compounds alone, each below the one before it. -/
def descend (compounds : List Compound) : Chain := compounds.map .compound

@[simp] theorem descend_nil : descend [] = [] := rfl

@[simp] theorem descend_cons (members : Compound) (rest : List Compound) :
    descend (members :: rest) = .compound members :: descend rest := rfl

@[simp] theorem length_descend (compounds : List Compound) :
    (descend compounds).length = compounds.length :=
  List.length_map ..

@[simp] theorem mem_descend {members : Compound} {compounds : List Compound} :
    .compound members ∈ descend compounds ↔ members ∈ compounds := by
  simp [descend]

theorem descend_append (first second : List Compound) :
    descend (first ++ second) = descend first ++ descend second :=
  List.map_append

theorem descend_reverse (compounds : List Compound) :
    descend compounds.reverse = (descend compounds).reverse :=
  List.map_reverse

theorem exists_eq_descend {chain : Chain}
    (free : ∀ component ∈ chain, component.isCombinator = false) :
    ∃ compounds, chain = descend compounds := by
  induction chain with
  | nil => exact ⟨[], rfl⟩
  | cons component rest ih =>
    obtain ⟨here, others⟩ := List.forall_mem_cons.mp free
    obtain ⟨compounds, rfl⟩ := ih others
    rcases component with members | kind
    · exact ⟨members :: compounds, rfl⟩
    · cases here

theorem splitSubject?_descend (before : List Compound) (subject : Compound) :
    splitSubject? (descend (before ++ [subject])) = some (descend before, subject) := by
  rw [descend_append]
  exact splitSubject?_append_compound _ _

@[simp] theorem step_descend (compounds : List Compound) : step (descend compounds) = none := by
  cases compounds <;> rfl

@[simp] theorem pastStep_descend (compounds : List Compound) :
    pastStep (descend compounds) = descend compounds := by
  cases compounds <;> rfl

/-! ### The search -/

-- The search passes over the compounds that are refused, and takes the next one.
theorem afterFirst?_descend {test : Compound → Chain → Bool} {accepts : Compound → Bool}
    (aloof : ∀ members above, test members above = accepts members) (passed : Chain)
    (before : List Compound) (subject : Compound) :
    afterFirst? test passed (descend (before ++ [subject])) =
      match before.dropWhile (!accepts ·) with
      | [] => none
      | _ :: rest => some (descend (rest ++ [subject])) := by
  induction before generalizing passed with
  | nil => rfl
  | cons members rest ih =>
    obtain ⟨next, after, more⟩ := List.exists_cons_of_ne_nil (List.append_ne_nil_of_right_ne_nil rest
      (List.cons_ne_nil subject []))
    rw [List.cons_append, descend_cons, more, descend_cons, afterFirst?, aloof, ← descend_cons, ← more,
      ih, List.dropWhile_cons]
    cases accepts members <;> rfl

/-! ### The walk -/

variable {rule : CompoundRule}

theorem walk_descend_cons (first : Compound) (rest before₂ : List Compound)
    (subject₁ subject₂ : Compound) :
    walk rule (descend (first :: rest ++ [subject₁])) (descend (before₂ ++ [subject₂])) =
      (decide (rest.length < before₂.length) &&
        (afterFirst? (rule first) [] (descend (before₂ ++ [subject₂]))).any fun left =>
          Step.covers none left.step &&
            walk rule (descend (rest ++ [subject₁])) left.pastStep) := by
  obtain ⟨next, after, more⟩ := List.exists_cons_of_ne_nil
    (List.append_ne_nil_of_right_ne_nil rest (List.cons_ne_nil subject₁ []))
  have lengths : after.length = rest.length := by
    simpa using (congrArg List.length more).symm
  have left : rest.length + 2 ≤ before₂.length + 1 ↔ rest.length < before₂.length := by omega
  rw [List.cons_append, more, descend_cons, descend_cons, walk]
  simp [lengths, left]

/-- The walk finds the compounds of a chain in their order wherever they are to be found. The
rule for the compounds of the first chain pays no heed to what stands above. -/
theorem walk_descend_iff {before₁ before₂ : List Compound} {subject₁ subject₂ : Compound}
    (aloof : ∀ first ∈ before₁ ++ [subject₁], ∀ second above,
      rule first second above = rule first second []) :
    walk rule (descend (before₁ ++ [subject₁])) (descend (before₂ ++ [subject₂])) = true ↔
      Fits (fun first second => rule first second [] = true) before₁ before₂ ∧
        rule subject₁ subject₂ [] = true := by
  induction before₁ generalizing before₂ with
  | nil =>
    have search : walk rule (descend ([] ++ [subject₁])) (descend (before₂ ++ [subject₂])) =
        rule subject₁ subject₂ (descend before₂) := by
      rw [List.nil_append, descend_cons, descend_nil, walk, splitSubject?_descend]
      rfl
    rw [search, aloof subject₁ (by simp)]
    exact (and_iff_right List.SublistForall₂.nil).symm
  | cons first rest ih =>
    obtain ⟨here, others⟩ := List.forall_mem_cons.mp aloof
    rw [walk_descend_cons, afterFirst?_descend here, Fits.cons_iff_dropWhile fun _ => Iff.rfl]
    -- a compound found later would leave no more for the rest than the one met first
    split
    next refused => simp [refused]
    next later found =>
      -- the count asks for no more than the compounds that are still to be found
      have enough (fits : Fits (fun first second => rule first second [] = true) rest later) :
          rest.length < before₂.length := by
        have fewer := (List.dropWhile_suffix (!rule first · []) (l := before₂)).length_le
        rw [found, List.length_cons] at fewer
        exact Nat.lt_of_lt_of_le (Nat.lt_succ_of_le fits.length_le) fewer
      simp only [Option.any_some, step_descend, pastStep_descend, Bool.and_eq_true,
        decide_eq_true_eq, ih others, found]
      constructor
      · rintro ⟨-, -, fits, last⟩
        exact ⟨⟨_, later, rfl, fits⟩, last⟩
      · rintro ⟨⟨_, _, same, fits⟩, last⟩
        obtain ⟨rfl, rfl⟩ := List.cons.inj same
        exact ⟨enough fits, rfl, fits, last⟩

end Chain

/-! ### Plain chains -/

/-- What a plain compound covers does not depend on what stands above. -/
theorem Compound.covers_aloof {first : Compound} (plain : first.depth = 0) (second : Compound)
    (above : Chain) : first.covers second above = first.covers second [] := by
  unfold Compound.covers Compound.coversBy
  refine congrArg (· && _) (all_congr_of_mem fun simple member => ?_)
  have plain := Simple.depth_eq_zero_of_mem plain member
  unfold Compound.coveredByMember
  split
  · simp at plain
  · rfl

namespace Chain

/-- Among plain chains without combinators, covering is to find the compounds of the first in the
second in their order, the last in the last. -/
theorem covers_descend_iff {before₁ before₂ : List Compound} {subject₁ subject₂ : Compound}
    (plain : (descend (before₁ ++ [subject₁])).depth = 0) :
    Chain.covers (descend (before₁ ++ [subject₁])) (descend (before₂ ++ [subject₂])) = true ↔
      Fits (fun first second => Compound.covers first second [] = true) before₁ before₂ ∧
        Compound.covers subject₁ subject₂ [] = true := by
  rw [← walk_descend_iff fun first isFirst second above =>
    Compound.covers_aloof (Compound.depth_eq_zero_of_mem plain (mem_descend.mpr isFirst)) second above]
  simp [Chain.covers, coversBy, descend_append]

end Chain

end Selectors
