import Selectors.Bare
import Selectors.Matching

/-!
# Meaning of equal selectors

A selector and its bare form mean the same, so equal selectors do.
-/
namespace Selectors

variable {Element : Type}

section

variable (document : Document Element) (interpretation : Interpretation Element)

/-- Spans and line breaks mean nothing. -/
theorem holds_bare :
    Induction
      (fun simple => simple.bare.Holds document interpretation = simple.Holds document interpretation)
      (fun compound =>
        Compound.Holds document interpretation compound.bare =
          compound.Holds document interpretation)
      (fun chain => Chain.meaning document interpretation chain.bare =
        chain.meaning document interpretation)
      (fun alternatives =>
        Alternatives.Holds document interpretation alternatives.bare =
          alternatives.Holds document interpretation) := by
  constructor <;> intros <;>
    simp_all [Simple.bare, Compound.bare, Chain.bare, Alternatives.bare, Simple.Holds, Compound.Holds,
      Chain.meaning, Alternatives.Holds]

end

variable {document : Document Element} {interpretation : Interpretation Element}

/-- Equal selectors hold of the same elements. -/
theorem Simple.holds_of_beq {simple simple' : Simple} (equal : (simple == simple') = true) :
    simple.Holds document interpretation = simple'.Holds document interpretation := by
  have bare := Simple.beq_iff_bare.mp equal
  rw [← (holds_bare document interpretation).simple simple, bare,
    (holds_bare document interpretation).simple]

theorem Compound.holds_of_contains {compound : Compound} {simple : Simple} {element : Element}
    (contained : compound.contains simple = true)
    (here : compound.Holds document interpretation element) :
    simple.Holds document interpretation element := by
  obtain ⟨member, isMember, equal⟩ := List.contains_iff_exists_mem_beq.mp contained
  rw [Simple.holds_of_beq equal]
  exact holds_iff.mp here member isMember

end Selectors
