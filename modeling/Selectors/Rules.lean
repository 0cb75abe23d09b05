import Selectors.Chain.Unification
import Selectors.Covering.List
import Selectors.WellFormed

/-!
# Operations on lists

Unification and covering of selector lists rest on two rules for their parts. A
caller may bring rules of its own, which may keep a state or have any other
effect; the standard rules have none.
-/
namespace Selectors

/-- What the operations on lists need to know. -/
structure Rules (m : Type → Type) where
  /-- The chains that match what both chains match, or nothing if those cannot
  be written down. -/
  unify : Chain → Chain → m (Option (List Chain))
  /-- Whether each of the second alternatives is matched by one of the first. -/
  covers : Alternatives → Alternatives → m Bool

def Rules.standard : Rules Id where
  unify := Chain.unify
  covers := Alternatives.covers

namespace SelectorList

variable {m : Type → Type} [Monad m]

/-- The pairs of alternatives of two lists, those of the first list varying
slowest. -/
def pairs (list₁ list₂ : SelectorList) : List (Chain × Chain) :=
  list₁.alternatives.flatMap fun complex₁ =>
    list₂.alternatives.map fun complex₂ => (complex₁.components, complex₂.components)

/-- Puts what the rule answered for the pairs into one list. Chains without
components are left out, and if nothing remains there is no list. -/
def ofAnswers (answers : List (Option (List Chain))) : Option SelectorList :=
  let chains := (answers.filterMap id).flatten.filter (!·.isEmpty)
  (ofAlternatives (chains.map (⟨·, false⟩))).toOption

/-- A list that matches what both lists match. -/
def unifyBy (rules : Rules m) (list₁ list₂ : SelectorList) : m (Option SelectorList) := do
  let answers ← (pairs list₁ list₂).mapM fun pair => rules.unify pair.1 pair.2
  return ofAnswers answers

/-- Whether the first list matches every element that the second one does. -/
def coversBy (rules : Rules m) (list₁ list₂ : SelectorList) : m Bool :=
  rules.covers list₁.alternatives list₂.alternatives

def unify (list₁ list₂ : SelectorList) : Option SelectorList :=
  (unifyBy Rules.standard list₁ list₂).run

def covers (list₁ list₂ : SelectorList) : Bool := (coversBy Rules.standard list₁ list₂).run

theorem unify_eq (list₁ list₂ : SelectorList) :
    unify list₁ list₂ =
      ofAnswers ((pairs list₁ list₂).map fun pair => Chain.unify pair.1 pair.2) := by
  rw [unify, unifyBy]
  simp only [bind_pure_comp, Id.run_map, List.idRun_mapM]
  rfl

theorem covers_eq (list₁ list₂ : SelectorList) :
    covers list₁ list₂ = Alternatives.covers list₁.alternatives list₂.alternatives := rfl

end SelectorList

end Selectors
