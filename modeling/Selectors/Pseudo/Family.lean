import Selectors.Basic

/-!
# Families of pseudos

How a pseudo reads its nested list depends on its bare name alone.
-/
namespace Selectors

inductive Family where
  /-- The element matches the list: `:is`, `:matches`, `:any`, `:where`. -/
  | anyOf
  /-- An element related to this one matches the list: `:has`, `:host`, `:host-context`. -/
  | related
  /-- The element is assigned to a slot and matches the list: `::slotted`. -/
  | slotted
  /-- The element does not match the list: `:not`. -/
  | noneOf
  /-- The element is being presented and matches the list: `:current`. -/
  | current
  /-- The element matches the list and has one of certain positions among the
  siblings that do: `:nth-child`, `:nth-last-child`. -/
  | counted
  /-- Nothing is known about any other pseudo. -/
  | unknown
deriving DecidableEq, Repr

namespace Family

def ofName : String → Family
  | "is" | "matches" | "any" | "where" => anyOf
  | "has" | "host" | "host-context" => related
  | "slotted" => slotted
  | "not" => noneOf
  | "current" => current
  | "nth-child" | "nth-last-child" => counted
  | _ => unknown

/-- The bare names of the pseudos that belong to the family. Those of which nothing is known cannot
be listed. -/
def names : Family → List String
  | anyOf => ["is", "matches", "any", "where"]
  | related => ["has", "host", "host-context"]
  | slotted => ["slotted"]
  | noneOf => ["not"]
  | current => ["current"]
  | counted => ["nth-child", "nth-last-child"]
  | unknown => []

theorem ofName_of_mem_names {family : Family} : ∀ name ∈ family.names, ofName name = family := by
  cases family <;> decide

/-- Something is known of just the pseudos with the names that are listed. -/
theorem ofName_eq_iff {name : String} {family : Family} (known : family ≠ .unknown) :
    ofName name = family ↔ name ∈ family.names := by
  refine ⟨?_, ofName_of_mem_names name⟩
  rintro rfl
  unfold ofName at known ⊢
  split at known <;> simp_all [names]

/-- Whether an element that a pseudo of this family matches also matches an
alternative of the nested list. -/
def impliesNested : Family → Bool
  | anyOf | counted => true
  | _ => false

end Family

def Pseudo.family (pseudo : Pseudo) : Family := .ofName pseudo.bareName

theorem Pseudo.family_eq_iff {pseudo : Pseudo} {family : Family} (known : family ≠ .unknown) :
    pseudo.family = family ↔ pseudo.bareName ∈ family.names :=
  Family.ofName_eq_iff known

end Selectors
