import Selectors.Basic

/-!
# Matching

What selectors mean. A document has elements with parents and ordered siblings,
and a chain is matched from its subject backwards: the subject holds of an
element, the compound before it holds of an element that the step between them
leads from, and so on. A chain that begins or ends in a combinator or holds two of
them side by side matches nothing.

What simple selectors say of an element is left open, but for `*`, which says
nothing, and for the pseudos with a nested list, which depend on the list only
through the elements that it matches.
-/
namespace Selectors

/-- Elements in a tree, the children of each in an order. -/
structure Document (Element : Type) where
  parent : Element → Option Element
  previous : Element → Option Element
  /-- Siblings share their parent. -/
  parent_previous : ∀ {earlier later}, previous later = some earlier → parent earlier = parent later
  /-- No two siblings follow the same one. -/
  previous_injective : ∀ {earlier later later'}, previous later = some earlier →
    previous later' = some earlier → later = later'
  /-- No element is above itself. -/
  ascent : WellFounded fun above below => parent below = some above
  /-- No element is before itself. -/
  order : WellFounded fun earlier later => previous later = some earlier

namespace Document

variable {Element : Type}

/-- Whether the step leads from the first element to the second. -/
def Leads (document : Document Element) : Step → Element → Element → Prop
  | none => Relation.TransGen fun above below => document.parent below = some above
  | some .child => fun above below => document.parent below = some above
  | some .nextSibling => fun earlier later => document.previous later = some earlier
  | some .subsequentSibling =>
    Relation.TransGen fun earlier later => document.previous later = some earlier

end Document

/-- A component as a condition on elements. -/
inductive Link (Element : Type) where
  | holds (condition : Element → Prop)
  | step (kind : Combinator)

namespace Link

variable {Element : Type}

/-- Whether an element is the subject of the links, which are given from the
subject backwards. -/
def Reach (document : Document Element) : List (Link Element) → Element → Prop
  | [.holds condition], element => condition element
  | .holds condition :: .step kind :: rest, element =>
    condition element ∧ ∃ origin, document.Leads (some kind) origin element ∧ Reach document rest origin
  | .holds condition :: .holds condition' :: rest, element =>
    condition element ∧
      ∃ origin, document.Leads none origin element ∧ Reach document (.holds condition' :: rest) origin
  | _, _ => False

end Link

variable {Element : Type}

/-- The chain as conditions on elements. -/
def Chain.links (holds : Compound → Element → Prop) (chain : Chain) : List (Link Element) :=
  chain.map fun
    | .compound members => .holds (holds members)
    | .combinator kind => .step kind

/-- Whether the chain matches the element, for a given meaning of compounds. -/
def Chain.Matches (document : Document Element) (holds : Compound → Element → Prop) (chain : Chain)
    (element : Element) : Prop :=
  Link.Reach document (chain.links holds).reverse element

/-- What simple selectors say of elements. A pseudo with a nested list is given
the elements that the list matches. -/
structure Interpretation (Element : Type) where
  plain : Simple → Element → Prop
  nesting : (name : String) → (isClass : Bool) → (argument : Option String) → (Element → Prop) →
    Element → Prop

/-- Takes the parent reference to mean the condition. -/
def Interpretation.withParent (interpretation : Interpretation Element) (condition : Element → Prop) :
    Interpretation Element where
  plain
    | .parent none => condition
    | simple => interpretation.plain simple
  nesting := interpretation.nesting

section

variable (document : Document Element) (interpretation : Interpretation Element)

mutual

def Simple.Holds : Simple → Element → Prop
  | .universal => fun _ => True
  | .pseudo ⟨name, isClass, argument, some ⟨alternatives, _⟩⟩ =>
    interpretation.nesting name isClass argument (Alternatives.Holds alternatives)
  | simple => interpretation.plain simple
termination_by structural simple => simple

def Compound.Holds : Compound → Element → Prop
  | [] => fun _ => True
  | simple :: rest => fun element => simple.Holds element ∧ Compound.Holds rest element
termination_by structural compound => compound

/-- The chain as conditions on elements. -/
def Chain.meaning : Chain → List (Link Element)
  | [] => []
  | .compound members :: rest => .holds (Compound.Holds members) :: Chain.meaning rest
  | .combinator kind :: rest => .step kind :: Chain.meaning rest
termination_by structural chain => chain

def Alternatives.Holds : Alternatives → Element → Prop
  | [] => fun _ => False
  | ⟨components, _⟩ :: rest => fun element =>
    Link.Reach document (Chain.meaning components).reverse element ∨ Alternatives.Holds rest element
termination_by structural alternatives => alternatives

end

/-- Whether the list matches the element. -/
def SelectorList.Holds (list : SelectorList) (element : Element) : Prop :=
  Alternatives.Holds document interpretation list.alternatives element

end

variable {document : Document Element} {interpretation : Interpretation Element}

theorem Compound.holds_iff {compound : Compound} {element : Element} :
    compound.Holds document interpretation element ↔
      ∀ simple ∈ compound, simple.Holds document interpretation element := by
  induction compound with
  | nil => simp [Compound.Holds]
  | cons simple rest ih => simp [Compound.Holds, ih]

theorem Chain.meaning_eq_links (chain : Chain) :
    chain.meaning document interpretation =
      chain.links (Compound.Holds document interpretation) := by
  induction chain with
  | nil => rfl
  | cons component rest ih => cases component <;> simp [Chain.meaning, Chain.links, ih]

theorem Alternatives.holds_iff {alternatives : Alternatives} {element : Element} :
    alternatives.Holds document interpretation element ↔
      ∃ complex ∈ alternatives,
        Chain.Matches document (Compound.Holds document interpretation) complex.components element := by
  induction alternatives with
  | nil => simp [Alternatives.Holds]
  | cons complex rest ih =>
    cases complex
    simp [Alternatives.Holds, Chain.Matches, Chain.meaning_eq_links, ih]

end Selectors
