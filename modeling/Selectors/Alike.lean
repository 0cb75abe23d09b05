import Selectors.Chain.Lift
import Selectors.Depth

/-!
# Selectors that are alike

Selectors are alike when they differ at most in the order and the repetition of alternatives and of
members, at any depth. The components of a chain have to agree in their number and places. Spans and
line breaks do not count.
-/
namespace Selectors

/-- Each item of either list is related to some item of the other. -/
def EachOther {α : Type} (r : α → α → Prop) (xs ys : List α) : Prop :=
  (∀ x ∈ xs, ∃ y ∈ ys, r x y) ∧ ∀ y ∈ ys, ∃ x ∈ xs, r x y

mutual

def Simple.Alike : Simple → Simple → Prop
  | .pseudo ⟨name, isClass, argument, some ⟨alternatives, _⟩⟩ => fun other =>
    ∃ list, other = .pseudo ⟨name, isClass, argument, some list⟩ ∧
      Alternatives.AlikeIn alternatives list.alternatives ∧
        ∀ complex ∈ list.alternatives, Alternatives.HasAlike alternatives complex
  | simple => (simple = ·)
termination_by structural simple => simple

/-- Each member of the first compound is alike one of the second. -/
def Compound.AlikeIn : Compound → Compound → Prop
  | [] => fun _ => True
  | simple :: rest => fun other => (∃ simple' ∈ other, simple.Alike simple') ∧ Compound.AlikeIn rest other
termination_by structural compound => compound

/-- Some member is alike the simple selector. -/
def Compound.HasAlike : Compound → Simple → Prop
  | [] => fun _ => False
  | simple :: rest => fun other => simple.Alike other ∨ Compound.HasAlike rest other
termination_by structural compound => compound

def Chain.Alike : Chain → Chain → Prop
  | [] => (· = [])
  | .compound members :: rest => fun other =>
    ∃ members' rest', other = .compound members' :: rest' ∧
      (Compound.AlikeIn members members' ∧ ∀ simple ∈ members', Compound.HasAlike members simple) ∧
        Chain.Alike rest rest'
  | .combinator kind :: rest => fun other =>
    ∃ rest', other = .combinator kind :: rest' ∧ Chain.Alike rest rest'
termination_by structural chain => chain

/-- Each of the first alternatives is alike one of the second. -/
def Alternatives.AlikeIn : Alternatives → Alternatives → Prop
  | [] => fun _ => True
  | ⟨components, _⟩ :: rest => fun other =>
    (∃ complex ∈ other, Chain.Alike components complex.components) ∧ Alternatives.AlikeIn rest other
termination_by structural alternatives => alternatives

/-- Some alternative is alike the complex selector. -/
def Alternatives.HasAlike : Alternatives → Complex → Prop
  | [] => fun _ => False
  | ⟨components, _⟩ :: rest => fun other =>
    Chain.Alike components other.components ∨ Alternatives.HasAlike rest other
termination_by structural alternatives => alternatives

end

def Compound.Alike : Compound → Compound → Prop := EachOther Simple.Alike

def Complex.Alike (complex complex' : Complex) : Prop :=
  Chain.Alike complex.components complex'.components

def Alternatives.Alike : Alternatives → Alternatives → Prop := EachOther Complex.Alike

def SelectorList.Alike (list list' : SelectorList) : Prop :=
  Alternatives.Alike list.alternatives list'.alternatives

/-! ### Members and alternatives -/

theorem Compound.alikeIn_iff {compound other : Compound} :
    compound.AlikeIn other ↔ ∀ simple ∈ compound, ∃ simple' ∈ other, simple.Alike simple' := by
  induction compound with
  | nil => simp [Compound.AlikeIn]
  | cons simple rest ih => simp [Compound.AlikeIn, ih]

theorem Compound.hasAlike_iff {compound : Compound} {other : Simple} :
    compound.HasAlike other ↔ ∃ simple ∈ compound, simple.Alike other := by
  induction compound with
  | nil => simp [Compound.HasAlike]
  | cons simple rest ih => simp [Compound.HasAlike, ih]

theorem Alternatives.alikeIn_iff {alternatives other : Alternatives} :
    alternatives.AlikeIn other ↔ ∀ complex ∈ alternatives, ∃ complex' ∈ other, complex.Alike complex' := by
  induction alternatives with
  | nil => simp [Alternatives.AlikeIn]
  | cons complex rest ih =>
    cases complex
    simp [Alternatives.AlikeIn, ih, Complex.Alike]

theorem Alternatives.hasAlike_iff {alternatives : Alternatives} {other : Complex} :
    alternatives.HasAlike other ↔ ∃ complex ∈ alternatives, complex.Alike other := by
  induction alternatives with
  | nil => simp [Alternatives.HasAlike]
  | cons complex rest ih =>
    cases complex
    simp [Alternatives.HasAlike, ih, Complex.Alike]

/-- Pseudos are alike when they agree in all but the nested list, and the lists are alike. -/
theorem Simple.alike_nesting_iff {name : String} {isClass : Bool} {argument : Option String}
    {list : SelectorList} {other : Simple} :
    Simple.Alike (.pseudo ⟨name, isClass, argument, some list⟩) other ↔
      ∃ list', other = .pseudo ⟨name, isClass, argument, some list'⟩ ∧ list.Alike list' := by
  cases list
  simp only [Simple.Alike, Alternatives.alikeIn_iff, Alternatives.hasAlike_iff]
  rfl

/-- Simple selectors without a nested list are alike when they are equal. -/
theorem Simple.alike_plain_iff {simple other : Simple} (plain : simple.depth = 0) :
    simple.Alike other ↔ simple = other := by
  rcases simple with _ | _ | ⟨_, _, _, _ | ⟨_, _⟩⟩ | _ | _ | _ | _ | _
  case pseudo.some => cases plain
  all_goals rfl

/-- Of two simple selectors that are alike either neither has a nested list, or both do. -/
theorem Simple.Alike.cases {simple other : Simple} (alike : simple.Alike other) :
    simple.depth = 0 ∧ other = simple ∨
      ∃ name isClass argument list list', simple = .pseudo ⟨name, isClass, argument, some list⟩ ∧
        other = .pseudo ⟨name, isClass, argument, some list'⟩ ∧ list.Alike list' := by
  rcases simple with _ | _ | ⟨name, isClass, argument, _ | list⟩ | _ | _ | _ | _ | _
  case pseudo.some =>
    obtain ⟨list', same, alike⟩ := alike_nesting_iff.mp alike
    exact Or.inr ⟨name, isClass, argument, list, list', rfl, same, alike⟩
  all_goals exact Or.inl ⟨rfl, alike.symm⟩

/-! ### Chains -/

/-- Chains are alike when their compounds are, place by place, and their combinators are the same. -/
theorem Chain.alike_iff {chain other : Chain} :
    chain.Alike other ↔ Lift Compound.Alike chain other := by
  induction chain generalizing other with
  | nil => rw [lift_nil_iff, Chain.Alike]
  | cons component rest ih =>
    cases component with
    | compound members =>
      simp only [lift_compound_iff, Chain.Alike, ih, Compound.alikeIn_iff, Compound.hasAlike_iff]
      rfl
    | combinator kind => simp only [lift_combinator_iff, Chain.Alike, ih]

end Selectors
