import Selectors.Basic

/-!
# Alternatives at every depth

The alternatives of a list together with those of the lists nested in it. What
is to hold of a selector throughout, or somewhere in it, is said of these.
-/
namespace Selectors

mutual

/-- The alternatives nested in a simple selector. -/
def Simple.deep : Simple → Alternatives
  | .pseudo ⟨_, _, _, some ⟨alternatives, _⟩⟩ => Alternatives.deep alternatives
  | _ => []
termination_by structural simple => simple

/-- The alternatives nested in a compound. -/
def Compound.deep : Compound → Alternatives
  | [] => []
  | simple :: rest => simple.deep ++ Compound.deep rest
termination_by structural compound => compound

/-- The alternatives nested in a chain. -/
def Chain.deep : Chain → Alternatives
  | [] => []
  | .compound members :: rest => Compound.deep members ++ Chain.deep rest
  | .combinator _ :: rest => Chain.deep rest
termination_by structural chain => chain

/-- The alternatives, each followed by those nested in it. -/
def Alternatives.deep : Alternatives → Alternatives
  | [] => []
  | ⟨components, lineBreak⟩ :: rest =>
    ⟨components, lineBreak⟩ :: Chain.deep components ++ Alternatives.deep rest
termination_by structural alternatives => alternatives

end

theorem Compound.mem_deep_iff {compound : Compound} {complex : Complex} :
    complex ∈ compound.deep ↔ ∃ simple ∈ compound, complex ∈ simple.deep := by
  induction compound with
  | nil => simp [Compound.deep]
  | cons simple rest ih => simp [Compound.deep, ih]

theorem Chain.mem_deep_iff {chain : Chain} {complex : Complex} :
    complex ∈ chain.deep ↔ ∃ members, .compound members ∈ chain ∧ complex ∈ Compound.deep members := by
  induction chain with
  | nil => simp [Chain.deep]
  | cons component rest ih => cases component <;> simp [Chain.deep, ih, or_and_right, exists_or]

theorem Alternatives.mem_deep_iff {alternatives : Alternatives} {complex : Complex} :
    complex ∈ alternatives.deep ↔
      ∃ outer ∈ alternatives, complex = outer ∨ complex ∈ Chain.deep outer.components := by
  induction alternatives with
  | nil => simp [Alternatives.deep]
  | cons outer rest ih =>
    cases outer
    simp [Alternatives.deep, ih, or_assoc]

/-! ### Compounds at every depth -/

section

variable (test : Compound → Prop)

/-- Some compound of the chain itself passes the test. -/
def Chain.Has (chain : Chain) : Prop :=
  ∃ members, .compound members ∈ chain ∧ test members

/-- Some compound nested in the simple selector passes the test. -/
def Simple.Somewhere (simple : Simple) : Prop :=
  ∃ complex ∈ simple.deep, Chain.Has test complex.components

/-- Some compound of the chain or nested in it passes the test. -/
def Chain.Somewhere (chain : Chain) : Prop :=
  Chain.Has test chain ∨ ∃ complex ∈ chain.deep, Chain.Has test complex.components

/-- Some compound of the alternatives passes the test, at whatever depth. -/
def Alternatives.Somewhere (alternatives : Alternatives) : Prop :=
  ∃ complex ∈ alternatives.deep, Chain.Has test complex.components

variable {test}

@[simp] theorem Chain.not_has_nil : ¬Chain.Has test [] := by simp [Has]

@[simp] theorem Chain.has_compound (members : Compound) (rest : Chain) :
    Chain.Has test (.compound members :: rest) ↔ test members ∨ Chain.Has test rest := by
  simp [Has, or_and_right, exists_or]

@[simp] theorem Chain.has_combinator (kind : Combinator) (rest : Chain) :
    Chain.Has test (.combinator kind :: rest) ↔ Chain.Has test rest := by
  simp [Has]

theorem Simple.somewhere_nesting (name : String) (isClass : Bool) (argument : Option String)
    (alternatives : Alternatives) (span : Option Span) :
    Simple.Somewhere test (.pseudo ⟨name, isClass, argument, some ⟨alternatives, span⟩⟩) ↔
      Alternatives.Somewhere test alternatives :=
  Iff.rfl

@[simp] theorem Simple.not_somewhere_parent (suffix : Option String) :
    ¬Simple.Somewhere test (.parent suffix) := by
  simp [Somewhere, deep]

@[simp] theorem Chain.not_somewhere_nil : ¬Chain.Somewhere test [] := by
  simp [Somewhere, deep]

theorem Chain.somewhere_compound (members : Compound) (rest : Chain) :
    Chain.Somewhere test (.compound members :: rest) ↔
      (test members ∨ ∃ simple ∈ members, Simple.Somewhere test simple) ∨
        Chain.Somewhere test rest := by
  have nested : (∃ complex ∈ Compound.deep members, Chain.Has test complex.components) ↔
      ∃ simple ∈ members, Simple.Somewhere test simple := by
    simp only [Compound.mem_deep_iff, Simple.Somewhere]
    constructor
    · rintro ⟨complex, ⟨simple, member, inside⟩, has⟩
      exact ⟨simple, member, complex, inside, has⟩
    · rintro ⟨simple, member, complex, inside, has⟩
      exact ⟨complex, ⟨simple, member, inside⟩, has⟩
  simp only [Somewhere, has_compound, deep, List.mem_append, or_and_right, exists_or, nested]
  simp only [or_assoc, or_left_comm]

theorem Chain.somewhere_combinator (kind : Combinator) (rest : Chain) :
    Chain.Somewhere test (.combinator kind :: rest) ↔ Chain.Somewhere test rest := by
  simp [Somewhere, deep]

theorem Chain.somewhere_iff {chain : Chain} :
    Chain.Somewhere test chain ↔ ∃ members, .compound members ∈ chain ∧
      (test members ∨ ∃ simple ∈ members, Simple.Somewhere test simple) := by
  induction chain with
  | nil => simp
  | cons component rest ih =>
    cases component with
    | compound members => simp [somewhere_compound, ih, or_and_right, exists_or]
    | combinator kind => simp [somewhere_combinator, ih]

@[simp] theorem Alternatives.not_somewhere_nil : ¬Alternatives.Somewhere test [] := by
  simp [Somewhere, deep]

theorem Alternatives.somewhere_cons (components : Chain) (lineBreak : Bool) (rest : Alternatives) :
    Alternatives.Somewhere test (⟨components, lineBreak⟩ :: rest) ↔
      Chain.Somewhere test components ∨ Alternatives.Somewhere test rest := by
  simp [Somewhere, Chain.Somewhere, deep, or_and_right, exists_or, or_assoc]

theorem Alternatives.somewhere_iff {alternatives : Alternatives} :
    Alternatives.Somewhere test alternatives ↔
      ∃ complex ∈ alternatives, Chain.Somewhere test complex.components := by
  induction alternatives with
  | nil => simp
  | cons complex rest ih =>
    cases complex
    simp [somewhere_cons, ih]

end

end Selectors
