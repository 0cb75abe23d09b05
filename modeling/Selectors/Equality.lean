import Selectors.Basic

/-!
# Equality of selectors

Two selectors are equal when they differ at most in spans and line breaks, at
any depth. The order of alternatives, components and members counts: `.a.b` and
`.b.a` match the same elements and are still different. The digest reads what
equality reads, so equal selectors have equal digests.
-/
namespace Selectors

mutual

def Simple.same : Simple → Simple → Bool
  | .parent suffix, .parent suffix' => suffix == suffix'
  | .placeholder name, .placeholder name' => name == name'
  | .pseudo ⟨name, isClass, argument, none⟩, .pseudo ⟨name', isClass', argument', none⟩ =>
    name == name' && isClass == isClass' && argument == argument'
  | .pseudo ⟨name, isClass, argument, some ⟨alternatives, _⟩⟩,
    .pseudo ⟨name', isClass', argument', some ⟨alternatives', _⟩⟩ =>
    name == name' && isClass == isClass' && argument == argument' &&
      Alternatives.same alternatives alternatives'
  | .typeName name, .typeName name' => name == name'
  | .universal, .universal => true
  | .className name, .className name' => name == name'
  | .idName name, .idName name' => name == name'
  | .attr condition, .attr condition' => condition == condition'
  | _, _ => false
termination_by structural simple => simple

def Compound.same : Compound → Compound → Bool
  | [], [] => true
  | simple :: rest, simple' :: rest' => simple.same simple' && Compound.same rest rest'
  | _, _ => false
termination_by structural compound => compound

def Chain.same : Chain → Chain → Bool
  | [], [] => true
  | .compound members :: rest, .compound members' :: rest' =>
    Compound.same members members' && Chain.same rest rest'
  | .combinator kind :: rest, .combinator kind' :: rest' => kind == kind' && Chain.same rest rest'
  | _, _ => false
termination_by structural chain => chain

def Alternatives.same : Alternatives → Alternatives → Bool
  | [], [] => true
  | ⟨components, _⟩ :: rest, ⟨components', _⟩ :: rest' =>
    Chain.same components components' && Alternatives.same rest rest'
  | _, _ => false
termination_by structural alternatives => alternatives

end

mutual

def Simple.digest : Simple → UInt64
  | .parent suffix => mixHash 1 (hash suffix)
  | .placeholder name => mixHash 2 (hash name)
  | .pseudo ⟨name, isClass, argument, none⟩ => mixHash 3 (hash (name, isClass, argument))
  | .pseudo ⟨name, isClass, argument, some ⟨alternatives, _⟩⟩ =>
    mixHash 4 (mixHash (hash (name, isClass, argument)) (Alternatives.digest alternatives))
  | .typeName name => mixHash 5 (hash name)
  | .universal => 6
  | .className name => mixHash 7 (hash name)
  | .idName name => mixHash 8 (hash name)
  | .attr condition => mixHash 9 (hash condition)
termination_by structural simple => simple

def Compound.digest : Compound → UInt64
  | [] => 10
  | simple :: rest => mixHash simple.digest (Compound.digest rest)
termination_by structural compound => compound

def Chain.digest : Chain → UInt64
  | [] => 11
  | .compound members :: rest => mixHash (Compound.digest members) (Chain.digest rest)
  | .combinator kind :: rest => mixHash (hash kind) (Chain.digest rest)
termination_by structural chain => chain

def Alternatives.digest : Alternatives → UInt64
  | [] => 12
  | ⟨components, _⟩ :: rest => mixHash (Chain.digest components) (Alternatives.digest rest)
termination_by structural alternatives => alternatives

end

def Component.same : Component → Component → Bool
  | compound members, compound members' => Compound.same members members'
  | combinator kind, combinator kind' => kind == kind'
  | _, _ => false

def SelectorList.same (list list' : SelectorList) : Bool :=
  Alternatives.same list.alternatives list'.alternatives

instance : BEq Simple := ⟨Simple.same⟩
instance : BEq Component := ⟨Component.same⟩
instance : BEq Complex := ⟨fun complex complex' => Chain.same complex.components complex'.components⟩
instance : BEq SelectorList := ⟨SelectorList.same⟩
instance : Hashable Simple := ⟨Simple.digest⟩
instance : Hashable SelectorList := ⟨fun list => Alternatives.digest list.alternatives⟩

theorem Simple.beq_def (simple simple' : Simple) : (simple == simple') = simple.same simple' := rfl

theorem Complex.beq_def (complex complex' : Complex) :
    (complex == complex') = (complex.components == complex'.components) := by
  obtain ⟨chain, _⟩ := complex
  obtain ⟨chain', _⟩ := complex'
  show Chain.same chain chain' = (chain == chain')
  induction chain generalizing chain' with
  | nil => cases chain' <;> rfl
  | cons component rest ih =>
    cases chain' with
    | nil => cases component <;> rfl
    | cons component' rest' =>
      rw [List.cons_beq_cons, ← ih]
      cases component <;> cases component' <;> rfl

theorem Compound.same_eq_beq (compound compound' : Compound) :
    Compound.same compound compound' = (compound == compound') := by
  induction compound generalizing compound' with
  | nil => cases compound' <;> rfl
  | cons simple rest ih =>
    cases compound' with
    | nil => rfl
    | cons simple' rest' =>
      rw [List.cons_beq_cons, ← ih]
      rfl

theorem Chain.same_eq_beq (chain chain' : Chain) : Chain.same chain chain' = (chain == chain') :=
  Complex.beq_def ⟨chain, false⟩ ⟨chain', false⟩

theorem Alternatives.same_eq_beq (alternatives alternatives' : Alternatives) :
    Alternatives.same alternatives alternatives' = (alternatives == alternatives') := by
  induction alternatives generalizing alternatives' with
  | nil => cases alternatives' <;> rfl
  | cons complex rest ih =>
    cases complex
    cases alternatives' with
    | nil => rfl
    | cons complex' rest' =>
      cases complex'
      rw [List.cons_beq_cons, ← ih]
      rfl

theorem Simple.beq_universal_iff {simple : Simple} :
    (simple == .universal) = true ↔ simple = .universal := by
  rcases simple with _ | _ | ⟨_, _, _, _ | ⟨_, _⟩⟩ | _ | _ | _ | _ | _
  case universal => exact iff_of_true rfl rfl
  all_goals exact iff_of_false Bool.false_ne_true nofun

end Selectors
