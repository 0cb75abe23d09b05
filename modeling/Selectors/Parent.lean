import Selectors.Deep
import Selectors.Error
import Selectors.Induction
import Selectors.Text

/-!
# Parent references

Where `&` occurs, and what a suffix written after it does to the simple
selector it lands on.
-/
namespace Selectors

mutual

/-- Whether `&` occurs, in a nested list included. -/
def Simple.mentionsParent : Simple → Bool
  | .parent _ => true
  | .pseudo ⟨_, _, _, some ⟨alternatives, _⟩⟩ => Alternatives.mentionsParent alternatives
  | _ => false
termination_by structural simple => simple

def Compound.mentionsParent : Compound → Bool
  | [] => false
  | simple :: rest => simple.mentionsParent || Compound.mentionsParent rest
termination_by structural compound => compound

def Chain.mentionsParent : Chain → Bool
  | [] => false
  | .compound members :: rest => Compound.mentionsParent members || Chain.mentionsParent rest
  | .combinator _ :: rest => Chain.mentionsParent rest
termination_by structural chain => chain

def Alternatives.mentionsParent : Alternatives → Bool
  | [] => false
  | ⟨components, _⟩ :: rest => Chain.mentionsParent components || Alternatives.mentionsParent rest
termination_by structural alternatives => alternatives

end

def SelectorList.mentionsParent (list : SelectorList) : Bool :=
  Alternatives.mentionsParent list.alternatives

/-- Continues the name. `*`, attribute conditions and `&` have no name to
continue, and that of a pseudo with an argument or a nested list is closed. -/
def Simple.continued (suffix : String) : Simple → Except NestingFailure Simple
  | .typeName name => .ok (.typeName (name ++ suffix))
  | .className name => .ok (.className (name ++ suffix))
  | .idName name => .ok (.idName (name ++ suffix))
  | .placeholder name => .ok (.placeholder (name ++ suffix))
  | .pseudo ⟨name, isClass, none, none⟩ => .ok (.pseudo ⟨name ++ suffix, isClass, none, none⟩)
  | simple => .error (.unsuffixable simple.text)

/-- Continues the last member. -/
def Compound.continued (suffix : String) : Compound → Except NestingFailure Compound
  | [] => .ok []
  | [last] => return [← last.continued suffix]
  | simple :: rest => return simple :: (← Compound.continued suffix rest)

theorem Compound.continued_append_singleton (suffix : String) (before : Compound) (last : Simple) :
    Compound.continued suffix (before ++ [last]) =
      (last.continued suffix).map fun last => before ++ [last] := by
  induction before with
  | nil => cases h : last.continued suffix <;> simp [Compound.continued, h] <;> rfl
  | cons simple rest ih =>
    have step : Compound.continued suffix (simple :: (rest ++ [last])) = do
        return simple :: (← Compound.continued suffix (rest ++ [last])) := by
      cases rest <;> rfl
    rw [List.cons_append, step, ih]
    cases last.continued suffix <;> rfl

/-- What a parent alternative becomes in the place of `&`, followed within its
compound by `others`: its subject takes the suffix and then the other members. -/
def Complex.joined (suffix : Option String) (others : Compound) (parent : Complex) :
    Except NestingFailure Complex :=
  match Chain.splitSubject? parent.components with
  | none => .error (.parentEndsInCombinator parent.text)
  | some (before, subject) => do
    let subject ← match suffix with
      | none => pure subject
      | some suffix => Compound.continued suffix subject
    return ⟨before ++ [.compound (subject ++ others)], parent.lineBreak⟩

theorem Compound.mentionsParent_eq_any (compound : Compound) :
    compound.mentionsParent = compound.any Simple.mentionsParent := by
  induction compound with
  | nil => rfl
  | cons simple rest ih => simp [Compound.mentionsParent, ih]

theorem Compound.mentionsParent_append (first second : Compound) :
    Compound.mentionsParent (first ++ second) =
      (first.mentionsParent || second.mentionsParent) := by
  simp only [Compound.mentionsParent_eq_any, List.any_append]

theorem Alternatives.mentionsParent_eq_any (alternatives : Alternatives) :
    alternatives.mentionsParent =
      alternatives.any fun complex => Chain.mentionsParent complex.components := by
  induction alternatives with
  | nil => rfl
  | cons complex rest ih =>
    cases complex
    simp [Alternatives.mentionsParent, ih]

theorem Alternatives.mentionsParent_append (first second : Alternatives) :
    Alternatives.mentionsParent (first ++ second) =
      (first.mentionsParent || second.mentionsParent) := by
  simp only [Alternatives.mentionsParent_eq_any, List.any_append]

theorem Chain.mentionsParent_append (first second : Chain) :
    Chain.mentionsParent (first ++ second) =
      (first.mentionsParent || second.mentionsParent) := by
  induction first with
  | nil => rfl
  | cons component rest ih => cases component <;> simp [Chain.mentionsParent, ih, Bool.or_assoc]

/-- Where some compound passes a test that only compounds with `&` pass, `&` is mentioned. -/
theorem mentionsParent_of_somewhere {test : Compound → Prop}
    (shows : ∀ members, test members → Compound.mentionsParent members = true) :
    Induction (fun simple => Simple.Somewhere test simple → simple.mentionsParent = true)
      (fun members => (∃ simple ∈ members, Simple.Somewhere test simple) →
        members.mentionsParent = true)
      (fun chain => Chain.Somewhere test chain → chain.mentionsParent = true)
      (fun alternatives => Alternatives.Somewhere test alternatives →
        alternatives.mentionsParent = true) := by
  constructor
  case parent | placeholder | typeName | universal | className | idName | attr | plainPseudo =>
    simp [Simple.Somewhere, Simple.deep]
  case nestingPseudo =>
    intro name isClass argument alternatives span ih inside
    exact ih inside
  case noMember | noComponent | noAlternative => simp
  case member =>
    rintro simple rest ih ihRest ⟨inner, member, inside⟩
    simp only [Compound.mentionsParent, Bool.or_eq_true]
    rcases List.mem_cons.mp member with rfl | member
    · exact .inl (ih inside)
    · exact .inr (ihRest ⟨inner, member, inside⟩)
  case compound =>
    intro members rest ih ihRest inside
    simp only [Chain.mentionsParent, Bool.or_eq_true]
    exact (Chain.somewhere_compound members rest).mp inside |>.imp (·.elim (shows members) ih) ihRest
  case combinator =>
    intro kind rest ih inside
    exact ih ((Chain.somewhere_combinator kind rest).mp inside)
  case alternative =>
    intro components lineBreak rest ih ihRest inside
    simp only [Alternatives.mentionsParent, Bool.or_eq_true]
    exact (Alternatives.somewhere_cons components lineBreak rest).mp inside |>.imp ih ihRest

end Selectors
