import Selectors.Attribute
import Selectors.Span

/-!
# Selectors

A selector list holds alternatives; an alternative is a complex selector, a
chain of compounds and combinators in reading order; a compound is a run of
simple selectors on one element. Two compounds side by side are in the
descendant relation, so that relation has no combinator of its own. A pseudo
may hold a whole selector list again, which makes the five types mutual.

Chains, compounds and lists of alternatives are plain lists. Only
`Selectors.WellFormed` speaks about which of them may be empty.
-/
namespace Selectors

inductive Combinator where
  | child
  | nextSibling
  | subsequentSibling
deriving DecidableEq, Hashable, Repr

/-- How two neighbouring compounds are related: by the combinator between them,
or by descent if there is none. -/
abbrev Step := Option Combinator

mutual

/-- One condition on an element, or one of the two forms that only a
stylesheet preprocessor knows: the parent reference `&`, with the text written
directly after it, and the placeholder. -/
inductive Simple where
  | parent (suffix : Option String)
  | placeholder (name : String)
  | pseudo (pseudo : Pseudo)
  | typeName (name : String)
  | universal
  | className (name : String)
  | idName (name : String)
  | attr (condition : Attribute)

/-- A pseudo-class (`:`) or pseudo-element (`::`). The argument stands before
the nested list and keeps its own `of`, as in `2n+1 of`. -/
structure Pseudo where
  name : String
  isClass : Bool
  argument : Option String
  nested : Option SelectorList

inductive Component where
  | compound (members : List Simple)
  | combinator (kind : Combinator)

/-- `lineBreak` says that a line end followed in the source; it concerns
layout only. -/
structure Complex where
  components : List Component
  lineBreak : Bool

structure SelectorList where
  alternatives : List Complex
  span : Option Span

end

/-- Simple selectors that all speak of one element. -/
abbrev Compound := List Simple

/-- Compounds and combinators in reading order. -/
abbrev Chain := List Component

/-- Complex selectors of which an element has to match one. -/
abbrev Alternatives := List Complex

namespace Simple

def isParent : Simple → Bool
  | parent _ => true
  | _ => false

def isPseudo : Simple → Bool
  | pseudo _ => true
  | _ => false

def isPseudoElement : Simple → Bool
  | pseudo p => !p.isClass
  | _ => false

/-- Type names and `*`, which can only lead a compound. -/
def isElemental : Simple → Bool
  | typeName _ | universal => true
  | _ => false

end Simple

namespace Component

def isCombinator : Component → Bool
  | combinator _ => true
  | compound _ => false

/-- The members, if the component is a compound. -/
def members? : Component → Option Compound
  | compound members => some members
  | combinator _ => none

end Component

namespace Chain

/-- The subject, the compound a chain ends in, and the chain before it. -/
def splitSubject? (chain : Chain) : Option (Chain × Compound) :=
  match chain.getLast? with
  | some (.compound members) => some (chain.dropLast, members)
  | _ => none

def subject? (chain : Chain) : Option Compound :=
  chain.splitSubject?.map (·.2)

/-- Whether two combinators stand side by side, as in `.a > > .b`. -/
def hasDoubledCombinator : Chain → Bool
  | .combinator _ :: .combinator _ :: _ => true
  | _ :: rest => hasDoubledCombinator rest
  | [] => false

/-- The step that a chain begins with, when it is the rest of a longer one. -/
def step : Chain → Step
  | .combinator kind :: _ => some kind
  | _ => none

/-- The chain past the step that it begins with. -/
def pastStep : Chain → Chain
  | .combinator _ :: rest => rest
  | chain => chain

theorem pastStep_suffix (chain : Chain) : chain.pastStep <:+ chain := by
  rcases chain with _ | ⟨_ | _, _⟩
  · exact List.suffix_refl _
  · exact List.suffix_refl _
  · exact List.suffix_cons _ _

theorem splitSubject?_eq_some_iff {chain before : Chain} {members : Compound} :
    chain.splitSubject? = some (before, members) ↔ chain = before ++ [.compound members] := by
  constructor
  · intro h
    simp only [splitSubject?] at h
    split at h
    next last =>
      obtain ⟨rfl, rfl⟩ := by simpa using h
      obtain ⟨front, rfl⟩ := List.getLast?_eq_some_iff.mp last
      simp
    next => simp at h
  · rintro rfl
    simp [splitSubject?]

@[simp] theorem splitSubject?_nil : splitSubject? [] = none := rfl

@[simp] theorem splitSubject?_append_compound (before : Chain) (members : Compound) :
    splitSubject? (before ++ [.compound members]) = some (before, members) :=
  splitSubject?_eq_some_iff.mpr rfl

end Chain

namespace Complex

/-- One chain after the other; the break of either is kept. -/
instance : Append Complex where
  append first second :=
    ⟨first.components ++ second.components, first.lineBreak || second.lineBreak⟩

@[simp] theorem mk_append_mk (first second : Chain) (break₁ break₂ : Bool) :
    (⟨first, break₁⟩ ++ ⟨second, break₂⟩ : Complex) = ⟨first ++ second, break₁ || break₂⟩ := rfl

@[simp] theorem components_append (first second : Complex) :
    (first ++ second).components = first.components ++ second.components := rfl

@[simp] theorem lineBreak_append (first second : Complex) :
    (first ++ second).lineBreak = (first.lineBreak || second.lineBreak) := rfl

/-- The chain of one component, without a break. -/
def single (component : Component) : Complex := ⟨[component], false⟩

/-- The chain without components, which changes nothing when appended. -/
def nil : Complex := ⟨[], false⟩

@[simp] theorem append_nil (complex : Complex) : complex ++ nil = complex := by
  cases complex
  simp [nil]

@[simp] theorem nil_append (complex : Complex) : nil ++ complex = complex := by
  cases complex
  simp [nil]

theorem append_assoc (first second third : Complex) :
    first ++ second ++ third = first ++ (second ++ third) := by
  cases first
  cases second
  cases third
  simp [Bool.or_assoc]

end Complex

namespace Pseudo

/-- The name without a vendor's mark: `-moz-any` becomes `any`. Names that
begin with two dashes carry none. -/
def bareName (pseudo : Pseudo) : String :=
  match pseudo.name.toList with
  | '-' :: '-' :: _ => pseudo.name
  | '-' :: rest =>
    match rest.dropWhile (· ≠ '-') with
    | _ :: bare => String.ofList bare
    | [] => pseudo.name
  | _ => pseudo.name

end Pseudo

end Selectors
