import Selectors.Equality

/-!
# Merging compounds

The merge of two compounds matches what both match. Members of the second are
added to the first one by one: a type name or `*` leads, pseudo-classes stand
before a pseudo-element, and everything else before all pseudos. Two type names,
two ids or two pseudo-elements that differ have no merge.
-/
namespace Selectors

namespace Compound

/-- Adds a member before the first one that `before` holds of. A member already
there is not repeated, and a lone `*` gives way. -/
def insert (before : Simple → Bool) (simple : Simple) (compound : Compound) : Compound :=
  match compound with
  | [.universal] => [simple]
  | _ =>
    if compound.contains simple then compound
    else
      compound.takeWhile (fun member => !before member) ++
        simple :: compound.dropWhile (fun member => !before member)

/-- Adds a type name or `*`. Beside any other member `*` says nothing. -/
def addElemental (simple : Simple) : Compound → Option Compound
  | .universal :: rest => some (simple :: rest)
  | .typeName name :: rest =>
    if simple == .universal || simple == .typeName name then some (.typeName name :: rest) else none
  | [] => some [simple]
  | compound => some (if simple == .universal then compound else simple :: compound)

/-- Whether a member is an id other than `name`. -/
def holdsOtherId (name : String) (compound : Compound) : Bool :=
  compound.any fun
    | .idName other => other != name
    | _ => false

/-- Adds a member, or gives nothing if no element can satisfy it with the others. -/
def add (simple : Simple) (compound : Compound) : Option Compound :=
  match simple with
  | .typeName _ | .universal => addElemental simple compound
  | .idName name =>
    if compound.holdsOtherId name then none else some (insert Simple.isPseudo simple compound)
  | .pseudo pseudo =>
    if !pseudo.isClass && compound.any Simple.isPseudoElement && !compound.contains simple then none
    else some (insert Simple.isPseudoElement simple compound)
  | _ => some (insert Simple.isPseudo simple compound)

/-- Adds every member of the second compound to the first. -/
def merge (first second : Compound) : Option Compound :=
  second.foldlM (fun merged simple => add simple merged) first

@[simp] theorem merge_nil (first : Compound) : merge first [] = some first := rfl

theorem merge_cons (first : Compound) (simple : Simple) (rest : Compound) :
    merge first (simple :: rest) = (add simple first).bind (merge · rest) := rfl

end Compound

end Selectors
