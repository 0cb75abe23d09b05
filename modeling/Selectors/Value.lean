import Selectors.Text

/-!
# Script values

What a stylesheet's own functions see of a selector list: a comma-separated list
of alternatives, each a space-separated list with one unquoted string for each
component.
-/
namespace Selectors

inductive Separator where
  | comma
  | space
deriving DecidableEq, Repr

def Separator.text : Separator → String
  | comma => ", "
  | space => " "

def Separator.name : Separator → String
  | comma => "comma"
  | space => "space"

inductive Value where
  | list (separator : Separator) (elements : List Value)
  | string (text : String) (quoted : Bool)

namespace Value

def elements? : Value → Option (List Value)
  | list _ elements => some elements
  | string _ _ => none

mutual

/-- Quotes surround a quoted string; nothing in it is escaped. -/
def text : Value → String
  | list separator elements => separator.text.intercalate (texts elements)
  | string text true => "\"" ++ text ++ "\""
  | string text false => text
termination_by structural value => value

/-- The text of each value. -/
def texts : List Value → List String
  | [] => []
  | value :: rest => value.text :: texts rest
termination_by structural values => values

end

theorem texts_eq_map (values : List Value) : texts values = values.map text := by
  induction values with
  | nil => rfl
  | cons value rest ih => simp [texts, ih]

end Value

def Complex.toValue (complex : Complex) : Value :=
  .list .space (complex.components.map fun component => .string component.text false)

def SelectorList.toValue (list : SelectorList) : Value :=
  .list .comma (list.alternatives.map Complex.toValue)

end Selectors
