/-!
# Attribute conditions
-/
namespace Selectors

/-- How the value of an attribute is compared with the value written. -/
inductive AttributeMatch where
  /-- The value is the one written. -/
  | equals
  /-- One of the words of the value is the one written. -/
  | includes
  /-- The value is the one written, alone or continued by a dash. -/
  | dash
  /-- The value begins as written. -/
  | beginsWith
  /-- The value ends as written. -/
  | endsWith
  /-- The text written occurs in the value. -/
  | contains
deriving DecidableEq, Hashable, Repr

def AttributeMatch.operator : AttributeMatch → String
  | equals => "="
  | includes => "~="
  | dash => "|="
  | beginsWith => "^="
  | endsWith => "$="
  | contains => "*="

/-- A condition on one attribute. A value is kept as written, quotes included,
so `[type="text"]` and `[type=text]` are different conditions. -/
inductive Attribute where
  | present (name : String)
  | compared (name : String) (how : AttributeMatch) (value : String)
deriving DecidableEq, Hashable, Repr

def Attribute.text : Attribute → String
  | present name => "[" ++ name ++ "]"
  | compared name how value => "[" ++ name ++ how.operator ++ value ++ "]"

end Selectors
