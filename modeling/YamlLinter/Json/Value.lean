import YamlLinter.Json.Number

/-!
# JSON values

Configurations are JSON texts, and problems can be printed as JSON. An object keeps its members in
the order of the text, repeated names included: what a repetition means is up to the reader.

## Contents

* `Json`: values;
* looking into values.
-/

namespace YamlLinter

/-- A JSON value. -/
inductive Json where
  | null
  | bool (b : Bool)
  | number (n : JsonNumber)
  | text (s : String)
  | array (items : List Json)
  | object (members : List (String × Json))
  deriving Repr, Inhabited

namespace Json

/-- A whole number. -/
def ofInt (n : Int) : Json := .number (.whole n)

/-- A count. -/
def ofNat (n : Nat) : Json := .ofInt n

/-- The value, or null where there is none. -/
def ofOption {α : Type} (f : α → Json) : Option α → Json
  | some a => f a
  | none => .null

/-- The value of the last member of an object with the given name. -/
def member? (name : String) : Json → Option Json
  | .object members => (members.reverse.find? (·.1 == name)).map (·.2)
  | _ => none

end Json

end YamlLinter
