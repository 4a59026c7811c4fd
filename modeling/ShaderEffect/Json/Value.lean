/-!
# JSON values

A number without fraction and exponent is an integer if it fits a word of 64 bits, signed or
unsigned; every other number is a binary float. The members of an object are kept in the order of
their names, one for each name.
-/

namespace ShaderEffect

inductive JsonNumber where
  | integer (v : Int)
  | real (v : Float)
  deriving Repr

inductive Json where
  | null
  | bool (b : Bool)
  | number (n : JsonNumber)
  | string (s : String)
  | array (items : List Json)
  | object (members : List (String × Json))
  deriving Repr

namespace Json

instance : Inhabited Json := ⟨.null⟩

/-- Puts a member at its place among members in the order of their names. A member of the same name
is replaced. -/
def insertMember (name : String) (value : Json) : List (String × Json) → List (String × Json)
  | [] => [(name, value)]
  | m :: ms =>
    if name < m.1 then (name, value) :: m :: ms
    else if name == m.1 then (name, value) :: ms
    else m :: insertMember name value ms

def get? (j : Json) (name : String) : Option Json :=
  match j with
  | .object members => members.lookup name
  | _ => none

def string? : Json → Option String
  | .string s => some s
  | _ => none

def array? : Json → Option (List Json)
  | .array items => some items
  | _ => none

def getString? (j : Json) (name : String) : Option String :=
  (j.get? name).bind string?

end Json

end ShaderEffect
