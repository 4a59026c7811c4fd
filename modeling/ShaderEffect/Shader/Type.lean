/-!
# Types of the shading language

The types that a shader body can name, with their spelling in the target language and the tag by
which overloads of a function are told apart.
-/

namespace ShaderEffect

inductive Scalar where
  | float
  | int
  | uint
  | bool
  deriving Repr, DecidableEq

/-- The length of an array: a literal, a named constant, or left open. -/
inductive ArrayLength where
  | fixed (n : Nat)
  | named (name : String)
  | unsized
  deriving Repr, DecidableEq

/-- The types of values. A matrix has its columns before its rows. -/
inductive ShaderType where
  | void
  | scalar (s : Scalar)
  | vector (s : Scalar) (width : Nat)
  | matrix (columns rows : Nat)
  | sampler
  | struct (name : String)
  | array (elem : ShaderType) (length : ArrayLength)
  deriving Repr, DecidableEq

namespace Scalar

def wgsl : Scalar → String
  | .float => "f32"
  | .int => "i32"
  | .uint => "u32"
  | .bool => "bool"

def letter : Scalar → String
  | .float => "f"
  | .int => "i"
  | .uint => "u"
  | .bool => "b"

end Scalar

namespace ShaderType

abbrev float : ShaderType := .scalar .float

abbrev int : ShaderType := .scalar .int

abbrev bool : ShaderType := .scalar .bool

abbrev vec (width : Nat) : ShaderType := .vector .float width

def ofComponents (s : Scalar) (n : Nat) : ShaderType :=
  if n ≤ 1 then .scalar s else .vector s n

def widthOf (c : Char) : Option Nat :=
  if c == '2' then some 2 else if c == '3' then some 3 else if c == '4' then some 4 else none

def shapeOfName : List Char → Option ShaderType
  | ['m', 'a', 't', n] => (widthOf n).map fun n => .matrix n n
  | ['m', 'a', 't', c, 'x', r] => (widthOf c).bind fun c => (widthOf r).map fun r => .matrix c r
  | ['v', 'e', 'c', n] => (widthOf n).map (.vector .float)
  | ['i', 'v', 'e', 'c', n] => (widthOf n).map (.vector .int)
  | ['u', 'v', 'e', 'c', n] => (widthOf n).map (.vector .uint)
  | ['b', 'v', 'e', 'c', n] => (widthOf n).map (.vector .bool)
  | _ => none

def ofName (name : String) : Option ShaderType :=
  match name with
  | "void" => some .void
  | "float" => some float
  | "int" => some int
  | "uint" => some (.scalar .uint)
  | "bool" => some bool
  | "sampler2D" | "sampler2DRect" | "samplerCube" | "sampler3D" => some .sampler
  | _ => shapeOfName name.toList

def components : ShaderType → Option Nat
  | .scalar _ => some 1
  | .vector _ n => some n
  | _ => none

def component : ShaderType → Option Scalar
  | .scalar s => some s
  | .vector s _ => some s
  | .matrix _ _ => some .float
  | _ => none

def isScalar : ShaderType → Bool
  | .scalar _ => true
  | _ => false

def isVector : ShaderType → Bool
  | .vector _ _ => true
  | _ => false

def isStruct : ShaderType → Bool
  | .struct _ => true
  | _ => false

def isFloatBased (t : ShaderType) : Bool :=
  t.component == some .float

def isIntegerBased (t : ShaderType) : Bool :=
  t.component == some .int || t.component == some .uint

def isBoolBased (t : ShaderType) : Bool :=
  t.component == some .bool

def wgsl : ShaderType → String
  | .void => "void"
  | .scalar s => s.wgsl
  | .vector s n => "vec" ++ toString n ++ "<" ++ s.wgsl ++ ">"
  | .matrix c r => "mat" ++ toString c ++ "x" ++ toString r ++ "<f32>"
  | .sampler => "texture_2d<f32>"
  | .struct name => name
  | .array elem (.fixed n) => "array<" ++ elem.wgsl ++ ", " ++ toString n ++ ">"
  | .array elem (.named name) => "array<" ++ elem.wgsl ++ ", " ++ name ++ ">"
  | .array elem .unsized => "array<" ++ elem.wgsl ++ ">"

/-- The tag that tells overloads apart; it can stand inside an identifier. -/
def tag : ShaderType → String
  | .void => "void"
  | .scalar s => s.wgsl
  | .vector s n => "vec" ++ toString n ++ s.letter
  | .matrix c r => "mat" ++ toString c ++ "x" ++ toString r ++ "f"
  | .sampler => "tex"
  | .struct name => name
  | .array elem _ => "arr_" ++ elem.tag

/-- An array without a length takes the number of its initial elements. -/
def sized (t : ShaderType) (count : Nat) : ShaderType :=
  match t with
  | .array elem .unsized => .array elem (.fixed count)
  | t => t

end ShaderType

end ShaderEffect
