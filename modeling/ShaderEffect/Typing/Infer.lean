import ShaderEffect.Typing.Env

/-!
# Types of expressions

`Env.typeOf` gives the type of an expression where it is sure of one, and nothing otherwise: a
lowering pass leaves an expression without a known type alone.
-/

namespace ShaderEffect

/-- The built-in functions whose result has the shape of their widest argument. -/
def componentwise : List String :=
  ["sin", "cos", "tan", "asin", "acos", "atan", "atan2", "sinh", "cosh", "tanh", "asinh", "acosh",
    "atanh", "pow", "exp", "log", "exp2", "log2", "sqrt", "inversesqrt", "inverseSqrt", "abs",
    "sign", "floor", "ceil", "fract", "mod", "min", "max", "clamp", "mix", "step", "smoothstep",
    "radians", "degrees", "normalize", "reflect", "refract", "faceforward", "faceForward", "dFdx",
    "dFdy", "dpdx", "dpdy", "fwidth", "round", "roundEven", "trunc", "saturate", "isf_mod_f32",
    "isf_mod_vec2", "isf_mod_vec3", "isf_mod_vec4"]

def isComponentwise (name : String) : Bool :=
  componentwise.contains name

/-- The three letter sets that name the components of a vector. -/
def laneSets : List (List Char) :=
  [['x', 'y', 'z', 'w'], ['r', 'g', 'b', 'a'], ['s', 't', 'p', 'q']]

/-- A choice of one to four components, with letters of one set. -/
def isSwizzle (name : String) : Bool :=
  let cs := name.toList
  !cs.isEmpty && decide (cs.length ≤ 4) && laneSets.any fun set => cs.all set.contains

namespace ShaderType

/-- The wider of two types: floats win over integers, and a type with fewer components than
`current` changes nothing. -/
def widen (current next : ShaderType) : ShaderType :=
  let held := current.components.getD 0
  let offered := next.components.getD 0
  let s := if current.isFloatBased || next.isFloatBased then .float
    else current.component.getD .float
  if held < offered || (offered == held && 0 < offered) then ofComponents s offered else current

def widest : List ShaderType → Option ShaderType
  | [] => none
  | t :: ts => some (ts.foldl widen t)

def withScalar (t : ShaderType) (s : Scalar) : ShaderType :=
  match t with
  | .vector _ n => .vector s n
  | _ => .scalar s

def arithmetic (op : BinOp) (l r : ShaderType) : ShaderType :=
  match l, r with
  | .matrix _ rows, .vector s _ => if op == .mul then .vector s rows else l
  | .vector s _, .matrix columns _ => if op == .mul then .vector s columns else r
  | .matrix _ _, _ => l
  | _, .matrix _ _ => r
  | .vector _ _, _ => l
  | _, .vector _ _ => r
  | .scalar .float, _ => float
  | _, .scalar .float => float
  | _, _ => l

end ShaderType

namespace Env

/-- The type of an operation, from those of its operands where they are known. -/
def binaryType (op : BinOp) (l r : Option ShaderType) : Option ShaderType :=
  if op.isComparison || op.isLogical then some .bool
  else if op.isBitwise || op.isShift then l
  else
    match l, r with
    | some l, some r => some (.arithmetic op l r)
    | some t, none => if t.isScalar then none else some t
    | none, some t => if t.isScalar then none else some t
    | none, none => none

def fieldType (env : Env) (name : String) : ShaderType → Option ShaderType
  | .vector s _ => if isSwizzle name then some (.ofComponents s name.toList.length) else none
  | .struct struct => env.member? struct name
  | _ => none

def elementType : ShaderType → Option ShaderType
  | .vector s _ => some (.scalar s)
  | .matrix _ rows => some (.vec rows)
  | .array elem _ => some elem
  | _ => none

def builtinType (name : String) (args : List (Option ShaderType)) : Option ShaderType :=
  let first : Option ShaderType := (args[0]?).join
  match name with
  | "length" | "distance" | "dot" | "determinant" => some .float
  | "cross" => some (.vec 3)
  | "all" | "any" => some .bool
  | "not" => first
  | "lessThan" | "lessThanEqual" | "greaterThan" | "greaterThanEqual" | "equal" | "notEqual" =>
    (first.bind ShaderType.components).map (.ofComponents .bool)
  | "texture2D" | "texture2DRect" | "texture2DProj" | "texture2DLod" | "texture" | "textureLod"
  | "texelFetch" | "textureSampleLevel" | "textureLoad" | "IMG_PIXEL" | "IMG_NORM_PIXEL"
  | "IMG_THIS_PIXEL" | "IMG_THIS_NORM_PIXEL" => some (.vec 4)
  | "IMG_SIZE" => some (.vec 2)
  | "textureDimensions" => some (.vector .uint 2)
  | "transpose" =>
    match first with
    | some (.matrix c r) => some (.matrix r c)
    | _ => none
  | "select" => first.or (args[1]?).join
  | "floatBitsToInt" => first.map fun t => t.withScalar .int
  | "floatBitsToUint" => first.map fun t => t.withScalar .uint
  | "intBitsToFloat" | "uintBitsToFloat" => first.map fun t => t.withScalar .float
  | _ => if isComponentwise name then ShaderType.widest (args.filterMap id) else none

/-- The type of a call. A function of the program with the same number of parameters comes before
the built-in one. -/
def callType (env : Env) (name : String) (args : List (Option ShaderType)) : Option ShaderType :=
  match env.candidates name args.length with
  | s :: _ => some s.returns
  | [] => builtinType name args

def literalType (text : String) : ShaderType :=
  match text.toList.getLast? with
  | some c => if c == 'u' || c == 'U' then .scalar .uint else .int
  | none => .int

mutual

def typeOf (env : Env) : Expr → Option ShaderType
  | .int text => some (literalType text)
  | .float _ => some .float
  | .bool _ => some .bool
  | .ident name => env.lookup name
  | .unary op operand => if op == .not then some .bool else env.typeOf operand
  | .binary op lhs rhs => binaryType op (env.typeOf lhs) (env.typeOf rhs)
  | .assign _ lhs _ => env.typeOf lhs
  | .conditional _ whenTrue whenFalse => (env.typeOf whenTrue).or (env.typeOf whenFalse)
  | .call name args => env.callType name (env.typesOf args)
  | .construct type args => some (type.sized args.length)
  | .field base name => (env.typeOf base).bind (env.fieldType name)
  | .index base _ => (env.typeOf base).bind elementType
  | .comma items => (env.typesOf items).getLast?.join
  | .deref pointer => env.typeOf pointer
  | .addrOf target => env.typeOf target

def typesOf (env : Env) : List Expr → List (Option ShaderType)
  | [] => []
  | e :: es => env.typeOf e :: env.typesOf es

end

end Env

namespace Expr

def isPureIndex : Expr → Bool
  | .unary .neg operand => operand.isPureIndex
  | .int _ | .ident _ => true
  | .binary _ lhs rhs => lhs.isPureIndex && rhs.isPureIndex
  | _ => false

/-- A variable, or a member or an element of one, that can be read twice without repeating a side
effect. -/
def isPureTarget : Expr → Bool
  | .ident _ => true
  | .field base _ => base.isPureTarget
  | .deref pointer => pointer.isPureTarget
  | .index base position => base.isPureTarget && position.isPureIndex
  | _ => false

end Expr

end ShaderEffect
