import ShaderEffect.Lowering.Basic
import ShaderEffect.Lowering.Walk

/-!
# Operations that differ

Operators and built-in functions that the target language spells otherwise: boolean inputs arrive as
integers, `mod` rounds down, shifts take unsigned amounts, bit operations take integers, and vectors
compare lane by lane.
-/

namespace ShaderEffect.Lowering

/-- The inputs that are truth values in the source and integers in the uniform buffer. -/
def Setting.booleanInputs (st : Setting) : List String :=
  (st.header.inputs.filter fun i => i.kind.isBoolean).map Input.name

def testInput (inputs : List String) (env : Env) : Expr → Expr
  | .ident name =>
    if inputs.contains name && !env.isDeclared name then .binary .ne (.ident name) (.int "0")
    else .ident name
  | e => e

def isInputTest (inputs : List String) : Expr → Bool
  | .binary .ne (.ident name) (.int zero) => zero == "0" && inputs.contains name
  | _ => false

def testOperands (inputs : List String) (env : Env) (e : Expr) : Expr :=
  if isInputTest inputs e then e
  else
    match e with
    | .assign op lhs rhs => .assign op lhs (testInput inputs env rhs)
    | e => e.mapChildren (testInput inputs env)

def intOperand (env : Env) (e : Expr) : Expr :=
  match env.typeOf e with
  | some type =>
    if type.isFloatBased then .construct (.ofComponents .int (type.components.getD 1)) [e] else e
  | none => e

def shiftAmount (env : Env) : Expr → Expr
  | .int text =>
    match text.toList.getLast? with
    | some c => if c == 'u' || c == 'U' then .int text else .int (text ++ "u")
    | none => .int (text ++ "u")
  | e =>
    let type := env.typeOf e
    if type.bind ShaderType.component == some .uint then e
    else .construct (.ofComponents .uint ((type.bind ShaderType.components).getD 1)) [e]

/-- The remainder of a division that rounds down: written out where both operands may be written
twice, else a call of a helper. -/
def floorMod (env : Env) (x y : Expr) : Expr :=
  if x.isSimple && y.isSimple then
    .binary .sub x (.binary .mul y (.call "floor" [.binary .div x y]))
  else
    let widths := [x, y].filterMap fun e => (env.typeOf e).bind ShaderType.components
    match widths.max?.getD 1 with
    | 1 => .call "isf_mod_f32" [x, y]
    | n => .call ("isf_mod_vec" ++ toString n) [x, y]

def zeroOf (type : ShaderType) : Expr :=
  let zero : Expr := match type.component with
    | some .float => .float "0.0"
    | some .uint => .int "0u"
    | _ => .int "0"
  if type.isVector then .construct type [zero] else zero

def diagonal (columns rows : Nat) (value : Expr) : Expr :=
  .construct (.matrix columns rows) ((List.range columns).map fun c =>
    .construct (.vec rows) ((List.range rows).map fun r =>
      if r == c then value else .float "0.0"))

def builtinName (env : Env) (name : String) (args : List Expr) : Option String :=
  match name with
  | "atan" => if args.length == 2 then some "atan2" else none
  | "inversesqrt" => some "inverseSqrt"
  | "dFdx" => some "dpdx"
  | "dFdy" => some "dpdy"
  | "roundEven" => some "round"
  | "faceforward" => some "faceForward"
  | "mix" =>
    match args with
    | [_, _, choice] =>
      if (env.typeOf choice).any ShaderType.isBoolBased then some "select" else none
    | _ => none
  | _ => none

def comparison? : String → Option BinOp
  | "lessThan" => some .lt
  | "lessThanEqual" => some .le
  | "greaterThan" => some .gt
  | "greaterThanEqual" => some .ge
  | "equal" => some .eq
  | "notEqual" => some .ne
  | _ => none

def bitcastScalar? : String → Option Scalar
  | "floatBitsToInt" => some .int
  | "floatBitsToUint" => some .uint
  | "intBitsToFloat" | "uintBitsToFloat" => some .float
  | _ => none

def lackingBuiltins : List String :=
  ["inverse", "matrixCompMult", "outerProduct"]

/-- A call of a built-in function with another shape in the target language. -/
def reshapeCall (env : Env) (name : String) (args : List Expr) : Option Expr :=
  match args with
  | [x] =>
    if name == "not" then some (.unary .not x)
    else
      (bitcastScalar? name).map fun s =>
        let width := ((env.typeOf x).bind ShaderType.components).getD 1
        .call ("bitcast<" ++ (ShaderType.ofComponents s width).wgsl ++ ">") [x]
  | [x, y] =>
    if name == "mod" then some (floorMod env x y)
    else (comparison? name).map fun op => .binary op x y
  | _ => none

def lowerCall (env : Env) (name : String) (args : List Expr) : LowerM Expr := do
  if env.isUserFunction name then
    return .call name args
  if let some renamed := builtinName env name args then
    return .call renamed args
  if let some e := reshapeCall env name args then
    return e
  if lackingBuiltins.contains name then
    note (.noBuiltin name)
  return .call name args

def lowerConversion (type fromType : ShaderType) (arg : Expr) : LowerM Expr := do
  match type with
  | .scalar .bool =>
    pure (if fromType.isBoolBased then arg else .binary .ne arg (zeroOf fromType))
  | .vector .bool _ =>
    pure (if fromType.isBoolBased then .construct type [arg]
      else .binary .ne arg (zeroOf fromType))
  | .matrix columns rows =>
    match fromType with
    | .scalar _ => pure (diagonal columns rows arg)
    | .matrix c r =>
      if (columns, rows) != (c, r) then note (.matrixResize c r columns rows)
      pure (.construct type [arg])
    | _ => pure (.construct type [arg])
  | _ => pure (.construct type [arg])

def lowerConstruct (env : Env) (type : ShaderType) (args : List Expr) : LowerM Expr :=
  match args with
  | [arg] =>
    match env.typeOf arg with
    | some fromType => lowerConversion type fromType arg
    | none => pure (.construct type args)
  | _ => pure (.construct type args)

def lowerBinary (env : Env) (op : BinOp) (lhs rhs : Expr) : Expr :=
  match op with
  | .xor => .binary .ne lhs rhs
  | .eq =>
    if (env.typeOf lhs).any ShaderType.isVector then .call "all" [.binary .eq lhs rhs]
    else .binary .eq lhs rhs
  | .ne =>
    if (env.typeOf lhs).any ShaderType.isVector then .call "any" [.binary .ne lhs rhs]
    else .binary .ne lhs rhs
  | op =>
    if op.isBitwise then .binary op (intOperand env lhs) (intOperand env rhs)
    else if op.isShift then .binary op (intOperand env lhs) (shiftAmount env rhs)
    else .binary op lhs rhs

def lowerAssigned (env : Env) (op : Option BinOp) (rhs : Expr) : Expr :=
  match op with
  | some op =>
    if op.isShift then shiftAmount env rhs
    else if op.isBitwise then intOperand env rhs
    else rhs
  | none => rhs

def lowerOperation (inputs : List String) (env : Env) (e : Expr) : LowerM Expr :=
  match testOperands inputs env e with
  | .call name args => lowerCall env name args
  | .construct type args => lowerConstruct env type args
  | .binary op lhs rhs => pure (lowerBinary env op lhs rhs)
  | .assign op lhs rhs => pure (.assign op lhs (lowerAssigned env op rhs))
  | .unary .bitNot operand => pure (.unary .bitNot (intOperand env operand))
  | e => pure e

def lowerOperations (st : Setting) (p : Program) : LowerM Program :=
  let inputs := st.booleanInputs
  let walker : Walker State := {
    expr := lowerOperation inputs
    stmt := fun env s => pure [s.mapExprs (testInput inputs env)]
    global := fun env d => pure { d with init := d.init.map (testInput inputs env) } }
  walker.walk (st.envFor p) p

end ShaderEffect.Lowering
