import ShaderEffect.Lowering.Basic

/-!
# Initial values of globals

The initial value of a global has to be constant in the target language. Where it is not, the global
starts without one, and an assignment is left for the start of the entry point.
-/

namespace ShaderEffect.Lowering

def runtimeBuiltins : List String :=
  ["textureSampleLevel", "textureLoad", "textureDimensions", "dpdx", "dpdy", "fwidth"]

mutual

/-- A constant expression, given the named constants and the functions of the program. -/
def isConstant (consts functions : List String) : Expr → Bool
  | .int _ | .float _ | .bool _ => true
  | .ident name => consts.contains name
  | .call name args =>
    !functions.contains name && !runtimeBuiltins.contains name &&
      areConstant consts functions args
  | .construct _ args => areConstant consts functions args
  | .unary _ operand => isConstant consts functions operand
  | .binary _ lhs rhs => isConstant consts functions lhs && isConstant consts functions rhs
  | .field base _ => isConstant consts functions base
  | .index base position =>
    isConstant consts functions base && isConstant consts functions position
  | .assign .. | .conditional .. | .comma _ | .deref _ | .addrOf _ => false

def areConstant (consts functions : List String) : List Expr → Bool
  | [] => true
  | e :: es => isConstant consts functions e && areConstant consts functions es

end

def withoutInit (d : VarDecl) : VarDecl :=
  { d with storage := if d.storage == .const then .var else d.storage, init := none }

/-- Takes the initial value of a global away if it is not constant. Also gives the constants known
afterwards. -/
def deferInit (functions consts : List String) (d : VarDecl) : LowerM (VarDecl × List String) := do
  match d.init with
  | none => pure (d, consts)
  | some init =>
    if isConstant consts functions init then
      pure (d, if d.storage == .const then d.name :: consts else consts)
    else
      if d.storage == .const then note (.runtimeConst d.name)
      modify fun s => { s with
        deferred := s.deferred ++ [.expr (.assign none (.ident d.name) init)] }
      pure (withoutInit d, consts)

def deferInits (functions : List String) :
    List String → List VarDecl → LowerM (List VarDecl × List String)
  | consts, [] => pure ([], consts)
  | consts, d :: ds => do
    let (d, consts) ← deferInit functions consts d
    let (ds, consts) ← deferInits functions consts ds
    pure (d :: ds, consts)

def deferItems (functions : List String) : List String → List Item → LowerM (List Item)
  | _, [] => pure []
  | consts, .globals decls :: items => do
    let (decls, consts) ← deferInits functions consts decls
    let items ← deferItems functions consts items
    pure (.globals decls :: items)
  | consts, item :: items => do
    let items ← deferItems functions consts items
    pure (item :: items)

def deferInitialValues (_ : Setting) (p : Program) : LowerM Program := do
  let items ← deferItems p.functionNames [] p.items
  pure { items := items }

end ShaderEffect.Lowering
