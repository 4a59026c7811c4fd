import ShaderEffect.Lowering.Basic
import ShaderEffect.Lowering.Walk
import ShaderEffect.Shader.Literal

/-!
# Implicit conversions

The source language turns integers into floats where floats are wanted, and lets a scalar stand for
a vector in some built-in functions. The target language wants both written out. An expression
without a known type stays as it is.
-/

namespace ShaderEffect.Lowering

/-- The built-in functions that want all their arguments of one shape. -/
def sameShape : List String :=
  ["clamp", "min", "max", "smoothstep", "step", "mix", "pow", "mod"]

/-- An integer expression of the given type as a float: a literal is spelled anew, all else is
converted. -/
def toFloat (type : ShaderType) : Expr → Expr
  | .int text => .float (Literal.floatOfInt text)
  | .unary .neg (.int text) => .unary .neg (.float (Literal.floatOfInt text))
  | e => .construct (.ofComponents .float (type.components.getD 1)) [e]

def floatIfInteger (env : Env) (e : Expr) : Expr :=
  match env.typeOf e with
  | some type => if type.isIntegerBased then toFloat type e else e
  | none => e

def coerce (env : Env) (target : ShaderType) (e : Expr) : Expr :=
  if target.isFloatBased then floatIfInteger env e else e

/-- The operands of an operation: where one is a float, the other becomes one. -/
def unify (env : Env) (lhs rhs : Expr) : Expr × Expr :=
  match env.typeOf lhs, env.typeOf rhs with
  | some l, some r =>
    if l.isFloatBased && r.isIntegerBased then (lhs, toFloat r rhs)
    else if r.isFloatBased && l.isIntegerBased then (toFloat l lhs, rhs)
    else (lhs, rhs)
  | _, _ => (lhs, rhs)

def userArgs (env : Env) (name : String) (args : List Expr) : List Expr :=
  match env.candidates name args.length with
  | [s] => (args.zip s.params).map fun (arg, type) => coerce env type arg
  | _ => args

def builtinArg (env : Env) (target : ShaderType) (spread : Bool) (arg : Expr) : Expr :=
  match env.typeOf arg with
  | none => arg
  | some type =>
    let arg := if type.isIntegerBased then toFloat type arg else arg
    if spread && type.isScalar && target.isVector then .construct target [arg] else arg

def builtinArgs (env : Env) (name : String) (args : List Expr) : List Expr :=
  let shaped := if name == "mix" then min 2 args.length else args.length
  match ShaderType.widest ((env.typesOf (args.take shaped)).filterMap id) with
  | none => args
  | some target =>
    if target.isFloatBased then
      (args.take shaped).map (builtinArg env target (sameShape.contains name)) ++
        (args.drop shaped).map (builtinArg env target false)
    else args

/-- The arguments of a constructor. A constructor of one argument is itself a conversion, unless it
spreads a scalar. -/
def constructorArgs (env : Env) (type : ShaderType) (args : List Expr) : List Expr :=
  if !type.isFloatBased || type.isScalar then args
  else
    args.map fun arg =>
      match env.typeOf arg with
      | some t =>
        if t.isIntegerBased && (t.isScalar || args.length != 1) then toFloat t arg else arg
      | none => arg

def convertNode (env : Env) : Expr → Expr
  | .call name args =>
    if env.isUserFunction name then .call name (userArgs env name args)
    else if isComponentwise name then .call name (builtinArgs env name args)
    else .call name args
  | .construct type args => .construct type (constructorArgs env type args)
  | .binary op lhs rhs =>
    if op.isArithmetic || op.isComparison then
      let (lhs, rhs) := unify env lhs rhs
      .binary op lhs rhs
    else .binary op lhs rhs
  | .assign op lhs rhs =>
    match env.typeOf lhs with
    | some target => .assign op lhs (coerce env target rhs)
    | none => .assign op lhs rhs
  | e => e

def convertDecl (env : Env) (d : VarDecl) : VarDecl :=
  { d with init := d.init.map (coerce env d.type) }

def convertStmt (env : Env) (returns : Option ShaderType) : Stmt → Stmt
  | .decl decls => .decl (decls.map (convertDecl env))
  | .ret (some value) =>
    match returns with
    | some type => .ret (some (coerce env type value))
    | none => .ret (some value)
  | s => s

/-- Writes out conversions, with the result type of the enclosing function as state. -/
def converter : Walker (Option ShaderType) where
  enter := fun _ f => do
    set (some f.returns)
    pure f
  leave := fun _ f => do
    set (none : Option ShaderType)
    pure f
  expr := fun env e => pure (convertNode env e)
  stmt := fun env s => do
    let returns ← get
    pure [convertStmt env returns s]
  global := fun env d => pure (convertDecl env d)

def insertConversions (st : Setting) (p : Program) : LowerM Program :=
  pure ((converter.walk (st.envFor p) p).run none).1

end ShaderEffect.Lowering
