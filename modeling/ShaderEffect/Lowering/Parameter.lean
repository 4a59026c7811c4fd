import ShaderEffect.Lowering.Basic
import ShaderEffect.Lowering.Walk

/-!
# Parameters

Parameters cannot be assigned to in the target language. One that is written back to the caller
becomes a pointer; one that the body only changes for itself gets a variable of its own.

A call passes the address of a whole local variable. Any other argument goes through a temporary
that is set before the statement and read back after it.
-/

namespace ShaderEffect.Lowering

/-- The parameters of each function that are written back, by position. -/
abbrev RefTable := List (String × List Bool)

/-- The parameters that the functions of a program write back. Of two functions with one name the
last counts. -/
def refTable (p : Program) : RefTable :=
  (p.functions.map fun f => (f.name, f.params.map Param.isByRef)).reverse

structure ParamState where
  base : State
  /-- The parameters of the current function that become pointers. -/
  pointers : List String := []
  /-- The parameters of the current function that are pointers already. -/
  lowered : List String := []
  returns : ShaderType := .void
  before : List Stmt := []
  after : List Stmt := []

abbrev ParamM := StateM ParamState

/-- A step that leaves the current function alone. -/
def onBase {α : Type} (m : LowerM α) : ParamM α := fun s =>
  let (a, base) := m s.base
  (a, { s with base := base })

/-- The variables that an expression writes at its own node: the target of an assignment or a step,
and the arguments that a call writes back. -/
def writtenAt (table : RefTable) : Expr → List String
  | .assign _ lhs _ => lhs.root?.toList
  | .unary op operand => if op.isStep then operand.root?.toList else []
  | .call name args =>
    match table.lookup name with
    | some flags => (args.zip flags).filterMap fun (arg, flag) =>
        if flag then arg.root? else none
    | none => []
  | _ => []

def writtenRoots (table : RefTable) (body : List Stmt) : List String :=
  (body.flatMap Stmt.subexprs).flatMap (writtenAt table)

def needsCopy (written : List String) (p : Param) : Bool :=
  !p.isByRef && written.contains p.name

def incomingName (st : Setting) (name : String) : String :=
  st.options.renamePrefix ++ "in_" ++ name

/-- Gives each parameter that the body changes a variable with its name. -/
def copyParams (st : Setting) (written : List String) (f : Function) : Function :=
  let copies := (f.params.filter (needsCopy written)).map fun p =>
    Stmt.decl [.var p.name p.type (some (.ident (incomingName st p.name)))]
  { f with
    params := f.params.map fun p =>
      if needsCopy written p then { p with name := incomingName st p.name } else p
    body := copies ++ f.body }

def paramsPassed (ways : List Passing) (f : Function) : List String :=
  (f.params.filter fun p => ways.contains p.passing).map Param.name

def enterParams (st : Setting) (table : RefTable) (f : Function) : ParamM Function := do
  modify fun s => { s with
    returns := f.returns
    pointers := paramsPassed [.out, .inOut] f
    lowered := paramsPassed [.pointer] f }
  pure (copyParams st (writtenRoots table f.body) f)

def leaveParams (f : Function) : ParamM Function := do
  modify fun s => { s with pointers := [], lowered := [] }
  pure { f with
    params := f.params.map fun p => if p.isByRef then { p with passing := .pointer } else p }

/-- The scope depth of parameters: inside the module, outside the body. -/
def paramDepth : Nat := 1

def isParam (env : Env) (name : String) : Bool :=
  env.depth? name == some paramDepth

def passThroughTemp (env : Env) (arg : Expr) : ParamM Expr := do
  if arg.root?.isNone then
    onBase (note (.outNotAssignable arg))
  match env.typeOf arg with
  | none =>
    onBase (note (.outTypeUnknown arg))
    pure (.addrOf arg)
  | some type =>
    let held ← onBase (temp .arg)
    modify fun s => { s with
      before := s.before ++ [.decl [.var held type (some arg)]]
      after := if arg.root?.isSome then s.after ++ [.expr (.assign none arg (.ident held))]
        else s.after }
    pure (.addrOf (.ident held))

def passByRef (env : Env) (arg : Expr) : ParamM Expr := do
  let s ← get
  match arg with
  | .deref (.ident name) =>
    if s.pointers.contains name then pure (.ident name) else passThroughTemp env arg
  | .ident name =>
    if s.lowered.contains name && isParam env name then pure arg
    else if env.isLocal name then pure (.addrOf arg)
    else passThroughTemp env arg
  | .addrOf target => pure (.addrOf target)
  | arg => passThroughTemp env arg

def passArgs (env : Env) : List Bool → List Expr → ParamM (List Expr)
  | flag :: flags, arg :: args => do
    let arg ← if flag then passByRef env arg else pure arg
    let args ← passArgs env flags args
    pure (arg :: args)
  | _, args => pure args

/-- Lowers a node: reads parameters through their pointers and passes arguments. -/
def lowerParamExpr (table : RefTable) (env : Env) : Expr → ParamM Expr
  | .ident name => do
    let s ← get
    pure (if s.pointers.contains name && isParam env name then .deref (.ident name)
      else .ident name)
  | .call name args =>
    match table.lookup name with
    | some flags => do
      let args ← passArgs env flags args
      pure (.call name args)
    | none => pure (.call name args)
  | e => pure e

/-- A loop that evaluates its header in each round. -/
def isLoop : Stmt → Bool
  | .forLoop .. | .whileLoop .. | .loop .. => true
  | _ => false

/-- Puts the temporaries around a statement. A result is held back until they have been read. -/
def wrapStmt (s : Stmt) : ParamM (List Stmt) := do
  let ps ← get
  if ps.before.isEmpty && ps.after.isEmpty then
    return [s]
  if isLoop s then
    onBase (note .loopHeaderCopy)
  modify fun ps => { ps with before := [], after := [] }
  match s with
  | .ret (some value) =>
    if ps.after.isEmpty || ps.returns == .void then
      return ps.before ++ [s] ++ ps.after
    else
      let result ← onBase (temp .ret)
      return ps.before ++ [.decl [.var result ps.returns (some value)]] ++ ps.after ++
        [.ret (some (.ident result))]
  | s => return ps.before ++ [s] ++ ps.after

def paramWalker (st : Setting) (table : RefTable) : Walker ParamState where
  enter := fun _ f => enterParams st table f
  leave := fun _ f => leaveParams f
  expr := lowerParamExpr table
  stmt := fun _ s => wrapStmt s

def lowerParameters (st : Setting) (p : Program) : LowerM Program := fun s =>
  let (p, out) := ((paramWalker st (refTable p)).walk (st.envFor p) p).run { base := s }
  (p, out.base)

end ShaderEffect.Lowering
