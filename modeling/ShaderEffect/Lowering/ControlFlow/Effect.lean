import ShaderEffect.Lowering.Basic

/-!
# Side effects inside expressions

Assignments and steps are statements in the target language. Those inside a larger expression move
into statements before it, innermost and leftmost first, and leave behind the value that they gave.
Where an expression may be evaluated more than once, or not at all, they stay and are reported.
-/

namespace ShaderEffect

namespace Expr

def isEffect : Expr → Bool
  | .assign .. => true
  | .unary op _ => op.isStep
  | _ => false

mutual

def hasEffect : Expr → Bool
  | .assign .. => true
  | .unary op operand => op.isStep || operand.hasEffect
  | .binary _ lhs rhs => lhs.hasEffect || rhs.hasEffect
  | .conditional cond whenTrue whenFalse =>
    cond.hasEffect || whenTrue.hasEffect || whenFalse.hasEffect
  | .call _ args => anyEffect args
  | .construct _ args => anyEffect args
  | .field base _ => base.hasEffect
  | .index base position => base.hasEffect || position.hasEffect
  | .comma items => anyEffect items
  | .deref pointer => pointer.hasEffect
  | .addrOf target => target.hasEffect
  | .int _ | .float _ | .bool _ | .ident _ => false

def anyEffect : List Expr → Bool
  | [] => false
  | e :: es => e.hasEffect || anyEffect es

end

def hasNestedEffect (e : Expr) : Bool :=
  e.children.any hasEffect

end Expr

namespace Lowering

def keepInPlace (place : FixedPlace) (e : Expr) : LowerM Unit :=
  if e.hasEffect then note (.fixedEffect place e) else pure ()

/-- Moves an effect on `target` out of its expression: gives the value it leaves behind and the
statements that come before. An assignment or a step before its operand leaves the new value, a step
after its operand the old one. -/
def moveEffect (env : Env) (effect target : Expr) (leavesNew : Bool) :
    LowerM (Expr × List Stmt) := do
  if !target.isPureTarget then
    note (.effectOnValue target)
    return (effect, [])
  if leavesNew then
    return (target, [.expr effect])
  match env.typeOf target with
  | none =>
    note (.stepTypeUnknown target)
    return (effect, [])
  | some type =>
    let old ← temp .old
    return (.ident old,
      [.decl [{ storage := .const, type := type, name := old, init := some target }],
        .expr effect])

def moveNode (env : Env) : Expr → LowerM (Expr × List Stmt)
  | .assign op lhs rhs => moveEffect env (.assign op lhs rhs) lhs true
  | .unary op operand =>
    if op.isStep then
      moveEffect env (.unary op operand) operand (op == .preInc || op == .preDec)
    else
      pure (.unary op operand, [])
  | e => pure (e, [])

mutual

/-- Moves all side effects out of an expression, and gives the statements that come before it. The
second operand of `&&` and `||` may not be evaluated, so its effects stay. -/
def extract (env : Env) : Expr → LowerM (Expr × List Stmt)
  | .binary op lhs rhs => do
    let (lhs, before) ← extract env lhs
    if op == .and || op == .or then
      keepInPlace .shortCircuit rhs
      pure (.binary op lhs rhs, before)
    else
      let (rhs, more) ← extract env rhs
      pure (.binary op lhs rhs, before ++ more)
  | .unary op operand => do
    let (operand, before) ← extract env operand
    let (e, more) ← moveNode env (.unary op operand)
    pure (e, before ++ more)
  | .assign op lhs rhs => do
    let (lhs, before) ← extract env lhs
    let (rhs, more) ← extract env rhs
    let (e, last) ← moveNode env (.assign op lhs rhs)
    pure (e, before ++ (more ++ last))
  | .conditional cond whenTrue whenFalse => do
    let (cond, before) ← extract env cond
    let (whenTrue, more) ← extract env whenTrue
    let (whenFalse, last) ← extract env whenFalse
    pure (.conditional cond whenTrue whenFalse, before ++ (more ++ last))
  | .call name args => do
    let (args, before) ← extractAll env args
    pure (.call name args, before)
  | .construct type args => do
    let (args, before) ← extractAll env args
    pure (.construct type args, before)
  | .field base name => do
    let (base, before) ← extract env base
    pure (.field base name, before)
  | .index base position => do
    let (base, before) ← extract env base
    let (position, more) ← extract env position
    pure (.index base position, before ++ more)
  | .comma items => do
    let (items, before) ← extractAll env items
    pure (.comma items, before)
  | .deref pointer => do
    let (pointer, before) ← extract env pointer
    pure (.deref pointer, before)
  | .addrOf target => do
    let (target, before) ← extract env target
    pure (.addrOf target, before)
  | .int text => pure (.int text, [])
  | .float text => pure (.float text, [])
  | .bool value => pure (.bool value, [])
  | .ident name => pure (.ident name, [])

def extractAll (env : Env) : List Expr → LowerM (List Expr × List Stmt)
  | [] => pure ([], [])
  | e :: es => do
    let (e, before) ← extract env e
    let (es, more) ← extractAll env es
    pure (e :: es, before ++ more)

end

def extractOperands (env : Env) : Expr → LowerM (Expr × List Stmt)
  | .assign op lhs rhs => do
    let (lhs, before) ← extract env lhs
    let (rhs, more) ← extract env rhs
    pure (.assign op lhs rhs, before ++ more)
  | .unary op operand => do
    let (operand, before) ← extract env operand
    pure (.unary op operand, before)
  | e => pure (e, [])

def extractDecls (env : Env) : List VarDecl → LowerM (List VarDecl × List Stmt)
  | [] => pure ([], [])
  | d :: ds => do
    let (init, before) ← match d.init with
      | none => pure (none, [])
      | some e => do
        let (e, before) ← extract env e
        pure (some e, before)
    let (ds, more) ← extractDecls env ds
    pure ({ d with init := init } :: ds, before ++ more)

def hasNestedStep : Expr → Bool
  | .comma items => items.any Expr.hasNestedEffect
  | e => e.hasNestedEffect

/-- Moves the side effects out of a statement into statements before it. -/
def hoist (env : Env) : Stmt → LowerM (List Stmt)
  | .expr e => do
    let (e, before) ← if e.isEffect then extractOperands env e else extract env e
    pure (before ++ [.expr e])
  | .ret (some e) => do
    let (e, before) ← extract env e
    pure (before ++ [.ret (some e)])
  | .ifElse cond whenTrue whenFalse => do
    let (cond, before) ← extract env cond
    pure (before ++ [.ifElse cond whenTrue whenFalse])
  | .switch selector cases => do
    let (selector, before) ← extract env selector
    pure (before ++ [.switch selector cases])
  | .decl decls => do
    let (decls, before) ← extractDecls env decls
    pure (before ++ [.decl decls])
  | .whileLoop cond body => do
    keepInPlace .whileCondition cond
    pure [.whileLoop cond body]
  | .loop body continuing (some cond) => do
    keepInPlace .doWhileCondition cond
    pure [.loop body continuing (some cond)]
  | .forLoop start cond step body => do
    if let some c := cond then keepInPlace .forCondition c
    if let some s := step then
      if hasNestedStep s then note (.stepEffect s)
    pure [.forLoop start cond step body]
  | s => pure [s]

def hoistAll (env : Env) : List Stmt → LowerM (List Stmt)
  | [] => pure []
  | s :: ss => do
    let out ← hoist env s
    let others ← hoistAll env ss
    pure (out ++ others)

end Lowering

end ShaderEffect
