import ShaderEffect.Typing.Env

/-!
# Walking a program

A walker changes the nodes of a program from the leaves up, and knows at each node what is declared
there. The statements inside a statement are changed before its own expressions, so whatever a
walker sets aside while it visits those expressions belongs to this statement. Case labels are not
visited.

A statement may become several. Where the grammar takes a single one they are put into a block, and
of the statements that the first part of a `for` header becomes, all but the last move before the
loop, into a block around it.
-/

namespace ShaderEffect

/-- What to do at each node, after the nodes inside it. -/
structure Walker (σ : Type) where
  enter : Env → Function → StateM σ Function := fun _ f => pure f
  leave : Env → Function → StateM σ Function := fun _ f => pure f
  expr : Env → Expr → StateM σ Expr := fun _ e => pure e
  stmt : Env → Stmt → StateM σ (List Stmt) := fun _ s => pure [s]
  global : Env → VarDecl → StateM σ VarDecl := fun _ d => pure d

namespace Stmt

def ofList : List Stmt → Stmt
  | [s] => s
  | ss => .block ss

end Stmt

namespace Walker

variable {σ : Type}

mutual

def walkExpr (w : Walker σ) (env : Env) : Expr → StateM σ Expr
  | .unary op operand => do
    let operand ← w.walkExpr env operand
    w.expr env (.unary op operand)
  | .binary op lhs rhs => do
    let lhs ← w.walkExpr env lhs
    let rhs ← w.walkExpr env rhs
    w.expr env (.binary op lhs rhs)
  | .assign op lhs rhs => do
    let lhs ← w.walkExpr env lhs
    let rhs ← w.walkExpr env rhs
    w.expr env (.assign op lhs rhs)
  | .conditional cond whenTrue whenFalse => do
    let cond ← w.walkExpr env cond
    let whenTrue ← w.walkExpr env whenTrue
    let whenFalse ← w.walkExpr env whenFalse
    w.expr env (.conditional cond whenTrue whenFalse)
  | .call name args => do
    let args ← w.walkExprs env args
    w.expr env (.call name args)
  | .construct type args => do
    let args ← w.walkExprs env args
    w.expr env (.construct type args)
  | .field base name => do
    let base ← w.walkExpr env base
    w.expr env (.field base name)
  | .index base position => do
    let base ← w.walkExpr env base
    let position ← w.walkExpr env position
    w.expr env (.index base position)
  | .comma items => do
    let items ← w.walkExprs env items
    w.expr env (.comma items)
  | .deref pointer => do
    let pointer ← w.walkExpr env pointer
    w.expr env (.deref pointer)
  | .addrOf target => do
    let target ← w.walkExpr env target
    w.expr env (.addrOf target)
  | .int text => w.expr env (.int text)
  | .float text => w.expr env (.float text)
  | .bool value => w.expr env (.bool value)
  | .ident name => w.expr env (.ident name)

def walkExprs (w : Walker σ) (env : Env) : List Expr → StateM σ (List Expr)
  | [] => pure []
  | e :: es => do
    let e ← w.walkExpr env e
    let es ← w.walkExprs env es
    pure (e :: es)

end

def walkOptExpr (w : Walker σ) (env : Env) : Option Expr → StateM σ (Option Expr)
  | none => pure none
  | some e => do
    let e ← w.walkExpr env e
    pure (some e)

def walkDecls (w : Walker σ) (env : Env) : List VarDecl → StateM σ (List VarDecl)
  | [] => pure []
  | d :: ds => do
    let init ← w.walkOptExpr env d.init
    let ds ← w.walkDecls env ds
    pure ({ d with init := init } :: ds)

mutual

def walkStmt (w : Walker σ) (env : Env) : Stmt → StateM σ (List Stmt)
  | .block body => do
    let body ← w.walkStmts env.push body
    w.stmt env (.block body)
  | .ifElse cond whenTrue whenFalse => do
    let whenTrue ← w.walkStmt env whenTrue
    let whenFalse ← w.walkOpt env whenFalse
    let cond ← w.walkExpr env cond
    w.stmt env (.ifElse cond (.ofList whenTrue) (whenFalse.map .ofList))
  | .forLoop start cond step body => do
    let first ← w.walkOpt env.push start
    let first := first.getD []
    let inner := env.push.declareStmts first
    let body ← w.walkStmt inner body
    let cond ← w.walkOptExpr inner cond
    let step ← w.walkOptExpr inner step
    let out ← w.stmt env (.forLoop first.getLast? cond step (.ofList body))
    if first.dropLast.isEmpty then
      pure out
    else
      pure [.block (first.dropLast ++ out)]
  | .whileLoop cond body => do
    let body ← w.walkStmt env body
    let cond ← w.walkExpr env cond
    w.stmt env (.whileLoop cond (.ofList body))
  | .doWhile body cond => do
    let body ← w.walkStmt env body
    let cond ← w.walkExpr env cond
    w.stmt env (.doWhile (.ofList body) cond)
  | .loop body continuing breakIf => do
    let body ← w.walkStmts env.push body
    let inner := env.push.declareStmts body
    let continuing ← w.walkStmts inner continuing
    let breakIf ← w.walkOptExpr (inner.declareStmts continuing) breakIf
    w.stmt env (.loop body continuing breakIf)
  | .switch selector cases => do
    let cases ← w.walkCases env cases
    let selector ← w.walkExpr env selector
    w.stmt env (.switch selector cases)
  | .decl decls => do
    let decls ← w.walkDecls env decls
    w.stmt env (.decl decls)
  | .expr e => do
    let e ← w.walkExpr env e
    w.stmt env (.expr e)
  | .ret value => do
    let value ← w.walkOptExpr env value
    w.stmt env (.ret value)
  | .breakOut => w.stmt env .breakOut
  | .continueOn => w.stmt env .continueOn
  | .discard => w.stmt env .discard
  | .empty => w.stmt env .empty

/-- Walks statements in order; what one declares is known to those after it. -/
def walkStmts (w : Walker σ) (env : Env) : List Stmt → StateM σ (List Stmt)
  | [] => pure []
  | s :: ss => do
    let out ← w.walkStmt env s
    let others ← w.walkStmts (env.declareStmts out) ss
    pure (out ++ others)

def walkOpt (w : Walker σ) (env : Env) : Option Stmt → StateM σ (Option (List Stmt))
  | none => pure none
  | some s => do
    let out ← w.walkStmt env s
    pure (some out)

def walkCases (w : Walker σ) (env : Env) : List Case → StateM σ (List Case)
  | [] => pure []
  | .mk labels body :: cases => do
    let body ← w.walkStmts env.push body
    let cases ← w.walkCases env cases
    pure (.mk labels body :: cases)

end

def walkGlobals (w : Walker σ) (env : Env) : List VarDecl → StateM σ (List VarDecl)
  | [] => pure []
  | d :: ds => do
    let init ← w.walkOptExpr env d.init
    let d ← w.global env { d with init := init }
    let ds ← w.walkGlobals env ds
    pure (d :: ds)

def walkFunction (w : Walker σ) (env : Env) (f : Function) : StateM σ Function := do
  let inner := env.push.declareParams f.params
  let f ← w.enter inner f
  let body ← w.walkStmts inner.push f.body
  w.leave inner { f with body := body }

def walkItems (w : Walker σ) (env : Env) : List Item → StateM σ (List Item)
  | [] => pure []
  | .struct d :: items => do
    let items ← w.walkItems env items
    pure (.struct d :: items)
  | .globals decls :: items => do
    let decls ← w.walkGlobals env decls
    let items ← w.walkItems env items
    pure (.globals decls :: items)
  | .function f :: items => do
    let f ← w.walkFunction env f
    let items ← w.walkItems env items
    pure (.function f :: items)

def walk (w : Walker σ) (env : Env) (p : Program) : StateM σ Program := do
  let items ← w.walkItems env p.items
  pure { items := items }

end Walker

end ShaderEffect
