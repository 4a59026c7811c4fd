import ShaderEffect.Shader.Expr

/-!
# Statements

The statement tree of a shader body. `loop` has no spelling in the source language: it stands for a
loop of the target language with a block that runs between two rounds.

`exprs` and `children` give what one statement holds itself; `subexprs` and `substmts` go all the
way down, and `mapTree` changes every expression and every statement from the leaves up. Case labels
belong to the expressions of a `switch`.
-/

namespace ShaderEffect

inductive Storage where
  | var
  | const
  | uniform
  | input
  | output
  deriving Repr, DecidableEq

structure VarDecl where
  storage : Storage
  type : ShaderType
  name : String
  init : Option Expr
  deriving Repr

inductive CaseLabel where
  | value (e : Expr)
  | default
  deriving Repr

mutual

inductive Stmt where
  | decl (decls : List VarDecl)
  | expr (e : Expr)
  | block (body : List Stmt)
  | ifElse (cond : Expr) (whenTrue : Stmt) (whenFalse : Option Stmt)
  | forLoop (start : Option Stmt) (cond step : Option Expr) (body : Stmt)
  | whileLoop (cond : Expr) (body : Stmt)
  | doWhile (body : Stmt) (cond : Expr)
  | loop (body continuing : List Stmt) (breakIf : Option Expr)
  | switch (selector : Expr) (cases : List Case)
  | ret (value : Option Expr)
  | breakOut
  | continueOn
  | discard
  | empty

inductive Case where
  | mk (labels : List CaseLabel) (body : List Stmt)

end

deriving instance Repr for Stmt
deriving instance Repr for Case

instance : Inhabited Stmt := ⟨.empty⟩

namespace VarDecl

def var (name : String) (type : ShaderType) (init : Option Expr) : VarDecl :=
  { storage := .var, type := type, name := name, init := init }

end VarDecl

namespace CaseLabel

def value? : CaseLabel → Option Expr
  | .value e => some e
  | .default => none

def isDefault : CaseLabel → Bool
  | .value _ => false
  | .default => true

def map (f : Expr → Expr) : CaseLabel → CaseLabel
  | .value e => .value (f e)
  | .default => .default

end CaseLabel

namespace Case

def labels : Case → List CaseLabel
  | .mk labels _ => labels

def body : Case → List Stmt
  | .mk _ body => body

end Case

namespace Stmt

def isJump : Stmt → Bool
  | .ret _ | .breakOut | .continueOn | .discard => true
  | _ => false

def exprs : Stmt → List Expr
  | .decl decls => decls.filterMap VarDecl.init
  | .expr e => [e]
  | .ifElse cond _ _ => [cond]
  | .whileLoop cond _ => [cond]
  | .doWhile _ cond => [cond]
  | .forLoop _ cond step _ => cond.toList ++ step.toList
  | .loop _ _ breakIf => breakIf.toList
  | .switch selector cases =>
    selector :: cases.flatMap fun c => c.labels.filterMap CaseLabel.value?
  | .ret value => value.toList
  | .block _ | .breakOut | .continueOn | .discard | .empty => []

def mapExprs (f : Expr → Expr) : Stmt → Stmt
  | .decl decls => .decl (decls.map fun d => { d with init := d.init.map f })
  | .expr e => .expr (f e)
  | .ifElse cond whenTrue whenFalse => .ifElse (f cond) whenTrue whenFalse
  | .whileLoop cond body => .whileLoop (f cond) body
  | .doWhile body cond => .doWhile body (f cond)
  | .forLoop start cond step body => .forLoop start (cond.map f) (step.map f) body
  | .loop body continuing breakIf => .loop body continuing (breakIf.map f)
  | .switch selector cases =>
    .switch (f selector) (cases.map fun c => .mk (c.labels.map (CaseLabel.map f)) c.body)
  | .ret value => .ret (value.map f)
  | s => s

mutual

def substmts : Stmt → List Stmt
  | .block body => .block body :: substmtsAll body
  | .ifElse c t f => .ifElse c t f :: (t.substmts ++ substmtsOpt f)
  | .forLoop start cond step body =>
    .forLoop start cond step body :: (substmtsOpt start ++ body.substmts)
  | .whileLoop cond body => .whileLoop cond body :: body.substmts
  | .doWhile body cond => .doWhile body cond :: body.substmts
  | .loop body continuing breakIf =>
    .loop body continuing breakIf :: (substmtsAll body ++ substmtsAll continuing)
  | .switch selector cases => .switch selector cases :: substmtsCases cases
  | .decl decls => [.decl decls]
  | .expr e => [.expr e]
  | .ret value => [.ret value]
  | .breakOut => [.breakOut]
  | .continueOn => [.continueOn]
  | .discard => [.discard]
  | .empty => [.empty]

def substmtsAll : List Stmt → List Stmt
  | [] => []
  | s :: ss => s.substmts ++ substmtsAll ss

def substmtsOpt : Option Stmt → List Stmt
  | none => []
  | some s => s.substmts

def substmtsCases : List Case → List Stmt
  | [] => []
  | .mk _ body :: cases => substmtsAll body ++ substmtsCases cases

end

def subexprs (s : Stmt) : List Expr :=
  s.substmts.flatMap fun t => t.exprs.flatMap Expr.subexprs

mutual

def mapTree (f : Expr → Expr) (g : Stmt → Stmt) : Stmt → Stmt
  | .block body => g (.block (mapTreeAll f g body))
  | .ifElse c t e => g (.ifElse (f c) (mapTree f g t) (mapTreeOpt f g e))
  | .forLoop start cond step body =>
    g (.forLoop (mapTreeOpt f g start) (cond.map f) (step.map f) (mapTree f g body))
  | .whileLoop cond body => g (.whileLoop (f cond) (mapTree f g body))
  | .doWhile body cond => g (.doWhile (mapTree f g body) (f cond))
  | .loop body continuing breakIf =>
    g (.loop (mapTreeAll f g body) (mapTreeAll f g continuing) (breakIf.map f))
  | .switch selector cases => g (.switch (f selector) (mapTreeCases f g cases))
  | .decl decls => g (.decl (decls.map fun d => { d with init := d.init.map f }))
  | .expr e => g (.expr (f e))
  | .ret value => g (.ret (value.map f))
  | .breakOut => g .breakOut
  | .continueOn => g .continueOn
  | .discard => g .discard
  | .empty => g .empty

def mapTreeAll (f : Expr → Expr) (g : Stmt → Stmt) : List Stmt → List Stmt
  | [] => []
  | s :: ss => mapTree f g s :: mapTreeAll f g ss

def mapTreeOpt (f : Expr → Expr) (g : Stmt → Stmt) : Option Stmt → Option Stmt
  | none => none
  | some s => some (mapTree f g s)

def mapTreeCases (f : Expr → Expr) (g : Stmt → Stmt) : List Case → List Case
  | [] => []
  | .mk labels body :: cases =>
    .mk (labels.map (CaseLabel.map f)) (mapTreeAll f g body) :: mapTreeCases f g cases

end

end Stmt

end ShaderEffect
