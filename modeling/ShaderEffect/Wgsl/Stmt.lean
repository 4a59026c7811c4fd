import ShaderEffect.Shader.Stmt
import ShaderEffect.Wgsl.Expr

/-!
# Statements as text

A statement is a list of lines; what stands inside braces is indented by four spaces. A call whose
value is not used may stand alone only if it calls a function of the program: any other value is
assigned to the placeholder `_`.
-/

namespace ShaderEffect

namespace Wgsl

def indent (lines : List String) : List String :=
  lines.map ("    " ++ ·)

def braced (head : String) (inner : List String) : List String :=
  (head ++ "\x7b") :: (indent inner ++ ["\x7d"])

end Wgsl

namespace VarDecl

def wgslTail (d : VarDecl) : String :=
  d.name ++ ": " ++ d.type.wgsl ++
    match d.init with
    | some e => " = " ++ e.wgsl
    | none => ""

/-- The keyword of a variable inside a function. A constant without a value is a variable. -/
def localKeyword (d : VarDecl) : String :=
  if d.storage == .const && d.init.isSome then "let" else "var"

def globalKeyword (d : VarDecl) : String :=
  if d.storage == .const && d.init.isSome then "const" else "var<private>"

def wgslLocal (d : VarDecl) : String :=
  d.localKeyword ++ " " ++ d.wgslTail

def wgslGlobal (d : VarDecl) : String :=
  d.globalKeyword ++ " " ++ d.wgslTail ++ ";"

end VarDecl

namespace Stmt

def standsAlone (functions : List String) : Expr → Bool
  | .assign _ _ _ => true
  | .unary op _ => op.isStep
  | .call name _ => functions.contains name
  | _ => false

def wgslExpr (functions : List String) (e : Expr) : String :=
  if standsAlone functions e then e.wgsl else "_ = " ++ e.wgsl

def wgslStart (functions : List String) : Option Stmt → String
  | some (.decl [d]) => d.wgslLocal
  | some (.expr e) => wgslExpr functions e
  | _ => ""

def wgslHeader (functions : List String) (start : Option Stmt) (cond step : Option Expr) : String :=
  "for (" ++ wgslStart functions start ++ "; " ++ (cond.map Expr.wgsl).getD "" ++ "; " ++
    (step.map (wgslExpr functions)).getD "" ++ ") "

def wgslLabels (labels : List CaseLabel) : String :=
  match labels.filterMap CaseLabel.value? with
  | [] => "default: "
  | values =>
    "case " ++ Expr.wgslList values ++
      (if labels.any CaseLabel.isDefault then ", default" else "") ++ ": "

/-- The end of a loop of the target language: the block that runs between two rounds, if it has
statements or a test. -/
def wgslContinuing (hasStatements : Bool) (inner : List String) (breakIf : Option Expr) :
    List String :=
  if hasStatements || breakIf.isSome then
    Wgsl.braced "continuing "
      (inner ++ (breakIf.map fun e => "break if " ++ e.wgsl ++ ";").toList)
  else
    []

mutual

/-- The lines of a statement. As a body (`bare`), a block gives the lines between its braces. -/
def wgslLines (functions : List String) (bare : Bool) : Stmt → List String
  | .decl decls => decls.map fun d => d.wgslLocal ++ ";"
  | .expr e => [wgslExpr functions e ++ ";"]
  | .block body =>
    let inner := wgslLinesAll functions body
    if bare then inner else Wgsl.braced "" inner
  | .ifElse cond whenTrue whenFalse =>
    ("if (" ++ cond.wgsl ++ ") \x7b") ::
      (Wgsl.indent (wgslLines functions true whenTrue) ++ wgslElse functions whenFalse)
  | .forLoop start cond step body =>
    Wgsl.braced (wgslHeader functions start cond step) (wgslLines functions true body)
  | .whileLoop cond body =>
    Wgsl.braced ("while (" ++ cond.wgsl ++ ") ") (wgslLines functions true body)
  | .doWhile body cond =>
    Wgsl.braced "loop "
      (wgslLines functions false body ++ wgslContinuing false [] (some (.unary .not cond)))
  | .loop body continuing breakIf =>
    Wgsl.braced "loop "
      (wgslLinesAll functions body ++
        wgslContinuing (!continuing.isEmpty) (wgslLinesAll functions continuing) breakIf)
  | .switch selector cases =>
    Wgsl.braced ("switch (" ++ selector.wgsl ++ ") ") (wgslCases functions cases)
  | .ret none => ["return;"]
  | .ret (some value) => ["return " ++ value.wgsl ++ ";"]
  | .breakOut => ["break;"]
  | .continueOn => ["continue;"]
  | .discard => ["discard;"]
  | .empty => []

def wgslLinesAll (functions : List String) : List Stmt → List String
  | [] => []
  | s :: ss => wgslLines functions false s ++ wgslLinesAll functions ss

/-- The lines from the brace that closes a branch of an `if`. A nested `if` goes on in the same
line. -/
def wgslElse (functions : List String) : Option Stmt → List String
  | none => ["\x7d"]
  | some (.ifElse cond whenTrue whenFalse) =>
    ("\x7d else if (" ++ cond.wgsl ++ ") \x7b") ::
      (Wgsl.indent (wgslLines functions true whenTrue) ++ wgslElse functions whenFalse)
  | some s => "\x7d else \x7b" :: (Wgsl.indent (wgslLines functions true s) ++ ["\x7d"])

def wgslCases (functions : List String) : List Case → List String
  | [] => []
  | .mk labels body :: cases =>
    Wgsl.braced (wgslLabels labels) (wgslLinesAll functions body) ++ wgslCases functions cases

end

end Stmt

end ShaderEffect
