import ShaderEffect.Shader.Program

/-!
# Scopes

What the names of a program stand for at one place: variables in nested scopes, the names that the
host provides, functions and structures. The names of the host are kept apart from those that the
program declares, so that a declaration hides them.
-/

namespace ShaderEffect

structure Signature where
  name : String
  params : List ShaderType
  returns : ShaderType
  deriving Repr

/-- The variables of one scope; of two with one name the first in the list counts. -/
abbrev Scope := List (String × ShaderType)

/-- What names stand for. The innermost scope comes first; the last one holds the globals. -/
structure Env where
  scopes : List Scope
  host : Scope
  functions : List Signature
  structs : List (String × List Member)
  deriving Repr

namespace Env

def ofHost (host : Scope) : Env :=
  { scopes := [[]], host := host, functions := [], structs := [] }

def push (env : Env) : Env :=
  { env with scopes := [] :: env.scopes }

def declare (env : Env) (name : String) (type : ShaderType) : Env :=
  match env.scopes with
  | s :: ss => { env with scopes := ((name, type) :: s) :: ss }
  | [] => env

def declareAll (env : Env) (decls : List VarDecl) : Env :=
  decls.foldl (fun env d => env.declare d.name d.type) env

def declareParams (env : Env) (params : List Param) : Env :=
  params.foldl (fun env p => env.declare p.name p.type) env

def declareStmt (env : Env) : Stmt → Env
  | .decl decls => env.declareAll decls
  | _ => env

def declareStmts (env : Env) (ss : List Stmt) : Env :=
  ss.foldl declareStmt env

def declareFunction (env : Env) (f : Function) : Env :=
  { env with
    functions := env.functions ++
      [{ name := f.name, params := f.paramTypes, returns := f.returns }] }

def declareStruct (env : Env) (name : String) (members : List Member) : Env :=
  { env with structs := (name, members) :: env.structs }

def declareItem (env : Env) : Item → Env
  | .struct d => env.declareStruct d.name d.members
  | .globals decls => env.declareAll decls
  | .function f => env.declareFunction f

def ofProgram (p : Program) (host : Scope) : Env :=
  p.items.foldl declareItem (ofHost host)

/-- The number of scopes around the innermost one that declares the name: zero for a global. -/
def depthIn (name : String) : List Scope → Option Nat
  | [] => none
  | s :: ss => if (s.lookup name).isSome then some ss.length else depthIn name ss

def depth? (env : Env) (name : String) : Option Nat :=
  depthIn name env.scopes

def isLocal (env : Env) (name : String) : Bool :=
  (env.depth? name).any (0 < ·)

def isDeclared (env : Env) (name : String) : Bool :=
  (env.depth? name).isSome

/-- The type of a name: its innermost declaration, else what the host provides. -/
def lookup (env : Env) (name : String) : Option ShaderType :=
  (env.scopes.findSome? fun s => s.lookup name).or (env.host.lookup name)

def signatures (env : Env) (name : String) : List Signature :=
  env.functions.filter fun s => s.name == name

def candidates (env : Env) (name : String) (count : Nat) : List Signature :=
  (env.signatures name).filter fun s => s.params.length == count

def isUserFunction (env : Env) (name : String) : Bool :=
  env.functions.any fun s => s.name == name

def member? (env : Env) (struct field : String) : Option ShaderType :=
  (env.structs.lookup struct).bind fun ms =>
    (ms.find? fun m => m.name == field).map Member.type

end Env

end ShaderEffect
