import ShaderEffect.Lowering.Basic
import ShaderEffect.Wgsl.Reserved

/-!
# Reserved names

Renames what the program declares under a name that the target language reserves. Names that the
program does not declare are left alone.
-/

namespace ShaderEffect.Lowering

abbrev Renames := List (String × String)

def Renames.apply (r : Renames) (name : String) : String :=
  (r.lookup name).getD name

def localNames (body : List Stmt) : List String :=
  (Stmt.substmtsAll body).flatMap fun s =>
    match s with
    | .decl decls => decls.map VarDecl.name
    | _ => []

def keepsName (f : Function) : Bool :=
  f.isEntry || f.name == "main"

def valueNames (p : Program) : List String :=
  p.items.flatMap fun item =>
    match item with
    | .struct _ => []
    | .globals decls => decls.map VarDecl.name
    | .function f => f.params.map Param.name ++ localNames f.body

def renamableFunctions (p : Program) : List String :=
  (p.functions.filter fun f => !keepsName f).map Function.name

def structDefs (p : Program) : List StructDef :=
  p.items.filterMap fun item =>
    match item with
    | .struct d => some d
    | _ => none

/-- The name with as many underscores behind it as it takes to be free. The fuel is the number of
taken names, which are used up one by one. -/
def freeName (taken : List String) : Nat → String → String
  | 0, name => name
  | fuel + 1, name => if taken.contains name then freeName taken fuel (name ++ "_") else name

def nameRenames (renamePrefix : String) (p : Program) : Renames :=
  let taken := valueNames p ++ renamableFunctions p
  let names := taken ++ (structDefs p).map StructDef.name
  (names.filter Wgsl.isReserved).eraseDups.map fun name =>
    (name, freeName taken taken.length ( renamePrefix ++ name))

def memberRenames (renamePrefix : String) (p : Program) : Renames :=
  let names := (structDefs p).flatMap fun d => d.members.map Member.name
  (names.filter Wgsl.isReserved).eraseDups.map fun name => (name, renamePrefix ++ name)

def renameType (r : Renames) : ShaderType → ShaderType
  | .struct name => .struct (r.apply name)
  | .array elem length => .array (renameType r elem) length
  | t => t

def renameNode (names members : Renames) (values functions : List String) : Expr → Expr
  | .ident name => .ident (if values.contains name then names.apply name else name)
  | .call name args => .call (if functions.contains name then names.apply name else name) args
  | .construct type args => .construct (renameType names type) args
  | .field base name => .field base (if isSwizzle name then name else members.apply name)
  | e => e

def renameDecl (names : Renames) (onExpr : Expr → Expr) (d : VarDecl) : VarDecl :=
  { d with
    name := names.apply d.name
    type := renameType names d.type
    init := d.init.map onExpr }

def renameLocals (names : Renames) : Stmt → Stmt
  | .decl decls => .decl (decls.map (renameDecl names id))
  | s => s

def renameItem (names members : Renames) (onExpr : Expr → Expr) : Item → Item
  | .struct d => .struct {
      name := names.apply d.name
      members := d.members.map fun m =>
        { name := members.apply m.name, type := renameType names m.type } }
  | .globals decls => .globals (decls.map (renameDecl names onExpr))
  | .function f => .function { f with
      name := if keepsName f then f.name else names.apply f.name
      returns := renameType names f.returns
      params := f.params.map fun p =>
        { p with name := names.apply p.name, type := renameType names p.type }
      body := Stmt.mapTreeAll onExpr (renameLocals names) f.body }

def renameReserved (st : Setting) (p : Program) : LowerM Program := do
  let names := nameRenames st.options.renamePrefix p
  let members := memberRenames st.options.renamePrefix p
  if names.isEmpty && members.isEmpty then
    return p
  let onExpr := Expr.mapNodes
    (renameNode names members (valueNames p) (renamableFunctions p))
  recordRenames (names ++ members)
  return { items := p.items.map (renameItem names members onExpr) }

end ShaderEffect.Lowering
