import ShaderEffect.Lowering.Basic
import ShaderEffect.Lowering.Walk

/-!
# One variable per declaration

The target language declares one variable at a time, so a declaration of several becomes several.
Global interface variables go away: the host provides inputs and uniforms itself, and the first
output is remembered as another name of the colour of the fragment.
-/

namespace ShaderEffect.Lowering

def Setting.providesUniform (st : Setting) (name : String) : Bool :=
  (st.header.input? name).isSome || (st.header.passIndex? name).isSome ||
    (st.layout.field? name).isSome

def keepGlobal (st : Setting) (d : VarDecl) : LowerM Bool := do
  match d.storage with
  | .var | .const => pure true
  | .uniform =>
    note (if st.providesUniform d.name then .uniformProvided d.name else .uniformUnknown d.name)
    pure false
  | .input =>
    if d.name != "isf_FragNormCoord" then note (.inputRemoved d.name)
    pure false
  | .output =>
    match (← get).outputAlias with
    | none => modify fun s => { s with outputAlias := some d.name }
    | some first => note (.secondOutput d.name first)
    pure false

def keptGlobals (st : Setting) : List VarDecl → LowerM (List Item)
  | [] => pure []
  | d :: ds => do
    let keep ← keepGlobal st d
    let items ← keptGlobals st ds
    pure (if keep then .globals [d] :: items else items)

def keptItems (st : Setting) : List Item → LowerM (List Item)
  | [] => pure []
  | .globals decls :: items => do
    let kept ← keptGlobals st decls
    let items ← keptItems st items
    pure (kept ++ items)
  | item :: items => do
    let items ← keptItems st items
    pure (item :: items)

def splitDecl : Stmt → List Stmt
  | .decl decls =>
    if decls.length > 1 then decls.map fun d => .decl [d] else [.decl decls]
  | s => [s]

def splitDeclarations (st : Setting) (p : Program) : LowerM Program := do
  let items ← keptItems st p.items
  let p : Program := { items := items }
  let walker : Walker State := { stmt := fun _ s => pure (splitDecl s) }
  walker.walk (st.envFor p) p

end ShaderEffect.Lowering
