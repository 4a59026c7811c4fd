import ShaderEffect.Lowering.Basic

/-!
# The entry point

The function `main` becomes the entry point of the fragment stage: it sets the coordinates of the
fragment, runs the initial values that were left for it, and returns the colour. A program without
`main` gets an entry point that calls `mainImage`, or returns a colour that was never set.
-/

namespace ShaderEffect.Lowering

/-- Sets the coordinates of the fragment. Positions have their origin at the top left, the
coordinates of the body at the bottom left. -/
def prologue : List Stmt :=
  let position (lane : String) : Expr := .field (.ident Wgsl.positionInput) lane
  let height : Expr := .field (.field (.ident Wgsl.uniformVar) "RENDERSIZE") "y"
  [.expr (.assign none (.ident Wgsl.fragCoord)
      (.construct (.vec 4)
        [position "x", .binary .sub height (position "y"), position "z", position "w"])),
    .expr (.assign none (.ident Wgsl.fragNormCoord) (.ident Wgsl.uvInput))]

def returnColor : Stmt := .ret (some (.ident Wgsl.fragColor))

def returnsColor : Stmt → Stmt
  | .ret none => returnColor
  | s => s

def colorBody (body : List Stmt) : List Stmt :=
  let body := Stmt.mapTreeAll id returnsColor body
  match body.getLast? with
  | some (.ret _) => body
  | _ => body ++ [returnColor]

def isMain (f : Function) : Bool :=
  f.name == "main" && f.params.isEmpty

def asEntry (before : List Stmt) (f : Function) : Function :=
  { f with
    name := Wgsl.entryPoint
    returns := .vec 4
    isEntry := true
    body := before ++ colorBody f.body }

def mapFirst (test : Function → Bool) (g : Function → Function) : List Item → List Item
  | [] => []
  | .function f :: items =>
    if test f then .function (g f) :: items else .function f :: mapFirst test g items
  | item :: items => item :: mapFirst test g items

def isMainImage (f : Function) : Bool :=
  f.name == "mainImage" && f.params.length == 2 && (f.params.head?.any Param.isByRef)

def callMainImage (color : String) : List Stmt :=
  [.decl [.var color (.vec 4) none],
    .expr (.call "mainImage"
      [.addrOf (.ident color), .field (.ident Wgsl.fragCoord) "xy"]),
    .ret (some (.ident color))]

def entryWithoutMain (p : Program) : LowerM (List Stmt) := do
  if p.functions.any isMainImage then
    let color ← temp .color
    pure (callMainImage color)
  else
    note .noMain
    pure [returnColor]

def makeEntryPoint (_ : Setting) (p : Program) : LowerM Program := do
  if p.functions.any Function.isEntry then
    return p
  let s ← get
  set { s with deferred := [] }
  let before := prologue ++ s.deferred
  if p.functions.any isMain then
    return { items := mapFirst isMain (asEntry before) p.items }
  let rest ← entryWithoutMain p
  return { items := p.items ++ [.function {
    name := Wgsl.entryPoint
    returns := .vec 4
    params := []
    body := before ++ rest
    isEntry := true }] }

end ShaderEffect.Lowering
