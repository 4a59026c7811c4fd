import ShaderEffect.Options
import ShaderEffect.Layout.Basic
import ShaderEffect.Typing.Infer
import ShaderEffect.Lowering.Notice
import ShaderEffect.Wgsl.Name

/-!
# What a lowering pass knows and leaves behind

A pass reads the `Setting`, which stays the same for a whole compilation, and changes the `State`:
its notices, the names it took, and what it leaves for later passes.
-/

namespace ShaderEffect.Lowering

structure Setting where
  options : Options
  header : Header
  layout : Layout

/-- What a temporary holds: a value before a step, the value for several lanes, an argument, a result
that is held back, or the colour. -/
inductive TempKind where
  | old
  | swz
  | arg
  | ret
  | color
  deriving Repr, DecidableEq

def TempKind.stem : TempKind → String
  | .old => "old"
  | .swz => "swz"
  | .arg => "arg"
  | .ret => "ret"
  | .color => "color"

structure State where
  notices : List LoweringNotice := []
  renamed : List (String × String) := []
  textures : List String := []
  /-- Assignments that take the place of initial values of globals; they go to the start of the
  entry point. -/
  deferred : List Stmt := []
  outputAlias : Option String := none
  /-- What the temporaries named so far hold; a new one gets their number. -/
  temps : List TempKind := []

abbrev LowerM := StateM State

def note (n : LoweringNotice) : LowerM Unit :=
  modify fun s => { s with notices := s.notices ++ [n] }

def tempName (kind : TempKind) (n : Nat) : String :=
  "isf_" ++ kind.stem ++ toString n

def temp (kind : TempKind) : LowerM String := fun s =>
  (tempName kind s.temps.length, { s with temps := s.temps ++ [kind] })

def reference (name : String) : LowerM Unit :=
  modify fun s =>
    if s.textures.contains name then s else { s with textures := s.textures ++ [name] }

def State.sampled (s : State) : List String :=
  s.textures.mergeSort fun a b => decide (a ≤ b)

def setEntry (key value : String) : List (String × String) → List (String × String)
  | [] => [(key, value)]
  | e :: es => if e.1 == key then (key, value) :: es else e :: setEntry key value es

def recordRenames (renames : List (String × String)) : LowerM Unit :=
  modify fun s =>
    { s with renamed := renames.foldl (fun m r => setEntry r.1 r.2 m) s.renamed }

namespace Setting

def inputType (kind : InputKind) : Option ShaderType :=
  if kind.isTexture then some .sampler
  else if kind.isBoolean then some .bool
  else (UniformType.ofInput kind).map UniformType.shaderType

def builtinTypes : Scope :=
  (Layout.builtinFields.filter fun f => f.1 != "opacity" && f.1 != "speed").map fun f =>
    (f.1, f.2.shaderType)

def inputTypes (inputs : List Input) : Scope :=
  inputs.filterMap fun i => (inputType i.kind).map fun t => (i.name, t)

def passTypes (passes : List RenderPass) : Scope :=
  (passes.zipIdx.flatMap fun p => p.1.names p.2).map fun name => (name, .sampler)

/-- The names of fragment inputs and outputs, as the source and as the generated module call
them. -/
def fragmentTypes : Scope :=
  [("isf_FragNormCoord", .vec 2), ("gl_FragCoord", .vec 4), ("gl_FragColor", .vec 4),
    (Wgsl.fragCoord, .vec 4), (Wgsl.fragNormCoord, .vec 2), (Wgsl.fragColor, .vec 4),
    (Wgsl.uniformVar, .struct Wgsl.uniformStruct)]

/-- The types of all names that the host provides. Fragment names come before inputs, of which the
last of one name counts, inputs before host fields, and passes last. -/
def hostTypes (st : Setting) : Scope :=
  fragmentTypes ++ (inputTypes st.header.inputs).reverse ++ builtinTypes ++
    passTypes st.header.passes

/-- The scopes of a program at module level. The uniform structure has one member for each field
of the layout. -/
def envFor (st : Setting) (p : Program) : Env :=
  (Env.ofProgram p st.hostTypes).declareStruct Wgsl.uniformStruct
    (st.layout.fields.map fun f => { name := f.member, type := f.type.shaderType })

end Setting

end ShaderEffect.Lowering
