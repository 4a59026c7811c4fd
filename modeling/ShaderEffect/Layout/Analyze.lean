import ShaderEffect.Layout.Basic
import ShaderEffect.Wgsl.Reserved

/-!
# From inputs to a layout

The fields of the host come first, then the inputs in the order of their declaration. Each field
stands at the least multiple of its alignment that is free, as the target language places the
members of a structure, so the generated structure needs no explicit offsets.
-/

namespace ShaderEffect

inductive LayoutNotice where
  | duplicateInput (name : String)
  | builtinCollision (name : String)
  | unsupportedKind (name kind : String)
  deriving Repr, DecidableEq

namespace LayoutNotice

def message : LayoutNotice → String
  | .duplicateInput name => "duplicate input `" ++ name ++ "` ignored"
  | .builtinCollision name =>
    "input `" ++ name ++ "` collides with a built-in uniform and was dropped"
  | .unsupportedKind name kind =>
    "input `" ++ name ++ "` has unsupported type `" ++ kind ++ "`; laid out as a float"

end LayoutNotice

namespace Layout

def roundUp (value align : Nat) : Nat :=
  (value + align - 1) / align * align

def placeField (cursor : Nat) (name member : String) (source : FieldSource) (type : UniformType) :
    UniformField :=
  let offset := roundUp cursor type.align
  { name := name, member := member, source := source, type := type, offset := offset,
    size := type.size, padded := offset != cursor }

/-- A layout in the making: its fields end at `cursor`, and the inputs in `seen` were met. -/
structure Draft where
  fields : List UniformField := []
  textures : List TextureBinding := []
  cursor : Nat := 0
  seen : List String := []
  notices : List LayoutNotice := []

namespace Draft

def addField (d : Draft) (name member : String) (source : FieldSource) (type : UniformType) :
    Draft :=
  let f := placeField d.cursor name member source type
  { d with fields := d.fields ++ [f], cursor := f.offset + f.size }

def addTexture (d : Draft) (name : String) (kind : InputKind) : Draft :=
  let slot := d.textures.length
  { d with
    textures := d.textures ++
      [{ name := name, kind := kind, texture := slot * 2, sampler := slot * 2 + 1 }] }

def notice (d : Draft) (n : LayoutNotice) : Draft :=
  { d with notices := d.notices ++ [n] }

def claimSpeed (d : Draft) : Draft :=
  { d with
    fields := d.fields.map fun f =>
      if f.name == "speed" then { f with source := .input .float } else f }

def reportKind (d : Draft) (i : Input) : Draft :=
  match i.kind with
  | .unknown kind => d.notice (.unsupportedKind i.name kind)
  | _ => d

def memberName (renamePrefix name : String) : String :=
  if Wgsl.isReserved name then renamePrefix ++ name else name

/-- Adds an input: an image gets a binding, any other kind a field. Of two inputs with one name the
first counts, and a field of the host wins over an input, but a float `speed` takes its place. -/
def addInput (renamePrefix : String) (d : Draft) (i : Input) : Draft :=
  if d.seen.contains i.name then d.notice (.duplicateInput i.name)
  else
    let d := { d with seen := i.name :: d.seen }
    if i.kind.isTexture then d.addTexture i.name i.kind
    else if isBuiltin i.name then
      if i.name == "speed" && i.kind == .float then d.claimSpeed
      else d.notice (.builtinCollision i.name)
    else
      match UniformType.ofInput i.kind with
      | some type =>
        (d.reportKind i).addField i.name (memberName renamePrefix i.name) (.input i.kind) type
      | none => d

def initial : Draft :=
  builtinFields.foldl (fun d f => d.addField f.1 f.1 .builtin f.2) {}

end Draft

/-- The layout of the inputs of an effect, without bindings of its passes, and what there is to
report. -/
def analyze (inputs : List Input) (renamePrefix : String) : Layout × List LayoutNotice :=
  let d := inputs.foldl (Draft.addInput renamePrefix) Draft.initial
  ({ fields := d.fields, size := roundUp d.cursor 16, textures := d.textures }, d.notices)

end Layout

end ShaderEffect
