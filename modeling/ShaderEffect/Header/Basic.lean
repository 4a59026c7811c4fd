import ShaderEffect.Json.Value
import ShaderEffect.Text.Blank

/-!
# Headers of shader effects

A header declares the inputs of an effect, the passes in which it is rendered and the images that it
imports.
-/

namespace ShaderEffect

inductive InputKind where
  | float
  | long
  | bool
  | event
  | point2D
  | color
  | image
  | audio
  | audioFft
  | unknown (text : String)
  deriving Repr, DecidableEq

/-- An input of an effect. A synthetic one is not declared by the header itself. -/
structure Input where
  name : String
  kind : InputKind
  default : Option Json := none
  min : Option Json := none
  max : Option Json := none
  label : Option String := none
  values : Option (List Json) := none
  labels : Option (List String) := none
  synthetic : Bool := false
  deriving Repr

/-- A pass of the rendering. Its size stays text: it may be an expression of the size of the
output. -/
structure RenderPass where
  target : Option String := none
  width : Option String := none
  height : Option String := none
  isFloat : Bool := false
  persistent : Bool := false
  deriving Repr, DecidableEq

structure ImportedImage where
  name : String
  path : Option String
  deriving Repr, DecidableEq

structure Header where
  description : Option String := none
  credit : Option String := none
  version : Option String := none
  categories : List String := []
  inputs : List Input := []
  passes : List RenderPass := []
  imported : List ImportedImage := []
  raw : Json := .object []
  deriving Repr

namespace InputKind

def ofText (text : String) : InputKind :=
  match Text.trim text with
  | "float" => .float
  | "long" => .long
  | "bool" => .bool
  | "event" => .event
  | "point2D" => .point2D
  | "color" => .color
  | "image" => .image
  | "audio" => .audio
  | "audioFFT" => .audioFft
  | other => .unknown other

def isTexture : InputKind → Bool
  | .image | .audio | .audioFft => true
  | _ => false

def isBoolean : InputKind → Bool
  | .bool | .event => true
  | _ => false

end InputKind

namespace RenderPass

def defaultName (index : Nat) : String :=
  "pass" ++ toString index

/-- The names by which the body may refer to the pass at the given position, its target first. -/
def names (index : Nat) (p : RenderPass) : List String :=
  p.target.toList ++ [defaultName index]

end RenderPass

namespace Header

def input? (h : Header) (name : String) : Option Input :=
  h.inputs.find? fun i => i.name == name

/-- The number of passes that are rendered: one if none is declared. -/
def passCount (h : Header) : Nat :=
  max h.passes.length 1

def passIndex? (h : Header) (name : String) : Option Nat :=
  (h.passes.zipIdx.find? fun p => (p.1.names p.2).contains name).map Prod.snd

end Header

end ShaderEffect
