import ShaderEffect.Json.Printer
import ShaderEffect.Layout.Basic

/-!
# Layouts as text

A layout is reported as indented JSON, whose records keep the order of their fields.
-/

namespace ShaderEffect

/-- A tree of records and lists, in the order in which it is written. -/
inductive Report where
  | text (s : String)
  | number (n : Nat)
  | flag (b : Bool)
  | list (items : List Report)
  | record (fields : List (String × Report))
  deriving Repr

namespace Report

def newLine (depth : Nat) : String :=
  String.ofList ('\n' :: List.replicate (2 * depth) ' ')

mutual

def pretty (depth : Nat) : Report → String
  | .text s => Json.quote s
  | .number n => toString n
  | .flag b => if b then "true" else "false"
  | .list [] => "[]"
  | .list (r :: rs) =>
    "[" ++ newLine (depth + 1) ++ pretty (depth + 1) r ++ prettyItems (depth + 1) rs ++
      newLine depth ++ "]"
  | .record [] => "\x7b\x7d"
  | .record ((key, r) :: fs) =>
    "\x7b" ++ newLine (depth + 1) ++ Json.quote key ++ ": " ++ pretty (depth + 1) r ++
      prettyFields (depth + 1) fs ++ newLine depth ++ "\x7d"

def prettyItems (depth : Nat) : List Report → String
  | [] => ""
  | r :: rs => "," ++ newLine depth ++ pretty depth r ++ prettyItems depth rs

def prettyFields (depth : Nat) : List (String × Report) → String
  | [] => ""
  | (key, r) :: fs =>
    "," ++ newLine depth ++ Json.quote key ++ ": " ++ pretty depth r ++ prettyFields depth fs

end

end Report

namespace InputKind

def report : InputKind → Report
  | .float => .text "float"
  | .long => .text "long"
  | .bool => .text "bool"
  | .event => .text "event"
  | .point2D => .text "point2_d"
  | .color => .text "color"
  | .image => .text "image"
  | .audio => .text "audio"
  | .audioFft => .text "audio_fft"
  | .unknown text => .record [("unknown", .text text)]

end InputKind

namespace FieldSource

def report : FieldSource → Report
  | .builtin => .text "builtin"
  | .input kind => .record [("input", kind.report)]

end FieldSource

namespace UniformField

def report (f : UniformField) : Report :=
  .record [
    ("name", .text f.name),
    ("member", .text f.member),
    ("source", f.source.report),
    ("type", .text f.type.wgsl),
    ("offset", .number f.offset),
    ("size", .number f.size),
    ("padded", .flag f.padded)]

end UniformField

namespace TextureBinding

def report (t : TextureBinding) : Report :=
  .record [
    ("name", .text t.name),
    ("kind", t.kind.report),
    ("texture", .number t.texture),
    ("sampler", .number t.sampler)]

end TextureBinding

namespace PassBinding

def report (p : PassBinding) : Report :=
  .record [
    ("name", .text p.name),
    ("pass_index", .number p.passIndex),
    ("persistent", .flag p.persistent),
    ("float", .flag p.isFloat),
    ("texture", .number p.texture),
    ("sampler", .number p.sampler)]

end PassBinding

namespace Layout

def report (l : Layout) : Report :=
  .record [
    ("fields", .list (l.fields.map UniformField.report)),
    ("size", .number l.size),
    ("textures", .list (l.textures.map TextureBinding.report)),
    ("passes", .list (l.passes.map PassBinding.report))]

def text (l : Layout) : String :=
  l.report.pretty 0

end Layout

end ShaderEffect
