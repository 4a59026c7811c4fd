import ShaderEffect.Options
import ShaderEffect.Text.Blank
import ShaderEffect.Toml.Reader

/-!
# Options files

The options of the compiler as a TOML text. An option that is left out keeps its usual value, and
unknown keys are passed over.
-/

namespace ShaderEffect

inductive ConfigError where
  | malformed
  | noPasses
  | badPrefix (text : String)
  | reservedPrefix (text : String)
  deriving Repr, DecidableEq

namespace ConfigError

def message : ConfigError → String
  | .malformed => "failed to parse configuration"
  | .noPasses => "invalid configuration: max_macro_passes must be at least 1"
  | .badPrefix text =>
    "invalid configuration: rename_prefix `" ++ text ++ "` is not an identifier prefix"
  | .reservedPrefix text =>
    "invalid configuration: rename_prefix `" ++ text ++
      "` may not start with `__`, which WGSL reserves"

end ConfigError

namespace Options

def natOf : Toml → Option Nat
  | .integer v => if 0 ≤ v then some v.toNat else none
  | _ => none

def textOf : Toml → Option String
  | .string s => some s
  | _ => none

def boolOf : Toml → Option Bool
  | .boolean b => some b
  | _ => none

/-- The value of an option, the usual one if it is left out. A value of another type is an error. -/
def valueOr {α : Type} (usual : α) (convert : Toml → Option α) (v : Option Toml) :
    Except ConfigError α :=
  match v with
  | none => .ok usual
  | some v =>
    match convert v with
    | some a => .ok a
    | none => .error .malformed

def ofEntries (es : Toml.Entries) : Except ConfigError Options := do
  let usual : Options := {}
  let passes ← valueOr usual.maxMacroPasses natOf (es.lookup "max_macro_passes")
  let name ← valueOr usual.renamePrefix textOf (es.lookup "rename_prefix")
  let speed ← valueOr usual.injectSpeed boolOf (es.lookup "inject_speed_input")
  let flip ← valueOr usual.flipTextures boolOf (es.lookup "flip_texture_y")
  let validate ← valueOr usual.validate boolOf (es.lookup "validate")
  pure
    { maxMacroPasses := passes, renamePrefix := name, injectSpeed := speed,
      flipTextures := flip, validate := validate }

def startsIdentifier (text : String) : Bool :=
  match text.toList with
  | c :: cs => Text.isWordStart c && cs.all Text.isWordRest
  | [] => false

def check (o : Options) : Except ConfigError Options :=
  if o.maxMacroPasses == 0 then .error .noPasses
  else if !startsIdentifier o.renamePrefix then .error (.badPrefix o.renamePrefix)
  else if ['_', '_'].isPrefixOf o.renamePrefix.toList then
    .error (.reservedPrefix o.renamePrefix)
  else .ok o

def ofToml (text : String) : Except ConfigError Options :=
  match Toml.parse text with
  | some es => (ofEntries es).bind check
  | none => .error .malformed

end Options

end ShaderEffect
