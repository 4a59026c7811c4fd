import ShaderEffect.Json.Error

/-!
# Notices of the header
-/

namespace ShaderEffect

inductive HeaderNotice where
  | noHeader
  | repaired (e : JsonError)
  | inputsNotArray
  | inputUnnamed (index : Nat)
  | duplicateInput (name : String)
  | bufferUnmatched (name : String)
  | importUnnamed
  deriving Repr, DecidableEq

namespace HeaderNotice

def message : HeaderNotice → String
  | .noHeader => "no ISF JSON header found; compiling with no declared inputs"
  | .repaired e => "ISF header needed permissive repair: " ++ e.message
  | .inputsNotArray => "INPUTS is not an array; ignoring it"
  | .inputUnnamed index => "input #" ++ toString index ++ " has no NAME; ignoring it"
  | .duplicateInput name => "duplicate input '" ++ name ++ "' ignored"
  | .bufferUnmatched name => "persistent buffer '" ++ name ++ "' has no matching pass"
  | .importUnnamed => "imported texture without NAME ignored"

end HeaderNotice

end ShaderEffect
