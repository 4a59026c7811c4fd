import ShaderEffect.Header.Notice
import ShaderEffect.Layout.Analyze
import ShaderEffect.Lowering.Notice
import ShaderEffect.Macro.Notice

/-!
# Warnings

A warning is a notice of one of the stages of a compilation.
-/

namespace ShaderEffect

inductive Warning where
  | header (n : HeaderNotice)
  | preprocessor (n : MacroNotice)
  | layout (n : LayoutNotice)
  | lowering (n : LoweringNotice)
  deriving Repr

namespace Warning

def stage : Warning → String
  | .header _ => "metadata"
  | .preprocessor _ => "preprocessor"
  | .layout _ => "layout"
  | .lowering _ => "rewrite"

def message : Warning → String
  | .header n => n.message
  | .preprocessor n => n.message
  | .layout n => n.message
  | .lowering n => n.message

def text (w : Warning) : String :=
  "[" ++ w.stage ++ "] " ++ w.message

end Warning

end ShaderEffect
