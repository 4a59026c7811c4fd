import ShaderEffect.Lowering.Pipeline
import ShaderEffect.Warning
import ShaderEffect.Wgsl.Program

/-!
# Traces of the lowering

The program after each pass, for whoever wants to see what a pass does.
-/

namespace ShaderEffect.Lowering

structure Step where
  pass : Pass
  text : Option String
  warnings : List Warning
  deriving Repr

/-- Runs passes and records what each does. `pending` holds warnings that were made before; they
count to the first pass. -/
def trace (st : Setting) : List Warning → List Pass → Program → LowerM (List Step)
  | _, [], _ => pure []
  | pending, pass :: passes, p => do
    let known := (← get).notices.length
    let p' ← pass.apply st p
    let added := (← get).notices.drop known
    let step : Step := {
      pass := pass
      text := if p'.wgsl == p.wgsl then none else some p'.wgsl
      warnings := pending ++ added.map .lowering }
    let steps ← trace st [] passes p'
    pure (step :: steps)

end ShaderEffect.Lowering
