import ShaderEffect.Command.Disk
import ShaderEffect.Lowering.Trace
import ShaderEffect.Main
import ShaderEffect.Proofs.Wgsl.RoundTrip
import ShaderEffect.Proofs.Lowering.Call.Reach
import ShaderEffect.Proofs.Lowering.Stable
import ShaderEffect.Proofs.Layout.Member
import ShaderEffect.Proofs.Layout.Slot
import ShaderEffect.Proofs.Macro.Direct
import ShaderEffect.Proofs.Macro.Undefined
import ShaderEffect.Proofs.Lowering.Fallthrough
import ShaderEffect.Proofs.Lowering.Dropped
import ShaderEffect.Proofs.Lowering.CopyBack
import ShaderEffect.Proofs.Lowering.Exit
import ShaderEffect.Proofs.Lowering.LaneStore
import ShaderEffect.Proofs.Lowering.OwnName
import ShaderEffect.Proofs.Lowering.Matched
import ShaderEffect.Proofs.Lowering.LaneChain
import ShaderEffect.Proofs.Lowering.ParamUse
import ShaderEffect.Proofs.Macro.Object
import ShaderEffect.Proofs.Token.Position
import ShaderEffect.Proofs.Artifact
import ShaderEffect.Proofs.Lowering.Temporary
import ShaderEffect.Proofs.Macro.Precedence
import ShaderEffect.Proofs.Lowering.Initial
