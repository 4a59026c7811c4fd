import ShaderEffect.Header.Extract
import ShaderEffect.Layout.Bind
import ShaderEffect.Lowering.Pipeline
import ShaderEffect.Macro.Preprocess
import ShaderEffect.Shader.Parser.Program
import ShaderEffect.Warning
import ShaderEffect.Wgsl.Leftover
import ShaderEffect.Wgsl.Module
import ShaderEffect.Wgsl.Program

/-!
# Compilation

From the source of an effect to the fragment module in the target language, with the layout of its
uniform buffer and all that was noticed on the way.
-/

namespace ShaderEffect

inductive CompileError where
  | header (e : JsonError)
  | body (e : SyntaxError)
  | lowering (what : Lowering.Survivor)
  deriving Repr

namespace CompileError

def message : CompileError → String
  | .header e => "ISF header is not valid JSON: " ++ e.message
  | .body e => e.message
  | .lowering what => "internal compiler error: " ++ what.message

def causes : CompileError → List String
  | .header e => [e.message]
  | _ => []

end CompileError

structure Compiled where
  fragment : String
  layout : Layout
  header : Header
  macros : List Macro
  renamed : List (String × String)
  warnings : List Warning
  findings : List Finding
  deriving Repr

namespace Compiled

def vertex (_ : Compiled) : String :=
  Wgsl.vertexModule

def passed (c : Compiled) : Bool :=
  c.findings.isEmpty

end Compiled

def assemble (options : Options) (header : Header) (macros : List Macro) (warnings : List Warning)
    (layout : Layout) (p : Program) (s : Lowering.State) : Compiled :=
  let layout := layout.bindPasses header.passes s.sampled
  let fragment := Wgsl.fragmentModule p.wgsl layout
  { fragment := fragment
    layout := layout
    header := header
    macros := macros
    renamed := s.renamed.mergeSort fun a b => decide (a.1 ≤ b.1)
    warnings := warnings ++ s.notices.map .lowering
    findings := if options.validate then Leftover.scan fragment else [] }

def compile (options : Options) (source : String) : Except CompileError Compiled :=
  match Extracted.ofSource options source with
  | .error e => .error (.header e)
  | .ok unit =>
    let names := unit.header.inputs.map Input.name
    let pre := preprocess names options.maxMacroPasses unit.body
    let (layout, notices) := Layout.analyze unit.header.inputs options.renamePrefix
    match Program.parse pre.text with
    | .error e => .error (.body e)
    | .ok p =>
      let setting : Lowering.Setting :=
        { options := options, header := unit.header, layout := layout }
      match Lowering.lower setting p with
      | (.error what, _) => .error (.lowering what)
      | (.ok p, s) =>
        let warnings := unit.notices.map .header ++ pre.notices.map .preprocessor ++
          notices.map .layout
        .ok (assemble options unit.header pre.macros warnings layout p s)

end ShaderEffect
