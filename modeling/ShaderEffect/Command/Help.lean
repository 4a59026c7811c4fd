import ShaderEffect.Command.Request

/-!
# Help texts
-/

namespace ShaderEffect

namespace HelpTopic

def summary : HelpTopic → String
  | .program => "Compiles ISF shader effects to WGSL"
  | .compile =>
    "Compile ISF files to `<stem>.frag.wgsl`, `<stem>.vert.wgsl` and `<stem>.layout.json`"
  | .check => "Compile every `.fs` file under the given paths and report one line per unit"
  | .layout => "Print the uniform and binding layout of one ISF file as JSON"
  | .help => "Print this message or the help of the given subcommand(s)"

def usage : HelpTopic → String
  | .program => "isfc [OPTIONS] <COMMAND>"
  | .compile => "isfc compile [OPTIONS] <FILE>..."
  | .check => "isfc check [OPTIONS] <PATH>..."
  | .layout => "isfc layout [OPTIONS] <FILE>"
  | .help => "isfc help [COMMAND]..."

def configHelp : String :=
  "Compiler options TOML. Defaults to `isfc.toml` in `$ISFC_CONFIG_DIR` or the platform config " ++
    "directory [env: ISFC_CONFIG=]"

def table (width : Nat) (rows : List (String × String)) : String :=
  String.join (rows.map fun (left, right) =>
    "  " ++ left ++ String.ofList (List.replicate (width - left.length) ' ') ++ "  " ++ right ++
      "\n")

def sections : HelpTopic → List (String × List (String × String))
  | .program => [
      ("Commands", [
        ("compile", summary .compile),
        ("check", summary .check),
        ("layout", summary .layout),
        ("help", summary .help)]),
      ("Options", [
        ("    --config <FILE>", configHelp),
        ("-h, --help", "Print help"),
        ("-V, --version", "Print version")])]
  | .compile => [
      ("Arguments", [("<FILE>...", "")]),
      ("Options", [
        ("    --config <FILE>", configHelp),
        ("    --out-dir <DIR>",
          "Directory for the generated files; defaults to each input's directory"),
        ("    --deny-warnings", "Fail when a unit compiles with warnings"),
        ("-h, --help", "Print help")])]
  | .check => [
      ("Arguments", [("<PATH>...", "Files or directories; directories are searched recursively")]),
      ("Options", [("    --config <FILE>", configHelp), ("-h, --help", "Print help")])]
  | .layout => [
      ("Arguments", [("<FILE>", "")]),
      ("Options", [("    --config <FILE>", configHelp), ("-h, --help", "Print help")])]
  | .help => [
      ("Arguments", [("[COMMAND]...", "Print help for the subcommand(s)")])]

def text (t : HelpTopic) : String :=
  t.summary ++ "\n\nUsage: " ++ t.usage ++ "\n" ++
    String.join (t.sections.map fun (title, rows) =>
      "\n" ++ title ++ ":\n" ++
        table (rows.foldl (fun width row => max width row.1.length) 0) rows)

end HelpTopic

end ShaderEffect
