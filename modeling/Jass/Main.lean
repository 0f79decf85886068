import Jass.Session
import Jass.Config
import Jass.Syntax.Print
/-!
# Command line

`jass [--config FILE] (parse | check | leaks) FILE...` reads the project file (default
`jass.toml`; a missing file means the default settings), parses the files in order into one
session, stopping at the first that fails, and then

* `parse` prints the files back as source text;
* `check` prints every report as `file:line:column: message`;
* `leaks` prints every leaking declaration as `line:column: name`.

`check` and `leaks` exit with status 1 when they print anything.
-/

namespace Jass.Cli

inductive Command where
  | parse
  | check
  | leaks

structure Args where
  config : String := "jass.toml"
  command : Command
  files : List String

def Command.ofString? : String → Option Command
  | "parse" => some .parse
  | "check" => some .check
  | "leaks" => some .leaks
  | _ => none

/-- Reads the arguments: `--config FILE` may stand anywhere, the first other word is the
command and the rest are files, of which there must be at least one. -/
def Args.ofList (args : List String) : Except String Args :=
  let rec split : List String → Option String → List String → Except String (Option String × List String)
    | [], cfg, words => .ok (cfg, words.reverse)
    | "--config" :: path :: rest, _, words => split rest (some path) words
    | ["--config"], _, _ => .error "a value is required for '--config <CONFIG>'"
    | w :: rest, cfg, words => split rest cfg (w :: words)
  match split args none [] with
  | .error e => .error e
  | .ok (cfg, words) =>
    match words with
    | [] => .error "a subcommand is required: parse, check or leaks"
    | w :: files =>
      match Command.ofString? w with
      | none => .error s!"unrecognized subcommand '{w}'"
      | some command =>
        if files.isEmpty then .error "the following required arguments were not provided: <FILES>..."
        else .ok { config := cfg.getD "jass.toml", command, files }

def loadConfig (path : String) : IO Config := do
  let text? ← try
      pure (some (← IO.FS.readFile path))
    catch e =>
      match e with
      | .noFileOrDirectory .. => pure none
      | _ => throw e
  match text? with
  | none => return {}
  | some text =>
    match Config.ofToml text with
    | .ok c => return c
    | .error .malformed => throw (IO.userError s!"loading {path}: failed to parse {path}")
    | .error (.invalidLimit e) => throw (IO.userError s!"loading {path}: {e.message}")

def parseFiles (cfg : Config) (files : List String) : IO Session := do
  let mut s : Session := { limits := cfg.limits, destructors := cfg.destructors }
  for path in files do
    let src ← IO.FS.readFile path
    match s.parse src path with
    | (s', .ok _) => s := s'
    | (_, .error e) =>
      let shown := e.display path
      throw (IO.userError s!"parsing {path}: {shown}")
  return s

def run (args : List String) : IO UInt32 := do
  match Args.ofList args with
  | .error msg =>
    IO.eprintln s!"error: {msg}"
    return 2
  | .ok a =>
    try
      let cfg ← loadConfig a.config
      let s ← parseFiles cfg a.files
      match a.command with
      | .parse =>
        for f in s.files do
          IO.print (f.toSource s.tables)
        return 0
      | .check =>
        let reports := s.check
        for r in reports do
          IO.println s!"{r.file}:{r.pos.line}:{r.pos.column}: {r.finding.message}"
        return if reports.isEmpty then 0 else 1
      | .leaks =>
        let leaks := s.leakingVars
        for id in leaks do
          if let some v := s.tables.var? id then
            IO.println s!"{v.pos.line}:{v.pos.column}: {v.name}"
        return if leaks.isEmpty then 0 else 1
    catch e =>
      IO.eprintln s!"Error: {e}"
      return 1

end Jass.Cli

def main (args : List String) : IO UInt32 := Jass.Cli.run args
