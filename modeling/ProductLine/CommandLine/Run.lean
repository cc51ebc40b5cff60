import ProductLine.CommandLine.Arguments
import ProductLine.CommandLine.Commands
/-!
# Runs of the tool

A run reads the settings, then the input, and then carries out the command.  The contents of files
are given to it, or the reasons why they cannot be read.

* `Tool.options` reads settings, and `Tool.run` is a whole run.
-/
namespace ProductLine.Tool

/-- The contents of a file, or why it cannot be read. -/
abbrev Contents := Except String ByteArray

/-- What a run finds in its files. -/
structure Files where
  /-- The file with settings, if one is named. -/
  config : Option Contents
  input : Contents
  /-- The file with solutions, if one is named. -/
  solutions : Option Contents

/-- The contents of a file that a run needs. -/
def contents (c : Contents) : Except ToolError ByteArray := c.mapError .unreadable

/-- The update that a document with settings makes. -/
def updateOfText (document : String) : Except ToolError OptionsUpdate :=
  match Toml.Document.ofText? document with
  | none => .error .malformedSettings
  | some d => (OptionsUpdate.ofSettings d.settings).mapError (.setting · d.position)

/-- The update that a file with settings makes. -/
def updateOfFile (c : Contents) : Except ToolError OptionsUpdate := do
  let bytes ← contents c
  match String.fromUTF8? bytes with
  | none => throw (.input .notText)
  | some document => updateOfText document

/-- The update that single settings make after another update. -/
def updateOfTexts (u : OptionsUpdate) : List String → Except ToolError OptionsUpdate
  | [] => .ok u
  | document :: documents => do
      let v ← updateOfText document
      updateOfTexts (u.merge v) documents

/-- The options of a run: the defaults, changed by the file with settings and then by the single
settings. -/
def options (a : Arguments) (config : Option Contents) : Except ToolError Options := do
  let ofFile ← config.elim (.ok {}) updateOfFile
  let u ← updateOfTexts ofFile a.settings
  return ({} : Options).update u

/-- Carries out a command. -/
def perform (parallelism : Nat) (a : Arguments) (o : Options) (cnf : NamedCnf)
    (solutions : Option Contents) : Except ToolError Report :=
  match a.command with
  | .solve => Command.solveReport cnf o a.explain
  | .implied => Command.impliedReport cnf o parallelism a.explain a.pairs
  | .count => Command.countReport cnf o
  | .order => do
      let bytes ← contents (solutions.getD (.error "No solutions file given"))
      Command.orderReport cnf o bytes.data.toList

/-- A run on a machine that runs `parallelism` threads at once. -/
def run (parallelism : Nat) (a : Arguments) (files : Files) : Report :=
  if a.help then .success Arguments.usage
  else if a.settings.contains "help" then .success Options.helpLines
  else .ofResult do
    let o ← options a files.config
    let bytes ← contents files.input
    let cnf ← (NamedCnf.ofBytes? Dimacs.parse bytes).mapError .input
    perform parallelism a o cnf files.solutions

end ProductLine.Tool
