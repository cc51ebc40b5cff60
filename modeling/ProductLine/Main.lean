import ProductLine.CommandLine.Run
/-!
# The command line tool

Reads the files that a command line names, and prints the report of the run.
-/
namespace ProductLine.Tool

/-- The contents of a file. -/
def readFile (path : String) : IO Contents := do
  match ← (IO.FS.readBinFile path).toBaseIO with
  | .ok bytes => return .ok bytes
  | .error cause => return .error (toString cause)

/-- The contents of the standard input. -/
def readStandardInput : IO Contents := do
  let stdin ← IO.getStdin
  match ← stdin.readBinToEnd.toBaseIO with
  | .ok bytes => return .ok bytes
  | .error cause => return .error (toString cause)

/-- The contents of the files that a command line names. -/
def readFiles (a : Arguments) : IO Files := do
  let config ← a.configFile.mapM readFile
  let input ← match a.inputFile with
    | some path => readFile path
    | none => readStandardInput
  let solutions ← a.solutionsFile.mapM readFile
  return ⟨config, input, solutions⟩

/-- Whether a run needs its files, and does not just tell about its use. -/
def needsFiles (a : Arguments) : Bool := !a.help && !a.settings.contains "help"

/-- The number of threads that are assumed to run at once. -/
def assumedParallelism : Nat := 4

end ProductLine.Tool

open ProductLine in
/-- Runs the tool. -/
def main (args : List String) : IO UInt32 := do
  match Arguments.parse? args with
  | none =>
      Arguments.usage.forM (fun line => IO.eprintln line)
      return 1
  | some a =>
      let files ← if Tool.needsFiles a then Tool.readFiles a else pure ⟨none, .ok .empty, none⟩
      let report := Tool.run Tool.assumedParallelism a files
      report.lines.forM (fun line => IO.println line)
      return report.exitCode.toUInt32
