/-!
# Arguments

A command line names a command, perhaps an input file, and options.  Without a command the input
is solved.

* `Arguments.parse?` reads a command line; what it cannot read is misuse.
-/
namespace ProductLine

/-- What is to be done with the input. -/
inductive Command where
  /-- Finds a model, or says that there is none. -/
  | solve
  /-- Finds implications between literals. -/
  | implied
  /-- Counts the configurations. -/
  | count
  /-- Lists the sampled solutions in a file as configurations in build order. -/
  | order
deriving DecidableEq, Repr

namespace Command

/-- Reads the name of a command. -/
def ofName? : String → Option Command
  | "implied" => some .implied
  | "count" => some .count
  | "order" => some .order
  | _ => none

/-- Whether the command can explain its answers. -/
def canExplain : Command → Bool
  | solve | implied => true
  | count | order => false

/-- The most files that the command reads: the input, and perhaps solutions. -/
def mostFiles : Command → Nat
  | solve | implied | count => 1
  | order => 2

end Command

/-- A command line that was read. -/
structure Arguments where
  command : Command
  /-- Asks for the use of the tool. -/
  help : Bool := false
  explain : Bool := false
  /-- The file with settings. -/
  configFile : Option String := none
  /-- Documents with single settings. -/
  settings : List String := []
  /-- Candidate implications. -/
  pairs : List String := []
  /-- The files to read. -/
  files : List String := []
deriving DecidableEq, Repr

namespace Arguments

/-! ## Options -/

/-- An option that has a value. -/
inductive ValueOption where
  | configFile
  | setting
  | pair
deriving DecidableEq, Repr

/-- The options that have a value, by their letters and names. -/
def ValueOption.ofName? : String → Option ValueOption
  | "--config" => some .configFile
  | "--config-option" | "-C" => some .setting
  | "--pair" | "-p" => some .pair
  | _ => none

/-- Gives an option a value; `none` if it has one and takes only one, or is not for the command. -/
def setValue? (a : Arguments) (value : String) : ValueOption → Option Arguments
  | .configFile =>
      if a.configFile.isSome then none else some { a with configFile := some value }
  | .setting => some { a with settings := a.settings ++ [value] }
  | .pair => if a.command = .implied then some { a with pairs := a.pairs ++ [value] } else none

/-- Takes a file. -/
def addFile? (a : Arguments) (file : String) : Option Arguments :=
  if a.files.length < a.command.mostFiles then some { a with files := a.files ++ [file] } else none

/-- The text without equals signs at its start. -/
def dropEquals (cs : List Char) : List Char := cs.dropWhile (· == '=')

/-- Splits an argument into an option and the value that stands in the same argument: after an
equals sign, or right after the letter of the option. -/
def splitOption (arg : List Char) : String × Option String :=
  match arg with
  | '-' :: '-' :: _ =>
      let name := arg.takeWhile (· ≠ '=')
      let value := arg.dropWhile (· ≠ '=')
      (String.ofList name,
        if value.isEmpty then none else some (String.ofList (dropEquals value)))
  | '-' :: letter :: value =>
      (String.ofList ['-', letter],
        if value.isEmpty then none else some (String.ofList (dropEquals value)))
  | _ => (String.ofList arg, none)

/-- Takes an option that has no value. -/
def setFlag? (a : Arguments) : String → Option Arguments
  | "--explain" =>
      if a.explain || !a.command.canExplain then none else some { a with explain := true }
  | "--help" | "-h" => some { a with help := true }
  | _ => none

/-- Whether an argument is an option and not a file. -/
def isOption (arg : List Char) : Bool :=
  match arg with
  | '-' :: _ :: _ => true
  | _ => false

/-- Takes arguments one by one, where perhaps the next one is the value of an option. -/
def read? (a : Arguments) (awaiting : Option ValueOption) : List String → Option Arguments
  | [] => if awaiting.isSome then none else some a
  | arg :: rest =>
      match awaiting with
      | some option =>
          if isOption arg.toList then none
          else (a.setValue? arg option).bind (fun a => read? a none rest)
      | none =>
          if arg = "--" then rest.foldlM addFile? a
          else if isOption arg.toList then
            match splitOption arg.toList with
            | (name, some value) =>
                ((ValueOption.ofName? name).bind (a.setValue? value)).bind
                  (fun a => read? a none rest)
            | (name, none) =>
                match ValueOption.ofName? name with
                | some option => read? a (some option) rest
                | none => (a.setFlag? name).bind (fun a => read? a none rest)
          else (a.addFile? arg).bind (fun a => read? a none rest)

/-! ## Command lines -/

/-- Whether all files that the command needs are named. -/
def isComplete (a : Arguments) : Bool := a.command != .order || !a.files.isEmpty

/-- Reads a command line; `none` is misuse. -/
def parse? (args : List String) : Option Arguments :=
  let read :=
    match args with
    | [] => read? { command := .solve } none []
    | name :: rest =>
        match Command.ofName? name with
        | some command => read? { command := command } none rest
        | none => read? { command := .solve } none args
  read.filter (fun a => a.help || a.isComplete)

/-- The file with the solutions, which comes first. -/
def solutionsFile (a : Arguments) : Option String :=
  if a.command = .order then a.files[0]? else none

/-- The input file, if the input is not to be read from the standard input. -/
def inputFile (a : Arguments) : Option String := a.files[a.command.mostFiles - 1]?

/-- How the tool is used. -/
def usage : List String := [
  "Usage: [OPTIONS] [INPUT]                    find a model of the clauses in INPUT",
  "       implied [OPTIONS] [INPUT]            find implications between literals",
  "       count [OPTIONS] [INPUT]              count the assignments of the named variables",
  "       order [OPTIONS] SOLUTIONS [INPUT]    list sampled solutions in build order",
  "",
  "INPUT holds clauses in DIMACS syntax, with lines 'c NUMBER NAME' that name variables.",
  "Without it the standard input is read.",
  "",
  "Options:",
  "  --config FILE                     read settings from a file",
  "  -C, --config-option NAME=VALUE    make a setting, or list all with -C help",
  "  -p, --pair FORCING:FORCED         test an implication (implied)",
  "  --explain                         show the clauses that are responsible (solve, implied)",
  "  -h, --help                        show this text"]

end Arguments

end ProductLine
