import Allman.Session
import Allman.SourceFiles

/-! The command line: which file or directory to check, whether to fix it, and a
few options. Options may stand anywhere among the arguments. -/

namespace Allman

structure Options where
  target : Bytes
  mode : Mode
  colour : ColourMode := .auto
  quiet : Bool := false
deriving DecidableEq

/-- What the arguments ask for. -/
inductive Command where
  | help
  | version
  | run (options : Options)
deriving DecidableEq

namespace Command

/-- Whether to fix, in any mixture of upper and lower case. -/
def mode? (word : Bytes) : Option Mode :=
  if word.map Byte.toLower = ascii "true" then some .fix
  else if word.map Byte.toLower = ascii "false" then some .scan
  else none

/-- An argument that looks like an option and is none that is known. A dash on its own does not. -/
def looksLikeOption : Bytes → Bool
  | c :: _ :: _ => c == Byte.minus
  | _ => false

/-- Reads the arguments that are left, given the options so far and the other
arguments in their order. Asking for help or for the version settles the matter
at once. -/
def parseFrom (colour : ColourMode) (quiet : Bool) (words : List Bytes) :
    List Bytes → Option Command
  | [] =>
    match words with
    | [target, word] => (mode? word).map fun mode => run { target, mode, colour, quiet }
    | _ => none
  | argument :: rest =>
    if argument = ascii "-h" || argument = ascii "--help" then some help
    else if argument = ascii "--version" then some version
    else if argument = ascii "-q" || argument = ascii "--quiet" then
      parseFrom colour true words rest
    else if argument = ascii "--color" then
      match rest with
      | [] => none
      | value :: rest =>
        match ColourMode.ofName? value with
        | some colour => parseFrom colour quiet words rest
        | none => none
    else if looksLikeOption argument then none
    else parseFrom colour quiet (words ++ [argument]) rest

/-- What the arguments ask for; none if they make no sense. -/
def parse (arguments : List Bytes) : Option Command := parseFrom .auto false [] arguments

end Command

/-- The last part of the path that a program was called by. -/
def programName (path : Bytes) : Bytes :=
  (path.reverse.takeWhile fun c => c ≠ Byte.slash && c ≠ Byte.backslash).reverse

def usage (program : Bytes) : Bytes :=
  ascii "usage: " ++ program ++ ascii " [options] <file_or_directory> <fix:true|false>\n\n" ++
  ascii "Checks C sources (.c, .h) for pointer declarator spacing ('int *p')\n" ++
  ascii "and block braces on their own line. With 'true' the files are rewritten.\n\n" ++
  ascii "options:\n" ++
  ascii "      --color <auto|always|never>\n" ++
  ascii "  -q, --quiet                only print errors and the summary\n" ++
  ascii "  -h, --help                 show this help\n" ++
  ascii "      --version              show version\n"

def versionLine (program : Bytes) : Bytes := program ++ ascii " (cstyle) version 0.1.0\n"

/-- The state of a run over a list of files. -/
structure Run where
  session : Session
  errors : Bytes := []
  failures : Nat := 0
  found : Nat := 0
  fixed : Nat := 0
  remaining : Nat := 0

namespace Run

/-- Checks the next file. A file that cannot be checked does not end the run. -/
def checkFile (program : Bytes) (options : Options) (run : Run) (path : Bytes) : Run :=
  match run.session.check options.mode options.quiet path with
  | (.error error, session) =>
    { run with
      session
      errors := run.errors ++ program ++ ascii ": error: " ++ error.message ++ ascii "\n"
      failures := run.failures + 1 }
  | (.ok outcome, session) =>
    let line :=
      if outcome.written then
        outcome.path ++ ascii ": " ++ decimal outcome.fixed ++ ascii " violation(s) fixed\n"
      else []
    { run with
      session := { session with log := session.log.print line }
      found := run.found + outcome.found
      fixed := run.fixed + outcome.fixed
      remaining := run.remaining + outcome.remaining }

/-- The last line of the output. -/
def summary (program : Bytes) (options : Options) (checked : Nat) (run : Run) : Bytes :=
  program ++ ascii ": " ++ decimal checked ++ ascii " file(s) checked, " ++
    match options.mode with
    | .fix => decimal run.fixed ++ ascii " fixed, " ++ decimal run.remaining ++ ascii " remaining\n"
    | .scan => decimal run.found ++ ascii " violation(s)\n"

/-- The line that counts the files that could not be checked, if there are any. -/
def failureLine (program : Bytes) (run : Run) : Bytes :=
  if run.failures = 0 then []
  else program ++ ascii ": " ++ decimal run.failures ++ ascii " file(s) could not be processed\n"

/-- Nothing is wrong with any file. -/
def succeeded (run : Run) : Bool := run.failures = 0 && run.remaining = 0

end Run

/-- What a program leaves behind. -/
structure Result where
  exit : Nat
  output : Bytes := []
  errors : Bytes := []
  tree : FileTree

/-- Checks the files of a target. -/
def runOptions (program : Bytes) (options : Options) (disk : Disk) : Result :=
  match collect disk.tree options.target with
  | .error error =>
    { exit := 1
      errors := program ++ ascii ": error: " ++ error.message ++ ascii "\n"
      tree := disk.tree }
  | .ok paths =>
    let start : Run := { session := { disk, log := { colour := options.colour } } }
    let run := paths.foldl (Run.checkFile program options) start
    { exit := if run.succeeded then 0 else 1
      output := run.session.log.output ++ run.summary program options paths.length
      errors := run.errors ++ run.failureLine program
      tree := run.session.disk.tree }

/-- Runs the program on a whole argument vector, the path of the program first. A
zero byte ends an argument. -/
def runArguments (vector : List Bytes) (disk : Disk) : Result :=
  let vector := vector.map (·.takeWhile (· ≠ 0))
  let program := programName (vector.head?.getD (ascii "cstyle"))
  match Command.parse (vector.drop 1) with
  | none => { exit := 1, errors := usage program, tree := disk.tree }
  | some .help => { exit := 0, output := usage program, tree := disk.tree }
  | some .version => { exit := 0, output := versionLine program, tree := disk.tree }
  | some (.run options) => runOptions program options disk

end Allman
