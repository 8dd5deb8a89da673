import PointsTo.CommandLine
import PointsTo.Program.Build
import PointsTo.Report.Dump
import PointsTo.Report.Stats

/-! The command: what a run prints, writes and returns.

    Options come from an environment variable, which holds a JSON list of arguments, and from the
    command line, which overrides it. The program is read from the input file and analysed; the
    points-to sets go to a file or to the standard output, and the statistics after them. -/

namespace PointsTo.Command

/-- The name under which the command reports. -/
def name : String := "fstbhc"

/-- The environment variable with default arguments. -/
def flagsVariable : String := "FSTBHC_FLAGS"

/-- What a run leaves behind. -/
structure Outcome where
  code : UInt8 := 0
  stdout : String := ""
  stderr : String := ""
  /-- A file to write: its path and text. -/
  file : Option (String × String) := none
  deriving DecidableEq, Repr

/-- The arguments in the environment variable; any text but a JSON list of strings gives none. -/
def flagArgs (flags : String) : List String :=
  match Decoder.text (Decoder.list Decoder.string) flags with
  | .ok args => args
  | .error _ => []

/-- The options of a run. -/
def options (flags : String) (args : List String) : Except UsageError Options := do
  (← ({} : Options).override (flagArgs flags)).override args

/-- The options and what they do. -/
def optionRows : List (String × String) :=
  [("    --all-reuse", "Allow objects to be reused with another type at GEPs, stores and loads."),
    ("    --dump-pts <FILE>", "Dump points-to results to the output file."),
    ("    --dump-stats", "Dump the statistics of the analysis results."),
    ("-h, --help", "Print help information"),
    ("    --max-field-limit <N>", "Field offset at which a memory object becomes field-insensitive."),
    ("    --no-first-field", "Do not treat a struct as a subtype of the type of its first field."),
    ("    --pta-type <TYPE>", "The type of pointer analysis: fs, flow-sensitive or tbhc."),
    ("    --store-reuse", "Allow objects to be reused with another type at GEPs and stores."),
    ("-V, --version", "Print version information")]

/-- A line of the help text. -/
def helpLine (row : String × String) : String :=
  "    " ++ String.ofList (row.1.toList.rightpad 28 ' ') ++ row.2 ++ "\n"

/-- The name and version of the command. -/
def versionText : String := name ++ " 0.1.0\n"

/-- The text that answers a wish for help. -/
def helpText : String :=
  versionText ++ "\nUSAGE:\n    " ++ name ++ " [OPTIONS] INPUT\n\nOPTIONS:\n" ++
  String.join (optionRows.map helpLine)

/-- What was wrong with the arguments. -/
def usageText : UsageError → String
  | .help | .version => ""
  | .unknownArgument => "an argument is not expected here"
  | .missingValue => "an option requires a value but none was supplied"
  | .notAChoice => "a value is none of fs, flow-sensitive, tbhc"
  | .notAWord => "a value is not a number below 2^64"
  | .flagWithValue => "a flag was given a value"
  | .repeated => "an option was given more than once"

/-- The outcome of arguments that give no options. -/
def refuse : UsageError → Outcome
  | .help => { stdout := helpText }
  | .version => { stdout := versionText }
  | e => { code := 2, stderr := "error: " ++ usageText e ++ "\n" }

/-- The outcome of a run that cannot go on. -/
def fail (message : String) : Outcome :=
  { code := 1, stderr := name ++ ": " ++ message ++ "\n" }

/-- The outcome of a run that ends in a fault. -/
def abort (fault : Fault) : Outcome := { code := 101, stderr := fault.message ++ "\n" }

/-- The results of an analysis: the points-to sets, then the statistics. -/
def report (s : Solver) : Except Fault Outcome := do
  let statistics := if s.options.dumpStats then Report.stats s else ""
  match s.options.ptsOutput with
  | none => return { stdout := statistics }
  | some "stdout" => return { stdout := (← Report.dump s) ++ statistics }
  | some path => return { stdout := statistics, file := some (path, ← Report.dump s) }

/-- Analyses a program and reports the results. -/
def analyse (p : Program) (o : Options) : Except Fault Outcome := do
  let types ← Hierarchy.ofTable p.types
  report (← (Solver.new types p.graph o).analyze)

/-- The outcome of analysing a file, of which the contents are given. -/
def runOn (o : Options) (path : String) (contents : Except String String) : Outcome :=
  match Program.ofFile path contents with
  | .error (.invalid _ (.program (.fault f))) => abort f
  | .error e => fail e.message
  | .ok p =>
    match analyse p o with
    | .error f => abort f
    | .ok outcome => outcome

/-- The message of a run without an input. -/
def noInput : Outcome := fail "No input program given"

/-- A run: `flags` is the environment variable's value, and `contents` gives the text of a file or why
    it cannot be read. -/
def run (flags : String) (args : List String) (contents : String → Except String String) :
    Outcome :=
  match options flags args with
  | .error e => refuse e
  | .ok o =>
    match o.input with
    | none => noInput
    | some path => runOn o path (contents path)

end PointsTo.Command
