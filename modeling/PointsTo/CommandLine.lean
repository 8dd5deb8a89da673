import PointsTo.Decimal.Numeral
import PointsTo.Fault
import PointsTo.Options

/-! Options on the command line.

    Arguments are read from left to right. An option is written `--name`, and its value follows after
    `=` or as the next argument; what starts with no dash is the input, and after `--` everything is.
    The first argument that cannot be accepted decides the error, but a value that is an argument of
    its own is judged only when the argument after it was recognised. Options that are left out stay
    as they were, so that one list of arguments can override another. -/

namespace PointsTo

/-- Why a list of arguments does not give options. -/
inductive UsageError where
  /-- Help is asked for. -/
  | help
  /-- The version is asked for. -/
  | version
  /-- There is no such option, or there is an input already. -/
  | unknownArgument
  /-- An option comes without its value. -/
  | missingValue
  /-- A value is none of those to choose from. -/
  | notAChoice
  /-- A value is not a machine word. -/
  | notAWord
  /-- A flag comes with a value. -/
  | flagWithValue
  /-- An option comes twice. -/
  | repeated
  deriving DecidableEq, Repr

namespace CommandLine

/-- The options without a value. -/
inductive Flag where | storeReuse | allReuse | noFirstField | dumpStats
  deriving DecidableEq, Repr

/-- The options with a value. -/
inductive Setting where | analysis | maxFieldLimit | ptsOutput
  deriving DecidableEq, Repr

/-- What a name after two dashes asks for. -/
inductive Param where
  | help
  | version
  | flag (f : Flag)
  | setting (s : Setting)
  deriving DecidableEq, Repr

/-- What a name asks for. -/
def Param.ofName? : String → Option Param
  | "help" => some .help
  | "version" => some .version
  | "store-reuse" => some (.flag .storeReuse)
  | "all-reuse" => some (.flag .allReuse)
  | "no-first-field" => some (.flag .noFirstField)
  | "dump-stats" => some (.flag .dumpStats)
  | "pta-type" => some (.setting .analysis)
  | "max-field-limit" => some (.setting .maxFieldLimit)
  | "dump-pts" => some (.setting .ptsOutput)
  | _ => none

/-- Does the option need a value? -/
def Param.needsValue : Param → Bool
  | .setting _ => true
  | _ => false

/-- The machine word that a text denotes; a plus sign may stand in front. -/
def word? (s : String) : Option Nat :=
  let digits := match s.toList with
    | '+' :: rest => rest
    | cs => cs
  (Decimal.nat? digits).filter (· < wordLimit)

/-- What is wrong with the value of an option. -/
def Setting.fault? : Setting → String → Option UsageError
  | .analysis, v => if (Analysis.ofWord? v).isSome then none else some .notAChoice
  | .maxFieldLimit, v => if (word? v).isSome then none else some .notAWord
  | .ptsOutput, _ => none

/-- One use of an option, with its value once that came. -/
structure Use where
  param : Param
  value : Option String := none
  deriving DecidableEq, Repr

/-- What was read of a list of arguments. -/
structure Reading where
  /-- The uses of options, the latest first. -/
  uses : List Use := []
  input : Option String := none
  /-- Is the next argument the value of the latest option? -/
  waiting : Bool := false
  /-- What is wrong with the value that was read last. -/
  deferred : Option UsageError := none
  /-- Are all further arguments inputs? -/
  onlyInputs : Bool := false
  deriving DecidableEq, Repr

namespace Reading

variable (r : Reading)

/-- Judges the value that was read last. -/
def settle : Except UsageError Reading :=
  match r.deferred with
  | some e => .error e
  | none => .ok r

/-- Records the use of an option. -/
def use (u : Use) (waiting : Bool) : Reading := { r with uses := u :: r.uses, waiting }

/-- Reads an input, of which there is at most one. -/
def readInput (arg : String) : Except UsageError Reading := do
  if r.input.isSome then throw .unknownArgument
  return { ← r.settle with input := some arg, waiting := false }

/-- Reads the value of the latest option. -/
def readValue (arg : String) : Reading :=
  match r.uses with
  | ⟨.setting s, _⟩ :: rest =>
    { r with uses := ⟨.setting s, some arg⟩ :: rest, waiting := false, deferred := s.fault? arg }
  | _ => r

/-- Splits an option at its first equals sign into name and value. -/
def splitValue (cs : List Char) : String × Option String :=
  (String.ofList (cs.takeWhile (· ≠ '=')),
    match cs.dropWhile (· ≠ '=') with
    | [] => none
    | _ :: value => some (String.ofList value))

/-- Reads an option that stands alone. -/
def readAlone (p : Param) : Except UsageError Reading := do
  let r ← r.settle
  match p with
  | .help => throw .help
  | .version => throw .version
  | .flag _ => return r.use ⟨p, none⟩ false
  | .setting _ => return r.use ⟨p, none⟩ true

/-- Reads an option with a value after an equals sign. -/
def readAssigned (p : Param) (value : String) : Except UsageError Reading := do
  match p with
  | .setting s =>
    let r ← r.settle
    if let some e := s.fault? value then throw e
    return r.use ⟨p, some value⟩ false
  | _ => throw .flagWithValue

/-- Reads an option by its name. -/
def readLong (cs : List Char) : Except UsageError Reading :=
  match splitValue cs with
  | (name, value) =>
    match Param.ofName? name, value with
    | none, _ => .error .unknownArgument
    | some p, none => r.readAlone p
    | some p, some v => r.readAssigned p v

/-- Reads an option by its letter. -/
def readShort : Char → Except UsageError Reading
  | 'h' => r.readAlone .help
  | 'V' => r.readAlone .version
  | _ => .error .unknownArgument

/-- Reads one argument. -/
def step (arg : String) : Except UsageError Reading :=
  if r.onlyInputs then r.readInput arg
  else match arg.toList with
    | ['-', '-'] => .ok { r with onlyInputs := true }
    | '-' :: '-' :: cs => r.readLong cs
    | '-' :: c :: _ => r.readShort c
    | _ => if r.waiting then .ok (r.readValue arg) else r.readInput arg

/-- The uses of an option. -/
def usesOf (p : Param) : List Use := r.uses.filter (·.param = p)

/-- Judges one use of an option after all arguments were read. -/
def checkUse (u : Use) : Except UsageError Unit := do
  if 1 < (r.usesOf u.param).length then throw .repeated
  if u.param.needsValue && u.value.isNone then throw .missingValue

/-- Judges an option that still waits for its value. -/
def checkWaiting : Except UsageError Unit :=
  match r.uses with
  | u :: _ =>
    if r.waiting && (r.usesOf u.param).all (·.value.isNone) then .error .missingValue else .ok ()
  | [] => .ok ()

/-- Judges what was read when the arguments end. -/
def finish : Except UsageError Reading := do
  let r ← r.settle
  r.checkWaiting
  r.uses.reverse.forM r.checkUse
  return r

/-- Was a flag given? -/
def has (f : Flag) : Bool := !(r.usesOf (.flag f)).isEmpty

/-- The value that an option was given. -/
def value? (s : Setting) : Option String := (r.usesOf (.setting s)).head?.bind Use.value

end Reading

/-- Reads a list of arguments. -/
def read (args : List String) : Except UsageError Reading := do
  (← args.foldlM Reading.step {}).finish

/-- Does an argument start with a text? -/
def mentions (args : List String) (text : String) : Bool :=
  args.any fun arg => text.toList.isPrefixOf arg.toList

end CommandLine

open CommandLine in
/-- The options with what was read of a list of arguments. Two of them go back to their default if an
    argument starts with their name and none gives their value. -/
def Options.take (o : Options) (args : List String) (r : Reading) : Options :=
  let default : Options := {}
  { analysis :=
      if mentions args "--pta-type" then
        ((r.value? .analysis).bind Analysis.ofWord?).getD default.analysis
      else o.analysis
    maxFieldLimit :=
      if mentions args "--max-field-limit" then
        ((r.value? .maxFieldLimit).bind word?).getD default.maxFieldLimit
      else o.maxFieldLimit
    reuseAtStores := o.reuseAtStores || r.has .storeReuse
    reuseEverywhere := o.reuseEverywhere || r.has .allReuse
    firstField := o.firstField && !r.has .noFirstField
    dumpStats := o.dumpStats || r.has .dumpStats
    ptsOutput := (r.value? .ptsOutput).or o.ptsOutput
    input := r.input.or o.input }

/-- Reads a list of arguments into the options, which stay also if it is refused. -/
def Options.parse (args : List String) : ExceptT UsageError (StateM Options) Unit := do
  let r ← liftExcept (CommandLine.read args)
  modify (·.take args r)

/-- The options after a list of arguments. -/
def Options.override (o : Options) (args : List String) : Except UsageError Options :=
  match (Options.parse args).run.run o with
  | (.ok (), o') => .ok o'
  | (.error e, _) => .error e

end PointsTo
