/-! The options of an analysis. -/

namespace PointsTo

/-- The two analyses. -/
inductive Analysis where
  /-- Flow-sensitive, without types. -/
  | flowSensitive
  /-- Flow-sensitive, with heap objects split by type. -/
  | typedHeap
  deriving DecidableEq, Repr

/-- The analysis that a word names. -/
def Analysis.ofWord? : String → Option Analysis
  | "fs" | "flow-sensitive" => some .flowSensitive
  | "tbhc" => some .typedHeap
  | _ => none

/-- The options of an analysis and of its reports. -/
structure Options where
  analysis : Analysis := .typedHeap
  /-- May projections and stores use an object at another type? -/
  reuseAtStores : Bool := false
  /-- May loads do so as well? -/
  reuseEverywhere : Bool := false
  /-- Is a record viewed by pointers to its first field's type? -/
  firstField : Bool := true
  /-- The offset from which on fields are not told apart. -/
  maxFieldLimit : Nat := 512
  dumpStats : Bool := false
  ptsOutput : Option String := none
  input : Option String := none
  deriving DecidableEq, Repr

namespace Options

/-- Are heap objects split by type? -/
def typed (o : Options) : Bool := o.analysis == .typedHeap

/-- May projections and stores use an object at another type? -/
def storeReuse (o : Options) : Bool := o.reuseAtStores || o.reuseEverywhere

/-- May loads use an object at another type? -/
def loadReuse (o : Options) : Bool := o.reuseEverywhere

end Options

end PointsTo
