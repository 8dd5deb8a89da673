import PointsTo.FilterSets
import PointsTo.FlowFacts
import PointsTo.Heap
import PointsTo.Options
import PointsTo.PointerSets
import PointsTo.Worklist

/-! The state of the analysis.

    Values have one points-to set each; objects have contents before and after every statement. A
    statement sees of a pointer's set what is not filtered at it. Statements wait in a worklist until
    nothing that they read has changed since they were last visited. -/

namespace PointsTo

/-- Everything that the analysis knows. -/
structure Solver where
  types : Hierarchy
  options : Options
  heap : Heap
  /-- What each value points to. -/
  pointers : PointerSets := ∅
  /-- What each object holds before and after each statement. -/
  flow : FlowFacts := ∅
  filters : FilterSets := ∅
  /-- The statements to visit. -/
  pending : Worklist := ∅
  /-- The number of visits so far. -/
  numProcessed : Nat := 0
  /-- The number of visits that overwrote an object. -/
  numStrongUpdates : Nat := 0

namespace Solver

/-- The state before anything is known. -/
def new (types : Hierarchy) (g : Graph) (options : Options) : Solver :=
  { types, options, heap := .ofGraph g options.maxFieldLimit }

variable (s : Solver)

/-- The value-flow graph, with the objects made so far. -/
def graph : Graph := s.heap.graph

/-- What a value points to, filtered objects included. -/
def pts (v : NodeId) : IdSet := s.pointers.pts v

/-- What a value points to as a statement sees it. -/
def effective (stmt v : NodeId) : IdSet := ((s.pts v).subtract (s.filters.setAt stmt)).2

/-- What an object holds before a statement. -/
def contentsBefore (stmt obj : NodeId) : IdSet := s.flow.ins.setAt stmt obj

/-- What an object holds after a statement. -/
def contentsAfter (stmt obj : NodeId) : IdSet := s.flow.outs.setAt stmt obj

/-- Puts statements on the worklist. -/
def enqueue (stmts : List NodeId) : Solver := { s with pending := s.pending.pushAll stmts }

/-- Adds to what a value points to. -/
def point (v : NodeId) (objs : IdSet) : Bool × Solver :=
  let r := s.pointers.addAll v objs
  (r.1, { s with pointers := r.2 })

/-- Hides an object from a statement. -/
def hide (stmt obj : NodeId) : Solver := { s with filters := (s.filters.filter stmt obj).2 }

/-- Does a store through a pointer to just this object overwrite what it holds? -/
def isStrong (obj : NodeId) : Except Fault Bool := do
  let o ← s.graph.obj obj
  let m := s.graph.mem o.mem
  match o.kind with
  | .base | .field _ _ =>
    return !(m.alloc == .heap || m.isArray || m.inRecursion || m.fieldInsensitive ||
      m.alloc == .special)
  | .dummy | .special _ => return false

/-! ### The start -/

/-- The type of an object before it is used: heap objects and constants have none. -/
def initialType (obj : NodeId) : Except Fault (Option TypeId) := do
  let o ← s.graph.obj obj
  if o.isSpecial then return none
  let m := s.graph.mem o.mem
  match m.alloc with
  | .heap | .constant => return none
  | .stack | .global | .special => return s.types.canonical m.ty

/-- Makes an object known with its initial type. -/
def registerObject (s : Solver) (obj : NodeId) : Except Fault Solver := do
  return { s with heap := ← s.heap.register obj (← s.initialType obj) }

/-- Makes a statement the site of the object whose address it takes. -/
def registerSite (s : Solver) (stmt : NodeId) : Except Fault Solver := do
  match (← s.graph.stmt stmt).kind with
  | .addr obj _ => return { s with heap := s.heap.setSite obj stmt }
  | _ => return s

/-- Adds what values point to from the start. -/
def addSeeds (p : PointerSets) (seeds : List (NodeId × NodeId)) : PointerSets :=
  seeds.foldl (fun p (v, obj) => (p.add v obj).2) p

/-- Makes all objects, sites and seeds known and puts every statement on the worklist. -/
def start : Except Fault Solver := do
  let s ← s.graph.objects.toList.foldlM registerObject s
  let s ← s.graph.stmts.toList.foldlM registerSite s
  let s := { s with pointers := addSeeds s.pointers s.graph.seeds.toList }
  return s.enqueue s.graph.stmts.toList

end Solver

end PointsTo
