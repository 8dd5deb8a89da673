import PointsTo.Solver.Transfer

/-! Running the analysis to its fixed point.

    One step visits the statement that waits longest: its transfer function, then the indirect edges
    that leave it. Whatever a visit changes puts the statements that read it on the worklist, so that
    nothing is lost when the worklist is empty. -/

namespace PointsTo.Solver

variable (s : Solver)

/-- Carries what one object holds at a statement along an edge. -/
def carry (fromOut : Bool) (src dst : NodeId) (acc : Bool × FlowFacts) (obj : NodeId) :
    Bool × FlowFacts :=
  let r := if fromOut then acc.2.inFromOut src obj dst else acc.2.inFromIn src obj dst
  (acc.1 || r.1, r.2)

/-- Carries the contents of an edge's objects to its end, which is visited again if it got any. -/
def propagateEdge (fromOut : Bool) (stmt : NodeId) (s : Solver) (edge : NodeId × IdSet) :
    Except Fault Solver := do
  let objs ← s.heap.expand edge.2
  let (changed, flow) := objs.toList.foldl (carry fromOut stmt edge.1) (false, s.flow)
  let s := { s with flow }
  return if changed then s.enqueue [edge.1] else s

/-- Carries contents along all indirect edges that leave a statement: those after a store, those
    before any other statement. -/
def propagate (stmt : NodeId) : Except Fault Solver := do
  let fromOut := (← s.graph.stmt stmt).kind.isStore
  (s.graph.indirectSuccessors stmt).foldlM (propagateEdge fromOut stmt) s

/-- Visits a statement. -/
def visit (stmt : NodeId) : Except Fault Solver := do
  let (changed, s) ← { s with numProcessed := s.numProcessed + 1 }.transfer stmt
  let s := if changed then s.enqueue (s.graph.directSuccessors stmt) else s
  s.propagate stmt

/-- Visits the statement that waits longest, if there is one. -/
def step : Except Fault (Option NodeId × Solver) := do
  match s.pending.pop? with
  | none => return (none, s)
  | some (stmt, pending) => return (some stmt, ← { s with pending }.visit stmt)

/-- Takes at most `n` steps, and stops early when nothing waits. -/
def runFor : Nat → Solver → Except Fault Solver
  | 0, s => .ok s
  | n + 1, s => do
    match ← s.step with
    | (none, s) => return s
    | (some _, s) => runFor n s

/-- The most objects that the analysis can end up with: every object may be cloned for every
    annotated statement, and have a field at every offset below the limit, which again may be cloned. -/
def objectBound : Nat :=
  let clones := s.graph.stmts.size + 1
  s.graph.objects.size * clones * (1 + s.heap.fieldLimit * clones)

/-- More steps than the analysis can take. Every step but the first of each statement is due to a
    fact that is new: an object, an element of a points-to set, or an element of an object's contents
    before or after a statement; and one fact wakes each statement at most once. -/
def stepBound : Nat :=
  let objects := s.objectBound
  let stmts := s.graph.stmts.size
  let facts := objects + s.graph.nodes.size * objects + 2 * stmts * objects * objects
  s.pending.size + (stmts + 1) * (facts + 1)

/-- Takes steps until nothing waits. -/
def solve : Except Fault Solver := runFor s.stepBound s

/-- Starts the analysis and runs it to its fixed point. -/
def analyze : Except Fault Solver := do (← s.start).solve

end PointsTo.Solver
