import PointsTo.Decimal.Shortest
import PointsTo.Solver.Run

/-! The statistics of an analysis. -/

namespace PointsTo.Report

/-- A line with a counter. -/
def counter (label : String) (n : Nat) : String := "#" ++ label ++ ": " ++ toString n ++ "\n"

/-- A line across the report. -/
def rule (c : Char) : String := String.ofList (List.replicate 58 c) ++ "\n"

/-- The points-to sets with an entry, empty ones included. -/
def pointsToSets (s : Solver) : List IdSet := s.pointers.sets.values

/-- The number of values that point somewhere. -/
def numPointers (s : Solver) : Nat := (pointsToSets s).countP (!·.isEmpty)

/-- The number of pairs of a value and an object it points to. -/
def numRelations (s : Solver) : Nat := ((pointsToSets s).map IdSet.count).foldr (· + ·) 0

/-- The counters of the solver. -/
def solverStats (s : Solver) : String :=
  "Solver Statistics: \n" ++
  counter "Statements" s.graph.stmts.size ++
  counter "Indirect edges" s.graph.numIndirect ++
  counter "Processed statements" s.numProcessed ++
  counter "Objects" s.graph.objects.size ++
  counter "Clones" s.heap.numClones ++
  counter "Field objects" s.heap.numFields ++
  counter "Filtered" s.filters.total ++
  counter "Strong updates" s.numStrongUpdates ++
  "#DCHG edges: " ++ toString (s.types.numEdges .inheritance) ++ " inheritance, " ++
  toString (s.types.numEdges .firstField) ++ " first-field\n"

/-- The counters of the points-to sets. -/
def pointerStats (s : Solver) : String :=
  "Points-to Statistics: \n" ++
  counter "Pointers" (numPointers s) ++
  counter "Points-to relations" (numRelations s) ++
  "#Avg points-to size: " ++ Decimal.quotientText (numRelations s) (numPointers s) ++ "\n"

/-- All statistics. -/
def stats (s : Solver) : String :=
  rule '#' ++ solverStats s ++ rule '-' ++ pointerStats s ++ rule '#'

end PointsTo.Report
