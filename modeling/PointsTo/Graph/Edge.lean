import Std.Data.TreeSet
import PointsTo.IdTable
import PointsTo.Graph.Node

/-! Edges of value-flow graphs.

    The edges stand in one array, in the order of their addition. Two indexes beside it, one for each
    sort of edges, tell where the edges stand that leave a node; whoever asks for the edges of a node
    reads the index and not the array. -/

namespace PointsTo

/-- What flows along an edge. -/
inductive Flow where
  /-- The value that the source defines. -/
  | direct
  /-- The contents of objects. -/
  | indirect (label : IdSet)
  deriving DecidableEq, Repr

/-- Is the flow direct? -/
def Flow.isDirect : Flow → Bool
  | .direct => true
  | .indirect _ => false

/-- An edge. -/
structure Edge where
  src : NodeId
  dst : NodeId
  flow : Flow
  deriving DecidableEq, Repr

/-- Adds objects to the label of an edge. -/
def Edge.extendLabel (objs : List NodeId) (e : Edge) : Edge :=
  match e.flow with
  | .direct => e
  | .indirect label => { e with flow := .indirect (label.insertAll objs).2 }

/-- The end and the label of an indirect edge. -/
def Edge.labelledEnd? (e : Edge) : Option (NodeId × IdSet) :=
  match e.flow with
  | .direct => none
  | .indirect label => some (e.dst, label)

/-- The places of edges by the node that they leave. -/
abbrev EdgeIndex := Std.TreeMap NodeId (Std.TreeSet Nat)

namespace EdgeIndex

/-- The places of the edges that leave a node. -/
def places (x : EdgeIndex) (id : NodeId) : Std.TreeSet Nat := x.getD id ∅

/-- Enters the place of an edge. -/
def enter (x : EdgeIndex) (id : NodeId) (place : Nat) : EdgeIndex :=
  x.insert id ((x.places id).insert place)

/-- The number of all places. -/
def count (x : EdgeIndex) : Nat := x.values.foldl (fun n s => n + s.size) 0

end EdgeIndex

/-- The edges of a graph with their indexes. -/
structure EdgeTable where
  all : Array Edge := #[]
  directOut : EdgeIndex := ∅
  indirectOut : EdgeIndex := ∅

namespace EdgeTable

variable (t : EdgeTable)

/-- The place of the edge of a sort between two nodes. -/
def find? (src dst : NodeId) (direct : Bool) : Option Nat :=
  t.all.findIdx? fun e => e.src == src && e.dst == dst && e.flow.isDirect == direct

/-- Appends an edge and enters its place in the index of its sort. -/
def push (e : Edge) : EdgeTable :=
  match e.flow with
  | .direct =>
    { t with all := t.all.push e, directOut := t.directOut.enter e.src t.all.size }
  | .indirect _ =>
    { t with all := t.all.push e, indirectOut := t.indirectOut.enter e.src t.all.size }

/-- Adds objects to the label of the edge at a place. -/
def extend (place : Nat) (objs : List NodeId) : EdgeTable :=
  { t with all := t.all.modify place (Edge.extendLabel objs) }

/-- The ends of the direct edges that leave a node, in the order of the edges. -/
def directEnds (id : NodeId) : List NodeId :=
  (t.directOut.places id).toList.filterMap fun i => t.all[i]?.map Edge.dst

/-- The ends and labels of the indirect edges that leave a node, in the order of the edges. -/
def indirectEnds (id : NodeId) : List (NodeId × IdSet) :=
  (t.indirectOut.places id).toList.filterMap fun i => t.all[i]?.bind Edge.labelledEnd?

end EdgeTable

end PointsTo
