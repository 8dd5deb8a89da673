import PointsTo.Solver.Run

/-! The dump of all points-to sets.

    There is one line for each value that points anywhere, in the order of the values' names, and on
    it the names of the objects in their order. A field is named after its object and offset, and a
    clone shows the type that it was made for. -/

namespace PointsTo.Report

/-- The order of names, character by character. -/
def nameLe (a b : String) : Bool := a ≤ b

/-- The order of named values: by name, then by place. -/
def valueLe (a b : String × NodeId) : Bool := a.1 < b.1 || (a.1 == b.1 && a.2 ≤ b.2)

/-- The name of an object at most `fuel` fields deep. -/
def objectNameUpTo (s : Solver) : Nat → NodeId → Except Fault String
  | 0, obj => .error (.noNode obj)
  | fuel + 1, obj => do
    let o ← s.graph.obj obj
    let name ← match o.kind with
      | .field base offset =>
        pure ((← objectNameUpTo s fuel base) ++ "." ++ toString offset)
      | _ => pure o.name
    if s.heap.isClone obj then
      return name ++ "'<" ++ s.types.typeName (← s.heap.typeOf obj) ++ ">"
    return name

/-- The name of an object. A field comes after the object it belongs to. -/
def objectName (s : Solver) (obj : NodeId) : Except Fault String :=
  objectNameUpTo s (s.graph.nodes.size + 1) obj

/-- The names of the objects of a set, in their order. -/
def objectNames (s : Solver) (objs : IdSet) : Except Fault (List String) := do
  return (← objs.toList.mapM (objectName s)).mergeSort nameLe

/-- The line of a value, nothing if it points nowhere. -/
def valueLine (s : Solver) (name : String) (v : NodeId) : Except Fault String := do
  let objs := s.pts v
  if objs.isEmpty then return ""
  return name ++ " ==> \x7b " ++ " ".intercalate (← objectNames s objs) ++ " \x7d\n"

/-- The dump of all points-to sets. -/
def dump (s : Solver) : Except Fault String := do
  let named ← s.graph.values.mapM fun v => do return (← s.graph.value v, v)
  let lines ← (named.mergeSort valueLe).mapM fun (name, v) => valueLine s name v
  return String.join lines

end PointsTo.Report
