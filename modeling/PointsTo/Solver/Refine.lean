import PointsTo.Solver.State

/-! Splitting objects by type.

    A statement that accesses memory of a known type through a pointer first looks at each object the
    pointer may point to. The object is kept, or a clone of the accessed type takes its place, or it
    is hidden, by the first rule that applies:

    1. an object whose fields are not told apart is kept if one of them is of the accessed type;
    2. at a projection, an object is kept if the accessed type is nested in its own type or in that
       of the object it is a field of;
    3. an untyped object is cloned;
    4. an object of a base of the accessed type is cloned, except a field under reuse;
    5. an object of which the accessed type is a base is kept;
    6. under reuse, an object of any other type is cloned;
    7. anything else is hidden.

    A cloned object stays in the pointer's set and is hidden from the statement. -/

namespace PointsTo.Solver

variable (s : Solver)

/-- What becomes of an object at an access. -/
inductive Verdict where | keep | clone | hide
  deriving DecidableEq, Repr

/-- Is the accessed type nested in a type? -/
def nestsIn (accessed : TypeId) (ty : Option TypeId) : Bool :=
  (s.types.nested? ty).any (·.contains accessed)

/-- Is the accessed type nested in an object's type or in that of the object it is a field of? -/
def nestsInObject (o : ObjNode) (ty : Option TypeId) (accessed : TypeId) : Except Fault Bool := do
  if s.nestsIn accessed ty then return true
  match o.kind with
  | .field base _ => return s.nestsIn accessed (← s.heap.typeOf base)
  | _ => return false

/-- The verdict on an object of a type by the first rule that applies. -/
def verdict (o : ObjNode) (ty : Option TypeId) (accessed : TypeId) (reuse gep : Bool) :
    Except Fault Verdict := do
  if (s.graph.mem o.mem).fieldInsensitive && (s.types.fieldTypes ty).contains accessed then
    return .keep
  if gep then
    if ← s.nestsInObject o ty accessed then return .keep
  if ty = none then return .clone
  let ext := s.options.firstField
  if ty ≠ some accessed && s.types.isBase ty (some accessed) ext && (!reuse || !o.isField) then
    return .clone
  if s.types.isBase (some accessed) ty ext then return .keep
  if reuse && ty ≠ some accessed then return .clone
  return .hide

/-- Replaces an object by its clone at the accessed type. -/
def replace (loc obj : NodeId) (accessed : TypeId) (objs : IdSet) : Except Fault (IdSet × Solver) := do
  let ((clone, woken), heap) ← s.heap.cloneAs obj (some accessed)
  let s := { s with heap }.enqueue woken
  if clone = obj then return (objs, s)
  return ((objs.insert clone).2, s.hide loc obj)

/-- Judges one object of a pointer's set. -/
def refineObject (loc : NodeId) (accessed : TypeId) (reuse gep : Bool)
    (acc : IdSet × Solver) (obj : NodeId) : Except Fault (IdSet × Solver) := do
  let (objs, s) := acc
  if s.filters.isFiltered loc obj then return (objs, s)
  let o ← s.graph.obj obj
  if o.isSpecial then return (objs, s)
  let ty ← s.heap.typeOf obj
  match ← s.verdict o ty accessed reuse gep with
  | .keep => return (objs, s)
  | .clone => s.replace loc obj accessed objs
  | .hide => return (objs, s.hide loc obj)

/-- Judges all objects of a pointer's set for an access at a statement. If clones were added to the
    set, all users of the pointer are visited again; the flag tells whether there were any. -/
def refine (loc ptr : NodeId) (ty : Option TypeId) (reuse gep : Bool) :
    Except Fault (Bool × Solver) := do
  match s.types.canonical ty with
  | none => return (false, s)
  | some accessed =>
    let objs := s.pts ptr
    let (objs, s) ← objs.toList.foldlM (refineObject loc accessed reuse gep) (objs, s)
    let (changed, s) := s.point ptr objs
    return (changed, if changed then s.enqueue (s.graph.users ptr) else s)

end PointsTo.Solver
