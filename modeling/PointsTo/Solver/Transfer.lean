import PointsTo.Solver.Refine

/-! What a visit to a statement does.

    Each kind of statement has a transfer function, which tells whether the value that the statement
    defines, or the contents that a store writes, changed. -/

namespace PointsTo.Solver

variable (s : Solver)

/-- Taking an address: the object and all clones of it. -/
def visitAddr (obj dst : NodeId) : Bool × Solver :=
  let (added, pointers) := s.pointers.add dst obj
  match s.heap.clones[obj]? with
  | some clones =>
    let (more, pointers) := pointers.addAll dst clones
    (added || more, { s with pointers })
  | none => (added, { s with pointers })

/-- Copying a pointer. -/
def visitCopy (src dst : NodeId) : Bool × Solver :=
  let r := s.pointers.copy dst src
  (r.1, { s with pointers := r.2 })

/-- Is a projection beyond the fields of an object's type? Arrays have no bounds. -/
def isBeyondFields (o : ObjNode) (ty : Option TypeId) (offset : Nat) : Bool :=
  s.options.typed && s.types.isAggregate ty && !s.types.isArray ty &&
    !(s.graph.mem o.mem).isArray && s.types.numFields ty ≤ offset

/-- Adds what the projection of one object leads to. -/
def projectObject (stmt : NodeId) (offset : GepOffset) (acc : IdSet × Solver) (obj : NodeId) :
    Except Fault (IdSet × Solver) := do
  let (objs, s) := acc
  if s.options.typed && s.filters.isFiltered stmt obj then return (objs, s)
  let o ← s.graph.obj obj
  if o.isSpecial then return ((objs.insert obj).2, s)
  match offset with
  | .variant =>
    let whole := match o.kind with
      | .field base _ => base
      | _ => obj
    return ((objs.insert whole).2, { s with heap.graph := s.graph.collapse o.mem })
  | .field k =>
    let ty ← s.heap.typeOf obj
    if s.isBeyondFields o ty k then return (objs, s.hide stmt obj)
    let (fields, heap) ← s.heap.project s.types obj k
    let heap := fields.toList.foldl (·.addRetriever · stmt) heap
    return ((objs.union fields).2, { s with heap })

/-- Projecting a pointer. -/
def visitGep (stmt base dst : NodeId) (offset : GepOffset) (ty : Option TypeId) :
    Except Fault (Bool × Solver) := do
  let (_, s) ← if s.options.typed && ty.isSome
    then s.refine stmt base ty s.options.storeReuse true
    else pure (false, s)
  let (objs, s) ← (s.pts base).toList.foldlM (projectObject stmt offset) (∅, s)
  return s.point dst objs

/-- Adds what one object holds, with all of its allocation if fields are not told apart. -/
def loadObject (stmt : NodeId) (loaded : IdSet) (obj : NodeId) : Except Fault IdSet := do
  let o ← s.graph.obj obj
  if o.kind = .special .constant then return loaded
  let loaded := (loaded.union (s.contentsBefore stmt obj)).2
  if (s.graph.mem o.mem).fieldInsensitive then
    return (s.heap.memObjects.setAt o.mem).toList.foldl
      (fun loaded n => (loaded.union (s.contentsBefore stmt n)).2) loaded
  return loaded

/-- Loading through a pointer. -/
def visitLoad (stmt ptr dst : NodeId) (ty : Option TypeId) : Except Fault (Bool × Solver) := do
  let (_, s) ← if s.options.typed
    then s.refine stmt ptr ty s.options.loadReuse false
    else pure (false, s)
  let loaded ← (s.effective stmt ptr).toList.foldlM (s.loadObject stmt) ∅
  return s.point dst loaded

/-- Stores into one object, unless it is memory that the program does not own. -/
def storeObject (stmt : NodeId) (stored : IdSet) (acc : Bool × Solver) (obj : NodeId) :
    Except Fault (Bool × Solver) := do
  let (changed, s) := acc
  if (← s.graph.obj obj).isSpecial then return (changed, s)
  let r := s.flow.addOut stmt obj stored
  return (changed || r.1, { s with flow := r.2 })

/-- The object that a store overwrites: the only one it may write to, if it is strong. -/
def overwritten (targets : IdSet) : Except Fault (Option NodeId) := do
  match targets.toList.head? with
  | some obj =>
    if targets.count = 1 then
      if ← s.isStrong obj then return some obj
    return none
  | none => return none

/-- Storing through a pointer: what is overwritten does not flow on. -/
def visitStore (stmt src ptr : NodeId) (ty : Option TypeId) : Except Fault (Bool × Solver) := do
  if (s.pts ptr).isEmpty then return (false, s)
  let (_, s) ← if s.options.typed
    then s.refine stmt ptr ty s.options.storeReuse false
    else pure (false, s)
  let targets := s.effective stmt ptr
  let (changed, s) ← targets.toList.foldlM (storeObject stmt (s.pts src)) (false, s)
  let killed ← s.overwritten targets
  let r := s.flow.outFromIn stmt killed
  return (changed || r.1, { s with
    flow := r.2
    numStrongUpdates := if killed.isSome then s.numStrongUpdates + 1 else s.numStrongUpdates })

/-- Merging one operand of a phi. -/
def mergeOperand (dst : NodeId) (acc : Bool × Solver) (operand : NodeId) : Bool × Solver :=
  let r := acc.2.visitCopy operand dst
  (acc.1 || r.1, r.2)

/-- Merging the receiver of a constructor, which takes the constructed type on entry. -/
def mergeReceiver (stmt dst operand : NodeId) (ty : Option TypeId) : Except Fault (Bool × Solver) := do
  let (_, s) ← s.refine stmt operand ty false false
  return s.point dst (s.effective stmt operand)

/-- Merging pointers. -/
def visitPhi (stmt dst : NodeId) (operands : List NodeId) (receiver : Option TypeId) :
    Except Fault (Bool × Solver) := do
  match operands with
  | [] => return (false, s)
  | first :: rest =>
    let start ← if receiver.isSome && s.options.typed
      then s.mergeReceiver stmt dst first receiver
      else pure (mergeOperand dst (false, s) first)
    return rest.foldl (mergeOperand dst) start

/-- The transfer function of a statement. -/
def transfer (stmt : NodeId) : Except Fault (Bool × Solver) := do
  let node ← s.graph.stmt stmt
  match node.kind with
  | .addr obj dst => return s.visitAddr obj dst
  | .copy src dst _ => return s.visitCopy src dst
  | .gep base dst offset => s.visitGep stmt base dst offset node.ty
  | .load ptr dst => s.visitLoad stmt ptr dst node.ty
  | .store src ptr => s.visitStore stmt src ptr node.ty
  | .phi dst operands => s.visitPhi stmt dst operands node.ty

end PointsTo.Solver
