import PointsTo.Graph.Basic
import PointsTo.Types.Hierarchy

/-! The abstract heap: a value-flow graph with what is known of its objects.

    Every object has a type, or is known to be untyped, and may have an allocation site. An object
    that turns out to be used at several types is split: each use at another type gets a clone of
    the object, its prototype, at most one for each type; a clone of a clone has the same prototype.
    Field objects come into being when a projection first asks for them, one for each offset of a
    whole object; projections beyond the field limit make the allocation field-insensitive instead. -/

namespace PointsTo

/-- A value-flow graph with the types, sites, clones and fields of its objects. -/
structure Heap where
  graph : Graph := ∅
  types : Std.TreeMap NodeId (Option TypeId) := ∅
  sites : Std.TreeMap NodeId NodeId := ∅
  /-- The clones of each prototype. -/
  clones : IdTable := ∅
  /-- The prototype of each clone. -/
  prototypes : Std.TreeMap NodeId NodeId := ∅
  /-- The field objects, clones among them, of each whole object by offset. -/
  fields : IdGrid := ∅
  /-- The field objects, clones among them, of each allocation by offset. -/
  memFields : IdGrid := ∅
  /-- All objects of each allocation. -/
  memObjects : IdTable := ∅
  /-- The projections that asked for a field object, by its prototype. -/
  retrievers : IdTable := ∅
  /-- The offset from which on fields are not told apart. -/
  fieldLimit : Nat
  numClones : Nat := 0
  numFields : Nat := 0

namespace Heap

variable (h : Heap)

/-- A graph of which no object is known. -/
def ofGraph (g : Graph) (fieldLimit : Nat) : Heap := { graph := g, fieldLimit }

/-- Sets the type of an object. -/
def setType (obj : NodeId) (ty : Option TypeId) : Heap :=
  { h with types := h.types.insert obj ty }

/-- The type of an object. -/
def typeOf (obj : NodeId) : Except Fault (Option TypeId) :=
  match h.types[obj]? with
  | some ty => .ok ty
  | none => .error (.untyped obj)

/-- Sets the allocation site of an object. -/
def setSite (obj stmt : NodeId) : Heap := { h with sites := h.sites.insert obj stmt }

/-- The statement that allocates an object. -/
def site? (obj : NodeId) : Option NodeId := h.sites[obj]?

/-- Gives an object the allocation site of another one, if that has one. -/
def inheritSite (obj source : NodeId) : Heap :=
  match h.site? source with
  | some stmt => h.setSite obj stmt
  | none => h

/-- Is the object a clone? -/
def isClone (obj : NodeId) : Bool := h.prototypes.contains obj

/-- The object that an object was cloned from, itself unless it is a clone. -/
def prototype (obj : NodeId) : NodeId := h.prototypes.getD obj obj

/-- Makes an object of the graph known. -/
def register (obj : NodeId) (ty : Option TypeId) : Except Fault Heap := do
  let o ← h.graph.obj obj
  return { h with memObjects := (h.memObjects.addTo o.mem obj).2 }.setType obj ty

/-- Records that a projection asked for a field object. -/
def addRetriever (field gep : NodeId) : Heap :=
  { h with retrievers := (h.retrievers.addTo (h.prototype field) gep).2 }

/-! ### Clones -/

/-- The clone of a prototype at a type, if it was made. -/
def findClone? (prototype : NodeId) (ty : Option TypeId) : Option NodeId :=
  (h.clones.setAt prototype).toList.find? fun c => h.types[c]? == some ty

/-- Enters an object among those of its allocation and, if it is a field, of its slot. -/
def enter (obj : NodeId) (o : ObjNode) : Heap :=
  let h := { h with memObjects := (h.memObjects.addTo o.mem obj).2 }
  match o.kind with
  | .field base offset =>
    { h with
      fields := (h.fields.addTo base offset obj).2
      memFields := (h.memFields.addTo o.mem offset obj).2 }
  | _ => h

/-- The statements to visit again once a prototype has a new clone: the projections that asked for a
    field, the site of any other object. -/
def announced (prototype : NodeId) (kind : ObjKind) : List NodeId :=
  match kind with
  | .field _ _ => (h.retrievers.setAt prototype).sorted
  | _ => (h.site? prototype).toList

/-- The clone of an object's prototype at a type, made if it is not there, and the statements to
    visit again if it was made. -/
def cloneAs (obj : NodeId) (ty : Option TypeId) : Except Fault ((NodeId × List NodeId) × Heap) := do
  let prototype := h.prototype obj
  match h.findClone? prototype ty with
  | some clone => return ((clone, []), h)
  | none =>
    let o ← h.graph.obj prototype
    if let .special which := o.kind then throw (.cannotClone which prototype)
    let (clone, graph) ← h.graph.addCloneOf prototype
    let h := { h with
      graph
      numClones := h.numClones + 1
      clones := (h.clones.addTo prototype clone).2
      prototypes := h.prototypes.insert clone prototype }
    let h := ((h.setType clone ty).inheritSite clone prototype).enter clone o
    return ((clone, h.announced prototype o.kind), h)

/-! ### Fields -/

/-- The whole object and the flattened offset in it that a projection of an object leads to. -/
def slotOf (obj : NodeId) (kind : ObjKind) (offset : Nat) : Except Fault (NodeId × Nat) :=
  match kind with
  | .field base k => do return (base, ← checkedAdd k offset)
  | _ => .ok (obj, offset)

/-- The type of the field that a projection of an object leads to: an array's element, what a
    pointer points to, or the field of the whole object or of the object itself. -/
def slotType (types : Hierarchy) (base : NodeId) (baseTy : Option TypeId) (isArray : Bool)
    (offset : Nat) (root : NodeId) (slot : Nat) : Except Fault (Option TypeId) := do
  if isArray then return types.elementType baseTy
  if types.isAddress baseTy then return types.targetType baseTy
  if root ≠ base then
    let rootTy ← h.typeOf root
    if rootTy.isSome then return types.fieldType rootTy slot
  return types.fieldType baseTy offset

/-- Makes the object of a slot that has none. -/
def makeField (base root : NodeId) (slot : Nat) (ty : Option TypeId) : Except Fault Heap := do
  let (field, graph) ← h.graph.addField root slot
  let o ← graph.obj field
  let h := { h with graph, numFields := h.numFields + 1 }
  return ((h.setType field ty).inheritSite field base).enter field o

/-- All objects that stand for the field of an object at an offset, clones among them. Offset zero
    of an object that is no array is the object itself, and so is every field of a field-insensitive
    one. -/
def project (types : Hierarchy) (base : NodeId) (offset : Nat) : Except Fault (IdSet × Heap) := do
  let o ← h.graph.obj base
  let itself := IdSet.ofList [base]
  if o.isSpecial then return (itself, h)
  let baseTy ← h.typeOf base
  let m := h.graph.mem o.mem
  let isArray := m.isArray || types.isArray baseTy
  if m.fieldInsensitive || (offset == 0 && !isArray) then return (itself, h)
  let (root, slot) ← slotOf base o.kind offset
  if h.fieldLimit ≤ slot then return (itself, { h with graph := h.graph.collapse o.mem })
  match h.fields.cell? root slot with
  | some objs => return (objs, h)
  | none =>
    let ty ← h.slotType types base baseTy isArray offset root slot
    let h ← h.makeField base root slot ty
    return (h.fields.setAt root slot, h)

/-! ### Labels -/

/-- Adds to a set what an object of a label brings along: its prototype with all clones, the fields
    of its allocation at its own offset, and everything in a field-insensitive allocation. -/
def expandBy (expanded : IdSet) (obj : NodeId) : Except Fault IdSet := do
  let prototype := h.prototype obj
  let expanded := ((expanded.insert prototype).2.union (h.clones.setAt prototype)).2
  let o ← h.graph.obj obj
  let expanded := match o.kind with
    | .field _ offset => (expanded.union (h.memFields.setAt o.mem offset)).2
    | _ => expanded
  if (h.graph.mem o.mem).fieldInsensitive then
    return (expanded.union (h.memObjects.setAt o.mem)).2
  return expanded

/-- The objects whose contents flow along an edge with this label. -/
def expand (label : IdSet) : Except Fault IdSet := label.toList.foldlM h.expandBy label

end Heap

end PointsTo
