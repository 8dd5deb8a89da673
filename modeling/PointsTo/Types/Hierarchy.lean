import PointsTo.Types.Layout

/-! The type hierarchy.

    Its nodes are the representatives of a table. An inheritance edge goes from each base class to
    the class that names it, a first-field edge from the type of a record's first proper field to the
    record. One type is a base of another if the second can be reached from the first: a pointer to
    the first may then view an object of the second. -/

namespace PointsTo

/-- Why one type is a part of another that starts where it starts. -/
inductive EdgeKind where | inheritance | firstField
  deriving DecidableEq, Repr

/-- An edge from a part to its whole. -/
structure HierarchyEdge where
  src : TypeId
  dst : TypeId
  kind : EdgeKind
  deriving DecidableEq, Repr

/-- A table with everything the analysis asks about its types. -/
structure Hierarchy where
  table : TypeTable
  canonicals : Canonicals
  edges : List HierarchyEdge
  /-- What is reached over inheritance edges. -/
  derived : IdTable
  /-- What is reached over edges of both kinds. -/
  extended : IdTable
  fields : FieldTable
  aggregates : IdTable

namespace Hierarchy

/-- The edges into a representative: one for each base class, one for the first field. A type is
    never its own part. -/
def edgesInto (table : TypeTable) (c : Canonicals) (ty : TypeId) : List HierarchyEdge :=
  match (table.get? ty).map TypeDesc.kind with
  | some (.record _ members) =>
    let bases := Layout.memberTypes c (members.filter (·.inheritance))
    let first := Layout.memberTypes c (members.find? (!·.inheritance)).toList
    let edges := bases.map (HierarchyEdge.mk · ty .inheritance) ++
      first.map (HierarchyEdge.mk · ty .firstField)
    edges.filter (·.src ≠ ty)
  | _ => []

/-- Adds the ends of all edges that start in a set. -/
def reachStep (edges : List HierarchyEdge) (s : IdSet) : IdSet :=
  edges.foldl (fun s e => if s.contains e.src then (s.insert e.dst).2 else s) s

/-- Adds ends of edges for a number of rounds. -/
def reachRounds (edges : List HierarchyEdge) : Nat → IdSet → IdSet
  | 0, s => s
  | n + 1, s => reachRounds edges n (reachStep edges s)

/-- What is reached from a type. Every round that adds something uses up an edge, so there are no
    more of them than edges. -/
def reach (edges : List HierarchyEdge) (ty : TypeId) : IdSet :=
  reachRounds edges edges.length (IdSet.ofList [ty])

/-- What is reached from each type of a list. -/
def reachAll (edges : List HierarchyEdge) (tys : List TypeId) : IdTable :=
  tys.foldl (fun t ty => t.insert ty (reach edges ty)) ∅

/-- The hierarchy of a table. -/
def ofTable (table : TypeTable) : Except Fault Hierarchy := do
  let c ← Canonicals.ofTable table
  let edges := c.reps.flatMap (edgesInto table c)
  return {
    table
    canonicals := c
    edges
    derived := reachAll (edges.filter (·.kind = .inheritance)) c.reps
    extended := reachAll edges c.reps
    fields := Layout.flattenAll table c c.reps
    aggregates := Layout.nestedAll table c c.reps }

/-- The hierarchy without types, in which every type is undefined. -/
def empty : Hierarchy := ⟨∅, .empty, [], ∅, ∅, ∅, ∅⟩

instance : Inhabited Hierarchy := ⟨empty⟩

variable (h : Hierarchy)

/-- The canonical type; none for `void` and undefined types. -/
def canonical (ty : Option TypeId) : Option TypeId := h.canonicals.canonical ty

/-- The descriptor of a type's canonical type. -/
def desc? (ty : Option TypeId) : Option TypeDesc := (h.canonical ty).bind h.table.get?

/-- Is `b` reached from `a`, over first-field edges too if `ext` is set? -/
def isBase (a b : Option TypeId) (ext : Bool) : Bool :=
  match h.canonical a, h.canonical b with
  | none, none => true
  | some a, some b => a == b || ((if ext then h.extended else h.derived).setAt a).contains b
  | _, _ => false

/-- The types of the flattened fields; those of an undefined type are none. -/
def fieldTypes (ty : Option TypeId) : List TypeId :=
  match h.canonical ty with
  | some t => h.fields.getD t []
  | none => []

/-- The type of the flattened field at an offset. -/
def fieldType (ty : Option TypeId) (offset : Nat) : Option TypeId := (h.fieldTypes ty)[offset]?

/-- The number of flattened fields. -/
def numFields (ty : Option TypeId) : Nat := (h.fieldTypes ty).length

/-- The aggregates nested in a type, if the type is defined. -/
def nested? (ty : Option TypeId) : Option IdSet := (h.canonical ty).bind fun t => h.aggregates[t]?

/-- Is the type made up of others? -/
def isAggregate (ty : Option TypeId) : Bool := (h.desc? ty).any TypeDesc.isAggregate

/-- Is the type an array? -/
def isArray (ty : Option TypeId) : Bool := (h.desc? ty).any TypeDesc.isArray

/-- Is the type a pointer or a reference? -/
def isAddress (ty : Option TypeId) : Bool := (h.desc? ty).any TypeDesc.isAddress

/-- The canonical element type of an array. -/
def elementType (ty : Option TypeId) : Option TypeId :=
  match (h.desc? ty).map TypeDesc.kind with
  | some (.array element _) => h.canonical (some element)
  | _ => none

/-- The canonical target type of a pointer or reference. -/
def targetType (ty : Option TypeId) : Option TypeId :=
  match (h.desc? ty).map TypeDesc.kind with
  | some (.address _ target) => h.canonical target
  | _ => none

/-- The number of edges of a kind. -/
def numEdges (kind : EdgeKind) : Nat := h.edges.countP (·.kind = kind)

/-! ### Names -/

/-- The text of a place. -/
def placeText (id : TypeId) : String := "T" ++ toString id

/-- The name of a type up to `fuel` links. -/
def nameUpTo (table : TypeTable) : Nat → Option TypeId → String
  | 0, _ => ""
  | _ + 1, none => "void"
  | fuel + 1, some id =>
    match table.get? id with
    | none => placeText id
    | some d =>
      match d.kind with
      | .address .pointer target => nameUpTo table fuel target ++ "*"
      | .address .reference target => nameUpTo table fuel target ++ "&"
      | .address .rvalueReference target => nameUpTo table fuel target ++ "&&"
      | .array element count =>
        nameUpTo table fuel (some element) ++ "[" ++ (count.map toString).getD "" ++ "]"
      | .qualified .const base => d.name.getD ("const " ++ nameUpTo table fuel base)
      | .qualified .volatile base => d.name.getD ("volatile " ++ nameUpTo table fuel base)
      | _ => d.name.getD (placeText id)

/-- The name of a type, spelled out from the types it refers to. -/
def typeName (ty : Option TypeId) : String := nameUpTo h.table (h.table.size + 2) ty

end Hierarchy

end PointsTo
