import PointsTo.Graph.Edge

/-! Sparse value-flow graphs.

    A direct edge leads from each statement that defines a value to each statement that uses it; the
    direct edges are wired while statements are added. An indirect edge carries the contents of the
    objects in its label from one statement to another. Between two statements there is at most one
    edge of each sort. -/

namespace PointsTo

/-- A value-flow graph. -/
structure Graph where
  nodes : Array Node := #[]
  mems : Array Memory := #[]
  edges : EdgeTable := {}
  /-- The nodes of values and whole objects by name; the last one of a name counts. -/
  names : Std.TreeMap String NodeId := ∅
  /-- All statements in the order of their addition. -/
  stmts : Array NodeId := #[]
  /-- All objects in the order of their creation. -/
  objects : Array NodeId := #[]
  blackHole? : Option NodeId := none
  constant? : Option NodeId := none
  /-- The statements that define a value. -/
  definers : Std.TreeMap NodeId (List NodeId) := ∅
  /-- The statements that use a value. -/
  readers : Std.TreeMap NodeId (List NodeId) := ∅
  /-- What values point to from the start. -/
  seeds : Array (NodeId × NodeId) := #[]

namespace Graph

/-- The graph without nodes. -/
def empty : Graph := {}

instance : EmptyCollection Graph := ⟨empty⟩
instance : Inhabited Graph := ⟨empty⟩

variable (g : Graph)

/-! ### Nodes -/

/-- The node at a place. -/
def node (id : NodeId) : Except Fault Node :=
  match g.nodes[id]? with
  | some n => .ok n
  | none => .error (.noNode id)

/-- The name of the value at a place. -/
def value (id : NodeId) : Except Fault String := do
  match ← g.node id with
  | .value name => return name
  | n => throw (.wrongClass id .value n.text)

/-- The object at a place. -/
def obj (id : NodeId) : Except Fault ObjNode := do
  match ← g.node id with
  | .object o => return o
  | n => throw (.wrongClass id .object n.text)

/-- The statement at a place. -/
def stmt (id : NodeId) : Except Fault StmtNode := do
  match ← g.node id with
  | .stmt s => return s
  | n => throw (.wrongClass id .stmt n.text)

/-- Is there a value at the place? -/
def isValue (id : NodeId) : Bool :=
  match g.nodes[id]? with
  | some (.value _) => true
  | _ => false

/-- Is there an object at the place? -/
def isObject (id : NodeId) : Bool :=
  match g.nodes[id]? with
  | some (.object _) => true
  | _ => false

/-- Is there a statement at the place? -/
def isStmt (id : NodeId) : Bool :=
  match g.nodes[id]? with
  | some (.stmt _) => true
  | _ => false

/-- The values in the order of their addition. -/
def values : List NodeId := (List.range g.nodes.size).filter g.isValue

/-- The allocation at a place. -/
def mem (id : MemId) : Memory := g.mems.getD id default

/-- The statements that define a value. -/
def defs (v : NodeId) : List NodeId := g.definers.getD v []

/-- The statements that use a value. -/
def users (v : NodeId) : List NodeId := g.readers.getD v []

/-- Appends a node. -/
def addNode (n : Node) : NodeId × Graph := (g.nodes.size, { g with nodes := g.nodes.push n })

/-- Binds a name to a node. -/
def bind (name : String) (id : NodeId) : Graph := { g with names := g.names.insert name id }

/-- Adds a value. -/
def addValue (name : String) : NodeId × Graph :=
  let (id, g) := g.addNode (.value name)
  (id, g.bind name id)

/-- Adds an object of an allocation that is there. -/
def addObjNode (o : ObjNode) : NodeId × Graph :=
  let (id, g) := g.addNode (.object o)
  (id, { g with objects := g.objects.push id })

/-- Adds an allocation and its whole object. -/
def addRoot (m : Memory) (kind : ObjKind) : NodeId × Graph :=
  let mem := g.mems.size
  let (id, g) := addObjNode { g with mems := g.mems.push m } { kind, mem, name := m.name }
  (id, g.bind m.name id)

/-- Adds an object for the whole of an allocation. -/
def addObject (m : Memory) : NodeId × Graph := g.addRoot m .base

/-- Adds a placeholder. -/
def addDummy (name : String) (ty : Option TypeId) : NodeId × Graph :=
  g.addRoot { name, alloc := .special, ty } .dummy

/-- The black hole, added when it is first asked for. -/
def blackHole : NodeId × Graph :=
  match g.blackHole? with
  | some id => (id, g)
  | none =>
    let (id, g) := g.addRoot { name := "blackhole", alloc := .special, fieldInsensitive := true }
      (.special .blackHole)
    (id, { g with blackHole? := some id })

/-- The constant object, added when it is first asked for. -/
def constant : NodeId × Graph :=
  match g.constant? with
  | some id => (id, g)
  | none =>
    let (id, g) := g.addRoot { name := "constant", alloc := .constant, fieldInsensitive := true }
      (.special .constant)
    (id, { g with constant? := some id })

/-- Adds the object of a field. -/
def addField (base : NodeId) (offset : Nat) : Except Fault (NodeId × Graph) := do
  let o ← g.obj base
  return g.addObjNode
    { kind := .field base offset, mem := o.mem, name := o.name ++ "." ++ toString offset }

/-- Adds an object of the same kind and allocation as another one. -/
def addCloneOf (obj : NodeId) : Except Fault (NodeId × Graph) := do
  return g.addObjNode (← g.obj obj)

/-- Stops telling the fields of an allocation apart. -/
def collapse (id : MemId) : Graph :=
  { g with mems := g.mems.modify id fun m => { m with fieldInsensitive := true } }

/-! ### Edges -/

/-- The place of the edge of a sort between two nodes. -/
def findEdge? (src dst : NodeId) (direct : Bool) : Option Nat := g.edges.find? src dst direct

/-- Appends an edge. -/
def pushEdge (e : Edge) : Nat × Graph := (g.edges.all.size, { g with edges := g.edges.push e })

/-- Adds a direct edge, unless it is there, between nodes that are there. -/
def linkDirect (src dst : NodeId) : Option Nat × Graph :=
  match g.findEdge? src dst true with
  | some _ => (none, g)
  | none =>
    let (id, g) := g.pushEdge ⟨src, dst, .direct⟩
    (some id, g)

/-- Adds objects to what flows from one statement to another. -/
def linkIndirect (src dst : NodeId) (objs : List NodeId) : Nat × Graph :=
  match g.findEdge? src dst false with
  | some id => (id, { g with edges := g.edges.extend id objs })
  | none => g.pushEdge ⟨src, dst, .indirect (.ofList objs)⟩

/-- Adds objects to what flows from one node to another, if both are statements. -/
def addIndirect (src dst : NodeId) (objs : List NodeId) : Except Fault (Nat × Graph) :=
  if g.isStmt src && g.isStmt dst then .ok (g.linkIndirect src dst objs)
  else .error .edgeOutsideStatements

/-- The ends of the direct edges that leave a node, in the order of the edges. -/
def directSuccessors (id : NodeId) : List NodeId := g.edges.directEnds id

/-- The ends and labels of the indirect edges that leave a node, in the order of the edges. -/
def indirectSuccessors (id : NodeId) : List (NodeId × IdSet) := g.edges.indirectEnds id

/-- The number of indirect edges. -/
def numIndirect : Nat := g.edges.indirectOut.count

/-! ### Statements -/

/-- Records that a statement uses a value, after wiring it to the value's definitions. -/
def wireUse (stmt : NodeId) (g : Graph) (v : NodeId) : Graph :=
  let g := (g.defs v).foldl (fun g d => (g.linkDirect d stmt).2) g
  let users := g.users v
  if users.contains stmt then g
  else { g with readers := g.readers.insert v (users ++ [stmt]) }

/-- Records that a statement defines a value, after wiring it to the value's uses. -/
def wireDef (stmt : NodeId) (g : Graph) (v : NodeId) : Graph :=
  let g := (g.users v).foldl (fun g u => (g.linkDirect stmt u).2) g
  { g with definers := g.definers.insert v (g.defs v ++ [stmt]) }

/-- Adds a statement and its direct edges. -/
def addStmt (kind : StmtKind) (ty : Option TypeId) : NodeId × Graph :=
  let (id, g) := g.addNode (.stmt ⟨kind, ty⟩)
  let g := { g with stmts := g.stmts.push id }
  let g := kind.uses.foldl (wireUse id) g
  (id, kind.target?.toList.foldl (wireDef id) g)

/-- Records that a value points to an object from the start. -/
def seed (value obj : NodeId) : Graph := { g with seeds := g.seeds.push (value, obj) }

end Graph

end PointsTo
