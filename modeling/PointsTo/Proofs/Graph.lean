import Mathlib.Data.List.Nodup
import PointsTo.Graph.Basic

/-! Value-flow graphs: what their nodes are, and how an analysis may change them.

    An analysis appends objects and stops telling the fields of allocations apart; `Grows` says that
    it does nothing else. `WellFormed` is what the analysis relies on: operands are nodes of the right
    class, and every statement that reads a value is wired to every statement that defines it. -/

namespace PointsTo

namespace StmtKind

/-- The value whose objects the statement accesses, if it is one that judges or hides objects. -/
def pointer? : StmtKind → Option NodeId
  | .gep base _ _ => some base
  | .load ptr _ => some ptr
  | .store _ ptr => some ptr
  | .phi _ operands => operands.head?
  | .addr _ _ | .copy _ _ _ => none

theorem pointer?_mem_uses {k : StmtKind} {v : NodeId} (h : k.pointer? = some v) : v ∈ k.uses := by
  cases k with
  | addr obj dst => cases h
  | copy src dst init => cases h
  | gep base dst offset => simp only [pointer?, Option.some.injEq] at h; simp [uses, h]
  | load ptr dst => simp only [pointer?, Option.some.injEq] at h; simp [uses, h]
  | store src ptr => simp only [pointer?, Option.some.injEq] at h; simp [uses, h]
  | phi dst operands => exact List.mem_of_head? h

end StmtKind

/-- The allocation as if its fields were told apart. -/
def Memory.uncollapsed (m : Memory) : Memory := { m with fieldInsensitive := false }

namespace Graph

/-! ### Nodes -/

theorem obj_eq_ok {g : Graph} {id : NodeId} {o : ObjNode} :
    g.obj id = .ok o ↔ g.nodes[id]? = some (.object o) := by
  rw [obj, node]
  cases g.nodes[id]? with
  | none => simp [Bind.bind, Except.bind]
  | some m =>
    cases m <;> simp [Bind.bind, Except.bind, pure, Except.pure, throw, throwThe, MonadExceptOf.throw]

theorem stmt_eq_ok {g : Graph} {id : NodeId} {n : StmtNode} :
    g.stmt id = .ok n ↔ g.nodes[id]? = some (.stmt n) := by
  rw [stmt, node]
  cases g.nodes[id]? with
  | none => simp [Bind.bind, Except.bind]
  | some m =>
    cases m <;> simp [Bind.bind, Except.bind, pure, Except.pure, throw, throwThe, MonadExceptOf.throw]

theorem isValue_iff {g : Graph} {id : NodeId} :
    g.isValue id = true ↔ ∃ name, g.nodes[id]? = some (.value name) := by
  rw [isValue]
  cases g.nodes[id]? with
  | none => simp
  | some m => cases m <;> simp

theorem lt_size_of_getElem? {g : Graph} {id : NodeId} {n : Node} (h : g.nodes[id]? = some n) :
    id < g.nodes.size :=
  (Array.getElem?_eq_some_iff.mp h).1

theorem obj_lt_size {g : Graph} {id : NodeId} {o : ObjNode} (h : g.obj id = .ok o) :
    id < g.nodes.size :=
  lt_size_of_getElem? (obj_eq_ok.mp h)

/-- Is there an object at the place, whatever it is? -/
def HasObj (g : Graph) (id : NodeId) : Prop := ∃ o, g.obj id = .ok o

theorem HasObj.lt_size {g : Graph} {id : NodeId} (h : g.HasObj id) : id < g.nodes.size :=
  obj_lt_size h.choose_spec

/-! ### Growth -/

/-- `g'` is `g` with more objects, and with allocations whose fields are no longer told apart. -/
structure Grows (g g' : Graph) : Prop where
  nodes : ∀ {id : NodeId} {n}, g.nodes[id]? = some n → g'.nodes[id]? = some n
  fresh : ∀ {id : NodeId} {n}, g'.nodes[id]? = some n → g.nodes.size ≤ id → ∃ o, n = .object o
  numMems : g'.mems.size = g.mems.size
  mem : ∀ m, (g'.mem m).uncollapsed = (g.mem m).uncollapsed
  collapsed : ∀ {m}, (g.mem m).fieldInsensitive = true → (g'.mem m).fieldInsensitive = true
  edges : g'.edges = g.edges
  stmts : g'.stmts = g.stmts
  readers : g'.readers = g.readers
  seeds : g'.seeds = g.seeds

namespace Grows

variable {g g' g'' : Graph}

theorem refl (g : Graph) : g.Grows g where
  nodes h := h
  fresh h hle := absurd (lt_size_of_getElem? h) (Nat.not_lt.mpr hle)
  numMems := rfl
  mem _ := rfl
  collapsed h := h
  edges := rfl
  stmts := rfl
  readers := rfl
  seeds := rfl

theorem trans (h : g.Grows g') (h' : g'.Grows g'') : g.Grows g'' where
  nodes hn := h'.nodes (h.nodes hn)
  fresh := by
    intro id n hn hle
    rcases Nat.lt_or_ge id g'.nodes.size with hlt | hge
    · -- A node of `g'` is the same node in `g''`.
      obtain ⟨n', hn'⟩ : ∃ n', g'.nodes[id]? = some n' := ⟨_, Array.getElem?_eq_getElem hlt⟩
      have hsame := h'.nodes hn'
      rw [hn] at hsame
      injection hsame with hsame
      obtain ⟨o, ho⟩ := h.fresh hn' hle
      exact ⟨o, hsame.trans ho⟩
    · exact h'.fresh hn hge
  numMems := h'.numMems.trans h.numMems
  mem m := (h'.mem m).trans (h.mem m)
  collapsed hc := h'.collapsed (h.collapsed hc)
  edges := h'.edges.trans h.edges
  stmts := h'.stmts.trans h.stmts
  readers := h'.readers.trans h.readers
  seeds := h'.seeds.trans h.seeds

theorem obj (h : g.Grows g') {id : NodeId} {o : ObjNode} (ho : g.obj id = .ok o) :
    g'.obj id = .ok o :=
  obj_eq_ok.mpr (h.nodes (obj_eq_ok.mp ho))

theorem hasObj (h : g.Grows g') {id : NodeId} (ho : g.HasObj id) : g'.HasObj id :=
  ⟨_, h.obj ho.choose_spec⟩

theorem stmt (h : g.Grows g') {id : NodeId} {n : StmtNode} (hn : g.stmt id = .ok n) :
    g'.stmt id = .ok n :=
  stmt_eq_ok.mpr (h.nodes (stmt_eq_ok.mp hn))

/-- An object of the grown graph is an old one or comes after all old nodes. -/
theorem obj_cases (h : g.Grows g') {id : NodeId} {o : ObjNode} (ho : g'.obj id = .ok o) :
    g.obj id = .ok o ∨ g.nodes.size ≤ id := by
  rcases Nat.lt_or_ge id g.nodes.size with hlt | hge
  · left
    obtain ⟨n, hn⟩ : ∃ n, g.nodes[id]? = some n := ⟨_, Array.getElem?_eq_getElem hlt⟩
    have hsame := h.nodes hn
    rw [obj_eq_ok.mp ho] at hsame
    injection hsame with hsame
    rw [obj_eq_ok, hn, hsame]
  · exact Or.inr hge

theorem users (h : g.Grows g') (v : NodeId) : g'.users v = g.users v := by
  rw [Graph.users, Graph.users, h.readers]

theorem directSuccessors (h : g.Grows g') (id : NodeId) :
    g'.directSuccessors id = g.directSuccessors id := by
  rw [Graph.directSuccessors, Graph.directSuccessors, h.edges]

theorem indirectSuccessors (h : g.Grows g') (id : NodeId) :
    g'.indirectSuccessors id = g.indirectSuccessors id := by
  rw [Graph.indirectSuccessors, Graph.indirectSuccessors, h.edges]

theorem isArray (h : g.Grows g') (m : MemId) : (g'.mem m).isArray = (g.mem m).isArray := by
  have hm := congrArg Memory.isArray (h.mem m)
  exact hm

theorem alloc (h : g.Grows g') (m : MemId) : (g'.mem m).alloc = (g.mem m).alloc := by
  have hm := congrArg Memory.alloc (h.mem m)
  exact hm

theorem inRecursion (h : g.Grows g') (m : MemId) : (g'.mem m).inRecursion = (g.mem m).inRecursion := by
  have hm := congrArg Memory.inRecursion (h.mem m)
  exact hm

end Grows

/-! ### The two ways to grow -/

theorem getElem?_addObjNode (g : Graph) (o : ObjNode) (id : NodeId) :
    (g.addObjNode o).2.nodes[id]? =
      if id = g.nodes.size then some (.object o) else g.nodes[id]? := by
  simp [addObjNode, addNode, Array.getElem?_push]

theorem grows_addObjNode (g : Graph) (o : ObjNode) : g.Grows (g.addObjNode o).2 where
  nodes := by
    intro id n hn
    have hne : id ≠ g.nodes.size := Nat.ne_of_lt (lt_size_of_getElem? hn)
    rw [getElem?_addObjNode, if_neg hne, hn]
  fresh := by
    intro id n hn hle
    rw [getElem?_addObjNode] at hn
    split at hn
    · injection hn with hn
      exact ⟨o, hn.symm⟩
    · exact absurd (lt_size_of_getElem? hn) (Nat.not_lt.mpr hle)
  numMems := rfl
  mem _ := rfl
  collapsed h := h
  edges := rfl
  stmts := rfl
  readers := rfl
  seeds := rfl

theorem obj_addObjNode_self (g : Graph) (o : ObjNode) :
    (g.addObjNode o).2.obj g.nodes.size = .ok o := by
  rw [obj_eq_ok, getElem?_addObjNode, if_pos rfl]

theorem obj_addObjNode {g : Graph} {o : ObjNode} {id : NodeId} {o' : ObjNode} :
    (g.addObjNode o).2.obj id = .ok o' ↔
      (id = g.nodes.size ∧ o' = o) ∨ g.obj id = .ok o' := by
  rw [obj_eq_ok, getElem?_addObjNode, obj_eq_ok]
  by_cases h : id = g.nodes.size
  · subst h
    simp [eq_comm]
  · simp [h]

theorem mem_collapse (g : Graph) (id m : MemId) :
    (g.collapse id).mem m =
      if m = id ∧ id < g.mems.size then { g.mem m with fieldInsensitive := true } else g.mem m := by
  simp only [mem, collapse, Array.getD_eq_getD_getElem?, Array.getElem?_modify]
  by_cases h : id = m
  · subst h
    by_cases hlt : id < g.mems.size
    · simp [hlt]
    · simp [hlt]
  · simp [h, Ne.symm h]

theorem mem_collapse_self {g : Graph} {m : MemId} (hm : m < g.mems.size) :
    ((g.collapse m).mem m).fieldInsensitive = true := by
  rw [mem_collapse, if_pos ⟨rfl, hm⟩]

theorem grows_collapse (g : Graph) (id : MemId) : g.Grows (g.collapse id) where
  nodes h := h
  fresh h hle := absurd (lt_size_of_getElem? h) (Nat.not_lt.mpr hle)
  numMems := by simp [collapse]
  mem m := by
    rw [mem_collapse]
    split <;> rfl
  collapsed := by
    intro m hm
    rw [mem_collapse]
    split
    · rfl
    · exact hm
  edges := rfl
  stmts := rfl
  readers := rfl
  seeds := rfl

@[simp] theorem obj_collapse (g : Graph) (id : MemId) (x : NodeId) : (g.collapse id).obj x = g.obj x := rfl

/-! ### Well-formed graphs -/

/-- What an analysis relies on in the graph it starts from. -/
structure WellFormed (g : Graph) : Prop where
  stmt : ∀ {st}, st ∈ g.stmts.toList → ∃ n, g.stmt st = .ok n
  uses : ∀ {st n v}, st ∈ g.stmts.toList → g.stmt st = .ok n → v ∈ n.kind.uses →
    g.isValue v = true ∧ st ∈ g.users v
  target : ∀ {st n v}, st ∈ g.stmts.toList → g.stmt st = .ok n → n.kind.target? = some v →
    g.isValue v = true ∧ ∀ u ∈ g.users v, u ∈ g.directSuccessors st
  addr : ∀ {st n obj dst}, st ∈ g.stmts.toList → g.stmt st = .ok n → n.kind = .addr obj dst →
    g.HasObj obj
  users : ∀ {v u}, u ∈ g.users v → u ∈ g.stmts.toList
  direct : ∀ {st u}, u ∈ g.directSuccessors st → u ∈ g.stmts.toList
  indirect : ∀ {st t label}, (t, label) ∈ g.indirectSuccessors st →
    t ∈ g.stmts.toList ∧ ∀ l ∈ label, g.HasObj l
  seeds : ∀ {v o}, (v, o) ∈ g.seeds.toList → g.isValue v = true ∧ g.HasObj o
  objects : ∀ {id}, id ∈ g.objects.toList ↔ g.HasObj id
  objects_nodup : g.objects.toList.Nodup
  whole : ∀ {id o}, g.obj id = .ok o → o.isField = false
  mem : ∀ {id o}, g.obj id = .ok o → o.mem < g.mems.size
  memInj : ∀ {a b o o'}, g.obj a = .ok o → g.obj b = .ok o' → o.mem = o'.mem → a = b
  foreign : ∀ {id o}, g.obj id = .ok o → o.isSpecial = true → (g.mem o.mem).fieldInsensitive = true

end Graph

end PointsTo
