import PointsTo.Proofs.Delivers
import PointsTo.Proofs.Wiring

/-! Graphs that are built operation by operation.

    Values, objects, statements and indirect edges are added in any order, and each operation is
    logged with the node or edge that it gave. The edges of the graph follow from what is in the log,
    wherever it stands there: a direct edge from every definition of a value to every use, and for two
    statements one indirect edge with all the objects that were named for them. -/

namespace PointsTo

/-- An operation that adds to a graph. -/
inductive BuildOp where
  | value (name : String)
  | object (m : Memory)
  | dummy (name : String) (ty : Option TypeId)
  | blackHole
  | constant
  | field (base : NodeId) (offset : Nat)
  | clone (obj : NodeId)
  | stmt (kind : StmtKind) (ty : Option TypeId)
  | indirect (src dst : NodeId) (objs : List NodeId)

namespace BuildOp

/-- The node or edge that an operation gives, and the graph with it. -/
def perform (g : Graph) : BuildOp → Except Fault (Nat × Graph)
  | .value name => .ok (g.addValue name)
  | .object m => .ok (g.addObject m)
  | .dummy name ty => .ok (g.addDummy name ty)
  | .blackHole => .ok g.blackHole
  | .constant => .ok g.constant
  | .field base offset => g.addField base offset
  | .clone obj => g.addCloneOf obj
  | .stmt kind ty => .ok (g.addStmt kind ty)
  | .indirect src dst objs => g.addIndirect src dst objs

/-- Are the nodes of the right class that the operation refers to as objects or as statements? -/
def Fits (g : Graph) : BuildOp → Prop
  | .field base _ => g.HasObj base
  | .clone obj => g.HasObj obj
  | .indirect src dst _ => (∃ n, g.stmt src = .ok n) ∧ ∃ n, g.stmt dst = .ok n
  | _ => True

/-- Operations with what they gave, in order. -/
abbrev Log := List (BuildOp × Nat)

/-- Performs an operation and logs it. -/
def performLogged (r : Log × Graph) (op : BuildOp) : Except Fault (Log × Graph) := do
  let (id, g) ← op.perform r.2
  return (r.1 ++ [(op, id)], g)

/-- Builds a graph from nothing. -/
def performAll (ops : List BuildOp) : Except Fault (Log × Graph) :=
  ops.foldlM performLogged ([], ∅)

end BuildOp

/-- The ends of an edge and its sort. -/
def Edge.key (e : Edge) : NodeId × NodeId × Bool := (e.src, e.dst, e.flow.isDirect)

namespace Graph

variable {g g' g'' : Graph} {s t a b : NodeId} {i j : Nat} {label : IdSet} {objs : List NodeId}

/-! ### One edge of each sort -/

/-- Is there at most one edge of each sort from one node to another? -/
def Simple (g : Graph) : Prop := (g.edges.all.toList.map Edge.key).Nodup

theorem Simple.place_eq (hg : g.Simple) {e e' : Edge} (hi : g.edges.all[i]? = some e)
    (hj : g.edges.all[j]? = some e') (hkey : e.key = e'.key) : i = j := by
  rw [← Array.getElem?_toList] at hi hj
  refine (List.getElem?_inj ?_ hg).mp ?_
  · rw [List.length_map]
    exact (List.getElem?_eq_some_iff.mp hi).1
  · rw [List.getElem?_map, List.getElem?_map, hi, hj, Option.map_some, Option.map_some, hkey]

theorem key_notMem_of_findEdge? {direct : Bool} (hfind : g.findEdge? s t direct = none) :
    (s, t, direct) ∉ g.edges.all.toList.map Edge.key := by
  rw [findEdge?, EdgeTable.find?, Array.findIdx?_eq_none_iff] at hfind
  rintro hmem
  obtain ⟨e, he, hkey⟩ := List.mem_map.mp hmem
  have hne := hfind e (Array.mem_toList_iff.mp he)
  simp only [Edge.key, Prod.mk.injEq] at hkey
  simp [hkey] at hne

/-- An edge is added where there is none of its sort. -/
theorem Simple.push (hg : g.Simple) {e : Edge} (hkey : e.key ∉ g.edges.all.toList.map Edge.key) :
    Simple { g with edges := g.edges.push e } := by
  unfold Simple
  rw [EdgeTable.all_push, Array.toList_push, List.map_append, List.map_singleton,
    ← List.concat_eq_append]
  exact List.Nodup.concat hkey hg

/-! ### Adding a statement -/

/-- Only direct edges were added, and no statement was listed twice among the users of a value. -/
structure Rewired (g g' : Graph) : Prop where
  appended : ∃ D : List Edge, g'.edges.all.toList = g.edges.all.toList ++ D ∧ ∀ e ∈ D, e.flow = .direct
  simple : g.Simple → g'.Simple
  users : (∀ v, (g.users v).Nodup) → ∀ v, (g'.users v).Nodup

theorem Rewired.of_eq (hedges : g'.edges = g.edges) (hreaders : g'.readers = g.readers) :
    Rewired g g' where
  appended := ⟨[], by rw [hedges, List.append_nil], fun e he => absurd he List.not_mem_nil⟩
  simple hg := by
    unfold Simple
    rw [hedges]
    exact hg
  users hg v := by
    rw [Graph.users, hreaders]
    exact hg v

theorem Rewired.trans (h : Rewired g g') (h' : Rewired g' g'') : Rewired g g'' where
  appended := by
    obtain ⟨D, hD, hdirect⟩ := h.appended
    obtain ⟨D', hD', hdirect'⟩ := h'.appended
    refine ⟨D ++ D', by rw [hD', hD, List.append_assoc], fun e he => ?_⟩
    exact (List.mem_append.mp he).elim (hdirect e) (hdirect' e)
  simple hg := h'.simple (h.simple hg)
  users hg := h'.users (h.users hg)

theorem Rewired.foldl {α : Type} {f : Graph → α → Graph} (hf : ∀ g a, Rewired g (f g a)) (xs : List α)
    (g : Graph) : Rewired g (xs.foldl f g) := by
  induction xs generalizing g with
  | nil => exact .of_eq rfl rfl
  | cons x xs ih => exact (hf g x).trans (ih (f g x))

theorem rewired_linkDirect (g : Graph) (s t : NodeId) : Rewired g (g.linkDirect s t).2 := by
  unfold linkDirect
  cases hfind : g.findEdge? s t true with
  | some _ => exact .of_eq rfl rfl
  | none =>
    have happended : (g.edges.push ⟨s, t, .direct⟩).all.toList =
        g.edges.all.toList ++ [⟨s, t, .direct⟩] := by
      rw [EdgeTable.all_push, Array.toList_push]
    refine ⟨⟨_, happended, fun e he => ?_⟩,
      fun hg => hg.push (key_notMem_of_findEdge? hfind), fun hg => hg⟩
    rw [List.mem_singleton.mp he]

theorem rewired_wireUse (st : NodeId) (g : Graph) (v : NodeId) : Rewired g (wireUse st g v) := by
  unfold wireUse
  refine (Rewired.foldl (fun g d => rewired_linkDirect g d st) (g.defs v) g).trans ?_
  dsimp only
  split
  case isTrue => exact .of_eq rfl rfl
  case isFalse hnew =>
    refine ⟨(Rewired.of_eq rfl rfl).appended, fun hg => hg, fun hg w => ?_⟩
    rw [users, Std.TreeMap.getD_insert]
    split
    · rw [← List.concat_eq_append]
      exact List.Nodup.concat (by simpa using hnew) (hg v)
    · exact hg w

theorem rewired_wireDef (st : NodeId) (g : Graph) (v : NodeId) : Rewired g (wireDef st g v) :=
  (Rewired.foldl (fun g u => rewired_linkDirect g st u) (g.users v) g).trans (.of_eq rfl rfl)

theorem rewired_addStmt (g : Graph) (kind : StmtKind) (ty : Option TypeId) :
    Rewired g (g.addStmt kind ty).2 := by
  let g₁ : Graph := { g with
    nodes := g.nodes.push (.stmt ⟨kind, ty⟩), stmts := g.stmts.push g.nodes.size }
  have hnode : Rewired g g₁ := .of_eq rfl rfl
  have huses := Rewired.foldl (rewired_wireUse g.nodes.size) kind.uses g₁
  exact (hnode.trans huses).trans (Rewired.foldl (rewired_wireDef g.nodes.size) kind.target?.toList _)

theorem Rewired.indirect_iff (h : Rewired g g') : g'.edges.all[i]? = some ⟨s, t, .indirect label⟩ ↔
    g.edges.all[i]? = some ⟨s, t, .indirect label⟩ := by
  obtain ⟨D, hD, hdirect⟩ := h.appended
  rw [← Array.getElem?_toList, ← Array.getElem?_toList, hD, List.getElem?_append]
  split
  case isTrue => exact Iff.rfl
  case isFalse hge =>
    rw [List.getElem?_eq_none (Nat.le_of_not_lt hge)]
    refine ⟨fun he => ?_, fun he => by cases he⟩
    have hflow := hdirect _ (List.mem_of_getElem? he)
    cases hflow

/-- A statement is listed last among the definitions of the value that it defines. -/
theorem defs_addStmt (hx : g.edges.Indexed) (kind : StmtKind) (ty : Option TypeId) (v : NodeId) :
    (g.addStmt kind ty).2.defs v =
      if kind.target? = some v then g.defs v ++ [g.nodes.size] else g.defs v := by
  let g₁ : Graph := { g with
    nodes := g.nodes.push (.stmt ⟨kind, ty⟩), stmts := g.stmts.push g.nodes.size }
  obtain ⟨E, R, huses, hlinked, -⟩ := foldl_wireUse (g := g₁) hx g.nodes.size kind.uses
  have heq : (g.addStmt kind ty).2 =
      kind.target?.toList.foldl (wireDef g.nodes.size) { g₁ with edges := E, readers := R } := by
    rw [← huses]; rfl
  rw [heq]
  cases htarget : kind.target? with
  | none => rfl
  | some w =>
    obtain ⟨E', hlinks, -⟩ := foldl_linkDirect (g := { g₁ with edges := E, readers := R })
      (fun u => (g.nodes.size, u)) (users { g₁ with edges := E, readers := R } w) hlinked.indexed
    simp only [Option.toList_some, List.foldl_cons, List.foldl_nil, wireDef, hlinks, defs,
      Std.TreeMap.getD_insert, Nat.compare_eq_eq, Option.some.injEq]
    split
    case isTrue hw =>
      subst hw
      rfl
    case isFalse => rfl

/-! ### Adding an indirect edge -/

/-- The edge at a place got the objects for its label; it is the one between the two statements. -/
structure Labels (g : Graph) (s t : NodeId) (objs : List NodeId) (i : Nat) (g' : Graph) : Prop where
  simple : g.Simple → g'.Simple
  ends : ∀ {a b label}, g.edges.all[i]? = some ⟨a, b, .indirect label⟩ → a = s ∧ b = t
  other : ∀ {j a b label}, j ≠ i → (g'.edges.all[j]? = some ⟨a, b, .indirect label⟩ ↔
    g.edges.all[j]? = some ⟨a, b, .indirect label⟩)
  here : ∃ label, g'.edges.all[i]? = some ⟨s, t, .indirect label⟩ ∧ ∀ x, x ∈ label ↔
    x ∈ objs ∨ ∃ label₀, g.edges.all[i]? = some ⟨s, t, .indirect label₀⟩ ∧ x ∈ label₀

theorem key_extendLabel (objs : List NodeId) (e : Edge) : (e.extendLabel objs).key = e.key := by
  obtain ⟨hs, ht, hd⟩ := e.ends_extendLabel objs
  rw [Edge.key, Edge.key, hs, ht, hd]

/-- More objects for the label of an edge. -/
theorem labels_extend {label₀ : IdSet} (hi : g.edges.all[i]? = some ⟨s, t, .indirect label₀⟩) :
    Labels g s t objs i { g with edges := g.edges.extend i objs } where
  simple hg := by
    have hkeys : (g.edges.extend i objs).all.toList.map Edge.key =
        g.edges.all.toList.map Edge.key := by
      refine List.ext_getElem? fun j => ?_
      rw [List.getElem?_map, List.getElem?_map, Array.getElem?_toList, Array.getElem?_toList,
        EdgeTable.all_extend, Array.getElem?_modify]
      split
      · rw [Option.map_map]
        exact congrFun (congrArg Option.map (funext (key_extendLabel objs))) _
      · rfl
    unfold Simple
    rw [hkeys]
    exact hg
  ends ha := by
    rw [hi] at ha
    injection ha with ha
    injection ha with hs ht
    exact ⟨hs.symm, ht.symm⟩
  other hne := by
    rw [EdgeTable.all_extend, Array.getElem?_modify, if_neg (Ne.symm hne)]
  here := by
    refine ⟨(label₀.insertAll objs).2, ?_, fun x => ?_⟩
    · rw [EdgeTable.all_extend, Array.getElem?_modify, if_pos rfl, hi]
      rfl
    · rw [IdSet.mem_insertAll]
      refine or_congr_right ⟨fun hx => ⟨label₀, hi, hx⟩, ?_⟩
      rintro ⟨label', hi', hx⟩
      rw [hi] at hi'
      cases hi'
      exact hx

/-- The first objects for two statements. -/
theorem labels_push (hfind : g.findEdge? s t false = none) :
    Labels g s t objs g.edges.all.size
      { g with edges := g.edges.push ⟨s, t, .indirect (.ofList objs)⟩ } where
  simple hg := hg.push (key_notMem_of_findEdge? hfind)
  ends ha := absurd (Array.getElem?_eq_some_iff.mp ha).1 (Nat.lt_irrefl _)
  other hne := by
    rw [EdgeTable.all_push, Array.getElem?_push, if_neg hne]
  here := by
    refine ⟨.ofList objs, by rw [EdgeTable.all_push, Array.getElem?_push, if_pos rfl], fun x => ?_⟩
    rw [IdSet.mem_ofList]
    refine ⟨Or.inl, ?_⟩
    rintro (hx | ⟨label', hi, -⟩)
    · exact hx
    · exact absurd (Array.getElem?_eq_some_iff.mp hi).1 (Nat.lt_irrefl _)

theorem labels_linkIndirect (g : Graph) (s t : NodeId) (objs : List NodeId) :
    Labels g s t objs (g.linkIndirect s t objs).1 (g.linkIndirect s t objs).2 := by
  unfold linkIndirect
  cases hfind : g.findEdge? s t false with
  | none => exact labels_push hfind
  | some i =>
    obtain ⟨hi, hs, ht, hd⟩ := findEdge?_some hfind
    cases hflow : g.edges.all[i].flow with
    | direct => rw [hflow] at hd; cases hd
    | indirect label =>
      have hedge : g.edges.all[i]? = some ⟨s, t, .indirect label⟩ := by
        rw [Array.getElem?_eq_getElem hi, ← hs, ← ht, ← hflow]
      exact labels_extend hedge

/-! ### Adding anything else -/

theorem isStmt_iff {id : NodeId} : g.isStmt id = true ↔ ∃ n, g.stmt id = .ok n := by
  simp only [stmt_eq_ok]
  rw [isStmt]
  cases g.nodes[id]? with
  | none => simp
  | some m => cases m <;> simp

/-- At most a node was added that is no statement. -/
structure AddsOther (g g' : Graph) : Prop where
  nodes : ∀ {id : NodeId} {n}, g.nodes[id]? = some n → g'.nodes[id]? = some n
  stmt : ∀ {st n}, g'.stmt st = .ok n → g.stmt st = .ok n
  edges : g'.edges = g.edges
  stmts : g'.stmts = g.stmts
  readers : g'.readers = g.readers
  definers : g'.definers = g.definers

theorem AddsOther.refl (g : Graph) : AddsOther g g := ⟨id, id, rfl, rfl, rfl, rfl⟩

theorem addsOther_push {n : Node} (hn : ∀ st, n ≠ .stmt st) (hnodes : g'.nodes = g.nodes.push n)
    (hedges : g'.edges = g.edges) (hstmts : g'.stmts = g.stmts) (hreaders : g'.readers = g.readers)
    (hdefiners : g'.definers = g.definers) : AddsOther g g' where
  nodes hid := by
    rw [hnodes, Array.getElem?_push, if_neg (Nat.ne_of_lt (lt_size_of_getElem? hid)), hid]
  stmt := by
    intro st m hm
    rw [stmt_eq_ok, hnodes, Array.getElem?_push] at hm
    rw [stmt_eq_ok]
    split at hm
    · injection hm with hm
      exact absurd hm (hn m)
    · exact hm
  edges := hedges
  stmts := hstmts
  readers := hreaders
  definers := hdefiners

theorem addsOther_addObjNode (g : Graph) (o : ObjNode) : AddsOther g (g.addObjNode o).2 :=
  addsOther_push (n := .object o) (fun _ h => by cases h) rfl rfl rfl rfl rfl

theorem addsOther_addRoot (g : Graph) (m : Memory) (kind : ObjKind) : AddsOther g (g.addRoot m kind).2 :=
  addsOther_push (n := .object _) (fun _ h => by cases h) rfl rfl rfl rfl rfl

theorem addsOther_blackHole (g : Graph) : AddsOther g g.blackHole.2 := by
  unfold blackHole
  split
  · exact .refl g
  · exact addsOther_push (n := .object _) (fun _ h => by cases h) rfl rfl rfl rfl rfl

theorem addsOther_constant (g : Graph) : AddsOther g g.constant.2 := by
  unfold constant
  split
  · exact .refl g
  · exact addsOther_push (n := .object _) (fun _ h => by cases h) rfl rfl rfl rfl rfl

end Graph

/-! ### Operations -/

namespace BuildOp

open PointsTo.Graph

variable {g g' : Graph} {op : BuildOp} {id : Nat} {log : Log}

/-- Does the operation add neither a statement nor an indirect edge? -/
def isPlain : BuildOp → Bool
  | .stmt _ _ | .indirect _ _ _ => false
  | _ => true

/-- What one operation does. -/
inductive Performs (g : Graph) : BuildOp → Nat → Graph → Prop
  | plain {op : BuildOp} {id : Nat} {g' : Graph} (hop : op.isPlain = true) (hadds : AddsOther g g') :
    Performs g op id g'
  | stmt (kind : StmtKind) (ty : Option TypeId) :
    Performs g (.stmt kind ty) g.nodes.size (g.addStmt kind ty).2
  | indirect {s t : NodeId} {objs : List NodeId} {id : Nat} {g' : Graph}
    (hlink : g.linkIndirect s t objs = (id, g')) : Performs g (.indirect s t objs) id g'

theorem performs_of_perform (h : op.perform g = .ok (id, g')) : Performs g op id g' := by
  cases op with
  | value name =>
    cases h
    exact .plain rfl (addsOther_push (n := .value name) (fun _ h => by cases h) rfl rfl rfl rfl rfl)
  | object m =>
    cases h
    exact .plain rfl (addsOther_addRoot g _ _)
  | dummy name ty =>
    cases h
    exact .plain rfl (addsOther_addRoot g _ _)
  | blackHole =>
    have hadds := addsOther_blackHole g
    rw [Except.ok.inj h] at hadds
    exact .plain rfl hadds
  | constant =>
    have hadds := addsOther_constant g
    rw [Except.ok.inj h] at hadds
    exact .plain rfl hadds
  | field base offset =>
    rw [perform, addField, bind_eq_ok] at h
    obtain ⟨o, -, h⟩ := h
    cases h
    exact .plain rfl (addsOther_addObjNode g _)
  | clone obj =>
    rw [perform, addCloneOf, bind_eq_ok] at h
    obtain ⟨o, -, h⟩ := h
    cases h
    exact .plain rfl (addsOther_addObjNode g _)
  | stmt kind ty =>
    cases h
    exact .stmt kind ty
  | indirect s t objs =>
    rw [perform, addIndirect] at h
    split at h
    · exact .indirect (Except.ok.inj h)
    · cases h

/-- An operation succeeds if the nodes that it refers to are there. -/
theorem perform_ok_iff : (∃ r, op.perform g = .ok r) ↔ op.Fits g := by
  cases op with
  | field base offset =>
    simp only [perform, addField, Fits, HasObj, bind_eq_ok, pure_eq_ok]
    exact ⟨fun ⟨_, o, ho, _⟩ => ⟨o, ho⟩, fun ⟨o, ho⟩ => ⟨_, o, ho, rfl⟩⟩
  | clone obj =>
    simp only [perform, addCloneOf, Fits, HasObj, bind_eq_ok, pure_eq_ok]
    exact ⟨fun ⟨_, o, ho, _⟩ => ⟨o, ho⟩, fun ⟨o, ho⟩ => ⟨_, o, ho, rfl⟩⟩
  | indirect s t objs =>
    simp only [perform, addIndirect, Fits, ← isStmt_iff]
    split
    case isTrue h => exact iff_of_true ⟨_, rfl⟩ (by simpa using h)
    case isFalse h => exact iff_of_false (fun ⟨_, hr⟩ => by cases hr) (by simpa using h)
  | value | object | dummy | blackHole | constant | stmt => exact iff_of_true ⟨_, rfl⟩ trivial

/-! ### Building -/

/-- The indirect edges are those of the log, each at the place that was given for it and with all
    objects that were named for it. -/
structure FlowsLogged (log : Log) (g : Graph) : Prop where
  present : ∀ {s t objs i}, (.indirect s t objs, i) ∈ log →
    ∃ label, g.edges.all[i]? = some ⟨s, t, .indirect label⟩
  label : ∀ {s t i label}, g.edges.all[i]? = some ⟨s, t, .indirect label⟩ →
    (∃ objs, (.indirect s t objs, i) ∈ log) ∧
    ∀ x, x ∈ label ↔ ∃ objs, (.indirect s t objs, i) ∈ log ∧ x ∈ objs

/-- The invariant of building: statements and indirect edges are those of the log, and nothing is
    listed twice. -/
structure Built (log : Log) (g : Graph) : Prop where
  wired : g.Wired
  listed : ∀ {st n}, g.stmt st = .ok n → st ∈ g.stmts.toList
  logged : ∀ {st n}, g.stmt st = .ok n ↔ (.stmt n.kind n.ty, st) ∈ log
  simple : g.Simple
  users : ∀ v, (g.users v).Nodup
  defs : ∀ v, (g.defs v).Nodup
  flows : FlowsLogged log g

theorem built_empty : Built [] ∅ where
  wired := wired_empty
  listed h := by
    rw [stmt_eq_ok] at h
    exact absurd (lt_size_of_getElem? h) (Nat.not_lt_zero _)
  logged := by
    intro st n
    refine ⟨fun h => ?_, fun h => absurd h List.not_mem_nil⟩
    rw [stmt_eq_ok] at h
    exact absurd (lt_size_of_getElem? h) (Nat.not_lt_zero _)
  simple := List.nodup_nil
  users v := by
    rw [show users ∅ v = [] from Std.TreeMap.getD_emptyc]
    exact List.nodup_nil
  defs v := by
    rw [show defs ∅ v = [] from Std.TreeMap.getD_emptyc]
    exact List.nodup_nil
  flows := ⟨fun h => absurd h List.not_mem_nil,
    fun h => absurd (Array.getElem?_eq_some_iff.mp h).1 (Nat.not_lt_zero _)⟩

/-- In a longer log, an entry of another kind than the new one is an old one. -/
theorem mem_log_iff {entry new : BuildOp × Nat} (hne : entry ≠ new) :
    entry ∈ log ++ [new] ↔ entry ∈ log := by
  rw [List.mem_append, List.mem_singleton, or_iff_left hne]

/-- An operation that leaves the indirect edges alone. -/
theorem FlowsLogged.keep (h : FlowsLogged log g) (hop : ∀ s t objs, op ≠ .indirect s t objs)
    (hedges : ∀ {i : Nat} {s t label}, g'.edges.all[i]? = some ⟨s, t, .indirect label⟩ ↔
      g.edges.all[i]? = some ⟨s, t, .indirect label⟩) : FlowsLogged (log ++ [(op, id)]) g' := by
  have hlog : ∀ {s t objs i}, (BuildOp.indirect s t objs, i) ∈ log ++ [(op, id)] ↔
      (BuildOp.indirect s t objs, i) ∈ log :=
    mem_log_iff fun heq => hop _ _ _ (Prod.mk.inj heq).1.symm
  refine ⟨fun hmem => ?_, fun hi => ?_⟩
  · obtain ⟨label, hi⟩ := h.present (hlog.mp hmem)
    exact ⟨label, hedges.mpr hi⟩
  · simpa only [hlog] using h.label (hedges.mp hi)

/-- More objects for two statements. -/
theorem FlowsLogged.link (h : FlowsLogged log g) {s t : NodeId} {objs : List NodeId}
    (hlabels : Labels g s t objs id g') : FlowsLogged (log ++ [(.indirect s t objs, id)]) g' := by
  have hlog : ∀ {a b os i}, (BuildOp.indirect a b os, i) ∈ log ++ [(.indirect s t objs, id)] ↔
      (BuildOp.indirect a b os, i) ∈ log ∨ a = s ∧ b = t ∧ os = objs ∧ i = id := by
    simp [and_assoc]
  have hnew : (BuildOp.indirect s t objs, id) ∈ log ++ [(.indirect s t objs, id)] :=
    hlog.mpr (Or.inr ⟨rfl, rfl, rfl, rfl⟩)
  obtain ⟨label', hlabel', hmem'⟩ := hlabels.here
  refine ⟨?_, ?_⟩
  · intro a b os i hmem
    rcases hlog.mp hmem with hold | ⟨rfl, rfl, -, rfl⟩
    · obtain ⟨label₀, hlabel₀⟩ := h.present hold
      by_cases hi : i = id
      · subst hi
        obtain ⟨rfl, rfl⟩ := hlabels.ends hlabel₀
        exact ⟨label', hlabel'⟩
      · exact ⟨label₀, (hlabels.other hi).mpr hlabel₀⟩
    · exact ⟨label', hlabel'⟩
  · intro a b i label hlabel
    by_cases hi : i = id
    · subst hi
      rw [hlabel'] at hlabel
      cases hlabel
      refine ⟨⟨objs, hnew⟩, fun x => (hmem' x).trans ⟨?_, ?_⟩⟩
      · rintro (hx | ⟨label₀, hold, hx⟩)
        · exact ⟨objs, hnew, hx⟩
        · obtain ⟨os, hos, hx⟩ := ((h.label hold).2 x).mp hx
          exact ⟨os, hlog.mpr (Or.inl hos), hx⟩
      · rintro ⟨os, hos, hx⟩
        rcases hlog.mp hos with hos | ⟨-, -, rfl, -⟩
        · obtain ⟨label₀, hold⟩ := h.present hos
          exact Or.inr ⟨label₀, hold, ((h.label hold).2 x).mpr ⟨os, hos, hx⟩⟩
        · exact Or.inl hx
    · have hold := h.label ((hlabels.other hi).mp hlabel)
      simpa only [hlog, hi, and_false, or_false] using hold

theorem Built.plain (hb : Built log g) (hop : op.isPlain = true) (hadds : AddsOther g g') :
    Built (log ++ [(op, id)]) g' := by
  have hstmt : ∀ {st n}, g'.stmt st = .ok n ↔ g.stmt st = .ok n :=
    ⟨hadds.stmt, fun h => stmt_eq_ok.mpr (hadds.nodes (stmt_eq_ok.mp h))⟩
  have hrewired : Rewired g g' := .of_eq hadds.edges hadds.readers
  have hindexed : g'.edges.Indexed := hadds.edges ▸ hb.wired.indexed
  refine ⟨hb.wired.keep ⟨hadds.nodes, hadds.stmts, hadds.readers, hadds.definers, hindexed, ?_⟩, ?_, ?_,
    hrewired.simple hb.simple, hrewired.users hb.users, ?_, hb.flows.keep ?_ hrewired.indirect_iff⟩
  · intro s u
    rw [directSuccessors, directSuccessors, hadds.edges]
  · intro st n hn
    rw [hadds.stmts]
    exact hb.listed (hstmt.mp hn)
  · intro st n
    rw [hstmt, hb.logged, mem_log_iff]
    rintro ⟨⟩
    cases hop
  · intro v
    rw [Graph.defs, hadds.definers]
    exact hb.defs v
  · rintro s t objs rfl
    cases hop

theorem Built.addStmt (hb : Built log g) (kind : StmtKind) (ty : Option TypeId) :
    Built (log ++ [(.stmt kind ty, g.nodes.size)]) (g.addStmt kind ty).2 := by
  have hadds := addStmt_spec hb.wired.indexed kind ty
  have hrewired := rewired_addStmt g kind ty
  refine ⟨hb.wired.addStmt hadds, ?_, ?_, hrewired.simple hb.simple, hrewired.users hb.users, ?_,
    hb.flows.keep (fun _ _ _ h => by cases h) hrewired.indirect_iff⟩
  · intro st n hn
    rw [hadds.mem_stmts]
    exact (hadds.stmt_iff.mp hn).imp And.left hb.listed
  · intro st n
    rw [hadds.stmt_iff, hb.logged, List.mem_append, List.mem_singleton, or_comm]
    refine or_congr_right ⟨?_, ?_⟩
    · rintro ⟨rfl, rfl⟩
      rfl
    · intro h
      cases n
      cases h
      exact ⟨rfl, rfl⟩
  · intro v
    rw [defs_addStmt hb.wired.indexed]
    split
    · rw [← List.concat_eq_append]
      refine List.Nodup.concat (fun hmem => ?_) (hb.defs v)
      exact Nat.lt_irrefl _ (hb.wired.stmt_lt_size (hb.wired.defs.mp hmem).1)
    · exact hb.defs v

theorem Built.linkIndirect (hb : Built log g) {s t : NodeId} {objs : List NodeId}
    (hlink : g.linkIndirect s t objs = (id, g')) : Built (log ++ [(.indirect s t objs, id)]) g' := by
  have hlabels := labels_linkIndirect g s t objs
  obtain ⟨E, hE, hflow⟩ := linkIndirect_spec hb.wired.indexed s t objs
  rw [hlink] at hlabels hE
  dsimp only at hlabels hE
  subst hE
  refine ⟨hb.wired.keep ⟨fun h => h, rfl, rfl, rfl, hflow.indexed, hflow.direct⟩, hb.listed, ?_,
    hlabels.simple hb.simple, hb.users, hb.defs, hb.flows.link hlabels⟩
  intro st n
  rw [mem_log_iff fun h => by cases h]
  exact hb.logged

theorem Built.perform (hb : Built log g) (h : op.perform g = .ok (id, g')) :
    Built (log ++ [(op, id)]) g' := by
  cases performs_of_perform h with
  | plain hop hadds => exact hb.plain hop hadds
  | stmt kind ty => exact hb.addStmt kind ty
  | indirect hlink => exact hb.linkIndirect hlink

theorem performAll_spec {ops : List BuildOp} (h : performAll ops = .ok (log, g)) :
    log.map Prod.fst = ops ∧ Built log g := by
  refine foldlM_result (I := fun done r => r.1.map Prod.fst = done ∧ Built r.1 r.2)
    ⟨rfl, built_empty⟩ ?_ h
  rintro done op rest ⟨log', g₁⟩ r - ⟨hlog, hb⟩ hop
  rw [performLogged, bind_eq_ok] at hop
  obtain ⟨⟨id, g₂⟩, hop, hr⟩ := hop
  cases hr
  exact ⟨by rw [List.map_append, hlog, List.map_singleton], hb.perform hop⟩

end BuildOp

/-! ### What follows from the log -/

namespace Graph

open BuildOp

variable {g : Graph} {s t u v : NodeId} {label : IdSet}

/-- The statement at a place defines a value. -/
def Defines (g : Graph) (st v : NodeId) : Prop := ∃ n, g.stmt st = .ok n ∧ n.kind.target? = some v

/-- The statement at a place uses a value. -/
def Uses (g : Graph) (st v : NodeId) : Prop := ∃ n, g.stmt st = .ok n ∧ v ∈ n.kind.uses

/-- The edges of a graph are what its log says they are. -/
structure Recorded (g : Graph) (log : Log) : Prop where
  stmts : ∀ {st n}, g.stmt st = .ok n ↔ (.stmt n.kind n.ty, st) ∈ log
  users : ∀ v, (g.users v).Nodup ∧ ∀ st, st ∈ g.users v ↔ g.Uses st v
  defs : ∀ v, (g.defs v).Nodup ∧ ∀ st, st ∈ g.defs v ↔ g.Defines st v
  direct : ∀ {s t}, (∃ i : Nat, g.edges.all[i]? = some ⟨s, t, .direct⟩) ↔ ∃ v, g.Defines s v ∧ g.Uses t v
  /-- An indirect edge is at the place that was given for its statements. -/
  indirect : ∀ {s t : NodeId} {i : Nat}, (∃ label, g.edges.all[i]? = some ⟨s, t, .indirect label⟩) ↔
    ∃ objs, (.indirect s t objs, i) ∈ log
  label : ∀ {s t : NodeId} {i : Nat} {label}, g.edges.all[i]? = some ⟨s, t, .indirect label⟩ →
    ∀ x, x ∈ label ↔ ∃ objs j, (.indirect s t objs, j) ∈ log ∧ x ∈ objs
  single : ∀ {i j : Nat} {e e' : Edge}, g.edges.all[i]? = some e → g.edges.all[j]? = some e' →
    e.src = e'.src → e.dst = e'.dst → e.flow.isDirect = e'.flow.isDirect → i = j
  sameId : ∀ {s t objs objs' i j}, (.indirect s t objs, i) ∈ log → (.indirect s t objs', j) ∈ log → i = j
  directSuccessors : ∀ s, (g.directSuccessors s).Nodup ∧
    ∀ t, t ∈ g.directSuccessors s ↔ ∃ i : Nat, g.edges.all[i]? = some ⟨s, t, .direct⟩
  indirectSuccessors : ∀ s, ((g.indirectSuccessors s).map Prod.fst).Nodup ∧
    ∀ t label, (t, label) ∈ g.indirectSuccessors s ↔ ∃ i : Nat, g.edges.all[i]? = some ⟨s, t, .indirect label⟩

/-- The edges of one sort that leave a node have different ends. -/
theorem Simple.pairwise_places (hg : g.Simple) (hx : g.edges.Indexed) (direct : Bool) (s : NodeId) :
    ((g.edges.index direct).places s).toList.Pairwise fun i j => ∀ e e',
      g.edges.all[i]? = some e → g.edges.all[j]? = some e' → e.dst ≠ e'.dst := by
  refine Std.TreeSet.distinct_toList.imp_of_mem fun {i j} hi hj hne e e' he he' hdst => hne ?_
  obtain ⟨hs, hd⟩ := hx.of_mem_places direct (Std.TreeSet.mem_toList.mp hi) he
  obtain ⟨hs', hd'⟩ := hx.of_mem_places direct (Std.TreeSet.mem_toList.mp hj) he'
  have hkey : e.key = e'.key := by rw [Edge.key, Edge.key, hs, hs', hdst, hd, hd']
  rw [hg.place_eq he he' hkey]
  exact Std.ReflCmp.compare_self

theorem Simple.nodup_directSuccessors (hg : g.Simple) (hx : g.edges.Indexed) (s : NodeId) :
    (g.directSuccessors s).Nodup := by
  refine List.pairwise_filterMap.mpr ((hg.pairwise_places hx true s).imp ?_)
  intro i j hne t ht t' ht'
  obtain ⟨e, he, rfl⟩ := Option.map_eq_some_iff.mp ht
  obtain ⟨e', he', rfl⟩ := Option.map_eq_some_iff.mp ht'
  exact hne e e' he he'

theorem Simple.nodup_indirectSuccessors (hg : g.Simple) (hx : g.edges.Indexed) (s : NodeId) :
    ((g.indirectSuccessors s).map Prod.fst).Nodup := by
  refine List.pairwise_map.mpr (List.pairwise_filterMap.mpr ((hg.pairwise_places hx false s).imp ?_))
  intro i j hne r hr r' hr'
  obtain ⟨e, he, hend⟩ := Option.bind_eq_some_iff.mp hr
  obtain ⟨e', he', hend'⟩ := Option.bind_eq_some_iff.mp hr'
  rw [Edge.fst_of_labelledEnd? hend, Edge.fst_of_labelledEnd? hend']
  exact hne e e' he he'

end Graph

theorem BuildOp.Built.recorded {log : BuildOp.Log} {g : Graph} (hb : BuildOp.Built log g) :
    g.Recorded log := by
  have husers : ∀ {v st}, st ∈ g.users v ↔ g.Uses st v := by
    intro v st
    rw [hb.wired.users]
    refine and_iff_right_of_imp ?_
    rintro ⟨n, hn, -⟩
    exact hb.listed hn
  have hdefs : ∀ {v st}, st ∈ g.defs v ↔ g.Defines st v := by
    intro v st
    rw [hb.wired.defs]
    refine and_iff_right_of_imp ?_
    rintro ⟨n, hn, -⟩
    exact hb.listed hn
  have hsame : ∀ {s t objs objs' i j}, (BuildOp.indirect s t objs, i) ∈ log →
      (BuildOp.indirect s t objs', j) ∈ log → i = j := by
    intro s t objs objs' i j hi hj
    obtain ⟨label, hi⟩ := hb.flows.present hi
    obtain ⟨label', hj⟩ := hb.flows.present hj
    exact hb.simple.place_eq hi hj rfl
  have hx := hb.wired.indexed
  refine ⟨hb.logged, fun v => ⟨hb.users v, fun st => husers⟩, fun v => ⟨hb.defs v, fun st => hdefs⟩, ?_,
    ?_, ?_, ?_, hsame, fun s => ⟨hb.simple.nodup_directSuccessors hx s, fun t => hx.mem_directEnds⟩,
    fun s => ⟨hb.simple.nodup_indirectSuccessors hx s, fun t label => hx.mem_indirectEnds⟩⟩
  · intro s t
    rw [← hx.mem_directEnds, ← Graph.directSuccessors, hb.wired.direct]
    simp only [hdefs, husers]
  · intro s t i
    constructor
    · rintro ⟨label, hi⟩
      exact (hb.flows.label hi).1
    · rintro ⟨objs, hi⟩
      exact hb.flows.present hi
  · intro s t i label hi x
    rw [(hb.flows.label hi).2]
    obtain ⟨objs₀, hi₀⟩ := (hb.flows.label hi).1
    constructor
    · rintro ⟨objs, hobjs, hx⟩
      exact ⟨objs, i, hobjs, hx⟩
    · rintro ⟨objs, j, hobjs, hx⟩
      obtain rfl := hsame hi₀ hobjs
      exact ⟨objs, hobjs, hx⟩
  · intro i j e e' hi hj hs ht hd
    exact hb.simple.place_eq hi hj (by rw [Edge.key, Edge.key, hs, ht, hd])

/-- However a graph is built, its edges follow from which statements and which objects for pairs of
    statements were added, and not from when they were added; and one may go on with any operation
    that refers to objects and statements that are there. -/
theorem BuildOp.edges_follow_from_log {ops : List BuildOp} {log : BuildOp.Log} {g : Graph}
    (h : BuildOp.performAll ops = .ok (log, g)) :
    log.map Prod.fst = ops ∧ g.Recorded log ∧ ∀ op, (∃ r, BuildOp.perform g op = .ok r) ↔ op.Fits g := by
  obtain ⟨hlog, hb⟩ := BuildOp.performAll_spec h
  exact ⟨hlog, hb.recorded, fun op => BuildOp.perform_ok_iff⟩

/-- A value that is used before it is defined, and defined once more by a statement that uses it
    twice; and objects that are named for two statements in two turns. -/
def lateDefinitions : List BuildOp :=
  [.value "p", .value "q", .object { name := "o", alloc := .stack },
    .stmt (.copy 0 1 false) none, .stmt (.addr 2 0) none, .indirect 4 3 [2],
    .stmt (.phi 0 [0, 1, 0]) none, .indirect 5 3 [], .indirect 4 3 [2, 7]]

theorem lateDefinitions_follow_from_log : ∃ log g,
    BuildOp.performAll lateDefinitions = .ok (log, g) ∧ log.map Prod.fst = lateDefinitions ∧
    g.Recorded log ∧ log.map Prod.snd = [0, 1, 2, 3, 4, 1, 5, 6, 1] ∧ g.users 0 = [3, 5] ∧
    g.directSuccessors 5 = [3, 5] ∧
    (g.indirectSuccessors 4).map (fun r => (r.1, r.2.toList)) = [(3, [2, 7])] := by
  have hcheck : (BuildOp.performAll lateDefinitions).map (fun r =>
      (r.1.map Prod.snd, r.2.users 0, r.2.directSuccessors 5,
        (r.2.indirectSuccessors 4).map (fun e => (e.1, e.2.toList)))) =
      .ok ([0, 1, 2, 3, 4, 1, 5, 6, 1], [3, 5], [3, 5], [(3, [2, 7])]) := by decide +kernel
  obtain ⟨⟨log, g⟩, hbuilt, hsees⟩ := map_eq_ok.mp hcheck
  simp only [Prod.mk.injEq] at hsees
  obtain ⟨hids, husers, hdirect, hindirect⟩ := hsees
  obtain ⟨hlog, hrecorded, -⟩ := BuildOp.edges_follow_from_log hbuilt
  exact ⟨log, g, hbuilt, hlog, hrecorded, hids, husers, hdirect, hindirect⟩

end PointsTo
