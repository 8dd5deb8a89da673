import PointsTo.Proofs.Acceptance

/-! Where declarations stand in a graph, and which nodes names lead to.

    Values come first, in the order of their declarations, and objects follow; statements and special
    objects are only added behind them. So the declarations tell the node of each declared name. A name
    is looked up in two ways: where an object is used, `blackhole` and `constant` mean the special
    objects and any other name a declared one; by the graph's own table, the node that was bound last
    counts, which is the special object if it was ever used. -/

namespace PointsTo

/-- A special object, if it is there. -/
def Graph.special? (g : Graph) : SpecialObject → Option NodeId
  | .blackHole => g.blackHole?
  | .constant => g.constant?

/-- The special objects that are there. -/
def Graph.specials (g : Graph) : List NodeId := g.blackHole?.toList ++ g.constant?.toList

/-- The special object that a name in a description refers to, if it does and the object is there. -/
def Graph.specialNamed? (g : Graph) (name : String) : Option NodeId :=
  match ObjRef.ofName name with
  | .special which => g.special? which
  | .declared _ => none

theorem Graph.specials_eq_nil {g : Graph} (h : ∀ which, g.special? which = none) : g.specials = [] := by
  have hblack : g.blackHole? = none := h .blackHole
  have hconst : g.constant? = none := h .constant
  rw [Graph.specials, hblack, hconst]
  rfl

theorem Graph.specialNamed?_eq_none {g : Graph} (h : ∀ which, g.special? which = none) (name : String) :
    g.specialNamed? name = none := by
  unfold Graph.specialNamed?
  split
  · exact h _
  · rfl

namespace ProgramDesc

/-- The nodes of the declarations. -/
def declaredNodes (d : ProgramDesc) : List Node :=
  d.values.map .value ++ d.objects.mapIdx fun j o => .object ⟨o.kind, j, o.name⟩

/-- The names that are used as objects. -/
def objectNames (d : ProgramDesc) : List String :=
  d.statements.flatMap (fun sd => sd.kind.objectNames) ++ d.flows.flatMap FlowDesc.objs ++
    d.seeds.flatMap SeedDesc.objs

/-- The pairs of names that seeds are described by, in their order. -/
def seedPairs (d : ProgramDesc) : List (String × String) :=
  d.seeds.flatMap fun sd => sd.objs.map fun name => (sd.value, name)

theorem declaredNodes_value {d : ProgramDesc} {i : Nat} {name : String} (h : d.values[i]? = some name) :
    d.declaredNodes[i]? = some (.value name) := by
  rw [declaredNodes, List.getElem?_append_left (by simpa using (List.getElem?_eq_some_iff.mp h).1),
    List.getElem?_map, h, Option.map_some]

theorem declaredNodes_object {d : ProgramDesc} {j : Nat} {o : ObjectDesc} (h : d.objects[j]? = some o) :
    d.declaredNodes[d.values.length + j]? = some (.object ⟨o.kind, j, o.name⟩) := by
  rw [declaredNodes, List.getElem?_append_right (by simp), List.length_map, Nat.add_sub_cancel_left,
    List.getElem?_mapIdx, h, Option.map_some]

end ProgramDesc

theorem ObjRef.ofName_eq_special {name : String} {which : SpecialObject} :
    ObjRef.ofName name = .special which ↔ name = which.memory.name := by
  by_cases hblack : name = "blackhole"
  · subst hblack
    cases which <;> decide
  by_cases hconst : name = "constant"
  · subst hconst
    cases which <;> decide
  rw [ObjRef.ofName, if_neg hblack, if_neg hconst]
  refine iff_of_false (by simp) ?_
  cases which with
  | blackHole => exact hblack
  | constant => exact hconst

theorem ObjNode.kind_of_ref {o : ObjNode} {which : SpecialObject} (h : o.ref = .special which) :
    o.kind = .special which := by
  unfold ObjNode.ref at h
  split at h
  · rename_i hkind
    cases h
    exact hkind
  · cases h

namespace Builder

variable {d d' : ProgramDesc} {b b' c : Builder}

theorem find?_special (which : SpecialObject) : b.find? (.special which) = b.graph.special? which := by
  cases which <;> rfl

/-! ### What is added behind the declarations -/

/-- The graph's own table leads a name to its special object, if that is there, and else to its
    declaration. -/
def Bound (b : Builder) : Prop := ∀ name : String,
  b.graph.names[name]? = (b.graph.specialNamed? name).or (b.valueIds[name]?.or b.objectIds[name]?)

/-- From `b` to `b'`, the names were used as objects, and nothing was declared. -/
structure Uses (names : List String) (b b' : Builder) : Prop where
  decls : SameDecls b b'
  nodes : ∀ {id : NodeId} {n}, b.graph.nodes[id]? = some n → b'.graph.nodes[id]? = some n
  mems : ∀ {id : MemId} {m}, b.graph.mems[id]? = some m → b'.graph.mems[id]? = some m
  nodeCount : b'.graph.nodes.size + (b.graph.stmts.size + b.graph.specials.length) =
    b.graph.nodes.size + (b'.graph.stmts.size + b'.graph.specials.length)
  memCount : b'.graph.mems.size + b.graph.specials.length = b.graph.mems.size + b'.graph.specials.length
  special : ∀ which, (b'.graph.special? which).isSome = true ↔
    (b.graph.special? which).isSome = true ∨ which.memory.name ∈ names
  bound : b.Bound → b'.Bound

theorem Uses.trans {names names' : List String} (h : Uses names b b') (h' : Uses names' b' c) :
    Uses (names ++ names') b c where
  decls := h.decls.trans h'.decls
  nodes hn := h'.nodes (h.nodes hn)
  mems hm := h'.mems (h.mems hm)
  nodeCount := by
    have := h.nodeCount
    have := h'.nodeCount
    omega
  memCount := by
    have := h.memCount
    have := h'.memCount
    omega
  special which := by rw [h'.special, h.special, List.mem_append, or_assoc]
  bound hb := h'.bound (h.bound hb)

/-- Edges and seeds do not matter. -/
theorem uses_linked {E : EdgeTable} {S : Array (NodeId × NodeId)} :
    Uses [] b { b with graph := { b.graph with edges := E, seeds := S } } where
  decls := ⟨rfl, rfl, rfl⟩
  nodes hn := hn
  mems hm := hm
  nodeCount := rfl
  memCount := rfl
  special which := by cases which <;> simp [Graph.special?]
  bound hb := hb

theorem uses_pushStmt {kind : StmtKind} {ty : Option TypeId} (hdecls : SameDecls b b')
    (ha : Graph.AddsStmt b.graph b'.graph kind ty) : Uses [] b b' where
  decls := hdecls
  nodes {id n} hn := by
    rw [ha.getElem?_nodes, if_neg (Nat.ne_of_lt (Graph.lt_size_of_getElem? hn)), hn]
  mems hm := ha.mems ▸ hm
  nodeCount := by
    rw [ha.nodes, ha.stmts, Array.size_push, Array.size_push, Graph.specials, Graph.specials, ha.blackHole,
      ha.constant]
    omega
  memCount := by rw [ha.mems, Graph.specials, Graph.specials, ha.blackHole, ha.constant]
  special which := by cases which <;> simp [Graph.special?, ha.blackHole, ha.constant]
  bound hb name := by
    have hspecial : b'.graph.specialNamed? name = b.graph.specialNamed? name := by
      unfold Graph.specialNamed? Graph.special?
      rw [ha.blackHole, ha.constant]
    rw [ha.names, hspecial, hdecls.valueIds, hdecls.objectIds]
    exact hb name

/-- A special object that comes into being. -/
theorem uses_addRoot {which : SpecialObject} (hfirst : b.find? (.special which) = none)
    (ha : AddsRoot b b' which.memory (.special which)) (hobjects : b'.objectIds = b.objectIds) :
    Uses [which.memory.name] b b' := by
  have hspecial : ∀ w, b'.graph.special? w =
      if w = which then some b.graph.nodes.size else b.graph.special? w := by
    intro w
    rw [← find?_special, ← find?_special, ha.find]
    simp only [ObjNode.ref, ObjRef.special.injEq]
  have hcount : b'.graph.specials.length = b.graph.specials.length + 1 := by
    rw [find?_special] at hfirst
    have hblack := hspecial .blackHole
    have hconst := hspecial .constant
    cases which <;> simp_all [Graph.special?, Graph.specials, Nat.add_comm]
  refine ⟨⟨ha.types, ha.valueIds, hobjects⟩, ha.keeps, fun {id m} hm => ?_, ?_, ?_, fun w => ?_, fun hb name => ?_⟩
  · rw [ha.mems, Array.getElem?_push, if_neg (Nat.ne_of_lt (Array.getElem?_eq_some_iff.mp hm).1), hm]
  · rw [ha.nodes, ha.stmts, hcount, Array.size_push]
    omega
  · rw [ha.mems, hcount, Array.size_push]
    omega
  · rw [hspecial, List.mem_singleton]
    split
    · simp [*]
    · have hname : w.memory.name ≠ which.memory.name := by
        cases w <;> cases which <;> first | contradiction | decide
      simp [hname]
  · rw [ha.names, getElem?_insert_name, hb, ha.valueIds, hobjects]
    split
    · rename_i hname
      rw [Graph.specialNamed?, ObjRef.ofName_eq_special.mpr hname]
      simp [hspecial]
    · rename_i hname
      congr 1
      unfold Graph.specialNamed?
      split
      · rename_i w hw
        rw [hspecial, if_neg]
        rintro rfl
        exact hname (ObjRef.ofName_eq_special.mp hw)
      · rfl

theorem uses_object {name : String} {id : NodeId} (h : b.object name = .ok (id, c)) : Uses [name] b c := by
  obtain ⟨hfind, rfl | ⟨which, hname, hfirst, ha⟩⟩ := object_spec h
  · refine ⟨⟨rfl, rfl, rfl⟩, fun hn => hn, fun hm => hm, rfl, rfl, fun which => ?_, fun hb => hb⟩
    refine ⟨Or.inl, ?_⟩
    rintro (hsome | hmem)
    · exact hsome
    · -- The special object was there.
      rw [List.mem_singleton] at hmem
      rw [ObjRef.ofName_eq_special.mpr hmem.symm, find?_special] at hfind
      rw [hfind]
      rfl
  · rw [ObjRef.ofName_eq_special.mp hname]
    exact uses_addRoot hfirst ha (sameNames_object h).objectIds

theorem uses_objects {names : List String} {ids : List NodeId} (h : b.objects names = .ok (ids, c)) :
    Uses names b c := by
  induction names generalizing b ids with
  | nil =>
    cases h
    exact uses_linked
  | cons name names ih =>
    simp only [Builder.objects, bind_eq_ok, pure_eq_ok] at h
    obtain ⟨⟨id, b₁⟩, hid, ⟨rest, b₂⟩, hrest, h⟩ := h
    cases h
    exact (uses_object hid).trans (ih hrest)

theorem uses_addStmt {sd : StmtDesc} (he : b.Encodes d) (h : b.addStmt sd = .ok c) :
    Uses sd.kind.objectNames b c := by
  obtain ⟨kind, ty, b₁, hresolve, hgraph, htypes, hvalues, hobjects, -, -⟩ := addStmt_spec h
  obtain ⟨ids, hids⟩ := resolve_objects hresolve
  have ha := Graph.addStmt_spec (he.resolve hresolve).1.wired.indexed kind ty
  rw [← hgraph] at ha
  rw [← List.append_nil sd.kind.objectNames]
  exact (uses_objects hids).trans (uses_pushStmt ⟨htypes, hvalues, hobjects⟩ ha)

theorem uses_addFlow {f : FlowDesc} (he : b.Encodes d) (h : b.addFlow f = .ok c) : Uses f.objs b c := by
  simp only [Builder.addFlow, bind_eq_ok, pure_eq_ok] at h
  obtain ⟨src, -, dst, -, ⟨objs, b₁⟩, hobjs, h⟩ := h
  cases h
  obtain ⟨E, hE, -⟩ := Graph.linkIndirect_spec (he.objects hobjs).1.wired.indexed src dst objs
  rw [hE, ← List.append_nil f.objs]
  exact (uses_objects hobjs).trans uses_linked

theorem uses_addSeed {sd : SeedDesc} (h : b.addSeed sd = .ok c) : Uses sd.objs b c := by
  simp only [Builder.addSeed, bind_eq_ok, pure_eq_ok] at h
  obtain ⟨v, -, ⟨objs, b₁⟩, hobjs, h⟩ := h
  cases h
  obtain ⟨S, hS, -⟩ := foldl_seed v objs b₁.graph
  rw [hS, ← List.append_nil sd.objs]
  exact (uses_objects hobjs).trans uses_linked

/-! ### Where declarations stand -/

/-- The graph holds the declarations of a description where it has them, and besides them its statements
    and the special objects that the description uses. -/
structure Laid (d : ProgramDesc) (b : Builder) : Prop where
  nodes : ∀ {i : Nat} {n}, d.declaredNodes[i]? = some n → b.graph.nodes[i]? = some n
  mems : ∀ {j : Nat} {m}, (d.objects.map ObjectDesc.memory)[j]? = some m → b.graph.mems[j]? = some m
  nodeCount : b.graph.nodes.size =
    d.values.length + d.objects.length + (b.graph.stmts.size + b.graph.specials.length)
  memCount : b.graph.mems.size = d.objects.length + b.graph.specials.length
  special : ∀ which, (b.graph.special? which).isSome = true ↔ which.memory.name ∈ d.objectNames
  bound : b.Bound

namespace Laid

theorem uses (h : b.Laid d) {names : List String} (hu : Uses names b c) (hvalues : d'.values = d.values)
    (hobjects : d'.objects = d.objects)
    (hnames : ∀ name, name ∈ d'.objectNames ↔ name ∈ d.objectNames ∨ name ∈ names) : c.Laid d' where
  nodes {i n} hi := hu.nodes (h.nodes (by rwa [ProgramDesc.declaredNodes, hvalues, hobjects] at hi))
  mems hj := hu.mems (h.mems (hobjects ▸ hj))
  nodeCount := by
    have := h.nodeCount
    have := hu.nodeCount
    rw [hvalues, hobjects]
    omega
  memCount := by
    have := h.memCount
    have := hu.memCount
    rw [hobjects]
    omega
  special which := by rw [hu.special, h.special, hnames]
  bound := hu.bound h.bound

theorem addStmt (h : b.Laid d) (he : b.Encodes d) {sd : StmtDesc} (hadd : b.addStmt sd = .ok c) :
    c.Laid { d with statements := d.statements ++ [sd] } := by
  refine h.uses (uses_addStmt he hadd) rfl rfl fun name => ?_
  simp only [ProgramDesc.objectNames, List.flatMap_append, List.flatMap_singleton, List.mem_append]
  tauto

theorem addFlow (h : b.Laid d) (he : b.Encodes d) {f : FlowDesc} (hadd : b.addFlow f = .ok c) :
    c.Laid { d with flows := d.flows ++ [f] } := by
  refine h.uses (uses_addFlow he hadd) rfl rfl fun name => ?_
  simp only [ProgramDesc.objectNames, List.flatMap_append, List.flatMap_singleton, List.mem_append]
  tauto

theorem addSeed (h : b.Laid d) {sd : SeedDesc} (hadd : b.addSeed sd = .ok c) :
    c.Laid { d with seeds := d.seeds ++ [sd] } := by
  refine h.uses (uses_addSeed hadd) rfl rfl fun name => ?_
  simp only [ProgramDesc.objectNames, List.flatMap_append, List.flatMap_singleton, List.mem_append]
  tauto

/-- While only declarations were read, no special object is there. -/
theorem no_special (h : b.Laid d) (hnames : d.objectNames = []) (which : SpecialObject) :
    b.graph.special? which = none := by
  rw [← Option.not_isSome_iff_eq_none, h.special, hnames]
  exact List.not_mem_nil

end Laid

theorem laid_types {types : List TypeDesc} : Laid { types } { types := ⟨types.toArray⟩ } where
  nodes hi := by simp [ProgramDesc.declaredNodes] at hi
  mems hj := by simp at hj
  nodeCount := rfl
  memCount := rfl
  special which := by
    refine iff_of_false ?_ List.not_mem_nil
    cases which <;> exact Bool.false_ne_true
  bound name := by
    have hspecial : (∅ : Graph).specialNamed? name = none :=
      Graph.specialNamed?_eq_none (fun which => by cases which <;> rfl) name
    show (∅ : Std.TreeMap String NodeId)[name]? = ((∅ : Graph).specialNamed? name).or
      ((∅ : Std.TreeMap String NodeId)[name]?.or (∅ : Std.TreeMap String NodeId)[name]?)
    rw [hspecial, Std.TreeMap.getElem?_emptyc]
    rfl

theorem getElem?_push_of_append {α : Type} {xs : List α} {ys : Array α}
    (h : ∀ {i : Nat} {a}, xs[i]? = some a → ys[i]? = some a) (hsize : ys.size = xs.length) {x a : α} {i : Nat}
    (hi : (xs ++ [x])[i]? = some a) : (ys.push x)[i]? = some a := by
  rw [Array.getElem?_push, hsize]
  split
  · rename_i heq
    rwa [heq, List.getElem?_concat_length] at hi
  · rename_i hne
    have hlt : i < xs.length := by
      have := (List.getElem?_eq_some_iff.mp hi).1
      rw [List.length_append, List.length_singleton] at this
      omega
    rw [List.getElem?_append_left hlt] at hi
    exact h hi

theorem Laid.addValue {types : List TypeDesc} {done : List String} (h : b.Laid { types, values := done })
    (hstmts : b.graph.stmts.size = 0) {name : String} (hadd : b.addValue name = .ok c) :
    c.Laid { types, values := done ++ [name] } := by
  have hspecial := h.no_special rfl
  have hnone := Graph.specials_eq_nil hspecial
  have hsize : b.graph.nodes.size = done.length := by
    rw [h.nodeCount, hstmts, hnone]
    rfl
  obtain ⟨-, rfl⟩ := addValue_spec hadd
  refine ⟨fun {i n} hi => ?_, h.mems, ?_, h.memCount, h.special, fun name' => ?_⟩
  · simp only [ProgramDesc.declaredNodes, List.map_append, List.mapIdx_nil, List.append_nil] at hi
    exact getElem?_push_of_append (fun hi => h.nodes (by simpa [ProgramDesc.declaredNodes] using hi))
      (by simpa using hsize) hi
  · show (b.graph.nodes.push _).size = (done ++ [name]).length + 0 + (b.graph.stmts.size + b.graph.specials.length)
    rw [Array.size_push, List.length_append, List.length_singleton, hstmts, hnone, hsize]
    rfl
  · have hold := h.bound name'
    rw [Graph.specialNamed?_eq_none hspecial] at hold
    show (b.graph.names.insert name b.graph.nodes.size)[name']? = (b.graph.specialNamed? name').or
      ((b.valueIds.insert name b.graph.nodes.size)[name']?.or b.objectIds[name']?)
    rw [Graph.specialNamed?_eq_none hspecial, getElem?_insert_name, getElem?_insert_name, hold]
    split
    · rfl
    · rfl

theorem Laid.addObject {types : List TypeDesc} {values : List String} {done : List ObjectDesc}
    (h : b.Laid { types, values, objects := done }) (hstmts : b.graph.stmts.size = 0) {o : ObjectDesc}
    (hadd : b.addObject o = .ok c) : c.Laid { types, values, objects := done ++ [o] } := by
  have hold := h.no_special rfl
  have hsize : b.graph.nodes.size = values.length + done.length := by
    rw [h.nodeCount, hstmts, Graph.specials_eq_nil hold]
    rfl
  have hmemSize : b.graph.mems.size = done.length := by
    rw [h.memCount, Graph.specials_eq_nil hold]
    rfl
  obtain ⟨-, hvalue, -⟩ := addObject_ok_iff.mp ⟨c, hadd⟩
  obtain ⟨-, ha⟩ := addObject_spec hadd
  have hname : o.memory.name = o.name := by
    unfold ObjectDesc.memory
    split <;> rfl
  have hspecial : ∀ which, c.graph.special? which = none := by
    intro which
    rw [← find?_special, ha.find, ref_of_declared, if_neg (by simp), find?_special]
    exact hold which
  refine ⟨fun {i n} hi => ?_, fun {j m} hj => ?_, ?_, ?_, fun which => ?_, fun name => ?_⟩
  · rw [ha.nodes, hname, hmemSize]
    refine getElem?_push_of_append h.nodes ?_ ?_
    · simpa [ProgramDesc.declaredNodes] using hsize
    · simpa [ProgramDesc.declaredNodes, List.mapIdx_append] using hi
  · rw [ha.mems]
    refine getElem?_push_of_append h.mems ?_ ?_
    · simpa using hmemSize
    · simpa using hj
  · rw [ha.nodes, ha.stmts, hstmts, Graph.specials_eq_nil hspecial, Array.size_push, hsize,
      List.length_append]
    rfl
  · rw [ha.mems, Graph.specials_eq_nil hspecial, Array.size_push, hmemSize, List.length_append]
    rfl
  · rw [hspecial]
    simp [ProgramDesc.objectNames]
  · have hbound := h.bound name
    rw [Graph.specialNamed?_eq_none hold, Option.none_or] at hbound
    rw [Graph.specialNamed?_eq_none hspecial, Option.none_or, ha.names, hname, getElem?_insert_name,
      addObject_objectIds hadd, ha.valueIds, hbound]
    split
    · rename_i heq
      rw [heq, Std.TreeMap.getElem?_eq_none hvalue, Option.none_or]
    · rfl

/-! ### Seeds -/

theorem objects_seeds {names : List String} {ids : List NodeId} (h : b.objects names = .ok (ids, c)) :
    c.graph.seeds = b.graph.seeds := by
  induction names generalizing b ids with
  | nil =>
    cases h
    rfl
  | cons name names ih =>
    simp only [Builder.objects, bind_eq_ok, pure_eq_ok] at h
    obtain ⟨⟨id, b₁⟩, hid, ⟨rest, b₂⟩, hrest, h⟩ := h
    cases h
    obtain ⟨-, rfl | ⟨which, -, -, ha⟩⟩ := object_spec hid
    · exact ih hrest
    · exact (ih hrest).trans ha.seeds

/-- The seeds are the described ones, in the same order. -/
def SeedsInOrder (d : ProgramDesc) (b : Builder) : Prop :=
  List.Forall₂ (fun (r : String × String) (s : NodeId × NodeId) =>
    b.valueIds[r.1]? = some s.1 ∧ b.find? (.ofName r.2) = some s.2) d.seedPairs b.graph.seeds.toList

theorem Encodes.seedsInOrder (he : b.Encodes d) (hseeds : d.seeds = []) : b.SeedsInOrder d := by
  have hnil : b.graph.seeds.toList = [] := by
    refine List.eq_nil_iff_forall_not_mem.mpr fun ⟨v, o⟩ hmem => ?_
    obtain ⟨sd, hsd, -⟩ := he.seeds.described hmem
    rw [hseeds] at hsd
    cases hsd
  rw [SeedsInOrder, hnil, ProgramDesc.seedPairs, hseeds]
  exact .nil

theorem SeedsInOrder.addSeed (h : b.SeedsInOrder d) (he : b.Encodes d) {sd : SeedDesc}
    (hadd : b.addSeed sd = .ok c) : c.SeedsInOrder { d with seeds := d.seeds ++ [sd] } := by
  simp only [Builder.addSeed, bind_eq_ok, pure_eq_ok] at hadd
  obtain ⟨v, hv, ⟨objs, b₁⟩, hobjs, hadd⟩ := hadd
  cases hadd
  obtain ⟨-, hg, hids⟩ := he.objects hobjs
  obtain ⟨S, hS, hlist⟩ := foldl_seed v objs b₁.graph
  simp only [hS]
  have hfind : ∀ r, find? { b₁ with graph := { b₁.graph with seeds := S } } r = b₁.find? r :=
    find?_congr rfl rfl rfl
  rw [objects_seeds hobjs] at hlist
  have hpairs : ProgramDesc.seedPairs { d with seeds := d.seeds ++ [sd] } =
      d.seedPairs ++ sd.objs.map fun name => (sd.value, name) := by
    simp [ProgramDesc.seedPairs]
  simp only [SeedsInOrder, hpairs, hlist, hfind]
  refine List.rel_append (h.imp fun _ _ hold => ⟨hg.valueIds hold.1, hg.find hold.2⟩) ?_
  rw [List.forall₂_map_left_iff, List.forall₂_map_right_iff]
  exact hids.imp fun _ _ hid => ⟨hg.valueIds (value_spec hv), hid⟩

end Builder

/-- Everything that is known of the builder of a program. -/
theorem Program.build_laid {d : ProgramDesc} {p : Program} (h : Program.build d = .ok p) :
    ∃ b : Builder, b.toProgram = p ∧ b.Encodes d ∧ b.Knows d ∧ b.Laid d ∧ b.SeedsInOrder d := by
  refine Program.build_induction
    (I := fun d b => b.Encodes d ∧ b.Knows d ∧ b.Laid d ∧ b.SeedsInOrder d) h ?_ ?_ ?_ ?_ ?_ ?_
  · have he := Builder.encodes_empty d.types
    exact ⟨he, Builder.knows_empty _, Builder.laid_types, he.seedsInOrder rfl⟩
  · rintro done name b c ⟨he, hk, hl, -⟩ hadd
    have he' := he.addValue hadd
    exact ⟨he', hk.addValue hadd, hl.addValue he.stmts.count.symm hadd, he'.seedsInOrder rfl⟩
  · rintro done o b c ⟨he, hk, hl, -⟩ hadd
    have he' := he.addObject hadd
    exact ⟨he', hk.addObject hadd, hl.addObject he.stmts.count.symm hadd, he'.seedsInOrder rfl⟩
  · rintro done sd b c ⟨he, hk, hl, -⟩ hadd
    have he' := he.addStmt hadd
    exact ⟨he', hk.addStmt hadd, hl.addStmt he hadd, he'.seedsInOrder rfl⟩
  · rintro done f b c ⟨he, hk, hl, -⟩ hadd
    have he' := he.addFlow hadd
    exact ⟨he', (hk.sameNames (Builder.sameNames_addFlow hadd)).flows_seeds, hl.addFlow he hadd, he'.seedsInOrder rfl⟩
  · rintro done sd b c ⟨he, hk, hl, hs⟩ hadd
    exact ⟨he.addSeed hadd, (hk.sameNames (Builder.sameNames_addSeed hadd)).flows_seeds, hl.addSeed hadd,
      hs.addSeed he hadd⟩

/-! ### Looking up names -/

theorem forall₂_getElem? {α β : Type} {R : α → β → Prop} {xs : List α} {ys : List β} (h : List.Forall₂ R xs ys)
    {i : Nat} {x : α} (hx : xs[i]? = some x) : ∃ y, ys[i]? = some y ∧ R x y := by
  induction h generalizing i with
  | nil => simp at hx
  | cons hab _ ih =>
    cases i with
    | zero =>
      cases hx
      exact ⟨_, rfl, hab⟩
    | succ i => exact ih hx

/-- The declaration of the name makes the node, which stands at this place. -/
inductive ProgramDesc.Declares (d : ProgramDesc) : String → NodeId → Node → Prop where
  | value {i : Nat} {name : String} : d.values[i]? = some name → Declares d name i (.value name)
  | object {j : Nat} {o : ObjectDesc} : d.objects[j]? = some o →
      Declares d o.name (d.values.length + j) (.object ⟨o.kind, j, o.name⟩)

namespace Builder

variable {d : ProgramDesc} {b : Builder}

theorem Laid.getElem?_nodes (hl : b.Laid d) {name : String} {id : NodeId} {n : Node}
    (h : d.Declares name id n) : b.graph.nodes[id]? = some n := by
  cases h with
  | value hi => exact hl.nodes (ProgramDesc.declaredNodes_value hi)
  | object hj => exact hl.nodes (ProgramDesc.declaredNodes_object hj)

theorem Laid.valueIds_eq (hl : b.Laid d) (hn : b.Named d.objects) {i : Nat} {name : String}
    (hi : d.values[i]? = some name) : b.valueIds[name]? = some i :=
  hn.values.mpr (hl.getElem?_nodes (.value hi))

theorem Laid.objectIds_eq (hl : b.Laid d) (hn : b.Named d.objects) {j : Nat} {o : ObjectDesc}
    (hj : d.objects[j]? = some o) : b.objectIds[o.name]? = some (d.values.length + j) := by
  refine hn.refs (r := .declared o.name) |>.mpr ⟨_, Graph.obj_eq_ok.mpr (hl.getElem?_nodes (.object hj)), ?_⟩
  rw [ObjNode.ref, ObjectDesc.kind]
  cases o.dummy <;> rfl

/-- A known value is the declared one. -/
theorem Laid.value_of_valueIds (hl : b.Laid d) (hn : b.Named d.objects) (hk : b.Knows d) {name : String}
    {v : NodeId} (hv : b.valueIds[name]? = some v) : d.values[v]? = some name := by
  have hmem : name ∈ d.values := by
    rw [← hk.values, Std.TreeMap.mem_iff_isSome_getElem?, hv]
    rfl
  obtain ⟨i, hi⟩ := List.mem_iff_getElem?.mp hmem
  rw [hl.valueIds_eq hn hi] at hv
  exact Option.some.inj hv ▸ hi

/-- The graph's table leads a declared name to its node, unless the name is that of a special object
    which the description uses. -/
theorem Laid.names_eq (hl : b.Laid d) (hn : b.Named d.objects) (hk : b.Knows d) (hwf : d.WellFormed)
    {name : String} {id : NodeId} {n : Node} (h : d.Declares name id n)
    (hunused : ∀ which : SpecialObject, name = which.memory.name → name ∉ d.objectNames) :
    b.graph.names[name]? = some id := by
  have hspecial : b.graph.specialNamed? name = none := by
    unfold Graph.specialNamed?
    split
    · rename_i which hname
      rw [ObjRef.ofName_eq_special] at hname
      rw [← Option.not_isSome_iff_eq_none, hl.special, ← hname]
      exact hunused which hname
    · rfl
  rw [hl.bound, hspecial, Option.none_or]
  cases h with
  | value hi => rw [hl.valueIds_eq hn hi, Option.some_or]
  | @object j o hj =>
    have hvalue : o.name ∉ b.valueIds := by
      rw [hk.values]
      exact hwf.apart o (List.mem_of_getElem? hj)
    rw [Std.TreeMap.getElem?_eq_none hvalue, Option.none_or, hl.objectIds_eq hn hj]

/-- A special object that is used: the graph's table leads its name to it, and no declaration made it. -/
theorem Laid.special_spec (hl : b.Laid d) (hn : b.Named d.objects) {which : SpecialObject}
    (hused : which.memory.name ∈ d.objectNames) : ∃ id o, b.graph.special? which = some id ∧
      b.graph.obj id = .ok o ∧ o.kind = .special which ∧
      b.graph.names[which.memory.name]? = some id ∧ ∀ name n, ¬ d.Declares name id n := by
  obtain ⟨id, hid⟩ := Option.isSome_iff_exists.mp ((hl.special which).mpr hused)
  obtain ⟨o, ho, href⟩ := hn.refs.mp ((find?_special which).trans hid)
  have hkind := ObjNode.kind_of_ref href
  refine ⟨id, o, hid, ho, hkind, ?_, fun name n h => ?_⟩
  · rw [hl.bound, Graph.specialNamed?, ObjRef.ofName_eq_special.mpr rfl]
    simp only [hid, Option.some_or]
  · have hnode := hl.getElem?_nodes h
    rw [Graph.obj_eq_ok.mp ho, Option.some.injEq] at hnode
    cases h with
    | value hi => cases hnode
    | @object j od hj =>
      cases hnode
      simp only [ObjectDesc.kind] at hkind
      split at hkind <;> cases hkind

end Builder

/-- Names in the program of a description. The nodes of the declarations stand in their order, and the
    graph's table leads each declared name to its node, unless it is `blackhole` or `constant` and the
    description uses that as an object. Any other name of a declared object means the declared object
    wherever it is used: where a statement takes its address, in the label of a flow, and in a seed. A
    special object that is used has a node of its own, to which the table leads its name. -/
theorem names_lead_to_declarations {d : ProgramDesc} {p : Program} (hbuild : Program.build d = .ok p) :
    (∀ name id n, d.Declares name id n → p.graph.nodes[id]? = some n ∧
      ((∀ which : SpecialObject, name = which.memory.name → name ∉ d.objectNames) →
        p.graph.names[name]? = some id)) ∧
    (∀ name id o, d.Declares name id (.object o) → (∀ which : SpecialObject, name ≠ which.memory.name) →
      (∀ (i : Nat) (sd : StmtDesc) dst, d.statements[i]? = some sd → sd.kind = .addr name dst → ∃ st v,
        p.graph.stmts[i]? = some st ∧ p.graph.stmt st = .ok ⟨.addr id v, none⟩ ∧ d.values[v]? = some dst) ∧
      (∀ f ∈ d.flows, name ∈ f.objs → ∃ s t, p.stmtIds[f.src]? = some s ∧ p.stmtIds[f.dst]? = some t ∧
        p.graph.FlowsTo s t id) ∧
      ∀ (k : Nat) value, d.seedPairs[k]? = some (value, name) → ∃ v, p.graph.seeds[k]? = some (v, id) ∧
        d.values[v]? = some value) ∧
    ∀ which : SpecialObject, which.memory.name ∈ d.objectNames → ∃ id o,
      p.graph.special? which = some id ∧ p.graph.obj id = .ok o ∧ o.kind = .special which ∧
      p.graph.names[which.memory.name]? = some id ∧ ∀ name n, ¬ d.Declares name id n := by
  have hwf := (Program.build_ok_iff.mp ⟨p, hbuild⟩).2
  obtain ⟨b, rfl, he, hk, hl, hs⟩ := Program.build_laid hbuild
  have hn := he.named
  refine ⟨fun name id n h => ⟨hl.getElem?_nodes h, hl.names_eq hn hk hwf h⟩, ?_, fun which => hl.special_spec hn⟩
  intro name id o h hname
  have hfind : b.find? (.ofName name) = some id := by
    have hdeclared : ObjRef.ofName name = .declared name := by
      have hblack : name ≠ "blackhole" := hname .blackHole
      have hconst : name ≠ "constant" := hname .constant
      rw [ObjRef.ofName, if_neg hblack, if_neg hconst]
    rw [hdeclared]
    cases h with
    | object hj => exact hl.objectIds_eq hn hj
  refine ⟨fun i sd dst hsd hkind => ?_, fun f hf hmem => ?_, fun k value hpair => ?_⟩
  · have hlt : i < b.graph.stmts.size := he.stmts.count ▸ (List.getElem?_eq_some_iff.mp hsd).1
    obtain ⟨n, hstmt, hr⟩ := he.stmts.resolves hsd (Array.getElem?_eq_getElem hlt)
    rw [hkind] at hr
    obtain ⟨o', v, ho', hv, rfl⟩ := hr
    obtain rfl := Option.some.inj (hfind.symm.trans ho')
    exact ⟨_, v, Array.getElem?_eq_getElem hlt, hstmt, hl.value_of_valueIds hn hk hv⟩
  · obtain ⟨s, t, hs, ht, hlabel⟩ := he.flows.present f hf
    obtain ⟨l, hl', hflow⟩ := hlabel name hmem
    obtain rfl := Option.some.inj (hfind.symm.trans hl')
    exact ⟨s, t, hs, ht, hflow⟩
  · obtain ⟨⟨v, o'⟩, hseed, hv, ho'⟩ := forall₂_getElem? hs hpair
    obtain rfl := Option.some.inj (hfind.symm.trans ho')
    exact ⟨v, Array.getElem?_toList ▸ hseed, hl.value_of_valueIds hn hk hv⟩

/-- A value and an object that have the names of special objects, which are used too. -/
def impostors : ProgramDesc where
  objects := [{ name := "x", alloc := .stack }, { name := "constant", alloc := .global }]
  values := ["p", "blackhole"]
  statements := [{ id := some "s", kind := .addr "x" "p" }, { id := some "t", kind := .addr "constant" "p" },
    { kind := .addr "blackhole" "p" }]
  flows := [{ src := "s", dst := "t", objs := ["constant", "x"] }]
  seeds := [{ value := "blackhole", objs := ["constant", "x"] }]

/-- The third node is the object `x`, and all that names it means that node. -/
theorem impostors_names : ∃ p, Program.build impostors = .ok p ∧
    impostors.Declares "x" 2 (.object ⟨.base, 0, "x"⟩) ∧ p.graph.names["x"]? = some 2 ∧
    p.graph.nodes[2]? = some (.object ⟨.base, 0, "x"⟩) ∧
    (∃ st v, p.graph.stmts[0]? = some st ∧ p.graph.stmt st = .ok ⟨.addr 2 v, none⟩) ∧
    (∃ s t, p.stmtIds["s"]? = some s ∧ p.stmtIds["t"]? = some t ∧ p.graph.FlowsTo s t 2) ∧
    (∃ v, p.graph.seeds[1]? = some (v, 2)) ∧
    ∃ id, p.graph.special? .blackHole = some id ∧ p.graph.names["blackhole"]? = some id := by
  have hok : (Program.build impostors).map (fun _ => ()) = .ok () := by decide +kernel
  obtain ⟨p, hbuild, -⟩ := map_eq_ok.mp hok
  obtain ⟨hnodes, huses, hspecial⟩ := names_lead_to_declarations hbuild
  have hx : impostors.Declares "x" 2 (.object ⟨.base, 0, "x"⟩) :=
    .object (j := 0) (o := { name := "x", alloc := .stack }) rfl
  have hname : ∀ which : SpecialObject, "x" ≠ which.memory.name := by
    intro which
    cases which <;> decide
  obtain ⟨haddr, hflow, hseed⟩ := huses "x" 2 _ hx hname
  obtain ⟨st, v, hst, hstmt, -⟩ := haddr 0 _ "p" rfl rfl
  obtain ⟨v', hv', -⟩ := hseed 1 "blackhole" (by decide)
  obtain ⟨id, -, hid, -, -, hbound, -⟩ := hspecial .blackHole (by decide)
  exact ⟨p, hbuild, hx, (hnodes _ _ _ hx).2 fun which h => absurd h (hname which), (hnodes _ _ _ hx).1,
    ⟨st, v, hst, hstmt⟩, hflow _ (List.mem_singleton_self _) (by decide), ⟨v', hv'⟩, id, hid, hbound⟩

/-- The object that is declared as `constant` is not the one whose address is taken under that name,
    and the graph's table does not lead `blackhole` to the value of that name. -/
theorem impostors_are_ignored : ∃ p, Program.build impostors = .ok p ∧
    impostors.Declares "constant" 3 (.object ⟨.base, 1, "constant"⟩) ∧
    impostors.statements[1]? = some { id := some "t", kind := .addr "constant" "p" } ∧
    p.graph.stmts[1]? = some 6 ∧ p.graph.stmt 6 = .ok ⟨.addr 5 0, none⟩ ∧
    impostors.Declares "blackhole" 1 (.value "blackhole") ∧ p.graph.names["blackhole"]? = some 7 := by
  have hcheck : (Program.build impostors).map (fun p => (p.graph.stmts[1]?, p.graph.nodes[6]?,
      p.graph.names["blackhole"]?)) = .ok (some 6, some (.stmt ⟨.addr 5 0, none⟩), some 7) := by
    decide +kernel
  obtain ⟨p, hbuild, hp⟩ := map_eq_ok.mp hcheck
  simp only [Prod.mk.injEq] at hp
  obtain ⟨hstmts, hstmt, hname⟩ := hp
  exact ⟨p, hbuild, .object (j := 1) (o := { name := "constant", alloc := .global }) rfl, rfl, hstmts,
    Graph.stmt_eq_ok.mpr hstmt, .value rfl, hname⟩

end PointsTo
