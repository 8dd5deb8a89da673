import PointsTo.Proofs.Building
import PointsTo.Proofs.FixedPoint
import PointsTo.Proofs.Rules

/-! What the nodes of an analysis stand for.

    As long as all allocations keep their fields, every object stands for a place, its clones for the
    same one, and what a state knows can be told in the words of the description. Without types there
    are no clones, and an object is known by its place. -/

namespace PointsTo

/-! ### Descriptions and graphs -/

namespace Builder.Encodes

variable {d : ProgramDesc} {b : Builder}

/-- Every statement of the graph stands at some position of the description. -/
theorem position (he : b.Encodes d) {st : NodeId} {n : StmtNode} (hst : st ∈ b.graph.stmts.toList)
    (hn : b.graph.stmt st = .ok n) : ∃ i kind, b.graph.stmts[i]? = some st ∧ d.kindAt? i = some kind ∧
      b.Resolves kind n := by
  obtain ⟨i, sd, hsd, hi, hr⟩ := he.exists_desc hst hn
  exact ⟨i, sd.kind, hi, by rw [ProgramDesc.kindAt?, hsd]; rfl, hr⟩

/-- At every position of the description stands a statement of the graph. -/
theorem statement (he : b.Encodes d) {i : Nat} {kind : StmtKindDesc} (hk : d.kindAt? i = some kind) :
    ∃ st n, b.graph.stmts[i]? = some st ∧ st ∈ b.graph.stmts.toList ∧ b.graph.stmt st = .ok n ∧
      b.Resolves kind n := by
  obtain ⟨sd, hsd, rfl⟩ := Option.map_eq_some_iff.mp hk
  have hlt : i < b.graph.stmts.size := by
    rw [← he.stmts.count]
    exact (List.getElem?_eq_some_iff.mp hsd).1
  have hst := Array.getElem?_eq_getElem hlt
  obtain ⟨n, hn, hr⟩ := he.stmts.resolves hsd hst
  exact ⟨_, n, hst, by simp, hn, hr⟩

theorem position_unique (he : b.Encodes d) {i j : Nat} {st : NodeId}
    (hi : b.graph.stmts[i]? = some st) (hj : b.graph.stmts[j]? = some st) : i = j := by
  rw [← Array.getElem?_toList] at hi hj
  exact (List.getElem?_inj (List.getElem?_eq_some_iff.mp hi).1 he.wired.nodup).mp (hi.trans hj.symm)

theorem stmtIds_iff (he : b.Encodes d) {name : String} {st : NodeId} :
    b.stmtIds[name]? = some st ↔ ∃ i, b.graph.stmts[i]? = some st ∧ d.idAt? i = some name := by
  rw [he.stmts.ids]
  constructor
  · rintro ⟨i, sd, hsd, hid, hst⟩
    exact ⟨i, hst, by simp [ProgramDesc.idAt?, hsd, hid]⟩
  · rintro ⟨i, hst, hid⟩
    obtain ⟨sd, hsd, hid⟩ := Option.bind_eq_some_iff.mp hid
    exact ⟨i, sd, hsd, hid, hst⟩

theorem stmtId (he : b.Encodes d) {i : Nat} {name : String} (hid : d.idAt? i = some name) :
    ∃ st, b.graph.stmts[i]? = some st ∧ b.stmtIds[name]? = some st := by
  obtain ⟨sd, hsd, -⟩ := Option.bind_eq_some_iff.mp hid
  obtain ⟨st, -, hst, -⟩ := he.statement (show d.kindAt? i = some sd.kind by simp [ProgramDesc.kindAt?, hsd])
  exact ⟨st, hst, he.stmtIds_iff.mpr ⟨i, hst, hid⟩⟩

theorem value_unique (he : b.Encodes d) {name : String} {v w : NodeId} (hv : b.valueIds[name]? = some v)
    (hw : b.graph.nodes[w]? = some (.value name)) : v = w :=
  Option.some.inj (hv.symm.trans (he.named.values.mpr hw))

theorem name_unique (he : b.Encodes d) {name name' : String} {v : NodeId}
    (hv : b.valueIds[name]? = some v) (hv' : b.graph.nodes[v]? = some (.value name')) : name = name' := by
  have := (he.named.values.mp hv).symm.trans hv'
  simpa using this

theorem ref_unique (he : b.Encodes d) {x y : NodeId} {o o' : ObjNode} (hx : b.graph.obj x = .ok o)
    (hy : b.graph.obj y = .ok o') (href : o.ref = o'.ref) : x = y :=
  Option.some.inj ((he.named.refs.mpr ⟨o, hx, href⟩).symm.trans (he.named.refs.mpr ⟨o', hy, rfl⟩))

/-- A name is declared once. -/
theorem memory_unique (he : b.Encodes d) {r : ObjRef} {m m' : Memory} (hm : IsMemory d.objects r m)
    (hm' : IsMemory d.objects r m') : m = m' := by
  cases r with
  | special which => exact Eq.trans hm (Eq.symm hm')
  | declared name =>
    obtain ⟨o, ho, rfl, rfl⟩ := hm
    obtain ⟨o', ho', hname, rfl⟩ := hm'
    obtain ⟨x, ox, hx, href, hmem⟩ := he.named.declared o ho
    obtain ⟨y, oy, hy, href', hmem'⟩ := he.named.declared o' ho'
    obtain rfl := he.ref_unique hx hy (by rw [href, href', hname])
    obtain rfl := ok_unique hx hy
    rw [← hmem, ← hmem']

end Builder.Encodes

/-! ### Places of objects -/

/-- The place that an object stands for. -/
def Graph.place? (g : Graph) (x : NodeId) : Option Place :=
  match g.obj x with
  | .error _ => none
  | .ok o =>
    match o.kind with
    | .field base k => (g.obj base).toOption.map fun w => ⟨w.ref, some k⟩
    | .base | .dummy | .special _ => some ⟨o.ref, none⟩

namespace Graph

variable {g g' : Graph} {x base : NodeId} {o w : ObjNode} {k : Nat} {P : Place}

theorem place?_of_whole (ho : g.obj x = .ok o) (hf : o.isField = false) :
    g.place? x = some ⟨o.ref, none⟩ := by
  unfold place?
  rw [ho]
  cases hk : o.kind with
  | field base k => simp [ObjNode.isField, hk] at hf
  | base | dummy | special w => simp [hk]

theorem place?_of_field (ho : g.obj x = .ok o) (hk : o.kind = .field base k)
    (hw : g.obj base = .ok w) : g.place? x = some ⟨w.ref, some k⟩ := by
  unfold place?
  simp [ho, hk, hw, Except.toOption]

/-- The place of an object depends on its node only. -/
theorem place?_congr {y : NodeId} (hx : g.obj x = .ok o) (hy : g.obj y = .ok o) :
    g.place? x = g.place? y := by
  unfold place?
  rw [hx, hy]

theorem hasObj_of_place? (h : g.place? x = some P) : g.HasObj x := by
  unfold place? at h
  cases ho : g.obj x with
  | error e => simp [ho] at h
  | ok o => exact ⟨o, ho⟩

/-- The place of an object never changes. -/
theorem Grows.place? (hg : g.Grows g') (h : g.place? x = some P) : g'.place? x = some P := by
  obtain ⟨o, ho⟩ := hasObj_of_place? h
  have ho' := hg.obj ho
  unfold Graph.place? at h ⊢
  simp only [ho, ho'] at h ⊢
  cases hk : o.kind with
  | base | dummy | special w => simpa [hk] using h
  | field base k =>
    simp only [hk] at h ⊢
    cases hw : g.obj base with
    | error e => simp [hw, Except.toOption] at h
    | ok w =>
      rw [hg.obj hw]
      rwa [hw] at h

end Graph

/-! ### States that keep all fields -/

namespace Solver

/-- A state in which all allocations have the fields that the description gives them. -/
structure Fielded (d : ProgramDesc) (b : Builder) (types : Hierarchy) (limit : Nat) (s : Solver) :
    Prop where
  encodes : b.Encodes d
  valid : s.Valid b.graph
  hierarchy : s.types = types
  fieldLimit : s.heap.fieldLimit = limit
  firstTypes : ∀ {id : NodeId} {o}, b.graph.obj id = .ok o →
    s.heap.types[id]? = some (b.graph.firstType types o)
  fields : ∀ m, (s.graph.mem m).fieldInsensitive = (b.graph.mem m).fieldInsensitive

namespace Fielded

variable {d : ProgramDesc} {b : Builder} {types : Hierarchy} {limit : Nat} {s : Solver}

theorem of_reached {options : Options} {s₀ : Solver} (he : b.Encodes d)
    (hs : Started b.graph types options s₀) (hr : Reached b.graph s₀ s)
    (hfields : ∀ m, ¬ Collapsed b.graph s m) : Fielded d b types options.maxFieldLimit s where
  encodes := he
  valid := hr.valid
  hierarchy := hr.types.trans hs.types
  fieldLimit := hr.heap.fieldLimit.trans hs.fieldLimit
  firstTypes ho := (hr.heap.types (hs.graph ▸ ⟨_, ho⟩)).trans (hs.firstTypes ho)
  fields m := by
    cases hfi : (b.graph.mem m).fieldInsensitive with
    | true => exact hr.valid.heap.grows.collapsed hfi
    | false => exact Bool.not_eq_true _ ▸ fun h => hfields m ⟨hfi, h⟩

theorem mem_eq (hp : Fielded d b types limit s) (m : MemId) : s.graph.mem m = b.graph.mem m := by
  have hsame := hp.valid.heap.grows.mem m
  have hfi := hp.fields m
  simp only [Solver.graph] at hfi ⊢
  generalize s.heap.graph.mem m = m₁ at hsame hfi ⊢
  generalize b.graph.mem m = m₂ at hsame hfi ⊢
  cases m₁
  cases m₂
  simp_all [Memory.uncollapsed]

/-- Whole objects are objects of the program, or clones of such. -/
theorem whole (hp : Fielded d b types limit s) {x : NodeId} {o : ObjNode} (ho : s.graph.obj x = .ok o)
    (hf : o.isField = false) : b.graph.obj (s.heap.prototype x) = .ok o := by
  obtain ⟨hproto, hnone⟩ := hp.valid.heap.prototype ho
  exact (hp.valid.heap.grows.obj_cases hproto).resolve_right
    (Nat.not_le_of_lt (hp.valid.heap.root hproto hf hnone))

/-- An object stands for a whole object of the program, or for a field of one that tells its fields
    apart. -/
theorem place_cases (hp : Fielded d b types limit s) {x : NodeId} {o : ObjNode}
    (ho : s.graph.obj x = .ok o) :
    (b.graph.obj (s.heap.prototype x) = .ok o ∧ o.isField = false ∧
      s.graph.place? x = some ⟨o.ref, none⟩) ∨
    ∃ r k w, o.kind = .field r k ∧ k < limit ∧ s.graph.obj r = .ok w ∧
      b.graph.obj (s.heap.prototype r) = .ok w ∧ w.mem = o.mem ∧
      (b.graph.mem o.mem).fieldInsensitive = false ∧ s.graph.place? x = some ⟨w.ref, some k⟩ := by
  cases hk : o.kind with
  | base | dummy | special which =>
    have hf : o.isField = false := by simp [ObjNode.isField, hk]
    exact Or.inl ⟨hp.whole ho hf, hf, Graph.place?_of_whole ho hf⟩
  | field r k =>
    obtain ⟨hlt, w, hw, hf, hm⟩ := hp.valid.heap.fieldOf ho hk
    have hopened := hp.valid.heap.opened ho (by simp [ObjNode.isField, hk])
    exact Or.inr ⟨r, k, w, rfl, hp.fieldLimit ▸ hlt, hw, hp.whole hw hf, hm, hopened,
      Graph.place?_of_field ho hk hw⟩

theorem place (hp : Fielded d b types limit s) {x : NodeId} (hx : s.graph.HasObj x) :
    ∃ P, s.graph.place? x = some P := by
  obtain ⟨o, ho⟩ := hx
  rcases hp.place_cases ho with ⟨-, -, hP⟩ | ⟨_, _, _, -, -, -, -, -, -, hP⟩
  · exact ⟨_, hP⟩
  · exact ⟨_, hP⟩

/-- The allocation of an object is the one that its declaration gives. -/
theorem memory (hp : Fielded d b types limit s) {x : NodeId} {o : ObjNode} {P : Place}
    (ho : s.graph.obj x = .ok o) (hP : s.graph.place? x = some P) :
    IsMemory d.objects P.root (s.graph.mem o.mem) := by
  rw [hp.mem_eq]
  rcases hp.place_cases ho with ⟨hb, -, hP'⟩ | ⟨r, k, w, -, -, -, hw, hm, -, hP'⟩ <;>
    rw [hP, Option.some.injEq] at hP' <;> subst hP'
  · exact hp.encodes.named.memory hb
  · rw [← hm]
    exact hp.encodes.named.memory hw

/-- Memory that the program does not own has no fields. -/
theorem fieldInsensitive_of_special (hp : Fielded d b types limit s) {x : NodeId} {o : ObjNode}
    (ho : s.graph.obj x = .ok o) (hs : o.isSpecial = true) :
    (s.graph.mem o.mem).fieldInsensitive = true := by
  have hwhole : o.isField = false := by
    cases hk : o.kind <;> simp_all [ObjNode.isSpecial, ObjNode.isField]
  rw [hp.mem_eq]
  exact hp.encodes.named.fieldInsensitive_of_special (hp.whole ho hwhole) hs

/-- The place of an object tells whether the program owns it. -/
theorem special_iff (hp : Fielded d b types limit s) {x : NodeId} {o : ObjNode} {P : Place}
    (ho : s.graph.obj x = .ok o) (hP : s.graph.place? x = some P) (which : SpecialObject) :
    P.root = .special which ↔ o.kind = .special which := by
  have href : ∀ o : ObjNode, o.ref = .special which ↔ o.kind = .special which := by
    intro o
    unfold ObjNode.ref
    split <;> simp_all
  rcases hp.place_cases ho with ⟨-, -, hP'⟩ | ⟨r, k, w, hk, -, hw, -, hm, hopened, hP'⟩ <;>
    rw [hP, Option.some.injEq] at hP' <;> subst hP'
  · exact href o
  · refine ⟨fun hroot => ?_, fun h => by rw [hk] at h; cases h⟩
    have hspecial : w.isSpecial = true := by simp [ObjNode.isSpecial, (href w).mp hroot]
    have hfi := hp.fieldInsensitive_of_special hw hspecial
    rw [hp.mem_eq, hm, hopened] at hfi
    cases hfi

theorem isSpecial_iff (hp : Fielded d b types limit s) {x : NodeId} {o : ObjNode} {P : Place}
    (ho : s.graph.obj x = .ok o) (hP : s.graph.place? x = some P) :
    o.isSpecial = false ↔ ∀ which, P.root ≠ .special which := by
  simp only [ne_eq, hp.special_iff ho hP]
  cases hk : o.kind <;> simp [ObjNode.isSpecial, hk]

theorem graph_strong (hp : Fielded d b types limit s) (o : ObjNode) :
    s.graph.strong o = b.graph.strong o := by
  simp only [Graph.strong, hp.mem_eq]

/-- Whether a store overwrites an object depends on its allocation only. -/
theorem strong_eq (hp : Fielded d b types limit s) {x : NodeId} {o : ObjNode}
    (ho : s.graph.obj x = .ok o) : b.graph.strong o = (s.graph.mem o.mem).overwritable := by
  unfold Graph.strong Memory.overwritable
  rw [← hp.mem_eq]
  cases hk : o.kind with
  | base => rfl
  | field r k => rfl
  | dummy =>
    have hb := hp.whole ho (by simp [ObjNode.isField, hk])
    have halloc := hp.encodes.named.placeholder hb hk
    rw [← hp.mem_eq] at halloc
    simp [halloc]
  | special which =>
    have hfi := hp.fieldInsensitive_of_special ho (by simp [ObjNode.isSpecial, hk])
    simp [hfi]

/-- A name refers to a whole object. -/
theorem place?_of_find? (hp : Fielded d b types limit s) {x : NodeId} {name : String}
    (hfind : b.find? (.ofName name) = some x) : s.graph.place? x = some (.whole name) := by
  obtain ⟨o, ho, href⟩ := hp.encodes.named.refs.mp hfind
  rw [Place.whole, ← href]
  exact Graph.place?_of_whole (hp.valid.heap.grows.obj ho) (hp.encodes.named.whole ho)

theorem find?_of_place? (hp : Fielded d b types limit s) {x : NodeId} {name : String}
    (hP : s.graph.place? x = some (.whole name)) :
    b.find? (.ofName name) = some (s.heap.prototype x) := by
  obtain ⟨o, ho⟩ := Graph.hasObj_of_place? hP
  rcases hp.place_cases ho with ⟨hb, -, hP'⟩ | ⟨r, k, w, -, -, -, -, -, -, hP'⟩ <;>
    rw [hP, Option.some.injEq, Place.whole, Place.mk.injEq] at hP'
  · exact hp.encodes.named.refs.mpr ⟨o, hb, hP'.1.symm⟩
  · cases hP'.2

/-- A clone stands for the place of its prototype. -/
theorem place?_of_clone (hp : Fielded d b types limit s) {c x : NodeId} (hx : s.graph.HasObj x)
    (hc : s.heap.prototypes[c]? = some (s.heap.prototype x)) : s.graph.place? c = s.graph.place? x := by
  obtain ⟨ox, hox⟩ := hx
  obtain ⟨-, o, ho, hproto⟩ := hp.valid.heap.clone hc
  obtain rfl := ok_unique hproto (hp.valid.heap.prototype hox).1
  exact Graph.place?_congr ho hox

/-- An allocation without fields is one place. -/
theorem place?_eq_of_mem (hp : Fielded d b types limit s) {x y : NodeId} {o o' : ObjNode}
    (ho : s.graph.obj x = .ok o) (ho' : s.graph.obj y = .ok o') (hm : o.mem = o'.mem)
    (hfi : (s.graph.mem o.mem).fieldInsensitive = true) : s.graph.place? x = s.graph.place? y := by
  rw [hp.mem_eq] at hfi
  rcases hp.place_cases ho with ⟨hb, -, -⟩ | ⟨r, k, w, -, -, -, -, -, hopened, -⟩
  · rcases hp.place_cases ho' with ⟨hb', -, -⟩ | ⟨r, k, w, -, -, -, -, -, hopened, -⟩
    · rw [hp.encodes.named.memInj hb hb' hm] at hb
      exact Graph.place?_congr (ok_unique hb hb' ▸ ho) ho'
    · rw [← hm, hfi] at hopened
      cases hopened
  · rw [hfi] at hopened
    cases hopened

/-- The objects of a label bring along only what stands for their places. -/
theorem place?_of_brings (hp : Fielded d b types limit s) {l x : NodeId} (hl : b.graph.HasObj l)
    (hb : s.heap.Brings l x) : s.graph.place? x = s.graph.place? l := by
  obtain ⟨ol, hol⟩ := hl
  have hol' := hp.valid.heap.grows.obj hol
  rcases hb with rfl | hclone | ⟨o, ho, hwhy⟩
  · exact Graph.place?_congr (hp.valid.heap.prototype hol').1 hol'
  · exact hp.place?_of_clone ⟨ol, hol'⟩ hclone
  · obtain rfl := ok_unique hol' ho
    rcases hwhy with ⟨r, k, hk, -⟩ | ⟨hfi, hx⟩
    · have hwhole := hp.encodes.named.whole hol
      simp [ObjNode.isField, hk] at hwhole
    · obtain ⟨ox, hox, hm⟩ := hp.valid.heap.memObjects.mp hx
      exact (hp.place?_eq_of_mem ho hox hm.symm hfi).symm

/-! ### Projections -/

/-- Whether an object of the program is an array does not depend on what the analysis did. -/
theorem isArrayAt_eq (hp : Fielded d b types limit s) {x : NodeId} {o : ObjNode}
    (hb : b.graph.obj x = .ok o) (hs : o.isSpecial = false) :
    s.heap.isArrayAt s.types x o = (s.graph.mem o.mem).isArrayAt types := by
  have hty : b.graph.firstType types o = (b.graph.mem o.mem).firstType types := by
    simp [Graph.firstType, hs]
  rw [Heap.isArrayAt, Memory.isArrayAt, hp.firstTypes hb, hty, ← hp.mem_eq, hp.hierarchy]
  rfl

/-- A projection to an unknown place leads to the whole object. -/
theorem whole_of_leads (hp : Fielded d b types limit s) {o x : NodeId} {ob : ObjNode} {P : Place}
    (hob : s.graph.obj o = .ok ob) (hP : s.graph.place? o = some P)
    (hl : Leads b.graph s .variant o ob x) : s.graph.place? x = some ⟨P.root, none⟩ := by
  have hx : x = ob.wholeOf o := by
    unfold Leads at hl
    split at hl
    case isTrue hs =>
      have hf : ob.isField = false := by cases hk : ob.kind <;> simp_all [ObjNode.isField, ObjNode.isSpecial]
      rw [ObjNode.wholeOf_of_whole hf]
      exact hl
    case isFalse => exact hl
  subst hx
  rcases hp.place_cases hob with ⟨hb, hf, hP'⟩ | ⟨r, k, w, hk, -, hw, hb, -, -, hP'⟩ <;>
    rw [hP, Option.some.injEq] at hP' <;> subst hP'
  · rw [ObjNode.wholeOf_of_whole hf, hP]
  · simp only [ObjNode.wholeOf, hk]
    exact Graph.place?_of_whole hw (hp.encodes.named.whole hb)

/-- A projection leads from place to place as it is described, if it takes a whole object for an array
    just where its declaration does. -/
theorem project?_of_leads (hp : Fielded d b types limit s) {o x : NodeId} {ob : ObjNode} {k : Nat}
    {P Q : Place} (hob : s.graph.obj o = .ok ob) (hP : s.graph.place? o = some P)
    (harray : k = 0 → ob.isField = false → ob.isSpecial = false →
      (s.graph.mem ob.mem).fieldInsensitive = false →
      s.heap.isArrayAt s.types o ob = (s.graph.mem ob.mem).isArrayAt types)
    (hl : Leads b.graph s (.field k) o ob x) (hQ : s.graph.place? x = some Q) :
    (s.graph.mem ob.mem).project? types limit P k = some Q := by
  unfold Leads at hl
  split at hl
  case isTrue hs =>
    -- Foreign memory is its own field.
    subst hl
    rw [hP, Option.some.injEq] at hQ
    simp [Memory.project?, hp.fieldInsensitive_of_special hob hs, hQ]
  case isFalse hs =>
    have hs : ob.isSpecial = false := by simpa using hs
    rcases hl with ⟨rfl, hwhy⟩ | ⟨root, slot, ox, hslot, hlt, hfi, hopen, hox, hkind⟩
    · rw [hP, Option.some.injEq] at hQ
      subst hQ
      cases hfi : (s.graph.mem ob.mem).fieldInsensitive with
      | true => simp [Memory.project?, hfi]
      | false =>
        obtain ⟨rfl, hnot⟩ := hwhy.resolve_left (by rw [hfi]; decide)
        rcases hp.place_cases hob with ⟨-, hf, hP'⟩ | ⟨r, j, w, -, hlt, -, -, -, -, hP'⟩ <;>
          rw [hP, Option.some.injEq] at hP' <;> subst hP'
        · rw [harray rfl hf hs hfi] at hnot
          simp [Memory.project?, hnot]
        · simp [Memory.project?, hlt]
    · rw [hp.fieldLimit] at hlt
      rw [← hp.mem_eq] at hfi
      rcases hp.place_cases hob with ⟨-, hf, hP'⟩ | ⟨r, j, w, hk, -, hw, -, -, -, hP'⟩ <;>
        rw [hP, Option.some.injEq] at hP' <;> subst hP'
      · have hopen' : ¬ (k = 0 ∧ (s.graph.mem ob.mem).isArrayAt types = false) := fun ⟨hk, hnot⟩ =>
          hopen ⟨hk, (harray hk hf hs hfi).trans hnot⟩
        obtain ⟨rfl, rfl⟩ : o = root ∧ k = slot := by
          simpa using (Heap.slotOf_of_whole hf).symm.trans hslot
        rw [Graph.place?_of_field hox hkind hob, Option.some.injEq] at hQ
        simp only [Memory.project?, hfi, ← hQ]
        simp [hlt, hopen']
      · rw [hk, Heap.slotOf_field_eq_ok] at hslot
        obtain ⟨rfl, rfl, -⟩ := hslot
        rw [Graph.place?_of_field hox hkind hw, Option.some.injEq] at hQ
        simp [Memory.project?, hfi, ← hQ, hlt]

end Fielded

/-! ### Plain states -/

/-- A state of an analysis without types in which all allocations have the fields that the
    description gives them. -/
structure Plain (d : ProgramDesc) (b : Builder) (types : Hierarchy) (limit : Nat) (s : Solver) : Prop
    extends Fielded d b types limit s where
  untyped : s.options.typed = false

namespace Plain

variable {d : ProgramDesc} {b : Builder} {types : Hierarchy} {limit : Nat} {s : Solver}

theorem of_reached {options : Options} {s₀ : Solver} (he : b.Encodes d)
    (hs : Started b.graph types options s₀) (huntyped : options.typed = false)
    (hr : Reached b.graph s₀ s)
    (hfields : ∀ m, ¬ Collapsed b.graph s m) : Plain d b types options.maxFieldLimit s where
  toFielded := .of_reached he hs hr hfields
  untyped := by rw [hr.options, hs.options, huntyped]

theorem prototypes (hp : Plain d b types limit s) (x : NodeId) : s.heap.prototypes[x]? = none := by
  cases hc : s.heap.prototypes[x]? with
  | none => rfl
  | some p => exact absurd (hp.valid.clones hc) (by rw [hp.untyped]; decide)

theorem prototype (hp : Plain d b types limit s) (x : NodeId) : s.heap.prototype x = x :=
  Heap.prototype_of_none (hp.prototypes x)

theorem not_filtered (hp : Plain d b types limit s) (st o : NodeId) :
    s.filters.isFiltered st o = false := by
  cases hf : s.filters.isFiltered st o with
  | false => rfl
  | true => exact absurd (hp.valid.filters hf).1 (by rw [hp.untyped]; decide)

/-- Objects are known by their places. -/
theorem place_inj (hp : Plain d b types limit s) {x y : NodeId} {P : Place}
    (hx : s.graph.place? x = some P) (hy : s.graph.place? y = some P) : x = y := by
  obtain ⟨o, ho⟩ := Graph.hasObj_of_place? hx
  obtain ⟨o', ho'⟩ := Graph.hasObj_of_place? hy
  rcases hp.place_cases ho with ⟨hb, -, hP⟩ | ⟨r, k, w, hk, -, -, hw, -, -, hP⟩ <;>
    rcases hp.place_cases ho' with ⟨hb', -, hP'⟩ | ⟨r', k', w', hk', -, -, hw', -, -, hP'⟩ <;>
    rw [hx, Option.some.injEq] at hP <;> rw [hy, hP, Option.some.injEq, Place.mk.injEq] at hP'
  · rw [hp.prototype] at hb hb'
    exact hp.encodes.ref_unique hb hb' hP'.1
  · cases hP'.2
  · cases hP'.2
  · obtain ⟨href, hkk⟩ := hP'
    obtain rfl := Option.some.inj hkk
    rw [hp.prototype] at hw hw'
    obtain rfl := hp.encodes.ref_unique hw hw' href
    exact hp.valid.heap.fieldInj ho ho' hk hk' (hp.prototypes x) (hp.prototypes y)

/-- A name refers to a whole object. -/
theorem place?_eq_whole (hp : Plain d b types limit s) {x : NodeId} {name : String} :
    s.graph.place? x = some (.whole name) ↔ b.find? (.ofName name) = some x :=
  ⟨fun hP => hp.prototype x ▸ hp.find?_of_place? hP, hp.place?_of_find?⟩

theorem isArrayAt_eq (hp : Plain d b types limit s) {x : NodeId} {o : ObjNode}
    (ho : s.graph.obj x = .ok o) (hf : o.isField = false) (hs : o.isSpecial = false) :
    s.heap.isArrayAt s.types x o = (s.graph.mem o.mem).isArrayAt types :=
  hp.toFielded.isArrayAt_eq (hp.prototype x ▸ hp.whole ho hf) hs

end Plain

end Solver

end PointsTo
