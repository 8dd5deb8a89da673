import PointsTo.Proofs.Edges
import PointsTo.Proofs.Graph

/-! How edges are wired while a graph is built.

    A statement is linked from all definitions of the values it uses and to all uses of the value it
    defines; so every definition of a value has a direct edge to every use, in whichever order the
    statements come. -/

namespace PointsTo.Graph

variable {g : Graph}

/-! ### Single edges -/

theorem mem_directSuccessors (hx : g.edges.Indexed) {s u : NodeId} : u ∈ g.directSuccessors s ↔
    ∃ e ∈ g.edges.all.toList, e.src = s ∧ e.flow.isDirect = true ∧ e.dst = u := by
  rw [directSuccessors, hx.mem_directEnds, ← Array.mem_iff_getElem?, ← Array.mem_toList_iff]
  constructor
  · intro he
    exact ⟨_, he, rfl, rfl, rfl⟩
  · rintro ⟨⟨_, _, flow⟩, he, rfl, hd, rfl⟩
    cases flow with
    | direct => exact he
    | indirect => cases hd

theorem mem_indirectSuccessors (hx : g.edges.Indexed) {s t : NodeId} {label : IdSet} :
    (t, label) ∈ g.indirectSuccessors s ↔
      ∃ e ∈ g.edges.all.toList, e.src = s ∧ e.flow = .indirect label ∧ e.dst = t := by
  rw [indirectSuccessors, hx.mem_indirectEnds, ← Array.mem_iff_getElem?, ← Array.mem_toList_iff]
  constructor
  · intro he
    exact ⟨_, he, rfl, rfl, rfl⟩
  · rintro ⟨⟨_, _, flow⟩, he, rfl, rfl, rfl⟩
    exact he

/-- The object flows along an indirect edge. -/
def FlowsTo (g : Graph) (s t l : NodeId) : Prop :=
  ∃ label, (t, label) ∈ g.indirectSuccessors s ∧ l ∈ label

theorem findEdge?_some {s t : NodeId} {direct : Bool} {i : Nat}
    (h : g.findEdge? s t direct = some i) : ∃ hi : i < g.edges.all.size, g.edges.all[i].src = s ∧
      g.edges.all[i].dst = t ∧ g.edges.all[i].flow.isDirect = direct := by
  obtain ⟨hi, hp, -⟩ := Array.findIdx?_eq_some_iff_getElem.mp h
  simp only [Bool.and_eq_true, beq_iff_eq] at hp
  exact ⟨hi, hp.1.1, hp.1.2, hp.2⟩

/-- With the other edges, the graph has direct edges between the related nodes too. -/
structure Links (g : Graph) (related : NodeId → NodeId → Prop) (E : EdgeTable) : Prop where
  indexed : E.Indexed
  direct : ∀ {s u}, u ∈ directSuccessors { g with edges := E } s ↔
    related s u ∨ u ∈ g.directSuccessors s
  indirect : ∀ s, indirectSuccessors { g with edges := E } s = g.indirectSuccessors s

theorem linkDirect_spec (hx : g.edges.Indexed) (src dst : NodeId) :
    ∃ E, (g.linkDirect src dst).2 = { g with edges := E } ∧
      Links g (fun s u => s = src ∧ u = dst) E := by
  unfold linkDirect
  cases hfind : g.findEdge? src dst true with
  | some i =>
    obtain ⟨hi, hs, ht, hd⟩ := findEdge?_some hfind
    refine ⟨g.edges, rfl, ⟨hx, fun {s u} => ⟨Or.inr, ?_⟩, fun _ => rfl⟩⟩
    rintro (⟨rfl, rfl⟩ | hu)
    · exact (mem_directSuccessors hx).mpr
        ⟨_, Array.mem_toList_iff.mpr (Array.getElem_mem hi), hs, hd, ht⟩
    · exact hu
  | none =>
    let g' : Graph := { g with edges := g.edges.push ⟨src, dst, .direct⟩ }
    have hx' : g'.edges.Indexed := hx.push ⟨src, dst, .direct⟩
    refine ⟨g.edges.push ⟨src, dst, .direct⟩, rfl, ⟨hx', fun {s u} => ?_, fun s => ?_⟩⟩
    · rw [mem_directSuccessors (g := g') hx', mem_directSuccessors hx, EdgeTable.all_push]
      simp only [Array.toList_push, List.mem_append, List.mem_singleton]
      constructor
      · rintro ⟨e, he | rfl, hs, hd, hu⟩
        · exact Or.inr ⟨e, he, hs, hd, hu⟩
        · exact Or.inl ⟨hs.symm, hu.symm⟩
      · rintro (⟨rfl, rfl⟩ | ⟨e, he, hs, hd, hu⟩)
        · exact ⟨_, Or.inr rfl, rfl, rfl, rfl⟩
        · exact ⟨e, Or.inl he, hs, hd, hu⟩
    · exact hx.indirectEnds_push rfl s

theorem foldl_linkDirect {α : Type} (ends : α → NodeId × NodeId) (xs : List α)
    (hx : g.edges.Indexed) :
    ∃ E, xs.foldl (fun g a => (g.linkDirect (ends a).1 (ends a).2).2) g = { g with edges := E } ∧
      Links g (fun s u => ∃ a ∈ xs, ends a = (s, u)) E := by
  induction xs generalizing g with
  | nil => exact ⟨g.edges, rfl, hx, by simp, fun _ => rfl⟩
  | cons a xs ih =>
    obtain ⟨E₁, h₁, hl₁⟩ := linkDirect_spec hx (ends a).1 (ends a).2
    obtain ⟨E, h, hl⟩ := ih (g := { g with edges := E₁ }) hl₁.indexed
    refine ⟨E, by rw [List.foldl_cons, h₁, h], ⟨hl.indexed, fun {s u} => ?_, fun s => ?_⟩⟩
    · rw [hl.direct, hl₁.direct]
      simp only [List.mem_cons, exists_eq_or_imp, Prod.ext_iff]
      constructor
      · rintro (hx | ⟨rfl, rfl⟩ | hu)
        · exact Or.inl (Or.inr hx)
        · exact Or.inl (Or.inl ⟨rfl, rfl⟩)
        · exact Or.inr hu
      · rintro ((⟨rfl, rfl⟩ | hx) | hu)
        · exact Or.inr (Or.inl ⟨rfl, rfl⟩)
        · exact Or.inl hx
        · exact Or.inr (Or.inr hu)
    · rw [hl.indirect, hl₁.indirect]

/-! ### Uses and definitions -/

theorem mem_users_insert {R : Std.TreeMap NodeId (List NodeId)} {v w u : NodeId} {us : List NodeId} :
    u ∈ (R.insert v us).getD w [] ↔ if w = v then u ∈ us else u ∈ R.getD w [] := by
  rw [Std.TreeMap.getD_insert]
  by_cases h : w = v
  · simp [h]
  · rw [if_neg (by simpa [Nat.compare_eq_eq] using Ne.symm h), if_neg h]

/-- A statement was recorded as a user of some values, and linked from their definitions. -/
theorem wireUse_spec (hx : g.edges.Indexed) (st v : NodeId) :
    ∃ E R, wireUse st g v = { g with edges := E, readers := R } ∧
      Links g (fun s u => s ∈ g.defs v ∧ u = st) E ∧
      ∀ {w u}, u ∈ users { g with readers := R } w ↔ (w = v ∧ u = st) ∨ u ∈ g.users w := by
  obtain ⟨E, hE, hl⟩ := foldl_linkDirect (fun d => (d, st)) (g.defs v) hx
  have hlinks : Links g (fun s u => s ∈ g.defs v ∧ u = st) E := by
    refine ⟨hl.indexed, hl.direct.trans (or_congr_left ?_), hl.indirect⟩
    simp [and_comm, eq_comm]
  unfold wireUse
  rw [hE]
  by_cases hst : st ∈ g.users v
  · refine ⟨E, g.readers, ?_, hlinks, fun {w u} => ⟨Or.inr, ?_⟩⟩
    · rw [if_pos]
      simpa [users] using hst
    · rintro (⟨rfl, rfl⟩ | hu)
      · exact hst
      · exact hu
  · refine ⟨E, g.readers.insert v (g.users v ++ [st]), ?_, hlinks, fun {w u} => ?_⟩
    · rw [if_neg]
      · rfl
      · simpa [users] using hst
    · rw [users, mem_users_insert]
      by_cases hw : w = v
      · subst hw
        simp [or_comm]
      · simp [hw, users]

theorem foldl_wireUse (hx : g.edges.Indexed) (st : NodeId) (vs : List NodeId) :
    ∃ E R, vs.foldl (wireUse st) g = { g with edges := E, readers := R } ∧
      Links g (fun s u => (∃ v ∈ vs, s ∈ g.defs v) ∧ u = st) E ∧
      ∀ {w u}, u ∈ users { g with readers := R } w ↔ (w ∈ vs ∧ u = st) ∨ u ∈ g.users w := by
  induction vs generalizing g with
  | nil => exact ⟨g.edges, g.readers, rfl, ⟨hx, by simp, fun _ => rfl⟩, by simp [users]⟩
  | cons v vs ih =>
    obtain ⟨E₁, R₁, h₁, hl₁, hu₁⟩ := wireUse_spec hx st v
    obtain ⟨E, R, h, hl, hu⟩ := ih (g := { g with edges := E₁, readers := R₁ }) hl₁.indexed
    have hdefs : ∀ w, defs { g with edges := E₁, readers := R₁ } w = g.defs w := fun _ => rfl
    refine ⟨E, R, by rw [List.foldl_cons, h₁, h], ⟨hl.indexed, fun {s u} => ?_, fun s => ?_⟩,
      fun {w u} => ?_⟩
    · refine hl.direct.trans ((or_congr_right hl₁.direct).trans ?_)
      simp only [hdefs, List.mem_cons, exists_eq_or_imp]
      rw [or_and_right, or_left_comm, or_assoc]
    · exact (hl.indirect s).trans (hl₁.indirect s)
    · refine hu.trans ((or_congr_right hu₁).trans ?_)
      simp only [List.mem_cons]
      tauto

/-- A statement was recorded as a definition of a value, and linked to its uses. -/
theorem wireDef_spec (hx : g.edges.Indexed) (st v : NodeId) :
    ∃ E D, wireDef st g v = { g with edges := E, definers := D } ∧
      Links g (fun s u => s = st ∧ u ∈ g.users v) E ∧
      ∀ {w d}, d ∈ defs { g with definers := D } w ↔ (w = v ∧ d = st) ∨ d ∈ g.defs w := by
  obtain ⟨E, hE, hl⟩ := foldl_linkDirect (fun u => (st, u)) (g.users v) hx
  unfold wireDef
  rw [hE]
  refine ⟨E, g.definers.insert v (g.defs v ++ [st]), rfl, ⟨hl.indexed, ?_, hl.indirect⟩,
    fun {w d} => ?_⟩
  · refine hl.direct.trans (or_congr_left ?_)
    simp [and_comm, eq_comm]
  · rw [defs, mem_users_insert]
    by_cases hw : w = v
    · subst hw
      simp [or_comm]
    · simp [hw, defs]

/-! ### Statements -/

/-- What adding a statement does to the tables of a graph. -/
structure AddsStmt (g g' : Graph) (kind : StmtKind) (ty : Option TypeId) : Prop where
  nodes : g'.nodes = g.nodes.push (.stmt ⟨kind, ty⟩)
  mems : g'.mems = g.mems
  stmts : g'.stmts = g.stmts.push g.nodes.size
  objects : g'.objects = g.objects
  names : g'.names = g.names
  blackHole : g'.blackHole? = g.blackHole?
  constant : g'.constant? = g.constant?
  seeds : g'.seeds = g.seeds
  indexed : g'.edges.Indexed
  indirect : ∀ s, g'.indirectSuccessors s = g.indirectSuccessors s
  users : ∀ {w u}, u ∈ g'.users w ↔ (w ∈ kind.uses ∧ u = g.nodes.size) ∨ u ∈ g.users w
  defs : ∀ {w d}, d ∈ g'.defs w ↔ (kind.target? = some w ∧ d = g.nodes.size) ∨ d ∈ g.defs w
  direct : ∀ {s u}, u ∈ g'.directSuccessors s ↔
    (s = g.nodes.size ∧ ∃ v, kind.target? = some v ∧ u ∈ g'.users v) ∨
    (u = g.nodes.size ∧ ∃ v ∈ kind.uses, s ∈ g.defs v) ∨ u ∈ g.directSuccessors s

theorem addStmt_fst (g : Graph) (kind : StmtKind) (ty : Option TypeId) :
    (g.addStmt kind ty).1 = g.nodes.size := rfl

theorem addStmt_spec (hx : g.edges.Indexed) (kind : StmtKind) (ty : Option TypeId) :
    AddsStmt g (g.addStmt kind ty).2 kind ty := by
  let g₁ : Graph := { g with
    nodes := g.nodes.push (.stmt ⟨kind, ty⟩), stmts := g.stmts.push g.nodes.size }
  obtain ⟨E, R, h, hl, hu⟩ := foldl_wireUse (g := g₁) hx g.nodes.size kind.uses
  have heq : (g.addStmt kind ty).2 =
      kind.target?.toList.foldl (wireDef g.nodes.size) { g₁ with edges := E, readers := R } := by
    rw [← h]; rfl
  rw [heq]
  cases ht : kind.target? with
  | none =>
    refine ⟨rfl, rfl, rfl, rfl, rfl, rfl, rfl, rfl, hl.indexed, hl.indirect, hu,
      by simp [ht, Graph.defs, g₁], ?_⟩
    intro s u
    refine hl.direct.trans ?_
    simp only [ht, reduceCtorEq, false_and, exists_false, and_false, false_or]
    exact or_congr_left and_comm
  | some v =>
    obtain ⟨E', D, h', hl', hd⟩ := wireDef_spec
      (g := { g₁ with edges := E, readers := R }) hl.indexed g.nodes.size v
    simp only [Option.toList_some, List.foldl_cons, List.foldl_nil, h']
    refine ⟨rfl, rfl, rfl, rfl, rfl, rfl, rfl, rfl, hl'.indexed,
      fun s => (hl'.indirect s).trans (hl.indirect s), hu, ?_, ?_⟩
    · intro w d
      refine hd.trans (or_congr_left (and_congr_left fun _ => ?_))
      rw [ht, Option.some.injEq, eq_comm]
    · intro s u
      refine hl'.direct.trans (or_congr ?_ (hl.direct.trans (or_congr_left and_comm)))
      simp only [ht, Option.some.injEq, exists_eq_left']
      rfl

namespace AddsStmt

variable {g' : Graph} {kind : StmtKind} {ty : Option TypeId}

theorem getElem?_nodes (ha : AddsStmt g g' kind ty) (id : NodeId) :
    g'.nodes[id]? = if id = g.nodes.size then some (.stmt ⟨kind, ty⟩) else g.nodes[id]? := by
  rw [ha.nodes, Array.getElem?_push]

theorem stmt_self (ha : AddsStmt g g' kind ty) : g'.stmt g.nodes.size = .ok ⟨kind, ty⟩ := by
  rw [stmt_eq_ok, ha.getElem?_nodes, if_pos rfl]

theorem stmt_iff (ha : AddsStmt g g' kind ty) {st : NodeId} {n : StmtNode} :
    g'.stmt st = .ok n ↔ (st = g.nodes.size ∧ n = ⟨kind, ty⟩) ∨ g.stmt st = .ok n := by
  rw [stmt_eq_ok, stmt_eq_ok, ha.getElem?_nodes]
  by_cases h : st = g.nodes.size
  · subst h
    simp [eq_comm]
  · simp [h]

theorem mem_stmts (ha : AddsStmt g g' kind ty) {st : NodeId} :
    st ∈ g'.stmts.toList ↔ st = g.nodes.size ∨ st ∈ g.stmts.toList := by
  rw [ha.stmts, Array.toList_push, List.mem_append, List.mem_singleton, or_comm]

end AddsStmt

/-! ### All edges -/

/-- The uses and definitions of values are those of the statements, and direct edges lead from every
    definition of a value to every use. -/
structure Wired (g : Graph) : Prop where
  indexed : g.edges.Indexed
  stmt : ∀ {st}, st ∈ g.stmts.toList → ∃ n, g.stmt st = .ok n
  nodup : g.stmts.toList.Nodup
  users : ∀ {v u}, u ∈ g.users v ↔
    u ∈ g.stmts.toList ∧ ∃ n, g.stmt u = .ok n ∧ v ∈ n.kind.uses
  defs : ∀ {v d}, d ∈ g.defs v ↔
    d ∈ g.stmts.toList ∧ ∃ n, g.stmt d = .ok n ∧ n.kind.target? = some v
  direct : ∀ {s u}, u ∈ g.directSuccessors s ↔ ∃ v, s ∈ g.defs v ∧ u ∈ g.users v

theorem Wired.stmt_lt_size (hw : g.Wired) {st : NodeId} (hst : st ∈ g.stmts.toList) :
    st < g.nodes.size := by
  obtain ⟨n, hn⟩ := hw.stmt hst
  exact lt_size_of_getElem? (stmt_eq_ok.mp hn)

/-- The statements that the new one joins keep what is said of them. -/
theorem AddsStmt.exists_stmt_iff {g' : Graph} {kind : StmtKind} {ty : Option TypeId}
    (ha : AddsStmt g g' kind ty) (hw : g.Wired) {P : StmtNode → Prop} {st : NodeId} :
    (st ∈ g'.stmts.toList ∧ ∃ n, g'.stmt st = .ok n ∧ P n) ↔
      (P ⟨kind, ty⟩ ∧ st = g.nodes.size) ∨ (st ∈ g.stmts.toList ∧ ∃ n, g.stmt st = .ok n ∧ P n) := by
  simp only [ha.mem_stmts, ha.stmt_iff]
  constructor
  · rintro ⟨hst | hst, n, ⟨hnew, rfl⟩ | hn, hP⟩
    · exact Or.inl ⟨hP, hst⟩
    · exact absurd (lt_size_of_getElem? (stmt_eq_ok.mp hn)) (hst ▸ Nat.lt_irrefl _)
    · exact absurd (hw.stmt_lt_size hst) (hnew ▸ Nat.lt_irrefl _)
    · exact Or.inr ⟨hst, n, hn, hP⟩
  · rintro (⟨hP, rfl⟩ | ⟨hst, n, hn, hP⟩)
    · exact ⟨Or.inl rfl, _, Or.inl ⟨rfl, rfl⟩, hP⟩
    · exact ⟨Or.inr hst, n, Or.inr hn, hP⟩

theorem Wired.addStmt {g' : Graph} {kind : StmtKind} {ty : Option TypeId}
    (ha : AddsStmt g g' kind ty) (hw : g.Wired) : g'.Wired where
  indexed := ha.indexed
  stmt := by
    intro st hst
    rcases ha.mem_stmts.mp hst with rfl | hst
    · exact ⟨_, ha.stmt_self⟩
    · obtain ⟨n, hn⟩ := hw.stmt hst
      exact ⟨n, ha.stmt_iff.mpr (Or.inr hn)⟩
  nodup := by
    rw [ha.stmts, Array.toList_push, ← List.concat_eq_append]
    exact List.Nodup.concat (fun hmem => Nat.lt_irrefl _ (hw.stmt_lt_size hmem)) hw.nodup
  users := by
    intro v u
    rw [ha.users, hw.users, ha.exists_stmt_iff hw (P := fun n => v ∈ n.kind.uses)]
  defs := by
    intro v d
    rw [ha.defs, hw.defs, ha.exists_stmt_iff hw (P := fun n => n.kind.target? = some v)]
  direct := by
    intro s u
    rw [ha.direct, hw.direct]
    constructor
    · rintro (⟨hs, v, hv, hu⟩ | ⟨hu, v, hv, hs⟩ | ⟨v, hs, hu⟩)
      · exact ⟨v, ha.defs.mpr (Or.inl ⟨hv, hs⟩), hu⟩
      · exact ⟨v, ha.defs.mpr (Or.inr hs), ha.users.mpr (Or.inl ⟨hv, hu⟩)⟩
      · exact ⟨v, ha.defs.mpr (Or.inr hs), ha.users.mpr (Or.inr hu)⟩
    · rintro ⟨v, hs, hu⟩
      rcases ha.defs.mp hs with ⟨hv, rfl⟩ | hs
      · exact Or.inl ⟨rfl, v, hv, hu⟩
      · rcases ha.users.mp hu with ⟨hv, rfl⟩ | hu
        · exact Or.inr (Or.inl ⟨rfl, v, hv, hs⟩)
        · exact Or.inr (Or.inr ⟨v, hs, hu⟩)

theorem wired_empty : Wired ∅ := by
  have husers : ∀ v, users ∅ v = [] := fun _ => Std.TreeMap.getD_emptyc
  have hdefs : ∀ v, defs ∅ v = [] := fun _ => Std.TreeMap.getD_emptyc
  have hstmts : ∀ st, st ∉ (∅ : Graph).stmts.toList := fun _ => List.not_mem_nil
  refine ⟨EdgeTable.indexed_empty, fun h => absurd h (hstmts _), List.nodup_nil, ?_, ?_, ?_⟩
  · simp [husers, hstmts]
  · simp [hdefs, hstmts]
  · intro s u
    rw [show directSuccessors ∅ s = [] from rfl]
    simp [hdefs]

/-- Nothing but other nodes and indirect edges was added. -/
structure KeepsWiring (g g' : Graph) : Prop where
  nodes : ∀ {id : NodeId} {n}, g.nodes[id]? = some n → g'.nodes[id]? = some n
  stmts : g'.stmts = g.stmts
  readers : g'.readers = g.readers
  definers : g'.definers = g.definers
  indexed : g'.edges.Indexed
  direct : ∀ {s u}, u ∈ g'.directSuccessors s ↔ u ∈ g.directSuccessors s

theorem Wired.keep {g' : Graph} (hw : g.Wired) (hk : KeepsWiring g g') : g'.Wired := by
  have hstmt : ∀ {P : StmtNode → Prop} {st : NodeId},
      (st ∈ g'.stmts.toList ∧ ∃ n, g'.stmt st = .ok n ∧ P n) ↔
        st ∈ g.stmts.toList ∧ ∃ n, g.stmt st = .ok n ∧ P n := by
    intro P st
    rw [hk.stmts]
    refine and_congr_right fun hst => ?_
    obtain ⟨n, hn⟩ := hw.stmt hst
    rw [hn, stmt_eq_ok.mpr (hk.nodes (stmt_eq_ok.mp hn))]
  have husers : ∀ v, g'.users v = g.users v := fun v => by rw [Graph.users, Graph.users, hk.readers]
  have hdefs : ∀ v, g'.defs v = g.defs v := fun v => by rw [Graph.defs, Graph.defs, hk.definers]
  refine ⟨hk.indexed, fun hst => ?_, hk.stmts ▸ hw.nodup, fun {v u} => ?_, fun {v d} => ?_, fun {s u} => ?_⟩
  · rw [hk.stmts] at hst
    obtain ⟨n, hn⟩ := hw.stmt hst
    exact ⟨n, stmt_eq_ok.mpr (hk.nodes (stmt_eq_ok.mp hn))⟩
  · rw [husers, hw.users, hstmt]
  · rw [hdefs, hw.defs, hstmt]
  · rw [hk.direct, hw.direct]
    simp only [hdefs, husers]

/-! ### Indirect edges -/

/-- What adding objects to the flow between two statements does to the edges. -/
structure AddsFlow (g : Graph) (src dst : NodeId) (objs : List NodeId) (E : EdgeTable) : Prop where
  indexed : E.Indexed
  direct : ∀ {s u}, u ∈ directSuccessors { g with edges := E } s ↔ u ∈ g.directSuccessors s
  flows : ∀ {s t l}, FlowsTo { g with edges := E } s t l ↔
    (s = src ∧ t = dst ∧ l ∈ objs) ∨ g.FlowsTo s t l
  ends : ∀ {s t label}, (t, label) ∈ indirectSuccessors { g with edges := E } s →
    t = dst ∨ ∃ label', (t, label') ∈ g.indirectSuccessors s

/-- Does the object flow along the edge? -/
def Carries (l : NodeId) (e : Edge) : Prop := ∃ label, e.flow = .indirect label ∧ l ∈ label

theorem flowsTo_iff (hx : g.edges.Indexed) {s t l : NodeId} :
    g.FlowsTo s t l ↔ ∃ e ∈ g.edges.all.toList, e.src = s ∧ e.dst = t ∧ Carries l e := by
  simp only [FlowsTo, mem_indirectSuccessors hx]
  constructor
  · rintro ⟨label, ⟨e, he, hs, hf, ht⟩, hl⟩
    exact ⟨e, he, hs, ht, label, hf, hl⟩
  · rintro ⟨e, he, hs, ht, label, hf, hl⟩
    exact ⟨label, ⟨e, he, hs, hf, ht⟩, hl⟩

theorem exists_indirectSuccessors (hx : g.edges.Indexed) {s t : NodeId} :
    (∃ label, (t, label) ∈ g.indirectSuccessors s) ↔
      ∃ e ∈ g.edges.all.toList, e.src = s ∧ e.dst = t ∧ e.flow.isDirect = false := by
  simp only [mem_indirectSuccessors hx]
  constructor
  · rintro ⟨label, e, he, hs, hf, ht⟩
    exact ⟨e, he, hs, ht, by rw [hf]; rfl⟩
  · rintro ⟨e, he, hs, ht, hf⟩
    cases hflow : e.flow with
    | direct => rw [hflow] at hf; cases hf
    | indirect label => exact ⟨label, e, he, hs, hflow, ht⟩

theorem carries_extendLabel {objs : List NodeId} {e : Edge} {l : NodeId} :
    Carries l (e.extendLabel objs) ↔ (e.flow.isDirect = false ∧ l ∈ objs) ∨ Carries l e := by
  cases h : e.flow with
  | direct => simp [Edge.extendLabel, Carries, h, Flow.isDirect]
  | indirect label => simp [Edge.extendLabel, Carries, h, Flow.isDirect]

section ExtendedLabel

variable {src dst : NodeId} {objs : List NodeId} {i : Nat}

/-- Where a label was extended, every edge joins what an edge joined before, and what it carries is
    new or was carried. -/
theorem exists_edge_of_mem_extend (hfind : g.findEdge? src dst false = some i) {e : Edge}
    (he : e ∈ (g.edges.extend i objs).all.toList) :
    ∃ e₀ ∈ g.edges.all.toList, e.src = e₀.src ∧ e.dst = e₀.dst ∧
      e.flow.isDirect = e₀.flow.isDirect ∧
      ∀ l, Carries l e → (e.src = src ∧ e.dst = dst ∧ l ∈ objs) ∨ Carries l e₀ := by
  obtain ⟨hi, hsrc, hdst, -⟩ := findEdge?_some hfind
  obtain ⟨j, hj⟩ := Array.mem_iff_getElem?.mp (Array.mem_toList_iff.mp he)
  rw [EdgeTable.all_extend, Array.getElem?_modify] at hj
  split at hj
  case isTrue hij =>
    subst hij
    rw [Array.getElem?_eq_getElem hi, Option.map_some, Option.some.injEq] at hj
    subst hj
    obtain ⟨hs, ht, hd⟩ := g.edges.all[i].ends_extendLabel objs
    refine ⟨_, Array.mem_toList_iff.mpr (Array.getElem_mem hi), hs, ht, hd, fun l hl => ?_⟩
    rcases carries_extendLabel.mp hl with ⟨-, hl⟩ | hl
    · exact Or.inl ⟨hs.trans hsrc, ht.trans hdst, hl⟩
    · exact Or.inr hl
  case isFalse =>
    exact ⟨e, Array.mem_toList_iff.mpr (Array.mem_of_getElem? hj), rfl, rfl, rfl,
      fun l hl => Or.inr hl⟩

/-- Every edge is still there when a label was extended, and carries what it carried. -/
theorem exists_mem_extend_of_edge {e₀ : Edge} (he₀ : e₀ ∈ g.edges.all.toList) :
    ∃ e ∈ (g.edges.extend i objs).all.toList, e.src = e₀.src ∧ e.dst = e₀.dst ∧
      e.flow.isDirect = e₀.flow.isDirect ∧ ∀ l, Carries l e₀ → Carries l e := by
  obtain ⟨j, hj⟩ := Array.mem_iff_getElem?.mp (Array.mem_toList_iff.mp he₀)
  have hj' : (g.edges.extend i objs).all[j]? =
      some (if i = j then e₀.extendLabel objs else e₀) := by
    rw [EdgeTable.all_extend, Array.getElem?_modify, hj]
    split <;> rfl
  refine ⟨_, Array.mem_toList_iff.mpr (Array.mem_of_getElem? hj'), ?_⟩
  split
  · obtain ⟨hs, ht, hd⟩ := e₀.ends_extendLabel objs
    exact ⟨hs, ht, hd, fun l hl => carries_extendLabel.mpr (Or.inr hl)⟩
  · exact ⟨rfl, rfl, rfl, fun _ hl => hl⟩

theorem addsFlow_extend (hx : g.edges.Indexed) (hfind : g.findEdge? src dst false = some i) :
    AddsFlow g src dst objs (g.edges.extend i objs) := by
  obtain ⟨hi, hsrc, hdst, hind⟩ := findEdge?_some hfind
  let g' : Graph := { g with edges := g.edges.extend i objs }
  have hx' : g'.edges.Indexed := hx.extend i objs
  refine ⟨hx', fun {s u} => ?_, fun {s t l} => ?_, fun {s t label} hmem => ?_⟩
  · rw [mem_directSuccessors (g := g') hx', mem_directSuccessors hx]
    constructor
    · rintro ⟨e, he, rfl, hd, rfl⟩
      obtain ⟨e₀, he₀, hs, ht, hd₀, -⟩ := exists_edge_of_mem_extend hfind he
      exact ⟨e₀, he₀, hs.symm, hd₀ ▸ hd, ht.symm⟩
    · rintro ⟨e₀, he₀, rfl, hd, rfl⟩
      obtain ⟨e, he, hs, ht, hd₀, -⟩ := exists_mem_extend_of_edge he₀
      exact ⟨e, he, hs, hd₀ ▸ hd, ht⟩
  · rw [flowsTo_iff (g := g') hx', flowsTo_iff hx]
    constructor
    · rintro ⟨e, he, rfl, rfl, hl⟩
      obtain ⟨e₀, he₀, hs, ht, -, hc⟩ := exists_edge_of_mem_extend hfind he
      exact (hc l hl).imp_right fun hl => ⟨e₀, he₀, hs.symm, ht.symm, hl⟩
    · rintro (⟨rfl, rfl, hl⟩ | ⟨e₀, he₀, rfl, rfl, hl⟩)
      · obtain ⟨hs, ht, -⟩ := g.edges.all[i].ends_extendLabel objs
        refine ⟨_, Array.mem_toList_iff.mpr (Array.mem_of_getElem? (i := i) ?_), hs.trans hsrc,
          ht.trans hdst, carries_extendLabel.mpr (Or.inl ⟨hind, hl⟩)⟩
        rw [EdgeTable.all_extend, Array.getElem?_modify, if_pos rfl, Array.getElem?_eq_getElem hi,
          Option.map_some]
      · obtain ⟨e, he, hs, ht, -, hc⟩ := exists_mem_extend_of_edge he₀
        exact ⟨e, he, hs, ht, hc l hl⟩
  · obtain ⟨e, he, hs, ht, hf⟩ :=
      (exists_indirectSuccessors (g := g') hx').mp ⟨label, hmem⟩
    obtain ⟨e₀, he₀, hs₀, ht₀, hd₀, -⟩ := exists_edge_of_mem_extend hfind he
    exact Or.inr ((exists_indirectSuccessors hx).mpr
      ⟨e₀, he₀, hs₀.symm.trans hs, ht₀.symm.trans ht, hd₀ ▸ hf⟩)

end ExtendedLabel

theorem addsFlow_push (hx : g.edges.Indexed) (src dst : NodeId) (objs : List NodeId) :
    AddsFlow g src dst objs (g.edges.push ⟨src, dst, .indirect (.ofList objs)⟩) := by
  let g' : Graph := { g with edges := g.edges.push ⟨src, dst, .indirect (.ofList objs)⟩ }
  have hx' : g'.edges.Indexed := hx.push ⟨src, dst, .indirect (.ofList objs)⟩
  refine ⟨hx', fun {s u} => ?_, fun {s t l} => ?_, fun {s t label} hmem => ?_⟩
  · rw [mem_directSuccessors (g := g') hx', mem_directSuccessors hx, EdgeTable.all_push]
    simp [Flow.isDirect, or_and_right, exists_or]
  · rw [flowsTo_iff (g := g') hx', flowsTo_iff hx, EdgeTable.all_push]
    simp only [Array.toList_push, List.mem_append, List.mem_singleton]
    constructor
    · rintro ⟨e, he | rfl, rfl, rfl, hl⟩
      · exact Or.inr ⟨e, he, rfl, rfl, hl⟩
      · obtain ⟨label, hf, hl⟩ := hl
        injection hf with hf
        exact Or.inl ⟨rfl, rfl, IdSet.mem_ofList.mp (hf ▸ hl)⟩
    · rintro (⟨rfl, rfl, hl⟩ | ⟨e, he, hs, ht, hl⟩)
      · exact ⟨_, Or.inr rfl, rfl, rfl, _, rfl, IdSet.mem_ofList.mpr hl⟩
      · exact ⟨e, Or.inl he, hs, ht, hl⟩
  · rw [mem_indirectSuccessors (g := g') hx', EdgeTable.all_push] at hmem
    simp only [mem_indirectSuccessors hx]
    simp only [Array.toList_push, List.mem_append, List.mem_singleton] at hmem
    obtain ⟨e, he | rfl, hs, hf, ht⟩ := hmem
    · exact Or.inr ⟨label, e, he, hs, hf, ht⟩
    · exact Or.inl ht.symm

theorem linkIndirect_spec (hx : g.edges.Indexed) (src dst : NodeId) (objs : List NodeId) :
    ∃ E, (g.linkIndirect src dst objs).2 = { g with edges := E } ∧ AddsFlow g src dst objs E := by
  unfold linkIndirect
  cases hfind : g.findEdge? src dst false with
  | none => exact ⟨_, rfl, addsFlow_push hx src dst objs⟩
  | some i => exact ⟨_, rfl, addsFlow_extend hx hfind⟩

end PointsTo.Graph
