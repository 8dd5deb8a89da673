import PointsTo.Proofs.CloneRegistry
import PointsTo.Proofs.TypeLookups
import PointsTo.Report.Dump
import PointsTo.Solver.Alias

/-! No lookup fails.

    The analysis finds every node, object, statement, type and allocation that it asks for, and so do
    the reports and queries on each of its states: all of them come from the tables of a valid state,
    and what is in these tables is in the graph. Statistics only count what is there and are total as
    they stand. Only the sum of two offsets can be too large. -/

namespace PointsTo

variable {ε α β : Type}

theorem bind_succeeds {x : Except ε α} {f : α → Except ε β} (hx : ∃ a, x = .ok a)
    (hf : ∀ a, ∃ b, f a = .ok b) : ∃ b, (x >>= f) = .ok b := by
  obtain ⟨a, rfl⟩ := hx
  exact hf a

theorem mapM_succeeds {f : α → Except ε β} {xs : List α} (h : ∀ x ∈ xs, ∃ y, f x = .ok y) :
    ∃ ys, xs.mapM f = .ok ys := by
  induction xs with
  | nil => exact ⟨[], rfl⟩
  | cons x xs ih =>
    obtain ⟨⟨y, hy⟩, hrest⟩ := List.forall_mem_cons.mp h
    obtain ⟨ys, hys⟩ := ih hrest
    exact ⟨y :: ys, by rw [List.mapM_cons, hy, ok_bind, hys]; rfl⟩

theorem filterAuxM_succeeds {f : α → Except ε Bool} {xs : List α} (h : ∀ x ∈ xs, ∃ b, f x = .ok b)
    (acc : List α) : ∃ ys, xs.filterAuxM f acc = .ok ys ∧ ∀ y ∈ ys, y ∈ acc ∨ y ∈ xs := by
  induction xs generalizing acc with
  | nil => exact ⟨acc, rfl, fun _ hy => Or.inl hy⟩
  | cons x xs ih =>
    obtain ⟨⟨b, hb⟩, hrest⟩ := List.forall_mem_cons.mp h
    obtain ⟨ys, hys, hsub⟩ := ih hrest (cond b (x :: acc) acc)
    refine ⟨ys, by rw [List.filterAuxM, hb, ok_bind, hys], fun y hy => ?_⟩
    cases b with
    | true => grind
    | false => grind

/-- A choice that can be made for every element gives a part of the list. -/
theorem filterM_succeeds {f : α → Except ε Bool} {xs : List α} (h : ∀ x ∈ xs, ∃ b, f x = .ok b) :
    ∃ ys, xs.filterM f = .ok ys ∧ ∀ y ∈ ys, y ∈ xs := by
  obtain ⟨ys, hys, hsub⟩ := filterAuxM_succeeds h []
  refine ⟨ys.reverse, by rw [List.filterM, hys]; rfl, fun y hy => ?_⟩
  exact (hsub y (List.mem_reverse.mp hy)).resolve_left List.not_mem_nil

namespace Solver

variable {g₀ : Graph} {s : Solver} {x v w : NodeId} {o : ObjNode}

theorem Valid.typeOf (hv : s.Valid g₀) (hx : s.graph.HasObj x) : ∃ ty, s.heap.typeOf x = .ok ty := by
  obtain ⟨ty, hty⟩ := hv.heap.typed hx
  exact ⟨ty, Heap.typeOf_eq_ok.mpr hty⟩

/-! ### Names -/

theorem Valid.objectNameUpTo (hv : s.Valid g₀) (ho : s.graph.obj x = .ok o) {fuel : Nat}
    (hbase : ∀ r k, o.kind = .field r k → ∃ name, Report.objectNameUpTo s fuel r = .ok name) :
    ∃ name, Report.objectNameUpTo s (fuel + 1) x = .ok name := by
  obtain ⟨ty, hty⟩ := hv.typeOf ⟨o, ho⟩
  have hend : ∀ name : String, ∃ r, (if s.heap.isClone x then
      (do return name ++ "'<" ++ s.types.typeName (← s.heap.typeOf x) ++ ">") else
      .ok name : Except Fault String) = .ok r := by
    intro name
    rw [hty]
    split
    · exact ⟨_, rfl⟩
    · exact ⟨_, rfl⟩
  simp only [Report.objectNameUpTo, ho, ok_bind]
  cases hk : o.kind with
  | field r k =>
    obtain ⟨name, hname⟩ := hbase r k hk
    simp only [hname]
    exact hend _
  | base | dummy | special => exact hend _

/-- A field belongs to a whole object, so names are no deeper than that. -/
theorem Valid.objectName (hv : s.Valid g₀) (hx : s.graph.HasObj x) :
    ∃ name, Report.objectName s x = .ok name := by
  obtain ⟨o, ho⟩ := hx
  obtain ⟨fuel, hfuel⟩ : ∃ fuel, s.graph.nodes.size = fuel + 1 :=
    Nat.exists_eq_succ_of_ne_zero (Nat.ne_zero_of_lt (Graph.obj_lt_size ho))
  rw [Report.objectName, hfuel]
  refine hv.objectNameUpTo ho fun r k hk => ?_
  obtain ⟨-, whole, hwhole, hnone, -⟩ := hv.heap.fieldOf ho hk
  refine hv.objectNameUpTo hwhole fun r' k' hk' => ?_
  simp [ObjNode.isField, hk'] at hnone

theorem Valid.valueLine (hv : s.Valid g₀) (name : String) (v : NodeId) :
    ∃ line, Report.valueLine s name v = .ok line := by
  obtain ⟨names, hnames⟩ : ∃ names, (s.pts v).toList.mapM (Report.objectName s) = .ok names :=
    mapM_succeeds fun x hx => hv.objectName (hv.pts (IdSet.mem_toList.mp hx)).2
  simp only [Report.valueLine, Report.objectNames, hnames, ok_bind]
  split
  · exact ⟨_, rfl⟩
  · exact ⟨_, rfl⟩

theorem Valid.dump (hv : s.Valid g₀) : ∃ text, Report.dump s = .ok text := by
  have hname : ∀ v ∈ s.graph.values, ∃ name, s.graph.value v = .ok name := by
    intro v hmem
    obtain ⟨name, hname⟩ := Graph.isValue_iff.mp (List.mem_filter.mp hmem).2
    refine ⟨name, ?_⟩
    simp only [Graph.value, Graph.node, hname]
    rfl
  unfold Report.dump
  refine bind_succeeds (mapM_succeeds fun v hmem => ?_) fun named => ?_
  · exact bind_succeeds (hname v hmem) fun name => ⟨_, rfl⟩
  · exact bind_succeeds (mapM_succeeds fun r _ => hv.valueLine r.1 r.2) fun lines => ⟨_, rfl⟩

/-! ### Alias queries -/

theorem Valid.views (hv : s.Valid g₀) (ty : Option TypeId) (hx : s.graph.HasObj x) :
    ∃ b, s.views ty x = .ok b := by
  obtain ⟨o, ho⟩ := hx
  obtain ⟨ty', hty⟩ := hv.typeOf ⟨o, ho⟩
  simp only [Solver.views, ho, ok_bind, hty]
  split
  · exact ⟨_, rfl⟩
  · exact ⟨_, rfl⟩

theorem Valid.typedPts (hv : s.Valid g₀) (v : NodeId) (ty : Option TypeId) :
    ∃ objs, s.typedPts v ty = .ok objs ∧ ∀ x ∈ objs, s.graph.HasObj x := by
  obtain ⟨ys, hys, hsub⟩ := filterM_succeeds fun x hx =>
    hv.views ty (hv.pts (IdSet.mem_toList.mp hx : x ∈ s.pts v)).2
  simp only [Solver.typedPts, hys, ok_bind]
  split
  · exact ⟨_, rfl, fun x hx => (hv.pts hx).2⟩
  · exact ⟨_, rfl, fun x hx => (hv.pts (IdSet.mem_toList.mp (hsub x (IdSet.mem_ofList.mp hx)))).2⟩

theorem aliasOfSets_succeeds {p q : IdSet} (hp : ∀ x ∈ p, s.graph.HasObj x) :
    ∃ r, s.aliasOfSets p q = .ok r := by
  unfold aliasOfSets
  split
  · exact ⟨_, rfl⟩
  · split
    · rename_i x hx
      obtain ⟨o, ho⟩ := hp x (IdSet.mem_toList.mp (List.mem_of_head? hx))
      rw [isStrong_eq ho]
      split
      · rw [ok_bind]
        split
        · exact ⟨_, rfl⟩
        · exact ⟨_, rfl⟩
      · exact ⟨_, rfl⟩
    · exact ⟨_, rfl⟩

theorem Valid.aliasOf (hv : s.Valid g₀) (v : NodeId) (a : Option TypeId) (w : NodeId)
    (b : Option TypeId) : ∃ r, s.aliasOf v a w b = .ok r := by
  obtain ⟨p, hp, hobj⟩ := hv.typedPts v a
  obtain ⟨q, hq, -⟩ := hv.typedPts w b
  rw [Solver.aliasOf, hp, ok_bind, hq, ok_bind]
  exact aliasOfSets_succeeds hobj

/-! ### The analysis -/

/-- The analysis of a built program in which no type is made of itself finds whatever it looks up,
    with any options. The hierarchy of its types can be built, with everything that it is asked for.
    With this or any other hierarchy the analysis can be started; and whichever statements it visits
    first, all tables speak of nodes of the right class, the state can be dumped and asked about any
    pair of pointers, and there is a next step, unless that was to project a field to an offset that is
    too large for a machine word. -/
theorem analysis_finds_everything {d : ProgramDesc} {p : Program} (hbuild : Program.build d = .ok p)
    (hacyclic : p.types.Acyclic) (options : Options) :
    (∃ types, Hierarchy.ofTable p.types = .ok types ∧ types.Complete) ∧
    ∀ types : Hierarchy, ∃ s, (Solver.new types p.graph options).start = .ok s ∧
      ∀ k t, Run s k t → t.types = types ∧ t.Valid p.graph ∧ (∃ text, Report.dump t = .ok text) ∧
        (∀ v a w b, ∃ r, t.aliasOf v a w b = .ok r) ∧
        ((∃ r, t.step = .ok r) ∨ t.step = .error .addOverflow ∧ MayOverflow p.graph t) := by
  refine ⟨Hierarchy.ofTable_complete (Program.closed_of_build hbuild) hacyclic, fun types => ?_⟩
  have hwf := Program.wellFormed_of_build hbuild
  obtain ⟨s, hstart, hs⟩ := start_spec hwf types options
  refine ⟨s, hstart, fun k t hrun => ?_⟩
  have hr := hrun.reached hwf hs.reached
  refine ⟨hr.types.trans hs.types, hr.valid, hr.valid.dump, hr.valid.aliasOf, ?_⟩
  cases hstep : t.step with
  | ok r => exact Or.inl ⟨r, rfl⟩
  | error e =>
    obtain ⟨hover, hwhy⟩ := (step_spec hwf hr.valid).fault hstep
    exact Or.inr ⟨congrArg _ hover, hwhy⟩

/-- A list in memory of no type of its own, with a pointer that goes very far from its first node. -/
def farFromList : ProgramDesc where
  types := [{ name := some "int", sizeBits := 32, kind := .basic .signed },
    { name := some "Node", sizeBits := 128, kind := .record .structWord [.field "value" 0, .field "next" 2] },
    { sizeBits := 64, kind := .address .pointer (some 1) }]
  objects := [{ name := "h", alloc := .heap }]
  values := ["p", "q", "r", "x"]
  statements := [{ kind := .addr "h" "p" }, { kind := .load "p" "x" (some 1) },
    { kind := .gep "p" "q" (some (Nat.pow 2 63)) none }, { kind := .gep "q" "r" (some (Nat.pow 2 63)) none }]

/-- The fault of the step that follows a number of steps in the analysis of a described program. -/
def faultAfter? (d : ProgramDesc) (options : Options) (n : Nat) : Option Fault :=
  match Program.build d with
  | .error _ => none
  | .ok p =>
    match Hierarchy.ofTable p.types with
    | .error _ => none
    | .ok types =>
      match (Solver.new types p.graph options).start >>= Solver.runFor n with
      | .error _ => none
      | .ok t =>
        match t.step with
        | .error e => some e
        | .ok _ => none

/-- Three steps make a clone for the node and a field far behind it; the fourth goes too far. -/
theorem farFromList_finds_everything : ∃ p types s j t, Program.build farFromList = .ok p ∧
    p.types.Acyclic ∧ Hierarchy.ofTable p.types = .ok types ∧ types.Complete ∧
    (Solver.new types p.graph { maxFieldLimit := wordLimit - 1 }).start = .ok s ∧
    s.runFor 3 = .ok t ∧ Run s j t ∧ (∃ text, Report.dump t = .ok text) ∧
    (∃ r, t.aliasOf 0 (some 1) 1 none = .ok r) ∧
    t.step = .error .addOverflow ∧ MayOverflow p.graph t := by
  have hfault : faultAfter? farFromList { maxFieldLimit := wordLimit - 1 } 3 = some .addOverflow := by
    decide +kernel
  cases hbuild : Program.build farFromList with
  | error e => simp [faultAfter?, hbuild] at hfault
  | ok p =>
    have hacyclic : p.types.Acyclic := by
      obtain ⟨b, rfl, he⟩ := Program.build_spec hbuild
      rw [he.types]
      exact TypeTable.acyclic_of_earlier (by decide)
    obtain ⟨⟨types, hof, hcomplete⟩, hanalysis⟩ :=
      analysis_finds_everything hbuild hacyclic { maxFieldLimit := wordLimit - 1 }
    obtain ⟨s, hstart, hruns⟩ := hanalysis types
    simp only [faultAfter?, hbuild, hof, hstart, ok_bind] at hfault
    cases hthree : s.runFor 3 with
    | error e => simp [hthree] at hfault
    | ok t =>
      obtain ⟨j, hrun⟩ := Run.of_runFor .start hthree
      obtain ⟨-, -, hdump, halias, ⟨r, hr⟩ | ⟨hover, hwhy⟩⟩ := hruns j t hrun
      · simp [hthree, hr] at hfault
      · exact ⟨p, types, s, j, t, rfl, hacyclic, hof, hcomplete, hstart, hthree, hrun, hdump,
          halias 0 (some 1) 1 none, hover, hwhy⟩

end Solver

end PointsTo
