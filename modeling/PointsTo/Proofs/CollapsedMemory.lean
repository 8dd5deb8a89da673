import PointsTo.Proofs.Termination

/-! Memory without fields.

    A statement that is visited treats every allocation that has no fields by then as one place, and
    goes on doing so. But nobody is woken when an allocation loses its fields: a statement that is not
    visited again keeps the objects of the allocation apart. -/

namespace PointsTo.Solver

variable {g₀ : Graph} {s t u : Solver} {k : Nat} {st : NodeId} {n : StmtNode} {m : MemId}

/-- Once an allocation has no fields, a step leaves every statement waiting or treating it as one
    place. -/
theorem Steps.onePlace (hwf : g₀.WellFormed) (hv : s.Valid g₀) {st' : NodeId} {n' : StmtNode}
    {rest : Worklist} (hs : Steps g₀ s st' n' rest u) (hst : st ∈ g₀.stmts.toList)
    (hn : g₀.stmt st = .ok n) (hm : (s.graph.mem m).fieldInsensitive = true)
    (hone : st ∈ s.pending.items ∨ OnePlace g₀ m s st n) :
    st ∈ u.pending.items ∨ OnePlace g₀ m u st n := by
  by_cases hidle : st ∈ u.pending.items
  · exact Or.inl hidle
  right
  by_cases hsame : st = st'
  · subst hsame
    obtain rfl := ok_unique hs.stmt hn
    exact (hs.stepped.settled.resolve_left hidle).2 m hm
  · obtain ⟨hidle₀, hu⟩ := hs.undisturbed hwf hv hst hn hsame hidle
    obtain ⟨hmerges, hedges⟩ := hone.resolve_left hidle₀
    exact ⟨hu.merges hmerges, EdgesMerge.keep hwf hs.stepped.evolves (hs.popped hv) hsame hidle hedges⟩

theorem Run.onePlace (hwf : g₀.WellFormed) (hv : s.Valid g₀) (hrun : Run s k t)
    (hst : st ∈ g₀.stmts.toList) (hn : g₀.stmt st = .ok n)
    (hm : (s.graph.mem m).fieldInsensitive = true)
    (hone : st ∈ s.pending.items ∨ OnePlace g₀ m s st n) :
    st ∈ t.pending.items ∨ OnePlace g₀ m t st n := by
  induction hrun with
  | start => exact hone
  | reorder w _ hw ih => exact ih.imp_left hw.mem_iff.mpr
  | step hrun hstep ih =>
    obtain ⟨hv', hext⟩ := hrun.extends hwf hv
    obtain ⟨n', rest, hs⟩ := (step_spec hwf hv').result hstep
    exact hs.onePlace hwf hv' hst hn (hext.graph.collapsed hm) ih

/-- Somewhere between two states the statement waits although the allocation has no fields. -/
def WaitsCollapsed (m : MemId) (st : NodeId) (s t : Solver) : Prop :=
  ∃ j u i, Run s j u ∧ (u.graph.mem m).fieldInsensitive = true ∧ st ∈ u.pending.items ∧ Run u i t

/-- Memory without fields is one place, in either analysis and with any options. When nothing waits,
    every statement treats as one place what has no fields from the start, and what lost its fields
    on the way as long as the statement waited after that. -/
theorem collapsed_memory_is_one_place {d : ProgramDesc} {p : Program} (hbuild : Program.build d = .ok p)
    (types : Hierarchy) (options : Options) {s t : Solver} {k : Nat}
    (hstart : (Solver.new types p.graph options).start = .ok s) (hrun : Run s k t)
    (hend : t.pending.items = []) :
    ∀ st ∈ p.graph.stmts.toList, ∃ n, p.graph.stmt st = .ok n ∧ ∀ m,
      (p.graph.mem m).fieldInsensitive = true ∨ WaitsCollapsed m st s t → OnePlace p.graph m t st n := by
  have hwf := Program.wellFormed_of_build hbuild
  obtain ⟨s', hstart', hs⟩ := start_spec hwf types options
  obtain rfl := ok_unique hstart hstart'
  intro st hst
  obtain ⟨n, hn⟩ := hwf.stmt hst
  refine ⟨n, hn, fun m hm => ?_⟩
  have hwaits : WaitsCollapsed m st s t := by
    refine hm.elim (fun hm => ?_) id
    exact ⟨0, s, k, .start, hs.valid.heap.grows.collapsed hm, hs.pending.mpr hst, hrun⟩
  obtain ⟨j, u, i, hbefore, hfi, hwait, hafter⟩ := hwaits
  have hv := (hbefore.extends hwf hs.valid).1
  refine (hafter.onePlace hwf hv hst hn hfi (Or.inl hwait)).resolve_left ?_
  rw [hend]
  exact List.not_mem_nil

/-- A projection to an unknown place, and then one to a field. -/
def earlyCollapse : ProgramDesc where
  objects := [{ name := "o", alloc := .stack }]
  values := ["p", "q", "v"]
  statements := [{ kind := .addr "o" "p" }, { kind := .gep "p" "v" none none },
    { kind := .gep "p" "q" (some 1) none }]

theorem earlyCollapse_is_one_place : ∃ p s k t, Program.build earlyCollapse = .ok p ∧
    (Solver.new .empty p.graph {}).start = .ok s ∧ Run s k t ∧ t.pending.items = [] ∧
    (p.graph.mem 0).fieldInsensitive = false ∧ WaitsCollapsed 0 6 s t ∧
    ∃ n, p.graph.stmt 6 = .ok n ∧ OnePlace p.graph 0 t 6 n := by
  obtain ⟨p, s, -, -, hbuild, hstart, -, -, -, hcheck⟩ :=
    exists_end earlyCollapse .empty {} (fun p _ => !(p.graph.mem 0).fieldInsensitive &&
      p.graph.stmts.contains 6 && decide ((do
        let u ← (← (Solver.new .empty p.graph {}).start).runFor 2
        let t ← u.runFor 4
        return (u.graph.mem 0).fieldInsensitive && u.pending.items.contains 6 &&
          t.pending.items.isEmpty : Except Fault Bool) = .ok true)) (by decide +kernel)
  simp only [Bool.and_eq_true, Bool.not_eq_true', decide_eq_true_eq, hstart, ok_bind, bind_eq_ok]
    at hcheck
  obtain ⟨⟨hopen, hst⟩, u, hu, t, ht, hcheck⟩ := hcheck
  rw [pure_eq_ok, Except.ok.injEq] at hcheck
  simp only [Bool.and_eq_true, List.isEmpty_iff] at hcheck
  obtain ⟨⟨hfi, hwait⟩, hend⟩ := hcheck
  obtain ⟨j, hrun⟩ := Run.of_runFor .start hu
  obtain ⟨i, hrest⟩ := Run.of_runFor .start ht
  obtain ⟨k, hall⟩ := hrun.of_runFor ht
  have hwaits : WaitsCollapsed 0 6 s t := ⟨j, u, i, hrun, hfi, by simpa using hwait, hrest⟩
  obtain ⟨n, hn, hone⟩ :=
    collapsed_memory_is_one_place hbuild .empty {} hstart hall hend 6 (by simpa using hst)
  exact ⟨p, s, k, t, hbuild, hstart, hall, hend, hopen, hwaits, n, hn, hone 0 (Or.inr hwaits)⟩

/-- Fields, contents and an overwriting store of an object that loses its fields at the very end. -/
def lateCollapse : ProgramDesc where
  objects := [{ name := "o", alloc := .stack }, { name := "x", alloc := .stack },
    { name := "y", alloc := .stack }]
  values := ["p", "q", "r", "w", "l", "u", "v"]
  statements := [{ kind := .addr "o" "p" }, { kind := .gep "p" "q" (some 1) none },
    { kind := .addr "x" "r" }, { id := some "fieldStore", kind := .store "r" "q" none },
    { id := some "load", kind := .load "p" "l" none }, { kind := .addr "y" "w" },
    { id := some "store", kind := .store "w" "p" none },
    { id := some "fieldLoad", kind := .load "q" "u" none },
    { id := some "overwrite", kind := .store "r" "p" none }, { kind := .gep "p" "v" none none }]
  flows := [{ src := "fieldStore", dst := "load", objs := ["o"] },
    { src := "store", dst := "fieldLoad", objs := ["o"] },
    { src := "store", dst := "overwrite", objs := ["o"] }]

/-- Nobody is woken when an allocation loses its fields: afterwards a projection lacks the object
    itself, a load of a field lacks what the whole object holds, a store has overwritten its only
    object, and an edge has not carried what a field holds. -/
theorem lateCollapse_keeps_objects_apart : ∃ p s k t, Program.build lateCollapse = .ok p ∧
    (Solver.new .empty p.graph {}).start = .ok s ∧ Run s k t ∧ t.pending.items = [] ∧
    (t.graph.mem 0).fieldInsensitive = true ∧
    (∃ n, p.graph.stmt 11 = .ok n ∧ n.kind = .gep 0 1 (.field 1) ∧ ¬ Merges 0 t 11 n) ∧
    (∃ n, p.graph.stmt 17 = .ok n ∧ n.kind = .load 1 5 ∧ ¬ Merges 0 t 17 n) ∧
    (∃ n, p.graph.stmt 18 = .ok n ∧ n.kind = .store 2 0 ∧ (∀ e, t.Sees 18 0 e → e = 7) ∧
      ¬ Merges 0 t 18 n) ∧
    ∃ n, p.graph.stmt 13 = .ok n ∧ n.kind = .store 2 1 ∧ ¬ EdgesMerge p.graph 0 t 13 n := by
  obtain ⟨p, s, k, t, hbuild, hstart, -, hrun, hend, hcheck⟩ :=
    exists_end lateCollapse .empty {} (fun p t => (t.graph.mem 0).fieldInsensitive &&
      t.graph.nodes[7]? == some (Node.object (ObjNode.mk .base 0 "o")) &&
      t.graph.nodes[20]? == some (Node.object (ObjNode.mk (.field 7 1) 0 "o.1")) &&
      p.graph.nodes[11]? == some (Node.stmt (StmtNode.mk (.gep 0 1 (.field 1)) none)) &&
      p.graph.nodes[17]? == some (Node.stmt (StmtNode.mk (.load 1 5) none)) &&
      p.graph.nodes[18]? == some (Node.stmt (StmtNode.mk (.store 2 0) none)) &&
      p.graph.nodes[13]? == some (Node.stmt (StmtNode.mk (.store 2 1) none)) &&
      (p.graph.indirectSuccessors 13).any (fun e => e.1 == 14 && e.2.contains 7) &&
      (t.pts 0).toList == [7] && (t.pts 1).toList == [20] && !(t.pts 5).contains 9 &&
      !t.filters.isFiltered 11 7 && !t.filters.isFiltered 17 20 && !t.filters.isFiltered 18 7 &&
      (t.contentsBefore 17 7).contains 9 && (t.contentsBefore 18 7).contains 9 &&
      !(t.contentsAfter 18 7).contains 9 && (t.contentsAfter 13 20).contains 8 &&
      !(t.contentsBefore 14 20).contains 8) (by decide +kernel)
  simp only [Bool.and_eq_true, beq_iff_eq, Bool.not_eq_true', List.any_eq_true, and_assoc] at hcheck
  obtain ⟨hfi, ho, hfield, hgep, hload, hstore, hfstore, ⟨⟨_, label⟩, hedge, rfl, hl⟩, hp, hq, hu,
    hseen, hseen', hseen'', hin, hin', hout, hheld, hcarried⟩ := hcheck
  have hp' : ∀ e, e ∈ t.pts 0 ↔ e = 7 := fun e => by rw [← IdSet.mem_toList, hp, List.mem_singleton]
  have hq' : ∀ e, e ∈ t.pts 1 ↔ e = 20 := fun e => by rw [← IdSet.mem_toList, hq, List.mem_singleton]
  have hwhole : t.graph.Within 0 7 := ⟨_, Graph.obj_eq_ok.mpr ho, rfl⟩
  have hpart : t.graph.Within 0 20 := ⟨_, Graph.obj_eq_ok.mpr hfield, rfl⟩
  refine ⟨p, s, k, t, hbuild, hstart, hrun, hend, hfi, ⟨_, Graph.stmt_eq_ok.mpr hgep, rfl, fun h => ?_⟩,
    ⟨_, Graph.stmt_eq_ok.mpr hload, rfl, fun h => ?_⟩,
    ⟨_, Graph.stmt_eq_ok.mpr hstore, rfl, fun e he => (hp' e).mp he.1, fun h => ?_⟩,
    _, Graph.stmt_eq_ok.mpr hfstore, rfl, fun h => ?_⟩
  · have hmem := (hq' 7).mp (h 7 ⟨(hp' 7).mpr rfl, hseen⟩ hwhole)
    cases hmem
  · have hmem := h 20 ⟨(hq' 20).mpr rfl, hseen'⟩ hpart 7 hwhole 9 hin
    exact Bool.eq_false_iff.mp hu hmem
  · have hmem := h 7 ⟨(hp' 7).mpr rfl, hseen''⟩ hwhole 9 hin'
    exact Bool.eq_false_iff.mp hout hmem
  · have hmem := h 14 label hedge ⟨7, hl, hwhole⟩ 20 hpart 8 hheld
    exact Bool.eq_false_iff.mp hcarried hmem

end PointsTo.Solver
