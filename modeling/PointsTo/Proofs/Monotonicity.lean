import PointsTo.Proofs.FixedPoint

/-! Nothing is taken back.

    Steps add to the sets of the analysis and never remove anything from them. Filters grow too, so
    what a statement sees of its pointer could shrink; but the verdict on an object that was once
    looked at and not filtered is final, because no rule of `verdict` can come to reject it later.
    Only what a statement adds to its own pointer it has not looked at yet. -/

namespace PointsTo.Solver

variable {g₀ : Graph} {s t u : Solver} {k : Nat} {st ptr x : NodeId} {n : StmtNode}

/-! ### Sets only grow -/

/-- What is known in the first state is known in the second. -/
structure Retains (s u : Solver) : Prop where
  pts : ∀ {v o}, o ∈ s.pts v → o ∈ u.pts v
  before : ∀ {st o x}, x ∈ s.contentsBefore st o → x ∈ u.contentsBefore st o
  after : ∀ {st o x}, x ∈ s.contentsAfter st o → x ∈ u.contentsAfter st o
  filters : ∀ {st o}, s.filters.isFiltered st o = true → u.filters.isFiltered st o = true
  clones : ∀ {p c}, c ∈ s.heap.clones.setAt p → c ∈ u.heap.clones.setAt p
  slots : ∀ {r k f}, f ∈ s.heap.fields.setAt r k → f ∈ u.heap.fields.setAt r k
  collapsed : ∀ {m}, (s.graph.mem m).fieldInsensitive = true →
    (u.graph.mem m).fieldInsensitive = true
  nodes : ∀ {x o}, s.graph.obj x = .ok o → u.graph.obj x = .ok o
  types : ∀ {x : NodeId}, s.graph.HasObj x → u.heap.types[x]? = s.heap.types[x]?

theorem Steps.retains (hv : s.Valid g₀) {rest : Worklist} (hs : Steps g₀ s st n rest u) :
    Retains s u := by
  have he := hs.stepped.evolves
  have hv' := hs.stepped.valid
  refine ⟨he.pts, he.before, he.after, he.filters, fun {p c} hc => ?_, fun {r k f} hf => ?_,
    he.heap.graph.collapsed, he.heap.graph.obj, he.heap.types⟩
  · rw [hv.heap.clones] at hc
    obtain ⟨-, o, ho, -⟩ := hv.heap.clone hc
    exact hv'.heap.clones.mpr ((he.heap.prototypes ⟨o, ho⟩).trans hc)
  · obtain ⟨o, ho, hk⟩ := hv.heap.fields.mp hf
    exact hv'.heap.fields.mpr ⟨o, he.heap.graph.obj ho, hk⟩

theorem Retains.refl (s : Solver) : Retains s s :=
  ⟨id, id, id, id, id, id, id, id, fun _ => rfl⟩

theorem Retains.trans (h : Retains s t) (h' : Retains t u) : Retains s u where
  pts ho := h'.pts (h.pts ho)
  before hx := h'.before (h.before hx)
  after hx := h'.after (h.after hx)
  filters hf := h'.filters (h.filters hf)
  clones hc := h'.clones (h.clones hc)
  slots hf := h'.slots (h.slots hf)
  collapsed hm := h'.collapsed (h.collapsed hm)
  nodes ho := h'.nodes (h.nodes ho)
  types hx := (h'.types ⟨_, h.nodes hx.choose_spec⟩).trans (h.types hx)

theorem Run.retains (hwf : g₀.WellFormed) (hv : s.Valid g₀) (hrun : Run s k t) : Retains s t := by
  induction hrun with
  | start => exact .refl s
  | reorder w _ _ ih => exact { ih with }
  | step hrun hstep ih =>
    have hv' := (hrun.extends hwf hv).1
    obtain ⟨n', rest, hs⟩ := (step_spec hwf hv').result hstep
    exact ih.trans (hs.retains hv')

/-! ### Verdicts are final -/

/-- A statement goes on seeing what it has no reason to filter. -/
theorem Steps.seen (hv : s.Valid g₀) {st' : NodeId} {n' : StmtNode} {rest : Worklist}
    (hs : Steps g₀ s st' n' rest u) (hn : g₀.stmt st = .ok n) (hx : s.Sees st ptr x)
    (hfit : s.Fit n x) : u.Sees st ptr x ∧ u.Fit n x := by
  have he := hs.stepped.evolves
  have hobj := (hv.pts hx.1).2
  refine ⟨⟨he.pts hx.1, ?_⟩, hfit.keep hv he.types he.options he.heap hobj⟩
  cases hfil : u.filters.isFiltered st x with
  | false => rfl
  | true =>
    have hold : s.filters.isFiltered st x = true := by
      rcases he.filtersNew hfil with hold | rfl
      · exact hold
      · obtain rfl := ok_unique hs.stmt hn
        exact hs.stepped.steady hobj hfit hfil
    rw [hx.2] at hold
    cases hold

theorem Run.seen (hwf : g₀.WellFormed) (hv : s.Valid g₀) (hrun : Run s k t)
    (hn : g₀.stmt st = .ok n) (hx : s.Sees st ptr x) (hfit : s.Fit n x) :
    t.Sees st ptr x ∧ t.Fit n x := by
  induction hrun with
  | start => exact ⟨hx, hfit⟩
  | reorder w _ hw ih => exact ih
  | step hrun hstep ih =>
    have hv' := (hrun.extends hwf hv).1
    obtain ⟨n', rest, hs⟩ := (step_spec hwf hv').result hstep
    exact hs.seen hv' hn ih.1 ih.2

/-- Runs are monotone and verdicts are final. No step removes anything from a points-to set, from
    contents, from a filter, from the clones of an object or from a slot, gives fields back to an
    allocation, or changes the type of an object. And whatever a statement sees of its pointer right
    after it was visited it sees in all later states; what it has itself just added to its own pointer
    is the only exception. -/
theorem runs_are_monotone {d : ProgramDesc} {p : Program} (hbuild : Program.build d = .ok p)
    (types : Hierarchy) (options : Options) {s : Solver}
    (hstart : (Solver.new types p.graph options).start = .ok s) :
    ∀ k u st v, Run s k u → u.step = .ok (some st, v) → Retains u v ∧
      ∀ n ptr, p.graph.stmt st = .ok n → n.kind.pointer? = some ptr →
        ∀ x ∈ v.effective st ptr, x ∈ u.pts ptr ∨ n.kind.target? ≠ some ptr →
          ∀ j w, Run v j w → x ∈ w.effective st ptr := by
  have hwf := Program.wellFormed_of_build hbuild
  have hs := started_of_start hwf hstart
  intro k u st v hrun hstep
  have hv := (hrun.reached hwf hs.reached).valid
  obtain ⟨n', rest, hsteps⟩ := (step_spec hwf hv).result hstep
  refine ⟨hsteps.retains hv, fun n ptr hn hptr x hx hold j w hlater => ?_⟩
  obtain rfl := ok_unique hsteps.stmt hn
  obtain ⟨hmem, hseen⟩ := mem_effective.mp hx
  have hfit := hsteps.stepped.fit hptr hmem hold hseen
  exact mem_effective.mpr (hlater.seen hwf hsteps.stepped.valid hn ⟨hmem, hseen⟩ hfit).1

/-- Right after its first visit the load of a `B` sees a clone, and so it does ever after. -/
theorem reusedMemory_monotone : ∃ p s k u v, Program.build reusedMemory = .ok p ∧
    (Solver.new (declaredTypes reusedMemory) p.graph {}).start = .ok s ∧ Run s k u ∧
    u.step = .ok (some 10, v) ∧ Retains u v ∧ 12 ∈ v.effective 10 0 ∧
    v.heap.prototypes[12]? = some 4 ∧ ∀ j w, Run v j w → 12 ∈ w.effective 10 0 := by
  obtain ⟨p, s, -, -, hbuild, hstart, -, -, -, hcheck⟩ :=
    exists_end reusedMemory (declaredTypes reusedMemory) {} (fun p _ =>
      p.graph.nodes[10]? == some (Node.stmt (StmtNode.mk (.load 0 3) (some 1))) && decide ((do
        let u ← (← (Solver.new (declaredTypes reusedMemory) p.graph {}).start).runFor 4
        let (st, v) ← u.step
        return st == some 10 && (v.effective 10 0).contains 12 && v.heap.prototypes[12]? == some 4 :
          Except Fault Bool) = .ok true)) (by decide +kernel)
  simp only [Bool.and_eq_true, decide_eq_true_eq, hstart, ok_bind, bind_eq_ok, beq_iff_eq] at hcheck
  obtain ⟨hload, u, hu, ⟨st, v⟩, hstep, hcheck⟩ := hcheck
  rw [pure_eq_ok, Except.ok.injEq] at hcheck
  simp only [Bool.and_eq_true, beq_iff_eq] at hcheck
  obtain ⟨⟨rfl, hseen⟩, hproto⟩ := hcheck
  obtain ⟨k, hrun⟩ := Run.of_runFor .start hu
  obtain ⟨hretains, hfinal⟩ :=
    runs_are_monotone hbuild (declaredTypes reusedMemory) {} hstart k u 10 v hrun hstep
  exact ⟨p, s, k, u, v, hbuild, hstart, hrun, hstep, hretains, hseen, hproto,
    hfinal _ 0 (Graph.stmt_eq_ok.mpr hload) rfl 12 hseen (Or.inr (by decide))⟩

/-- A receiver that is merged into itself. -/
def selfReceiver : ProgramDesc where
  types := [{ name := some "int", sizeBits := 32, kind := .basic .signed }]
  objects := [{ name := "o", alloc := .heap }]
  values := ["p", "q"]
  statements := [{ kind := .addr "o" "q" }, { kind := .phi "p" ["p", "q"] (some 0) }]

/-- Its first visit adds the object to the receiver without looking at it, and right after that it is
    seen; the second visit replaces it by a clone. -/
theorem selfReceiver_sees_less : ∃ p s k u v w, Program.build selfReceiver = .ok p ∧
    (Solver.new (declaredTypes selfReceiver) p.graph {}).start = .ok s ∧ Run s k u ∧
    p.graph.stmt 4 = .ok ⟨.phi 0 [0, 1], some 0⟩ ∧ u.step = .ok (some 4, v) ∧
    v.step = .ok (some 4, w) ∧ 2 ∈ v.effective 4 0 ∧ 2 ∉ w.effective 4 0 ∧ 5 ∈ w.effective 4 0 := by
  obtain ⟨p, s, -, -, hbuild, hstart, -, -, -, hcheck⟩ :=
    exists_end selfReceiver (declaredTypes selfReceiver) {} (fun p _ =>
      p.graph.nodes[4]? == some (Node.stmt (StmtNode.mk (.phi 0 [0, 1]) (some 0))) && decide ((do
        let u ← (← (Solver.new (declaredTypes selfReceiver) p.graph {}).start).runFor 1
        let (st, v) ← u.step
        let (st', w) ← v.step
        return st == some 4 && st' == some 4 && (v.effective 4 0).contains 2 &&
          !(w.effective 4 0).contains 2 && (w.effective 4 0).contains 5 :
          Except Fault Bool) = .ok true)) (by decide +kernel)
  simp only [Bool.and_eq_true, decide_eq_true_eq, hstart, ok_bind, bind_eq_ok, beq_iff_eq] at hcheck
  obtain ⟨hphi, u, hu, ⟨st, v⟩, hstep, ⟨st', w⟩, hstep', hcheck⟩ := hcheck
  rw [pure_eq_ok, Except.ok.injEq] at hcheck
  simp only [Bool.and_eq_true, beq_iff_eq, Bool.not_eq_true'] at hcheck
  obtain ⟨⟨⟨⟨rfl, rfl⟩, hseen⟩, hgone⟩, hclone⟩ := hcheck
  obtain ⟨k, hrun⟩ := Run.of_runFor .start hu
  exact ⟨p, s, k, u, v, w, hbuild, hstart, hrun, Graph.stmt_eq_ok.mpr hphi, hstep, hstep', hseen,
    Bool.eq_false_iff.mp hgone, hclone⟩

end PointsTo.Solver
