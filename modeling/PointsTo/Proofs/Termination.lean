import Mathlib.Data.Set.Card
import Mathlib.Tactic.Ring
import PointsTo.Proofs.Bounds
import PointsTo.Proofs.Building
import PointsTo.Proofs.Runs

/-! Termination.

    A step takes one statement off the worklist. If it puts others on, it has learned a fact, and then
    it puts on at most all statements. Facts are never forgotten, and since there are finitely many
    objects there are finitely many facts; this bounds the number of steps, in whichever order the
    waiting statements are visited. -/

namespace PointsTo.Solver

variable {g₀ : Graph} {s₀ s s' : Solver}

/-! ### Counting facts -/

/-- The facts that are known in a state. -/
def facts (s : Solver) : Set Fact := { f | s.Holds f }

/-- The facts about some objects. -/
def factsAbout (g : Graph) (objs : Finset NodeId) : Finset Fact :=
  let stmts := g.stmts.toList.toFinset
  let contents := stmts ×ˢ objs ×ˢ objs
  (objs.image .object ∪ (Finset.range g.nodes.size ×ˢ objs).image fun p => .pts p.1 p.2) ∪
    (contents.image (fun p => .before p.1 p.2.1 p.2.2) ∪
      contents.image fun p => .after p.1 p.2.1 p.2.2)

theorem facts_subset (hv : s.Valid g₀) :
    s.facts ⊆ factsAbout g₀ s.graph.objects.toList.toFinset := by
  have hobj : ∀ {o}, s.graph.HasObj o → o ∈ s.graph.objects.toList.toFinset :=
    fun ho => List.mem_toFinset.mpr (hv.heap.objects.mpr ho)
  intro f hf
  simp only [factsAbout, Finset.coe_union, Set.mem_union, Finset.mem_coe, Finset.mem_image,
    Finset.mem_product, Prod.exists]
  cases f with
  | object o => exact Or.inl (Or.inl ⟨o, hobj hf, rfl⟩)
  | pts v o =>
    obtain ⟨hval, ho⟩ := hv.pts hf
    obtain ⟨name, hname⟩ := Graph.isValue_iff.mp hval
    exact Or.inl (Or.inr ⟨v, o, ⟨Finset.mem_range.mpr (Graph.lt_size_of_getElem? hname), hobj ho⟩, rfl⟩)
  | before st o x =>
    obtain ⟨hst, ho, hx⟩ := hv.before hf
    exact Or.inr (Or.inl ⟨st, o, x, ⟨List.mem_toFinset.mpr hst, hobj ho, hobj hx⟩, rfl⟩)
  | after st o x =>
    obtain ⟨hst, ho, hx⟩ := hv.after hf
    exact Or.inr (Or.inr ⟨st, o, x, ⟨List.mem_toFinset.mpr hst, hobj ho, hobj hx⟩, rfl⟩)

theorem card_factsAbout_le (g : Graph) (objs : Finset NodeId) : (factsAbout g objs).card ≤
    objs.card + g.nodes.size * objs.card + 2 * g.stmts.size * objs.card * objs.card := by
  have hstmts : g.stmts.toList.toFinset.card ≤ g.stmts.size :=
    (List.toFinset_card_le _).trans_eq Array.length_toList
  have hcontents : (g.stmts.toList.toFinset ×ˢ objs ×ˢ objs).card ≤
      g.stmts.size * (objs.card * objs.card) := by
    rw [Finset.card_product, Finset.card_product]
    exact Nat.mul_le_mul_right _ hstmts
  calc (factsAbout g objs).card
      ≤ (objs.card + (Finset.range g.nodes.size ×ˢ objs).card) +
          ((g.stmts.toList.toFinset ×ˢ objs ×ˢ objs).card +
            (g.stmts.toList.toFinset ×ˢ objs ×ˢ objs).card) := by
        refine (Finset.card_union_le _ _).trans (Nat.add_le_add ?_ ?_)
        · exact (Finset.card_union_le _ _).trans (Nat.add_le_add Finset.card_image_le Finset.card_image_le)
        · exact (Finset.card_union_le _ _).trans (Nat.add_le_add Finset.card_image_le Finset.card_image_le)
    _ ≤ (objs.card + g.nodes.size * objs.card) +
          (g.stmts.size * (objs.card * objs.card) + g.stmts.size * (objs.card * objs.card)) := by
        rw [Finset.card_product, Finset.card_range]
        exact Nat.add_le_add_left (Nat.add_le_add hcontents hcontents) _
    _ = _ := by ring

theorem facts_finite (hv : s.Valid g₀) : s.facts.Finite :=
  (Finset.finite_toSet _).subset (facts_subset hv)

/-- The facts known are no more than the facts about the objects there are. -/
theorem ncard_facts_le (hv : s.Valid g₀) : s.facts.ncard ≤ s.graph.objects.size +
    g₀.nodes.size * s.graph.objects.size +
    2 * g₀.stmts.size * s.graph.objects.size * s.graph.objects.size := by
  have hcard : s.graph.objects.toList.toFinset.card = s.graph.objects.size :=
    (List.toFinset_card_of_nodup hv.heap.objects_nodup).trans Array.length_toList
  have hle := card_factsAbout_le g₀ s.graph.objects.toList.toFinset
  rw [hcard] at hle
  refine le_trans ?_ hle
  rw [← Set.ncard_coe_finset]
  exact Set.ncard_le_ncard (facts_subset hv) (Finset.finite_toSet _)

/-! ### Counting steps -/

theorem pending_size_le (hv : s.Valid g₀) : s.pending.size ≤ g₀.stmts.size := by
  rw [← Array.length_toList, Worklist.size]
  exact (s.pending.nodup.subperm fun _ hst => hv.pending hst).length_le

/-- A step is paid for by the statement that it visits or by a fact that it learns. -/
theorem Steps.measure {st : NodeId} {n : StmtNode} {rest : Worklist} (hs : Steps g₀ s st n rest s') :
    1 + s'.pending.size + g₀.stmts.size * s.facts.ncard ≤
      s.pending.size + g₀.stmts.size * s'.facts.ncard := by
  have he := hs.stepped.evolves
  have hfin : s'.facts.Finite := facts_finite hs.stepped.valid
  have hsub : s.facts ⊆ s'.facts := fun f hf => he.holds hf
  have hsize : s.pending.size = 1 + rest.size := by
    rw [Worklist.size, Worklist.size, hs.pending, List.length_cons, Nat.add_comm]
  rcases he.paid with hsame | ⟨f, hf, hnew⟩
  · -- Nobody was woken.
    have hle := Set.ncard_le_ncard hsub hfin
    rw [hsize, hsame]
    gcongr
  · have hlt : s.facts.ncard < s'.facts.ncard :=
      Set.ncard_lt_ncard ⟨hsub, fun h => hnew (h hf)⟩ hfin
    have hpending := pending_size_le hs.stepped.valid
    calc 1 + s'.pending.size + g₀.stmts.size * s.facts.ncard
        ≤ s.pending.size + g₀.stmts.size + g₀.stmts.size * s.facts.ncard := by omega
      _ = s.pending.size + g₀.stmts.size * (s.facts.ncard + 1) := by ring
      _ ≤ s.pending.size + g₀.stmts.size * s'.facts.ncard := by gcongr; exact hlt

theorem Run.measure (hwf : g₀.WellFormed) (hinit : Reached g₀ s₀ s₀) {k : Nat} {t : Solver}
    (hrun : Run s₀ k t) : k + t.pending.size + g₀.stmts.size * s₀.facts.ncard ≤
      s₀.pending.size + g₀.stmts.size * t.facts.ncard := by
  induction hrun with
  | start => omega
  | reorder w _ hw ih =>
    rw [show w.size = _ from hw.length_eq]
    exact ih
  | step hrun hstep ih =>
    obtain ⟨n, rest, hs⟩ := (step_spec hwf (hrun.reached hwf hinit).valid).result hstep
    have hpaid := hs.measure
    omega

/-! ### Bounds on reached states -/

section Started

variable {types : Hierarchy} {options : Options} {t : Solver} {k : Nat}

theorem Started.reached (hs : Started g₀ types options s₀) : Reached g₀ s₀ s₀ :=
  .init hs.valid (fun _ hst => hs.pending.mpr hst) hs.filters

/-- The bound on the objects of a state, in the terms of the program. -/
theorem Reached.objects_le (hwf : g₀.WellFormed) (hs : Started g₀ types options s₀)
    (hr : Reached g₀ s₀ t) : t.graph.objects.size ≤
      g₀.objects.size * (1 + (g₀.accessedTypes types).length) *
        (1 + options.maxFieldLimit * (1 + (g₀.accessedTypes types).length)) := by
  have htypes : t.types = types := hr.types.trans hs.types
  have hlimit : t.heap.fieldLimit = options.maxFieldLimit := hr.heap.fieldLimit.trans hs.fieldLimit
  rw [← hlimit, ← htypes]
  exact Heap.objects_size_le hwf hr.valid.heap (List.nodup_dedup _) fun _ => mem_accessedTypes.mpr

theorem Reached.objects_le_objectBound (hwf : g₀.WellFormed) (hs : Started g₀ types options s₀)
    (hr : Reached g₀ s₀ t) : t.graph.objects.size ≤ s₀.objectBound := by
  have hle := Graph.length_accessedTypes_le g₀ types
  refine (hr.objects_le hwf hs).trans ?_
  simp only [objectBound, graph, hs.graph, hs.fieldLimit, Nat.add_comm _ 1]
  gcongr

/-- A run has fewer steps than the solver is given. -/
theorem Run.lt_stepBound (hwf : g₀.WellFormed) (hs : Started g₀ types options s₀)
    (hrun : Run s₀ k t) : k < s₀.stepBound := by
  have hr := hrun.reached hwf hs.reached
  have hobjects := hr.objects_le_objectBound hwf hs
  have hfacts := ncard_facts_le hr.valid
  have hmeasure := hrun.measure hwf hs.reached
  let n := s₀.objectBound
  let facts := n + g₀.nodes.size * n + 2 * g₀.stmts.size * n * n
  have hle : t.facts.ncard ≤ facts := by
    refine hfacts.trans ?_
    simp only [facts, n]
    gcongr
  calc k ≤ s₀.pending.size + g₀.stmts.size * t.facts.ncard := by omega
    _ ≤ s₀.pending.size + g₀.stmts.size * facts := by gcongr
    _ < s₀.pending.size + (g₀.stmts.size + 1) * (facts + 1) :=
      Nat.add_lt_add_left (Nat.mul_lt_mul'' (Nat.lt_succ_self _) (Nat.lt_succ_self _)) _
    _ = s₀.stepBound := by simp only [stepBound, graph, hs.graph, facts, n]

/-- Taking steps goes on until nothing waits or the steps are used up. -/
theorem Run.runFor (hwf : g₀.WellFormed) (hinit : Reached g₀ s₀ s₀) (n : Nat) (hrun : Run s₀ k s) :
    Delivers (∃ j u, Run s₀ j u ∧ MayOverflow g₀ u) (runFor n s) fun t =>
      ∃ j, Run s₀ j t ∧ (t.pending.items = [] ∨ j = k + n) := by
  induction n generalizing k s with
  | zero => exact ⟨k, hrun, Or.inr rfl⟩
  | succ n ih =>
    unfold Solver.runFor
    have hr := hrun.reached hwf hinit
    cases hstep : s.step with
    | error e =>
      obtain ⟨hover, hwhy⟩ := (step_spec hwf hr.valid).fault hstep
      exact ⟨hover, k, s, hrun, hwhy⟩
    | ok r =>
      have hspec := (step_spec hwf hr.valid).result hstep
      rcases r with ⟨_ | st, u⟩
      · obtain ⟨rfl, hempty⟩ := hspec
        exact ⟨k, hrun, Or.inl hempty⟩
      · refine (ih (hrun.step hstep)).mono ?_
        rintro t ⟨j, hj, hend⟩
        exact ⟨j, hj, hend.imp_right fun h => by omega⟩

/-- Taking steps is a run, however many are taken. -/
theorem Run.of_runFor {n : Nat} {u : Solver} (hrun : Run u k s) (h : Solver.runFor n s = .ok t) :
    ∃ j, Run u j t := by
  induction n generalizing k s with
  | zero =>
    cases h
    exact ⟨k, hrun⟩
  | succ n ih =>
    unfold Solver.runFor at h
    rw [bind_eq_ok] at h
    obtain ⟨⟨_ | st, v⟩, hstep, h⟩ := h
    · cases h
      unfold Solver.step at hstep
      split at hstep
      · cases hstep
        exact ⟨k, hrun⟩
      · rw [bind_eq_ok] at hstep
        obtain ⟨_, -, hstep⟩ := hstep
        cases hstep
    · exact ih (hrun.step hstep) h

/-- The solver takes enough steps. -/
theorem Started.solve (hwf : g₀.WellFormed) (hs : Started g₀ types options s₀) :
    Delivers (∃ k u, Run s₀ k u ∧ MayOverflow g₀ u) s₀.solve fun t =>
      ∃ k, Run s₀ k t ∧ t.pending.items = [] := by
  refine (Run.runFor hwf hs.reached s₀.stepBound .start).mono ?_
  rintro t ⟨k, hrun, hend⟩
  refine ⟨k, hrun, hend.resolve_right fun hk => ?_⟩
  have hlt := hrun.lt_stepBound hwf hs
  omega

end Started

/-- Does the analysis of a described program end in a state that passes a check? -/
def endsWith (d : ProgramDesc) (types : Hierarchy) (options : Options)
    (check : Program → Solver → Bool) : Bool :=
  match Program.build d with
  | .ok p =>
    match (Solver.new types p.graph options).analyze with
    | .ok t => check p t
    | .error _ => false
  | .error _ => false

theorem exists_end (d : ProgramDesc) (types : Hierarchy) (options : Options)
    (check : Program → Solver → Bool) (h : endsWith d types options check = true) :
    ∃ p s k t, Program.build d = .ok p ∧ (Solver.new types p.graph options).start = .ok s ∧
      s.solve = .ok t ∧ Run s k t ∧ t.pending.items = [] ∧ check p t = true := by
  unfold endsWith at h
  cases hbuild : Program.build d with
  | error e => rw [hbuild] at h; cases h
  | ok p =>
    have hwf := Program.wellFormed_of_build hbuild
    obtain ⟨s, hstart, hs⟩ := start_spec hwf types options
    simp only [hbuild, analyze, hstart, ok_bind] at h
    cases hsolve : s.solve with
    | error e => rw [hsolve] at h; cases h
    | ok t =>
      rw [hsolve] at h
      obtain ⟨k, hrun, hend⟩ := (hs.solve hwf).result hsolve
      exact ⟨p, s, k, t, rfl, hstart, hsolve, hrun, hend, h⟩

/-! ### Termination -/

/-- Every analysis of a built program ends. In whichever order waiting statements are visited, it
    takes no more than a fixed number of steps, each of which succeeds unless an offset is too large
    for a machine word; and in every state there are no more objects than the objects of the program,
    their clones at the accessed types, the fields of all of these and the clones of the fields. -/
theorem analysis_terminates {d : ProgramDesc} {p : Program} (hbuild : Program.build d = .ok p)
    (types : Hierarchy) (options : Options) :
    ∃ s, (Solver.new types p.graph options).start = .ok s ∧
      (∀ k t, Run s k t → k ≤ s.stepBound ∧
        (t.pending.items = [] ∨ (∃ st u, t.step = .ok (some st, u)) ∨ t.step = .error .addOverflow) ∧
        t.graph.objects.size ≤ p.graph.objects.size * (1 + (p.graph.accessedTypes types).length) *
          (1 + options.maxFieldLimit * (1 + (p.graph.accessedTypes types).length))) ∧
      ((∃ k t, Run s k t ∧ t.pending.items = [] ∧ s.solve = .ok t) ∨
        s.solve = .error .addOverflow) := by
  have hwf := Program.wellFormed_of_build hbuild
  obtain ⟨s, hstart, hs⟩ := start_spec hwf types options
  refine ⟨s, hstart, fun k t hrun => ⟨(hrun.lt_stepBound hwf hs).le, ?_, ?_⟩, ?_⟩
  · rcases (step_spec hwf (hrun.reached hwf hs.reached).valid).cases with ⟨⟨_ | st, u⟩, heq, hu⟩ | ⟨hover, -⟩
    · exact Or.inl hu.2
    · exact Or.inr (Or.inl ⟨st, u, heq⟩)
    · exact Or.inr (Or.inr hover)
  · exact (hrun.reached hwf hs.reached).objects_le hwf hs
  · rcases (hs.solve hwf).cases with ⟨t, hsolve, k, hrun, hempty⟩ | ⟨hover, -⟩
    · exact Or.inl ⟨k, t, hrun, hempty, hsolve⟩
    · exact Or.inr hover

/-- A pointer that moves by one field each time around a loop. -/
def fieldWalk : ProgramDesc where
  objects := [{ name := "h", alloc := .heap }]
  values := ["p0", "p", "q"]
  statements := [{ kind := .addr "h" "p0" }, { kind := .phi "p" ["p0", "q"] none },
    { kind := .gep "p" "q" (some 1) none }]

/-- The walk ends, with no more objects than fields below the limit and the whole object. -/
theorem fieldWalk_terminates : ∃ p, Program.build fieldWalk = .ok p ∧
    ∃ s, (Solver.new .empty p.graph { maxFieldLimit := 8 }).start = .ok s ∧
      (∀ k t, Run s k t → k ≤ s.stepBound ∧ t.graph.objects.size ≤ 9) ∧
      ∃ k t, Run s k t ∧ t.pending.items = [] ∧ s.solve = .ok t := by
  obtain ⟨p, s, k, t, hbuild, hstart, hsolve, -, -, hcheck⟩ :=
    exists_end fieldWalk .empty { maxFieldLimit := 8 } (fun p _ =>
      p.graph.objects.size == 1 && (p.graph.accessedTypes .empty).length == 0) (by decide +kernel)
  simp only [Bool.and_eq_true, beq_iff_eq] at hcheck
  obtain ⟨s', hstart', hrun, hend⟩ := analysis_terminates hbuild .empty { maxFieldLimit := 8 }
  obtain rfl := ok_unique hstart hstart'
  refine ⟨p, hbuild, s, hstart, fun k t hk => ⟨(hrun k t hk).1, ?_⟩, hend.resolve_right ?_⟩
  · have hle := (hrun k t hk).2.2
    rwa [hcheck.1, hcheck.2] at hle
  · rw [hsolve]
    exact nofun

end PointsTo.Solver
