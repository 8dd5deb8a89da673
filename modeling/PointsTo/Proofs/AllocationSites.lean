import PointsTo.Proofs.FixedPoint

/-! Where clones are announced.

    A statement that takes the address of an object passes on the object and all of its clones, but
    only when it is visited. When a clone is made, just one of these statements is woken: the site of
    the object, which is the last of them. So the clones of an object reach its site, and any other
    statement only if something else wakes it. -/

namespace PointsTo.Solver

variable {g₀ : Graph} {s t u : Solver} {k : Nat} {st obj dst c : NodeId} {n : StmtNode}

/-- A visit to a statement that takes an address passes on all clones. -/
theorem visit_seeds (hwf : g₀.WellFormed) (hv : s.Valid g₀) (hloc : st ∈ g₀.stmts.toList)
    (hn : g₀.stmt st = .ok n) (hk : n.kind = .addr obj dst) (hvisit : s.visit st = .ok u)
    (hc : u.heap.prototypes[c]? = some obj) : c ∈ u.pts dst := by
  have hv₁ := hv.counted (s.numProcessed + 1) s.numStrongUpdates
  have hn' : s.graph.stmt st = .ok n := hv.heap.grows.stmt hn
  obtain ⟨flag, p, heq, hp, -⟩ := visitAddr_eq hv₁ obj dst
  have htransfer : Solver.transfer { s with numProcessed := s.numProcessed + 1 } st =
      .ok (flag, { s with numProcessed := s.numProcessed + 1, pointers := p }) := by
    unfold transfer
    rw [show Solver.graph { s with numProcessed := s.numProcessed + 1 } = s.graph from rfl, hn']
    simp only [ok_bind, hk]
    exact congrArg Except.ok heq
  -- Waking the readers and carrying contents change neither the heap nor the points-to sets.
  have hvisited := (visitAddr_spec hwf hloc hn hv₁ hk).enqueue hwf hloc hn
  rw [heq] at hvisited
  unfold visit at hvisit
  rw [htransfer] at hvisit
  have hcarried : Delivers False _ _ := propagate_spec hwf hn hvisited.valid
  have hq := hcarried.result hvisit
  have hheap : u.heap = s.heap := by
    rw [hq.heap]
    cases flag <;> rfl
  have hpts : u.pts dst = p.pts dst := by
    rw [pts, hq.pointers]
    cases flag <;> rfl
  rw [hpts]
  exact (hp dst c).mpr (Or.inl ⟨rfl, Or.inr (hheap ▸ hc)⟩)

theorem step_eq_visit (hstep : s.step = .ok (some st, u)) :
    ∃ rest, s.pending.items = st :: rest.items ∧ Solver.visit { s with pending := rest } st = .ok u := by
  unfold step at hstep
  cases hpop : s.pending.pop? with
  | none =>
    rw [hpop] at hstep
    cases hstep
  | some r =>
    obtain ⟨st', rest⟩ := r
    rw [hpop] at hstep
    obtain ⟨u', hvisit, hsame⟩ := bind_eq_ok.mp hstep
    cases hsame
    exact ⟨rest, Worklist.pop?_some.mp hpop, hvisit⟩

/-- A statement that takes the address of an object waits or has passed on a clone of the object, if it
    is the site of the object or the clone was there before. -/
theorem Run.seeds (hwf : g₀.WellFormed) (hv : s.Valid g₀) (hrun : Run s k t)
    (hst : st ∈ g₀.stmts.toList) (hn : g₀.stmt st = .ok n) (hk : n.kind = .addr obj dst)
    (hsite : s.heap.sites[obj]? = some st ∨ s.heap.prototypes[c]? = some obj)
    (hinit : st ∈ s.pending.items ∨ (s.heap.prototypes[c]? = some obj → c ∈ s.pts dst)) :
    st ∈ t.pending.items ∨ (t.heap.prototypes[c]? = some obj → c ∈ t.pts dst) := by
  induction hrun with
  | start => exact hinit
  | reorder w _ hw ih => exact ih.imp_left hw.mem_iff.mpr
  | @step k t u st' hrun hstep ih =>
    obtain ⟨hv', hext⟩ := hrun.extends hwf hv
    obtain ⟨n', rest, hs⟩ := (step_spec hwf hv').result hstep
    have he := hs.stepped.evolves
    by_cases hwait : st ∈ u.pending.items
    · exact Or.inl hwait
    refine Or.inr fun hc => ?_
    by_cases hsame : st = st'
    · subst hsame
      obtain ⟨rest', hitems, hvisit⟩ := step_eq_visit hstep
      exact visit_seeds hwf (hv'.popped fun _ h => by rw [hitems]; exact List.mem_cons_of_mem _ h)
        hst hn hk hvisit hc
    · obtain ⟨hidle, -⟩ := hs.undisturbed hwf hv' hst hn hsame hwait
      have hseeded := ih.resolve_left hidle
      obtain ⟨o, ho⟩ := hwf.addr hst hn hk
      have ho' := hv.heap.grows.obj ho
      rcases he.clones hc with hold | hnews
      · exact he.pts (hseeded hold)
      · rcases hsite with hsite | hthere
        · -- The site is woken as soon as the clone is made.
          refine absurd (hnews o (hext.graph.obj ho') st ?_) hwait
          have hannounced : ∀ kind, o.kind = kind → st ∈ t.heap.announced obj kind := by
            rintro (_ | _ | ⟨r, j⟩ | _) hkind
            case field =>
              have hwhole := hwf.whole ho
              simp [ObjNode.isField, hkind] at hwhole
            all_goals simp [Heap.announced, Heap.site?, hext.sites ⟨o, ho'⟩, hsite]
          exact hannounced o.kind rfl
        · obtain ⟨-, oc, hoc, -⟩ := hv.heap.clone hthere
          exact he.pts (hseeded ((hext.prototypes ⟨oc, hoc⟩).trans hthere))

/-- Somewhere between two states the statement waits although the clone is there. -/
def WaitsCloned (c obj st : NodeId) (s t : Solver) : Prop :=
  ∃ j u i, Run s j u ∧ u.heap.prototypes[c]? = some obj ∧ st ∈ u.pending.items ∧ Run u i t

/-- Clones reach the allocations of their objects, in any order of visits and with any options. When
    nothing waits, all clones of an object have arrived at the last statement that takes its address,
    and at every other such statement those that were there while it waited. -/
theorem clones_reach_sites {d : ProgramDesc} {p : Program} (hbuild : Program.build d = .ok p)
    (types : Hierarchy) (options : Options) {s t : Solver} {k : Nat}
    (hstart : (Solver.new types p.graph options).start = .ok s) (hrun : Run s k t)
    (hend : t.pending.items = []) :
    ∀ st ∈ p.graph.stmts.toList, ∀ n obj dst, p.graph.stmt st = .ok n → n.kind = .addr obj dst →
      obj ∈ t.pts dst ∧ ∀ c, t.heap.prototypes[c]? = some obj →
        p.graph.lastSite? obj = some st ∨ WaitsCloned c obj st s t → c ∈ t.pts dst := by
  have hwf := Program.wellFormed_of_build hbuild
  have hs := started_of_start hwf hstart
  have hidle : ∀ st, st ∉ t.pending.items := fun st => by rw [hend]; exact List.not_mem_nil
  intro st hst n obj dst hn hk
  constructor
  · have hset := ((hrun.reached hwf hs.reached).settled hst hn (hidle st)).1.1
    simp only [Constraint, hk] at hset
    exact hset
  · rintro c hc (hlast | ⟨j, u, i, hbefore, hthere, hwait, hafter⟩)
    · exact (hrun.seeds hwf hs.valid hst hn hk (Or.inl ((hs.sites obj).trans hlast))
        (Or.inl (hs.pending.mpr hst))).resolve_left (hidle st) hc
    · exact (hafter.seeds hwf (hbefore.extends hwf hs.valid).1 hst hn hk (Or.inr hthere)
        (Or.inl hwait)).resolve_left (hidle st) hc

/-- Memory whose address is taken twice, and that is read as an `int`. -/
def twoSites : ProgramDesc where
  types := [{ name := some "int", sizeBits := 32, kind := .basic .signed }]
  objects := [{ name := "o", alloc := .heap }]
  values := ["p", "q", "x"]
  statements := [{ kind := .addr "o" "p" }, { kind := .addr "o" "q" }, { kind := .load "q" "x" (some 0) }]

/-- The clone for the load reaches the second statement, which is the site. -/
theorem twoSites_reach_last : ∃ p s k t, Program.build twoSites = .ok p ∧
    (Solver.new (declaredTypes twoSites) p.graph {}).start = .ok s ∧ Run s k t ∧
    t.pending.items = [] ∧ p.graph.stmt 5 = .ok ⟨.addr 3 1, none⟩ ∧ p.graph.lastSite? 3 = some 5 ∧
    t.heap.prototypes[7]? = some 3 ∧ 7 ∈ t.pts 1 := by
  obtain ⟨p, s, k, t, hbuild, hstart, -, hrun, hend, hcheck⟩ :=
    exists_end twoSites (declaredTypes twoSites) {} (fun p t =>
      p.graph.nodes[5]? == some (Node.stmt (StmtNode.mk (.addr 3 1) none)) &&
      p.graph.stmts.contains 5 && p.graph.lastSite? 3 == some 5 &&
      t.heap.prototypes[7]? == some 3) (by decide +kernel)
  simp only [Bool.and_eq_true, beq_iff_eq] at hcheck
  obtain ⟨⟨⟨hnode, hst⟩, hlast⟩, hclone⟩ := hcheck
  have hn := Graph.stmt_eq_ok.mpr hnode
  obtain ⟨-, hreach⟩ := clones_reach_sites hbuild (declaredTypes twoSites) {} hstart hrun hend 5
    (by simpa using hst) _ 3 1 hn rfl
  exact ⟨p, s, k, t, hbuild, hstart, hrun, hend, hn, hlast, hclone, hreach 7 hclone (Or.inl hlast)⟩

/-- The first statement is not woken, and the clone never reaches it. -/
theorem twoSites_miss_first : ∃ p s k t, Program.build twoSites = .ok p ∧
    (Solver.new (declaredTypes twoSites) p.graph {}).start = .ok s ∧ Run s k t ∧
    t.pending.items = [] ∧ 4 ∈ p.graph.stmts.toList ∧ p.graph.stmt 4 = .ok ⟨.addr 3 0, none⟩ ∧
    t.heap.prototypes[7]? = some 3 ∧ 7 ∉ t.pts 0 := by
  obtain ⟨p, s, k, t, hbuild, hstart, -, hrun, hend, hcheck⟩ :=
    exists_end twoSites (declaredTypes twoSites) {} (fun p t =>
      p.graph.nodes[4]? == some (Node.stmt (StmtNode.mk (.addr 3 0) none)) &&
      p.graph.stmts.contains 4 && t.heap.prototypes[7]? == some 3 && !(t.pts 0).contains 7)
      (by decide +kernel)
  simp only [Bool.and_eq_true, beq_iff_eq, Bool.not_eq_true'] at hcheck
  obtain ⟨⟨⟨hnode, hst⟩, hclone⟩, hmiss⟩ := hcheck
  exact ⟨p, s, k, t, hbuild, hstart, hrun, hend, by simpa using hst, Graph.stmt_eq_ok.mpr hnode, hclone,
    Bool.eq_false_iff.mp hmiss⟩

end PointsTo.Solver
