import PointsTo.Proofs.FixedPoint

/-! What typed accesses filter.

    When nothing waits, an access of a type sees exactly the objects that it may be meant for: what it
    sees is of its type or of one that its type is a base of, and for what it does not see it sees a
    clone instead, unless the types have nothing to do with each other. Verdicts are given once, at
    any time of the run, but the reasons for them last to its end. -/

namespace PointsTo.Solver

variable {g₀ : Graph} {s : Solver} {st ptr x : NodeId} {n : StmtNode} {T : TypeId} {ty : Option TypeId}

/-- What an access sees is fit for it. -/
theorem AllJudged.fit (hj : AllJudged s st n) (htyped : s.options.typed = true)
    (hgep : n.kind.isGep = false) (hptr : n.kind.pointer? = some ptr)
    (hT : s.types.canonical n.ty = some T) (hx : x ∈ s.pts ptr) {o : ObjNode}
    (ho : s.graph.obj x = .ok o) (hown : o.isSpecial = false) (hty : s.heap.types[x]? = some ty)
    (hseen : s.filters.isFiltered st x = false) : s.views? (some T) ty = true ∨
      ((s.graph.mem o.mem).fieldInsensitive = true ∧ T ∈ s.types.fieldTypes ty) := by
  rcases hj htyped ptr T hptr hT x hx with ⟨o', ho', hs⟩ | hf | ⟨o', ty', ho', hty', hkeep⟩
  · obtain rfl := ok_unique ho ho'
    rw [hown] at hs
    cases hs
  · rw [hseen] at hf
    cases hf
  · obtain rfl := ok_unique ho ho'
    rw [hty, Option.some.injEq] at hty'
    subst hty'
    have hwhy := verdict_reason hkeep
    rwa [VerdictReason, hgep, ← or_assoc, or_iff_left Bool.false_ne_true] at hwhy

/-- What an access filters it has a reason to filter, in the terms of the statement. -/
theorem Explained.rejected (he : Explained s n x) (hgep : n.kind.isGep = false)
    (hptr : n.kind.pointer? = some ptr) (hT : s.types.canonical n.ty = some T) :
    s.Rejected T (s.options.reuseAt n.kind) (· ∈ s.pts ptr) x := by
  rcases he with hg | ⟨ptr', T', hptr', hT', hr⟩
  · rw [hgep] at hg
    cases hg
  · rw [hptr, Option.some.injEq] at hptr'
    rw [hT, Option.some.injEq] at hT'
    subst hptr' hT'
    exact hr

/-- A clone of the accessed type is never filtered. -/
theorem Reached.clone_seen {s₀ : Solver} (hr : Reached g₀ s₀ s) (hn : g₀.stmt st = .ok n)
    (hgep : n.kind.isGep = false) (hptr : n.kind.pointer? = some ptr)
    (hT : s.types.canonical n.ty = some T) (hty : s.heap.types[x]? = some (some T)) :
    s.filters.isFiltered st x = false := by
  by_contra hf
  have hf : s.filters.isFiltered st x = true := by simpa using hf
  obtain ⟨ty', hty', hne, -⟩ := (hr.explained hn hf).rejected hgep hptr hT
  rw [hty, Option.some.injEq] at hty'
  exact hne hty'.symm

/-- The filters of a typed analysis, when nothing waits: for an access of canonical type `T`, that is a
    load, a store or a phi with a receiver, and for each object that its pointer may point to and that
    is the program's own, what is seen is fit for the access, what is filtered is replaced by a clone
    of type `T` or is of an unrelated type, and what is of type `T` or more special is seen. And at any
    time, what a statement filters is what its pointer may point to. -/
theorem filters_are_exact {d : ProgramDesc} {p : Program} (hbuild : Program.build d = .ok p)
    (types : Hierarchy) (options : Options) (htyped : options.analysis = .typedHeap) {s : Solver}
    (hstart : (Solver.new types p.graph options).start = .ok s) :
    (∀ k t, Run s k t → t.pending.items = [] → ∀ st n ptr T, st ∈ p.graph.stmts.toList →
      p.graph.stmt st = .ok n → n.kind.isGep = false → n.kind.pointer? = some ptr →
      types.canonical n.ty = some T → ∀ o ∈ t.pts ptr, ∀ ob, t.graph.obj o = .ok ob →
      ob.isSpecial = false → ∃ tp, t.heap.types[o]? = some tp ∧
        (t.filters.isFiltered st o = false → types.isBase (some T) tp options.firstField = true ∨
          ((t.graph.mem ob.mem).fieldInsensitive = true ∧ T ∈ types.fieldTypes tp)) ∧
        (t.filters.isFiltered st o = true →
          (∃ c ∈ t.pts ptr, t.heap.prototypes[c]? = some (t.heap.prototype o) ∧
            t.heap.types[c]? = some (some T) ∧ t.filters.isFiltered st c = false) ∨
          (options.reuseAt n.kind = false ∧ tp.isSome = true ∧
            types.isBase tp (some T) options.firstField = false ∧
            types.isBase (some T) tp options.firstField = false)) ∧
        (tp = some T ∨ (types.isBase (some T) tp options.firstField = true ∧
            types.isBase tp (some T) options.firstField = false) →
          t.filters.isFiltered st o = false)) ∧
    ∀ k t, Run s k t → ∀ st o, t.filters.isFiltered st o = true →
      ∃ n ptr, p.graph.stmt st = .ok n ∧ n.kind.pointer? = some ptr ∧ o ∈ t.pts ptr := by
  have hwf := Program.wellFormed_of_build hbuild
  obtain ⟨s', hstart', hs⟩ := start_spec hwf types options
  obtain rfl := ok_unique hstart hstart'
  constructor
  · intro k t hrun hend st n ptr T hst hn hgep hptr hT o ho ob hob hown
    have hr := hrun.reached hwf hs.reached
    have htypes : t.types = types := hr.types.trans hs.types
    have hopts : t.options = options := hr.options.trans hs.options
    have hviews : ∀ a b, t.views? a b = types.isBase a b options.firstField := fun a b => by
      rw [views?, htypes, hopts]
    have hT' : t.types.canonical n.ty = some T := htypes ▸ hT
    obtain ⟨tp, htp⟩ := hr.valid.heap.typed ⟨ob, hob⟩
    obtain ⟨-, hjudged⟩ := (hr.settled hst hn (by rw [hend]; exact List.not_mem_nil)).1
    have hrejected : t.filters.isFiltered st o = true →
        t.Rejected T (t.options.reuseAt n.kind) (· ∈ t.pts ptr) o :=
      fun hf => (hr.explained hn hf).rejected hgep hptr hT'
    refine ⟨tp, htp, fun hseen => ?_, fun hf => ?_, fun hspecial => ?_⟩
    · rw [← hviews, ← htypes]
      exact hjudged.fit (by rw [hopts, Options.typed, htyped]; rfl) hgep hptr hT' ho hob hown htp hseen
    · obtain ⟨ty, hty, -, -, hwhy⟩ := hrejected hf
      rw [htp, Option.some.injEq] at hty
      subst hty
      rcases hwhy with ⟨c, hc, hproto, hcty⟩ | hwhy
      · exact Or.inl ⟨c, hc, hproto, hcty, hr.clone_seen hn hgep hptr hT' hcty⟩
      · rw [hopts, hviews, hviews] at hwhy
        exact Or.inr hwhy
    · by_contra hf
      obtain ⟨ty, hty, hne, hback, -⟩ := hrejected (by simpa using hf)
      rw [htp, Option.some.injEq] at hty
      subst hty
      rw [hviews, hviews] at hback
      rcases hspecial with rfl | ⟨hbase, hnot⟩
      · exact hne rfl
      · rw [hback hbase] at hnot
        cases hnot
  · intro k t hrun st o hf
    obtain ⟨-, n, ptr, hn, hptr, ho⟩ := (hrun.reached hwf hs.reached).valid.filters hf
    exact ⟨n, ptr, hn, hptr, ho⟩

/-- The load of a `B` filters the untyped memory, and sees a clone of type `B` in its place. -/
theorem reusedMemory_filters : ∃ p s k t, Program.build reusedMemory = .ok p ∧
    (Solver.new (declaredTypes reusedMemory) p.graph {}).start = .ok s ∧ Run s k t ∧
    t.pending.items = [] ∧ t.filters.isFiltered 10 4 = true ∧ ∃ c ∈ t.pts 0,
      t.heap.prototypes[c]? = some (t.heap.prototype 4) ∧ t.heap.types[c]? = some (some 1) ∧
      t.filters.isFiltered 10 c = false := by
  obtain ⟨p, s, k, t, hbuild, hstart, -, hrun, hend, hcheck⟩ :=
    exists_end reusedMemory (declaredTypes reusedMemory) {} (fun p t =>
      p.graph.nodes[10]? == some (Node.stmt (StmtNode.mk (.load 0 3) (some 1))) && p.graph.stmts.contains 10 &&
      (declaredTypes reusedMemory).canonical (some 1) == some 1 && (t.pts 0).contains 4 &&
      t.graph.nodes[4]? == some (Node.object (ObjNode.mk .base 0 "h")) &&
      t.heap.types[4]? == some none && t.filters.isFiltered 10 4) (by decide +kernel)
  simp only [Bool.and_eq_true, beq_iff_eq] at hcheck
  obtain ⟨⟨⟨⟨⟨⟨hload, hst⟩, hT⟩, ho⟩, hob⟩, htp⟩, hf⟩ := hcheck
  obtain ⟨tp, htp', -, hb, -⟩ := (filters_are_exact hbuild (declaredTypes reusedMemory) {} rfl hstart).1
    k t hrun hend 10 _ 0 1 (by simpa using hst) (Graph.stmt_eq_ok.mpr hload) rfl rfl hT 4 ho _
    (Graph.obj_eq_ok.mpr hob) rfl
  rw [htp, Option.some.injEq] at htp'
  subst htp'
  exact ⟨p, s, k, t, hbuild, hstart, hrun, hend, hf, (hb hf).resolve_right (by simp)⟩

end PointsTo.Solver
