import PointsTo.Proofs.Places

/-! Runs find out nothing but what follows from the description.

    A step applies the rule of one statement to what is known and then the rules of the flows that
    leave it, and each of these is a rule of the description. Fields are lost only if some projection
    overreaches; so where none does, all states of all runs are plain. -/

namespace PointsTo.Solver

/-! ### Facts in the words of the description -/

/-- What a fact about nodes says of the described program. -/
inductive Fact.Reads (g₀ g : Graph) : Fact → ProgramFact → Prop where
  | pts {v x : NodeId} {name : String} {P : Place} : g₀.nodes[v]? = some (.value name) →
      g.place? x = some P → Reads g₀ g (.pts v x) (.pts name P)
  | before {st o x : NodeId} {i : Nat} {P Q : Place} : g₀.stmts[i]? = some st →
      g.place? o = some P → g.place? x = some Q → Reads g₀ g (.before st o x) (.before i P Q)
  | after {st o x : NodeId} {i : Nat} {P Q : Place} : g₀.stmts[i]? = some st →
      g.place? o = some P → g.place? x = some Q → Reads g₀ g (.after st o x) (.after i P Q)

/-- The state of an analysis knows the fact. -/
def Shows (g₀ : Graph) (s : Solver) (f : ProgramFact) : Prop :=
  ∃ fact : Fact, fact.Reads g₀ s.graph f ∧ s.Holds fact

/-- The fact is known and follows from the description. -/
def Justified (d : ProgramDesc) (types : Hierarchy) (limit : Nat) (g₀ : Graph) (s : Solver)
    (fact : Fact) : Prop :=
  s.Holds fact ∧ ∀ f, fact.Reads g₀ s.graph f → d.Derives types limit f

/-- Whatever the state knows follows from the description. -/
def Sound (d : ProgramDesc) (types : Hierarchy) (limit : Nat) (g₀ : Graph) (s : Solver) : Prop :=
  ∀ f, Shows g₀ s f → d.Derives types limit f

variable {d : ProgramDesc} {b : Builder} {types : Hierarchy} {limit : Nat} {s u : Solver}
  {st i : Nat} {kind : StmtKindDesc} {n : StmtNode}

theorem Fact.Reads.leaving {g : Graph} {o x : NodeId} {P Q : Place} (hr : b.Resolves kind n)
    (hi : b.graph.stmts[i]? = some st) (ho : g.place? o = some P) (hx : g.place? x = some Q) :
    (Fact.leaving n.kind.isStore st o x).Reads b.graph g (.leaving kind i P Q) := by
  cases kind with
  | addr obj dst | copy src dst init | gep base dst offset ty | load ptr dst ty =>
    obtain ⟨_, _, -, -, rfl⟩ := hr
    exact .before hi ho hx
  | store src ptr ty =>
    obtain ⟨_, _, -, -, rfl⟩ := hr
    exact .after hi ho hx
  | phi dst operands receiver =>
    obtain ⟨_, _, -, -, rfl⟩ := hr
    exact .before hi ho hx

/-! ### The rules -/

/-- A projection to the start of a whole object takes it for an array just where its declaration does. -/
def ArraysAgree (types : Hierarchy) (s : Solver) (st : NodeId) (n : StmtNode) : Prop :=
  ∀ {base dst o ob}, n.kind = .gep base dst (.field 0) → s.Sees st base o → s.Fit n o →
    s.graph.obj o = .ok ob → ob.isField = false → ob.isSpecial = false →
    (s.graph.mem ob.mem).fieldInsensitive = false →
    s.heap.isArrayAt s.types o ob = (s.graph.mem ob.mem).isArrayAt types

/-- Where a store lets a place keep what it holds, so do the rules of the description. -/
def LetsThrough (d : ProgramDesc) (b : Builder) (types : Hierarchy) (limit : Nat) (s : Solver)
    (st : NodeId) (n : StmtNode) : Prop :=
  ∀ {src ptr o x name P}, n.kind = .store src ptr → b.valueIds[name]? = some ptr →
    s.graph.place? o = some P → x ∈ s.contentsBefore st o → (∃ e, e ∈ s.pts ptr) →
    (∀ e ∈ s.pts ptr, ∀ E, s.graph.place? e = some E → d.Derives types limit (.pts name E)) →
    ¬ Overwrites s.graph s st ptr o → ∃ E m, d.Derives types limit (.pts name E) ∧
      IsMemory d.objects E.root m ∧ (E ≠ P ∨ m.overwritable = false)

namespace Fielded

theorem derives_pts (hp : Fielded d b types limit s) (hi : b.graph.stmts[i]? = some st)
    (hk : d.kindAt? i = some kind) (hr : b.Resolves kind n) (harrays : ArraysAgree types s st n)
    {v x : NodeId} {name : String} {P : Place}
    (hinf : Infers (Justified d types limit b.graph s) b.graph s st n (.pts v x))
    (hv : b.graph.nodes[v]? = some (.value name)) (hx : s.graph.place? x = some P) :
    d.Derives types limit (.pts name P) := by
  have hvalues : ∀ {name : String} {v : NodeId}, b.valueIds[name]? = some v →
      b.graph.nodes[v]? = some (.value name) := fun h => hp.encodes.named.values.mp h
  have hdst : ∀ {dst : String} {w : NodeId}, b.valueIds[dst]? = some w → some w = some v →
      dst = name := by
    rintro dst w hw heq
    rw [Option.some.injEq] at heq
    exact hp.encodes.name_unique hw (heq ▸ hv)
  obtain ⟨htarget, hinf⟩ := hinf
  cases kind with
  | addr obj dst =>
    obtain ⟨o, w, ho, hw, rfl⟩ := hr
    obtain rfl := hdst hw htarget
    have hP := hp.place?_of_find? ho
    rcases hinf with rfl | hclone
    · rw [hP, Option.some.injEq] at hx
      exact hx ▸ .addr hk
    · obtain ⟨-, ox, hox, hox'⟩ := hp.valid.heap.clone hclone
      have hsame : s.graph.place? x = s.graph.place? o := Graph.place?_congr hox hox'
      rw [hsame, hP, Option.some.injEq] at hx
      exact hx ▸ .addr hk
  | copy src dst init =>
    obtain ⟨u, w, hu, hw, rfl⟩ := hr
    obtain rfl := hdst hw htarget
    exact .copy hk (hinf.2 _ (.pts (hvalues hu) hx))
  | phi dst operands receiver =>
    obtain ⟨w, ids, hw, hids, rfl⟩ := hr
    obtain rfl := hdst hw htarget
    obtain ⟨u, hu, hjust⟩ := hinf
    obtain ⟨operand, hoperand, hu⟩ := (mem_of_resolved hids).mp hu
    exact .phi hk hoperand (hjust.2 _ (.pts (hvalues hu) hx))
  | gep base dst offset ty =>
    obtain ⟨u, w, hu, hw, rfl⟩ := hr
    obtain rfl := hdst hw htarget
    obtain ⟨o, ob, hjust, hsees, hfit, hob, hl⟩ := hinf
    obtain ⟨P', hP'⟩ := hp.place ⟨ob, hob⟩
    have hbase := hjust.2 _ (.pts (hvalues hu) hP')
    cases offset with
    | some k =>
      refine .gep hk hbase (hp.memory hob hP') (hp.project?_of_leads hob hP' ?_ hl hx)
      rintro rfl hf hs hfi
      exact harrays rfl hsees hfit hob hf hs hfi
    | none =>
      rw [hp.whole_of_leads hob hP' hl, Option.some.injEq] at hx
      exact hx ▸ .variant hk hbase
  | load ptr dst ty =>
    obtain ⟨u, w, hu, hw, rfl⟩ := hr
    obtain rfl := hdst hw htarget
    obtain ⟨o, ob, y, hjust, hob, hne, hy, hwhy⟩ := hinf
    obtain ⟨P', hP'⟩ := hp.place ⟨ob, hob⟩
    have hy' : s.graph.place? y = some P' := by
      rcases hwhy with rfl | ⟨hfi, oy, hoy, hm⟩
      · exact hP'
      · rw [← hp.place?_eq_of_mem hob hoy hm.symm hfi, hP']
    exact .load hk (hjust.2 _ (.pts (hvalues hu) hP'))
      (fun h => hne ((hp.special_iff hob hP' _).mp h)) (hy.2 _ (.before hi hy' hx))
  | store src ptr ty =>
    obtain ⟨u, w, -, -, rfl⟩ := hr
    cases htarget

theorem derives_after (hp : Fielded d b types limit s) (hi : b.graph.stmts[i]? = some st)
    (hk : d.kindAt? i = some kind) (hr : b.Resolves kind n)
    (hthrough : LetsThrough d b types limit s st n) {o x : NodeId} {P Q : Place}
    (hinf : Infers (Justified d types limit b.graph s) b.graph s st n (.after st o x))
    (ho : s.graph.place? o = some P) (hx : s.graph.place? x = some Q) :
    d.Derives types limit (.after i P Q) := by
  have hvalues : ∀ {name : String} {v : NodeId}, b.valueIds[name]? = some v →
      b.graph.nodes[v]? = some (.value name) := fun h => hp.encodes.named.values.mp h
  obtain ⟨-, hinf⟩ := hinf
  cases kind with
  | store src ptr ty =>
    obtain ⟨u, w, hu, hw, rfl⟩ := hr
    rcases hinf with ⟨hsrc, hptr, ob, hob, hs⟩ | ⟨hbefore, hne, hall, hnot⟩
    · exact .store hk (hsrc.2 _ (.pts (hvalues hu) hx)) (hptr.2 _ (.pts (hvalues hw) ho))
        ((hp.isSpecial_iff hob ho).mp hs)
    · obtain ⟨E, m, hE, hm, hwhy⟩ := hthrough rfl hw ho hbefore.1 hne
        (fun e he E hE => (hall e he).2 _ (.pts (hvalues hw) hE)) hnot
      exact .through hk (hbefore.2 _ (.before hi ho hx)) hE hm hwhy
  | addr obj dst | copy src dst init | gep base dst offset ty | load ptr dst ty =>
    obtain ⟨_, _, -, -, rfl⟩ := hr
    exact hinf.elim
  | phi dst operands receiver =>
    obtain ⟨_, _, -, -, rfl⟩ := hr
    exact hinf.elim

/-- What follows by the rule of a statement follows from the description. -/
theorem derives_of_infers (hp : Fielded d b types limit s) (hst : st ∈ b.graph.stmts.toList)
    (hn : b.graph.stmt st = .ok n) (harrays : ArraysAgree types s st n)
    (hthrough : LetsThrough d b types limit s st n) {fact : Fact} {f : ProgramFact}
    (hinf : Infers (Justified d types limit b.graph s) b.graph s st n fact)
    (hread : fact.Reads b.graph s.graph f) : d.Derives types limit f := by
  obtain ⟨i, kind, hi, hk, hr⟩ := hp.encodes.position hst hn
  cases hread with
  | pts hv hx => exact hp.derives_pts hi hk hr harrays hinf hv hx
  | before => exact hinf.elim
  | after hj ho hx =>
    obtain rfl := hinf.1
    obtain rfl := hp.encodes.position_unique hi hj
    exact hp.derives_after hi hk hr hthrough hinf ho hx

/-- A clone says nothing new of the described program. -/
theorem derives_of_splits (hp : Fielded d b types limit s) {fact : Fact} {f : ProgramFact}
    (hsplit : Splits (Justified d types limit b.graph s) s n fact)
    (hread : fact.Reads b.graph s.graph f) : d.Derives types limit f := by
  cases hread with
  | pts hv hx =>
    obtain ⟨-, y, hjust, hproto⟩ := hsplit
    rw [hp.place?_of_clone (hp.valid.pts hjust.1).2 hproto] at hx
    exact hjust.2 _ (.pts hv hx)
  | before => exact hsplit.elim
  | after => exact hsplit.elim

/-- What follows by an edge that leaves a statement follows from the description. -/
theorem derives_of_edgeInfers (hp : Fielded d b types limit s) (hst : st ∈ b.graph.stmts.toList)
    (hn : b.graph.stmt st = .ok n) {fact : Fact} {f : ProgramFact}
    (hinf : EdgeInfers (Justified d types limit b.graph s) b.graph s st n fact)
    (hread : fact.Reads b.graph s.graph f) : d.Derives types limit f := by
  obtain ⟨i, kind, hi, hk, hr⟩ := hp.encodes.position hst hn
  cases hread with
  | pts hv hx => exact hinf.elim
  | after => exact hinf.elim
  | @before t o x j P Q hj ho hx =>
    obtain ⟨label, hedge, hcarry, hjust⟩ := hinf
    obtain ⟨l, hl, hplace⟩ : ∃ l ∈ label, s.graph.place? o = s.graph.place? l := by
      rcases hcarry with ho | ⟨l, hl, hb⟩
      · exact ⟨o, ho, rfl⟩
      · exact ⟨l, hl, hp.place?_of_brings ((hp.encodes.wellFormed.indirect hedge).2 l hl) hb⟩
    obtain ⟨f, hf, hsrc, hdst, name, hname, hfind⟩ := hp.encodes.flows.described ⟨label, hedge, hl⟩
    obtain ⟨i', hi', hid⟩ := hp.encodes.stmtIds_iff.mp hsrc
    obtain ⟨j', hj', hid'⟩ := hp.encodes.stmtIds_iff.mp hdst
    obtain rfl := hp.encodes.position_unique hi hi'
    obtain rfl := hp.encodes.position_unique hj hj'
    have hflow := hjust.2 _ (.leaving hr hi ho hx)
    rw [hplace, hp.place?_of_find? hfind, Option.some.injEq] at ho
    subst ho
    exact .flow hf hid hid' hname hk hflow

/-! ### Steps -/

/-- A fact about earlier nodes says the same later. -/
theorem reads_of_grows (hp : Fielded d b types limit s) (hg : s.graph.Grows u.graph) {fact : Fact}
    {f : ProgramFact} (hfact : s.Holds fact) (hread : fact.Reads b.graph u.graph f) :
    fact.Reads b.graph s.graph f := by
  have hplace : ∀ {x : NodeId} {P : Place}, s.graph.HasObj x → u.graph.place? x = some P →
      s.graph.place? x = some P := by
    intro x P hx hP
    obtain ⟨P', hP'⟩ := hp.place hx
    rwa [← hP, hg.place? hP']
  cases hread with
  | pts hv hx => exact .pts hv (hplace (hp.valid.pts hfact).2 hx)
  | before hi ho hx =>
    obtain ⟨-, hobj, hobj'⟩ := hp.valid.before hfact
    exact .before hi (hplace hobj ho) (hplace hobj' hx)
  | after hi ho hx =>
    obtain ⟨-, hobj, hobj'⟩ := hp.valid.after hfact
    exact .after hi (hplace hobj ho) (hplace hobj' hx)

end Fielded

theorem Sound.step (hsound : Sound d types limit b.graph s) (hp : Fielded d b types limit s)
    (hp' : Fielded d b types limit u) {rest : Worklist} (hs : Steps b.graph s st n rest u)
    (harrays : ArraysAgree types u st n) (hthrough : LetsThrough d b types limit u st n) :
    Sound d types limit b.graph u := by
  rintro f ⟨fact, hread, hfact⟩
  refine hs.stepped.inferred (fun fact => ∀ f, fact.Reads b.graph u.graph f →
    d.Derives types limit f) ?_ ?_ ?_ ?_ fact hfact f hread
  · exact fun fact hfact f hread =>
      hsound f ⟨fact, hp.reads_of_grows hs.stepped.evolves.heap.graph hfact hread, hfact⟩
  · exact fun fact hsplit f hread => hp'.derives_of_splits hsplit hread
  · exact fun fact hinf f hread => hp'.derives_of_infers hs.mem hs.stmt harrays hthrough hinf hread
  · exact fun fact hinf f hread => hp'.derives_of_edgeInfers hs.mem hs.stmt hinf hread

/-! ### Without types -/

namespace Plain

theorem arraysAgree (hp : Plain d b types limit s) : ArraysAgree types s st n :=
  fun _ _ _ hob hf hs _ => hp.isArrayAt_eq hob hf hs

/-- Without types, a store lets an object through only if it may write elsewhere, or weakly. -/
theorem letsThrough (hp : Plain d b types limit s) : LetsThrough d b types limit s st n := by
  rintro src ptr o x name P - hw ho - ⟨e, he⟩ hderives hnot
  by_contra hnone
  simp only [not_exists, not_and, not_or, ne_eq, not_not] at hnone
  -- Otherwise the pointer leads to this one place only, and a store there overwrites it.
  have hall : ∀ e ∈ s.pts ptr, ∃ oe, s.graph.obj e = .ok oe ∧ s.graph.place? e = some P ∧
      s.graph.strong oe = true := by
    intro e he
    obtain ⟨oe, hoe⟩ := (hp.valid.pts he).2
    obtain ⟨E, hE⟩ := hp.place ⟨oe, hoe⟩
    obtain ⟨rfl, hstrong⟩ := hnone E _ (hderives e he E hE) (hp.memory hoe hE)
    rw [← hp.strong_eq hoe, ← hp.graph_strong] at hstrong
    exact ⟨oe, hoe, hE, by simpa using hstrong⟩
  have honly : ∀ e ∈ s.pts ptr, e = o := fun e he => by
    obtain ⟨-, -, hE, -⟩ := hall e he
    exact hp.place_inj hE ho
  obtain rfl := honly e he
  obtain ⟨oe, hoe, -, hstrong⟩ := hall e he
  exact hnot ⟨fun e' => ⟨fun hsees => honly e' hsees.1, fun h => h ▸ ⟨he, hp.not_filtered st e⟩⟩,
    oe, hoe, hstrong⟩

/-- A projection that loses fields overreaches. -/
theorem overreaches_of_collapses (hp : Plain d b types limit s)
    (hsound : Sound d types limit b.graph s) (hst : st ∈ b.graph.stmts.toList)
    (hn : b.graph.stmt st = .ok n) (htypes : u.types = s.types) (hext : s.heap.Extends u.heap)
    {m : MemId} (hfi : (s.graph.mem m).fieldInsensitive = false) (hc : Collapses s.Holds u n m) :
    d.Overreaches types limit := by
  obtain ⟨base, dst, offset, o, ob, hgep, ho, hob, hs, rfl, hwhy⟩ := hc
  obtain ⟨i, kind, hi, hk, hr⟩ := hp.encodes.position hst hn
  obtain ⟨ob', hob'⟩ := (hp.valid.pts ho).2
  obtain rfl := ok_unique (hext.graph.obj hob') hob
  obtain ⟨P, hP⟩ := hp.place ⟨ob', hob'⟩
  cases kind with
  | addr _ _ | copy _ _ _ | load _ _ _ | store _ _ _ | phi _ _ _ =>
    obtain ⟨_, _, -, -, rfl⟩ := hr
    cases hgep
  | gep baseName dstName offset' ty =>
    obtain ⟨v, w, hv, -, rfl⟩ := hr
    obtain ⟨rfl, rfl, rfl⟩ : v = base ∧ w = dst ∧ GepOffset.ofDesc offset' = offset := by
      simpa using hgep
    refine ⟨i, baseName, dstName, offset', ty, P, _, hk,
      hsound _ ⟨_, .pts (hp.encodes.named.values.mp hv) hP, ho⟩, hp.memory hob' hP, hfi, ?_⟩
    rintro k rfl
    obtain ⟨root, slot, hslot, hlimit, hopen⟩ := hwhy
    rw [hext.fieldLimit, hp.fieldLimit] at hlimit
    rw [htypes, Heap.isArrayAt_eq hext hob'] at hopen
    rcases hp.place_cases hob' with ⟨-, hf, hP'⟩ | ⟨r, j, w', hkind, -, -, -, -, -, hP'⟩ <;>
      rw [hP, Option.some.injEq] at hP' <;> subst hP'
    · rw [Heap.slotOf_of_whole hf] at hslot
      obtain ⟨-, rfl⟩ : o = root ∧ k = slot := by simpa using hslot
      rw [hp.isArrayAt_eq hob' hf hs] at hopen
      simp only [Memory.project?, hfi]
      simp [hlimit, hopen]
    · rw [hkind, Heap.slotOf_field_eq_ok] at hslot
      obtain ⟨-, rfl, -⟩ := hslot
      simp [Memory.project?, hfi, hlimit]

theorem step (hp : Plain d b types limit s) (hsound : Sound d types limit b.graph s)
    (hnot : ¬ d.Overreaches types limit) {rest : Worklist} (hs : Steps b.graph s st n rest u) :
    Plain d b types limit u := by
  have he := hs.stepped.evolves
  refine ⟨⟨hp.encodes, hs.stepped.valid, he.types.trans hp.hierarchy,
    he.heap.fieldLimit.trans hp.fieldLimit, fun ho => ?_, fun m => ?_⟩, ?_⟩
  · exact (he.heap.types (hp.valid.heap.grows.hasObj ⟨_, ho⟩)).trans (hp.firstTypes ho)
  · rw [← hp.fields]
    cases hfi : (s.graph.mem m).fieldInsensitive with
    | true => exact he.heap.graph.collapsed hfi
    | false =>
      by_contra hfi'
      rcases hs.stepped.collapses hp.untyped m (by simpa using hfi') with hold | hc
      · rw [show (s.graph.mem m).fieldInsensitive = true from hold] at hfi
        cases hfi
      · exact hnot (hp.overreaches_of_collapses hsound hs.mem hs.stmt he.types he.heap hfi hc)
  · rw [he.options]
    exact hp.untyped

end Plain

/-! ### Runs -/

section Runs

variable {options : Options} {s₀ : Solver}

theorem Started.plain (he : b.Encodes d) (hs : Started b.graph types options s₀)
    (huntyped : options.typed = false) : Plain d b types options.maxFieldLimit s₀ := by
  refine .of_reached he hs huntyped hs.reached fun m hc => ?_
  have hsame := hc.2
  rw [Solver.graph, hs.graph, hc.1] at hsame
  cases hsame

theorem Started.sound (he : b.Encodes d) (hs : Started b.graph types options s₀)
    (hp : Fielded d b types limit s₀) : Sound d types limit b.graph s₀ := by
  rintro f ⟨fact, hread, hfact⟩
  cases hread with
  | pts hv hx =>
    obtain ⟨sd, hsd, hvalue, name, hname, ho⟩ := he.seeds.described (hs.pts.mp hfact)
    rw [hp.place?_of_find? ho, Option.some.injEq] at hx
    obtain rfl := he.name_unique hvalue hv
    exact hx ▸ .seed hsd hname
  | before => exact absurd hfact hs.before
  | after => exact absurd hfact hs.after

/-- Where no projection overreaches, runs keep all fields and find out only what follows. -/
theorem Run.plain (he : b.Encodes d) (hs : Started b.graph types options s₀)
    (huntyped : options.typed = false) (hnot : ¬ d.Overreaches types options.maxFieldLimit) {k : Nat}
    (hrun : Run s₀ k s) : Plain d b types options.maxFieldLimit s ∧
      Sound d types options.maxFieldLimit b.graph s := by
  induction hrun with
  | start => exact ⟨hs.plain he huntyped, hs.sound he (hs.plain he huntyped).toFielded⟩
  | reorder w _ hw ih =>
    exact ⟨{ ih.1 with valid := ih.1.valid.popped fun _ h => hw.mem_iff.mp h }, ih.2⟩
  | step _ hstep ih =>
    obtain ⟨n, rest, hsteps⟩ := (step_spec he.wellFormed ih.1.valid).result hstep
    have hp := ih.1.step ih.2 hnot hsteps
    exact ⟨hp, ih.2.step ih.1.toFielded hp.toFielded hsteps hp.arraysAgree hp.letsThrough⟩

end Runs

end PointsTo.Solver
