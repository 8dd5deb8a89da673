import PointsTo.Proofs.Filtering
import PointsTo.Proofs.Monotonicity
import PointsTo.Proofs.OrderIndependence

/-! What splitting objects by type does to precision.

    An analysis with types puts several objects where one without types has one, and both can be told
    in places. Facts about them are related by the rules of the description: the analysis without
    types knows just what follows, and whatever a step of the other one finds out follows too, except
    in two cases. A clone that is an array where its prototype is none has a field at its start, and a
    store that does not see just the object that holds something does not overwrite it. -/

namespace PointsTo.Solver

variable {g₀ : Graph} {s t t' u : Solver} {j k : Nat} {st : NodeId} {n : StmtNode}

/-! ### Runs in parts -/

theorem Run.trans (hrun : Run s k u) (hrest : Run u j t) : Run s (k + j) t := by
  induction hrest with
  | start => exact hrun
  | reorder w _ hw ih => exact ih.reorder w hw
  | step _ hstep ih => exact ih.step hstep

/-! ### What may cost precision -/

/-- The type of the object has nothing to do with the type that the statement accesses. -/
def Unrelated (s : Solver) (n : StmtNode) (x : NodeId) : Prop :=
  ∃ T ty, s.options.reuseAt n.kind = false ∧ s.types.canonical n.ty = some T ∧
    s.heap.types[x]? = some (some ty) ∧ s.views? (some ty) (some T) = false ∧
    s.views? (some T) (some ty) = false

/-- Where a projection to the start of a whole object sees a clone, this is an array just if its
    prototype is. -/
def ClonesKeepShape (g₀ : Graph) (t : Solver) : Prop :=
  ∀ st n base dst c o ob, g₀.stmt st = .ok n → n.kind = .gep base dst (.field 0) →
    t.Sees st base c → t.heap.prototypes[c]? = some o → t.graph.obj c = .ok ob → ob.isField = false →
    (t.graph.mem ob.mem).fieldInsensitive = false →
    t.heap.isArrayAt t.types c ob = t.heap.isArrayAt t.types o ob

/-- Where the second analysis overwrites a place, the first one sees of it no object but the one that
    holds something, and has no reason to hide objects without replacing them. -/
def StoresStayStrong (g₀ : Graph) (t t' : Solver) : Prop :=
  ∀ st n src ptr e P o, g₀.stmt st = .ok n → n.kind = .store src ptr → Overwrites g₀ t' st ptr e →
    t'.graph.place? e = some P → t.graph.place? o = some P → (∃ x, x ∈ t.contentsBefore st o) →
    (∀ x, t.Sees st ptr x → x = o) ∧ ∀ x ∈ t.pts ptr, ¬ t.Unrelated n x

theorem Unrelated.keep {x : NodeId} (hun : s.Unrelated n x) (htypes : t.types = s.types)
    (hopts : t.options = s.options) (hext : s.heap.Extends t.heap) (hx : s.graph.HasObj x) :
    t.Unrelated n x := by
  obtain ⟨T, ty, hreuse, hT, hty, hviews, hviews'⟩ := hun
  refine ⟨T, ty, hopts ▸ hreuse, htypes ▸ hT, (hext.types hx).trans hty, ?_, ?_⟩
  · rw [views?_eq htypes hopts, hviews]
  · rw [views?_eq htypes hopts, hviews']

/-- A statement that hides an object hides it for a clone that it sees, or as unrelated. -/
theorem Reached.hides {s₀ : Solver} (hr : Reached g₀ s₀ s) (hn : g₀.stmt st = .ok n)
    (hgep : n.kind.isGep = false) {ptr x : NodeId} (hptr : n.kind.pointer? = some ptr)
    (hf : s.filters.isFiltered st x = true) : (∃ c, s.Sees st ptr c) ∨ s.Unrelated n x := by
  rcases hr.explained hn hf with hg | ⟨ptr', T, hptr', hT, ty, hty, -, -, hwhy⟩
  · rw [hgep] at hg
    cases hg
  rw [hptr, Option.some.injEq] at hptr'
  subst hptr'
  rcases hwhy with ⟨c, hc, -, hcty⟩ | ⟨hreuse, hsome, hviews, hviews'⟩
  · exact Or.inl ⟨c, hc, hr.clone_seen hn hgep hptr hT hcty⟩
  · obtain ⟨ty, rfl⟩ := Option.isSome_iff_exists.mp hsome
    exact Or.inr ⟨T, ty, hreuse, hT, hty, hviews, hviews'⟩

/-! ### The two exceptions -/

section Steps

variable {d : ProgramDesc} {b : Builder} {types : Hierarchy} {limit : Nat} {s₀ : Solver}

/-- Projections take objects for arrays where the description does, if clones keep their shape. -/
theorem Fielded.arraysAgree (hp : Fielded d b types limit u) (hp' : Fielded d b types limit t)
    (hrest : Run u j t) (hn : b.graph.stmt st = .ok n) (hshape : ClonesKeepShape b.graph t) :
    ArraysAgree types u st n := by
  intro base dst o ob hk hsees hfit hob hf hs hfi
  have hext := (hrest.extends hp.encodes.wellFormed hp.valid).2
  cases hproto : u.heap.prototypes[o]? with
  | none =>
    have hown := hp.whole hob hf
    rw [Heap.prototype_of_none hproto] at hown
    exact hp.isArrayAt_eq hown hs
  | some r =>
    have hown := hp.whole hob hf
    rw [Heap.prototype_of_some hproto] at hown
    have hob' : t.graph.obj o = .ok ob := hext.graph.obj hob
    have hmem : t.graph.mem ob.mem = u.graph.mem ob.mem := (hp'.mem_eq _).trans (hp.mem_eq _).symm
    have hshape := hshape st n base dst o r ob hn hk
      (hrest.seen hp.encodes.wellFormed hp.valid hn hsees hfit).1
      ((hext.prototypes ⟨ob, hob⟩).trans hproto) hob' hf (hmem ▸ hfi)
    rw [hp'.isArrayAt_eq hown hs, hp'.hierarchy, ← hp.hierarchy, Heap.isArrayAt_eq hext hob] at hshape
    rw [hshape, hmem, hp.hierarchy]

/-- If all that follows about a pointer is one place that can be overwritten, the analysis without types
    overwrites it. -/
theorem Plain.overwrites_of_derives (hp : Plain d b types limit t') {name : String} {ptr e : NodeId}
    {P : Place} (hexact : ∀ f, Shows b.graph t' f ↔ d.Derives types limit f)
    (hptr : b.valueIds[name]? = some ptr) (he : t'.graph.place? e = some P) (hmem : e ∈ t'.pts ptr)
    (honly : ∀ E m, d.Derives types limit (.pts name E) → IsMemory d.objects E.root m →
      E = P ∧ m.overwritable = true) (st : NodeId) : Overwrites b.graph t' st ptr e := by
  have hall : ∀ {x}, x ∈ t'.pts ptr → ∃ ob, t'.graph.obj x = .ok ob ∧ t'.graph.place? x = some P ∧
      b.graph.strong ob = true := by
    intro x hx
    obtain ⟨ob, hob⟩ := (hp.valid.pts hx).2
    obtain ⟨E, hE⟩ := hp.place ⟨ob, hob⟩
    have hderived := (hexact _).mp ((hp.shows_pts hptr).mpr ⟨x, hE, hx⟩)
    obtain ⟨rfl, hstrong⟩ := honly E _ hderived (hp.memory hob hE)
    exact ⟨ob, hob, hE, (hp.strong_eq hob).trans hstrong⟩
  obtain ⟨ob, hob, -, hstrong⟩ := hall hmem
  refine ⟨fun x => ⟨fun hx => ?_, ?_⟩, ob, hob, hstrong⟩
  · obtain ⟨-, -, hP, -⟩ := hall hx.1
    exact hp.place_inj hP he
  · rintro rfl
    exact ⟨hmem, hp.not_filtered st x⟩

/-- Stores let through what the description lets through, if they stay strong. -/
theorem Fielded.letsThrough (hp : Fielded d b types limit u) (hr : Reached b.graph s₀ u)
    (hfit : ∀ {ptr x}, n.kind.pointer? = some ptr → x ∈ u.pts ptr → n.kind.target? ≠ some ptr →
      u.filters.isFiltered st x = false → u.Fit n x)
    (hn : b.graph.stmt st = .ok n) (hrest : Run u j t) (hr' : Reached b.graph s₀ t)
    (hplain : Plain d b types limit t')
    (hexact : ∀ f, Shows b.graph t' f ↔ d.Derives types limit f)
    (hstrong : StoresStayStrong b.graph t t') : LetsThrough d b types limit u st n := by
  rintro src ptr o x name P hk hptr ho hx ⟨e, he⟩ hderives hnot
  by_contra hnone
  have honly : ∀ E m, d.Derives types limit (.pts name E) → IsMemory d.objects E.root m →
      E = P ∧ m.overwritable = true := fun E m hE hm => by
    simpa using fun hwhy => hnone ⟨E, m, hE, hm, hwhy⟩
  have hwf := hp.encodes.wellFormed
  have hret := hrest.retains hwf hp.valid
  have hext := (hrest.extends hwf hp.valid).2
  have hpointer : n.kind.pointer? = some ptr := by rw [hk]; rfl
  have htarget : n.kind.target? ≠ some ptr := by simp [hk, StmtKind.target?]
  have hgep : n.kind.isGep = false := by rw [hk]; rfl
  obtain ⟨oe, hoe⟩ := (hp.valid.pts he).2
  obtain ⟨E, hE⟩ := hp.place ⟨oe, hoe⟩
  have hderived := hderives e he E hE
  obtain ⟨rfl, hover⟩ := honly E _ hderived (hp.memory hoe hE)
  -- The other analysis overwrites this place, so only one object of it may be seen.
  obtain ⟨e', hE', he'⟩ := (hplain.shows_pts hptr).mp ((hexact _).mpr hderived)
  obtain ⟨hsees, hrelated⟩ := hstrong st n src ptr e' E o hn hk
    (hplain.overwrites_of_derives hexact hptr hE' he' honly st) hE' (hext.graph.place? ho)
    ⟨x, hret.before hx⟩
  have hsees' : ∀ y, u.Sees st ptr y → y = o := fun y hy =>
    hsees y (hrest.seen hwf hp.valid hn hy (hfit hpointer hy.1 htarget hy.2)).1
  have hseen : ∃ y, u.Sees st ptr y := by
    cases hf : u.filters.isFiltered st e with
    | false => exact ⟨e, he, hf⟩
    | true =>
      refine (hr.hides hn hgep hpointer hf).resolve_right fun hun => ?_
      exact hrelated e (hret.pts he) (hun.keep (hr'.types.trans hr.types.symm)
        (hr'.options.trans hr.options.symm) hext ⟨oe, hoe⟩)
  obtain ⟨y, hy⟩ := hseen
  obtain rfl := hsees' y hy
  obtain ⟨oy, hoy⟩ := (hp.valid.pts hy.1).2
  obtain ⟨-, hover⟩ := honly E _ hderived (hp.memory hoy ho)
  refine hnot ⟨fun z => ⟨hsees' z, fun hz => hz ▸ hy⟩, oy, hoy, ?_⟩
  rw [hp.graph_strong, hp.strong_eq hoy, hover]

/-- Whatever a run with types finds out follows from the description, if clones keep their shape and
    stores stay strong to its end. -/
theorem Run.sound {options : Options} (he : b.Encodes d) (hs : Started b.graph types options s₀)
    (hrun : Run s₀ k u) (hrest : Run u j t) (hkept : ∀ m, ¬ Collapsed b.graph t m)
    (hplain : Plain d b types options.maxFieldLimit t')
    (hexact : ∀ f, Shows b.graph t' f ↔ d.Derives types options.maxFieldLimit f)
    (hshape : ClonesKeepShape b.graph t) (hstrong : StoresStayStrong b.graph t t') :
    Sound d types options.maxFieldLimit b.graph u := by
  have hwf := he.wellFormed
  have hfielded : ∀ {k v j}, Run s₀ k v → Run v j t →
      Reached b.graph s₀ v ∧ Fielded d b types options.maxFieldLimit v := by
    intro k v j hrun hrest
    have hr := hrun.reached hwf hs.reached
    refine ⟨hr, .of_reached he hs hr fun m hc => hkept m ⟨hc.1, ?_⟩⟩
    exact (hrest.extends hwf hr.valid).2.graph.collapsed hc.2
  induction hrun generalizing j with
  | start => exact hs.sound he (hfielded .start hrest).2
  | reorder w hrun hw ih => exact ih (Run.trans (.reorder w .start hw) hrest)
  | step hrun hstep ih =>
    have hbefore := Run.trans (.step .start hstep) hrest
    obtain ⟨hr, hp⟩ := hfielded hrun hbefore
    obtain ⟨hr', hp'⟩ := hfielded (hrun.step hstep) hrest
    obtain ⟨hrLast, hpLast⟩ := hfielded (hrun.trans hbefore) .start
    obtain ⟨n, rest, hsteps⟩ := (step_spec hwf hr.valid).result hstep
    refine (ih hbefore).step hp hp' hsteps (hp'.arraysAgree hpLast hrest hsteps.stmt hshape) ?_
    exact hp'.letsThrough hr' (fun hptr hx htarget => hsteps.stepped.fit hptr hx (Or.inr htarget))
      hsteps.stmt hrest hrLast hplain hexact hstrong

end Steps

/-! ### Precision -/

/-- Splitting objects by type costs no precision, where clones keep the shape of their prototypes and
    stores stay strong: with the same other options, everything that the analysis with types knows at
    any time the analysis without types knows at its end, objects being matched by their places. A clone
    has the place of its prototype, and the field of an object has its offset in the object's place. -/
theorem cloning_keeps_precision {d : ProgramDesc} {p : Program} (hbuild : Program.build d = .ok p)
    (types : Hierarchy) (options : Options) {s t s' t' : Solver} {k k' : Nat}
    (hstart : (Solver.new types p.graph options).start = .ok s) (hrun : Run s k t)
    (hstart' : (Solver.new types p.graph { options with analysis := .flowSensitive }).start = .ok s')
    (hrun' : Run s' k' t') (hend' : t'.pending.items = [])
    (hkept : ∀ m, ¬ Collapsed p.graph t m) (hkept' : ∀ m, ¬ Collapsed p.graph t' m)
    (hshape : ClonesKeepShape p.graph t) (hstrong : StoresStayStrong p.graph t t') :
    ∀ f, Shows p.graph t f → Shows p.graph t' f := by
  obtain ⟨b, rfl, he⟩ := Program.build_spec hbuild
  have hs := started_of_start he.wellFormed hstart
  have hs' := started_of_start he.wellFormed hstart'
  have hr' := hrun'.reached he.wellFormed hs'.reached
  have hplain := Plain.of_reached he hs' rfl hr' hkept'
  have hnot := hplain.not_overreaches (hr'.atRest hs' hend')
  obtain ⟨-, -, hexact⟩ := hrun'.exact he hs' rfl hnot hend'
  intro f hf
  exact (hexact f).mpr (Run.sound he hs hrun .start hkept hplain hexact hshape hstrong f hf)

/-! ### Programs -/

/-- Does a value of the name point to an object at the place? -/
def pointsAt (g₀ : Graph) (s : Solver) (name : String) (P : Place) : Bool :=
  (List.range g₀.nodes.size).any fun v => g₀.nodes[v]? == some (.value name) &&
    (s.pts v).toList.any fun x => s.graph.place? x == some P

theorem pointsAt_iff {name : String} {P : Place} :
    pointsAt g₀ s name P = true ↔ Shows g₀ s (.pts name P) := by
  simp only [pointsAt, List.any_eq_true, List.mem_range, Bool.and_eq_true, beq_iff_eq]
  constructor
  · rintro ⟨v, -, hv, x, hx, hP⟩
    exact ⟨_, .pts hv hP, IdSet.mem_toList.mp hx⟩
  · rintro ⟨_, hread, hfact⟩
    cases hread with
    | pts hv hP => exact ⟨_, Graph.lt_size_of_getElem? hv, hv, _, IdSet.mem_toList.mpr hfact, hP⟩

theorem not_collapsed_of_mems (h : g₀.mems = s.graph.mems) (m : MemId) : ¬ Collapsed g₀ s m := by
  rintro ⟨hfi, hfi'⟩
  rw [Graph.mem, ← h, ← Graph.mem, hfi] at hfi'
  cases hfi'

/-- Clones keep their shape if their types are arrays just where those of their prototypes are. -/
theorem clonesKeepShape_of_types (h : (t.heap.prototypes.toList.all fun r =>
      t.types.isArray (t.heap.types[r.1]?).join == t.types.isArray (t.heap.types[r.2]?).join) = true) :
    ClonesKeepShape g₀ t := by
  intro st n base dst c o ob _ _ _ hproto _ _ _
  have hsame := List.all_eq_true.mp h (c, o) (Std.TreeMap.mem_toList_iff_getElem?_eq_some.mpr hproto)
  rw [Heap.isArrayAt, Heap.isArrayAt, eq_of_beq hsame]

/-- Does every store see no object but the one that holds something, and does its pointer point to no
    object of an unrelated type? -/
def staysStrong (g₀ : Graph) (t : Solver) : Bool :=
  g₀.stmts.toList.all fun st =>
    match g₀.nodes[st]? with
    | some (.stmt ⟨.store _ ptr, ty⟩) => t.graph.objects.toList.all fun o =>
      (t.contentsBefore st o).isEmpty || ((t.effective st ptr).toList.all (· == o) &&
        (t.pts ptr).toList.all fun x => t.views? (t.heap.types[x]?).join (t.types.canonical ty) ||
          t.views? (t.types.canonical ty) (t.heap.types[x]?).join)
    | _ => true

theorem storesStayStrong_of_check (hv : t.Valid g₀) (h : staysStrong g₀ t = true) :
    StoresStayStrong g₀ t t' := by
  rintro st ⟨kind, ty⟩ src ptr e P o hn rfl - - - ⟨x, hx⟩
  obtain ⟨hst, ho, -⟩ := hv.before hx
  have hnode := Graph.stmt_eq_ok.mp hn
  have hcheck := List.all_eq_true.mp h st hst
  simp only [hnode, List.all_eq_true, Bool.or_eq_true, Bool.and_eq_true] at hcheck
  obtain ⟨hsees, hrelated⟩ := (hcheck o (hv.heap.objects.mpr ho)).resolve_left fun hempty =>
    IdSet.isEmpty_iff.mp hempty x hx
  refine ⟨fun y hy => ?_, fun y hy => ?_⟩
  · exact eq_of_beq (hsees y (IdSet.mem_toList.mpr (mem_effective.mpr hy)))
  · rintro ⟨T, ty', -, hT, hty, hviews, hviews'⟩
    have hor := hrelated y (IdSet.mem_toList.mpr hy)
    rw [hT, hty, Option.join_some, hviews, hviews'] at hor
    simp at hor

/-- A `Base` that is written twice as a `Derived` and read as one. -/
def derivedWrites : ProgramDesc where
  types := [{ name := some "int", sizeBits := 32, kind := .basic .signed },
    { name := some "Base", sizeBits := 32, kind := .record .classWord [.field "x" 0] },
    { name := some "Derived", sizeBits := 64, kind := .record .classWord [.base 1, .field "y" 0] }]
  objects := [{ name := "o", alloc := .stack, ty := some 1 }, { name := "a", alloc := .stack },
    { name := "b", alloc := .stack }]
  values := ["p", "x", "y", "q", "r"]
  statements := [{ kind := .addr "o" "p" }, { kind := .addr "a" "x" }, { kind := .addr "b" "y" },
    { id := some "s", kind := .store "x" "p" (some 2) },
    { id := some "t", kind := .store "y" "p" (some 2) },
    { id := some "l", kind := .load "p" "q" (some 2) }, { kind := .gep "p" "r" (some 0) none }]
  flows := [{ src := "s", dst := "t", objs := ["o"] }, { src := "t", dst := "l", objs := ["o"] }]

/-- Both stores write to a clone, which the second one overwrites as it would overwrite the variable. -/
theorem derivedWrites_keep_precision : ∃ p s k t s' k' t', Program.build derivedWrites = .ok p ∧
    (Solver.new (declaredTypes derivedWrites) p.graph {}).start = .ok s ∧ Run s k t ∧
    (Solver.new (declaredTypes derivedWrites) p.graph { analysis := .flowSensitive }).start = .ok s' ∧
    Run s' k' t' ∧ t'.pending.items = [] ∧ (∀ m, ¬ Collapsed p.graph t m) ∧
    (∀ m, ¬ Collapsed p.graph t' m) ∧ ClonesKeepShape p.graph t ∧ StoresStayStrong p.graph t t' ∧
    t.heap.prototypes[15]? = some 5 ∧ Shows p.graph t' (.pts "q" (.whole "b")) ∧
    ¬ Shows p.graph t (.pts "q" (.whole "a")) := by
  obtain ⟨p, s, k, t, hbuild, hstart, -, hrun, -, hcheck⟩ :=
    exists_end derivedWrites (declaredTypes derivedWrites) {} (fun p t =>
      p.graph.mems == t.graph.mems && staysStrong p.graph t && (t.heap.prototypes.toList.all fun r =>
        t.types.isArray (t.heap.types[r.1]?).join == t.types.isArray (t.heap.types[r.2]?).join) &&
      t.heap.prototypes[15]? == some 5 && pointsAt p.graph t "q" (.whole "b")) (by decide +kernel)
  obtain ⟨p', s', k', t', hbuild', hstart', -, hrun', hend', hcheck'⟩ :=
    exists_end derivedWrites (declaredTypes derivedWrites) { analysis := .flowSensitive } (fun p t =>
      p.graph.mems == t.graph.mems && !pointsAt p.graph t "q" (.whole "a")) (by decide +kernel)
  obtain rfl := ok_unique hbuild hbuild'
  simp only [Bool.and_eq_true, beq_iff_eq, Bool.not_eq_true'] at hcheck hcheck'
  obtain ⟨⟨⟨⟨hmems, hstores⟩, hshapes⟩, hclone⟩, hshows⟩ := hcheck
  have hkept := not_collapsed_of_mems hmems
  have hkept' := not_collapsed_of_mems hcheck'.1
  have hshape : ClonesKeepShape p.graph t := clonesKeepShape_of_types hshapes
  have hstrong : StoresStayStrong p.graph t t' := by
    have hwf := Program.wellFormed_of_build hbuild
    have hreached := hrun.reached hwf (started_of_start hwf hstart).reached
    exact storesStayStrong_of_check hreached.valid hstores
  have hkeeps := cloning_keeps_precision hbuild (declaredTypes derivedWrites) {} hstart hrun hstart'
    hrun' hend' hkept hkept' hshape hstrong
  refine ⟨p, s, k, t, s', k', t', hbuild, hstart, hrun, hstart', hrun', hend', hkept, hkept', hshape,
    hstrong, hclone, hkeeps _ (pointsAt_iff.mp hshows), fun hshows' => ?_⟩
  rw [pointsAt_iff.mpr (hkeeps _ hshows')] at hcheck'
  cases hcheck'.2

/-- Both analyses of a program end and keep all fields, but only the one with types finds that a value
    may point to a place. -/
def LosesPrecision (d : ProgramDesc) (name : String) (P : Place) : Prop :=
  ∃ p s k t s' k' t', Program.build d = .ok p ∧
    (Solver.new (declaredTypes d) p.graph {}).start = .ok s ∧ Run s k t ∧ t.pending.items = [] ∧
    (Solver.new (declaredTypes d) p.graph { analysis := .flowSensitive }).start = .ok s' ∧
    Run s' k' t' ∧ t'.pending.items = [] ∧ (∀ m, ¬ Collapsed p.graph t m) ∧
    (∀ m, ¬ Collapsed p.graph t' m) ∧ Shows p.graph t (.pts name P) ∧
    ¬ Shows p.graph t' (.pts name P)

theorem losesPrecision_of_ends {d : ProgramDesc} {name : String} {P : Place}
    (h : endsWith d (declaredTypes d) {} (fun p t =>
      p.graph.mems == t.graph.mems && pointsAt p.graph t name P) = true)
    (h' : endsWith d (declaredTypes d) { analysis := .flowSensitive } (fun p t =>
      p.graph.mems == t.graph.mems && !pointsAt p.graph t name P) = true) :
    LosesPrecision d name P := by
  obtain ⟨p, s, k, t, hbuild, hstart, -, hrun, hend, hcheck⟩ := exists_end _ _ _ _ h
  obtain ⟨p', s', k', t', hbuild', hstart', -, hrun', hend', hcheck'⟩ := exists_end _ _ _ _ h'
  obtain rfl := ok_unique hbuild hbuild'
  simp only [Bool.and_eq_true, beq_iff_eq, Bool.not_eq_true'] at hcheck hcheck'
  exact ⟨p, s, k, t, s', k', t', hbuild, hstart, hrun, hend, hstart', hrun', hend',
    not_collapsed_of_mems hcheck.1, not_collapsed_of_mems hcheck'.1, pointsAt_iff.mp hcheck.2,
    fun hshows => by rw [pointsAt_iff.mpr hshows] at hcheck'; cases hcheck'.2⟩

/-- A variable of no type that is written twice, the second time as an `int`, and read. -/
def secondWriteTyped : ProgramDesc where
  types := [{ name := some "int", sizeBits := 32, kind := .basic .signed }]
  objects := [{ name := "o", alloc := .stack }, { name := "a", alloc := .stack },
    { name := "b", alloc := .stack }]
  values := ["p", "x", "y", "q"]
  statements := [{ kind := .addr "o" "p" }, { kind := .addr "a" "x" }, { kind := .addr "b" "y" },
    { id := some "s", kind := .store "x" "p" none }, { id := some "t", kind := .store "y" "p" (some 0) },
    { id := some "l", kind := .load "p" "q" none }]
  flows := [{ src := "s", dst := "t", objs := ["o"] }, { src := "t", dst := "l", objs := ["o"] }]

/-- A variable of no type that is written twice as an `int`, and first through a pointer that was only
    seen to point to a `float`. -/
def secondWriteHidden : ProgramDesc where
  types := [{ name := some "int", sizeBits := 32, kind := .basic .signed },
    { name := some "float", sizeBits := 32, kind := .basic .float }]
  objects := [{ name := "o", alloc := .stack }, { name := "a", alloc := .stack },
    { name := "b", alloc := .stack }]
  values := ["v", "x", "y", "p", "q"]
  statements := [{ kind := .addr "o" "v" }, { kind := .addr "a" "x" }, { kind := .addr "b" "y" },
    { id := some "s", kind := .store "x" "v" (some 0) }, { kind := .phi "p" ["v"] (some 1) },
    { id := some "t", kind := .store "y" "p" (some 0) }, { kind := .phi "p" ["v"] (some 0) },
    { id := some "l", kind := .load "p" "q" (some 0) }]
  flows := [{ src := "s", dst := "t", objs := ["o"] }, { src := "t", dst := "l", objs := ["o"] }]

/-- Memory that is read as an array, with a pointer to its start. -/
def readAsArray : ProgramDesc where
  types := [{ name := some "int", sizeBits := 32, kind := .basic .signed },
    { sizeBits := 128, kind := .array 0 (some 4) }]
  objects := [{ name := "o", alloc := .heap }]
  values := ["p", "x", "q"]
  statements := [{ kind := .addr "o" "p" }, { kind := .load "p" "x" (some 1) },
    { kind := .gep "p" "q" (some 0) none }]

/-- Each exception is real. A store overwrites a clone, and what the variable itself holds stays; a store
    that sees nothing yet lets everything through; and the clone for an array has a field at its start,
    where the memory itself has none. -/
theorem clones_lose_precision : LosesPrecision secondWriteTyped "q" (.whole "a") ∧
    LosesPrecision secondWriteHidden "q" (.whole "a") ∧
    LosesPrecision readAsArray "q" ⟨.ofName "o", some 0⟩ :=
  ⟨losesPrecision_of_ends (by decide +kernel) (by decide +kernel),
    losesPrecision_of_ends (by decide +kernel) (by decide +kernel),
    losesPrecision_of_ends (by decide +kernel) (by decide +kernel)⟩

end PointsTo.Solver
