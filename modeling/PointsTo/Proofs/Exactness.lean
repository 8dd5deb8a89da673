import PointsTo.Proofs.Soundness

/-! The flow-sensitive analysis is exact.

    When nothing waits any more, all rules of the description have been applied; so the analysis
    knows all that follows, and by soundness it knows nothing else. The description does not say in
    which order statements are visited, and the rules do not care in which order it lists them. -/

namespace PointsTo.Solver

variable {d : ProgramDesc} {b : Builder} {types : Hierarchy} {limit : Nat} {s : Solver}

/-- Nothing is left to do: seeds and statements have passed on all that they have to. -/
structure AtRest (g₀ : Graph) (s : Solver) : Prop where
  seeds : ∀ {v o}, (v, o) ∈ g₀.seeds.toList → o ∈ s.pts v
  constraint : ∀ {st n}, st ∈ g₀.stmts.toList → g₀.stmt st = .ok n → Constraint g₀ s st n
  carried : ∀ {st n}, st ∈ g₀.stmts.toList → g₀.stmt st = .ok n → EdgesCarry g₀ s st n

/-! ### What a state shows -/

theorem Plain.shows_pts (hp : Plain d b types limit s) {name : String} {v : NodeId}
    (hv : b.valueIds[name]? = some v) {P : Place} :
    Shows b.graph s (.pts name P) ↔ ∃ x, s.graph.place? x = some P ∧ x ∈ s.pts v := by
  constructor
  · rintro ⟨_, hread, hfact⟩
    cases hread with
    | pts hw hx =>
      obtain rfl := hp.encodes.value_unique hv hw
      exact ⟨_, hx, hfact⟩
  · rintro ⟨x, hx, hmem⟩
    exact ⟨_, .pts (hp.encodes.named.values.mp hv) hx, hmem⟩

theorem shows_before {g₀ : Graph} {i : Nat} {st : NodeId} (hi : g₀.stmts[i]? = some st)
    {P Q : Place} : Shows g₀ s (.before i P Q) ↔
      ∃ o x, s.graph.place? o = some P ∧ s.graph.place? x = some Q ∧ x ∈ s.contentsBefore st o := by
  constructor
  · rintro ⟨_, hread, hfact⟩
    cases hread with
    | before hj ho hx =>
      obtain rfl := Option.some.inj (hi.symm.trans hj)
      exact ⟨_, _, ho, hx, hfact⟩
  · rintro ⟨o, x, ho, hx, hmem⟩
    exact ⟨_, .before hi ho hx, hmem⟩

theorem shows_after {g₀ : Graph} {i : Nat} {st : NodeId} (hi : g₀.stmts[i]? = some st)
    {P Q : Place} : Shows g₀ s (.after i P Q) ↔
      ∃ o x, s.graph.place? o = some P ∧ s.graph.place? x = some Q ∧ x ∈ s.contentsAfter st o := by
  constructor
  · rintro ⟨_, hread, hfact⟩
    cases hread with
    | after hj ho hx =>
      obtain rfl := Option.some.inj (hi.symm.trans hj)
      exact ⟨_, _, ho, hx, hfact⟩
  · rintro ⟨o, x, ho, hx, hmem⟩
    exact ⟨_, .after hi ho hx, hmem⟩

theorem shows_leaving {kind : StmtKindDesc} {n : StmtNode} {i : Nat} {st : NodeId}
    (hr : b.Resolves kind n) (hi : b.graph.stmts[i]? = some st) {P Q : Place} :
    Shows b.graph s (.leaving kind i P Q) ↔ ∃ o x, s.graph.place? o = some P ∧
      s.graph.place? x = some Q ∧ x ∈ s.flow.leaving n.kind.isStore st o := by
  cases kind with
  | addr _ _ | copy _ _ _ | gep _ _ _ _ | load _ _ _ | phi _ _ _ =>
    obtain ⟨_, _, -, -, rfl⟩ := hr
    exact shows_before hi
  | store _ _ _ =>
    obtain ⟨_, _, -, -, rfl⟩ := hr
    exact shows_after hi

/-! ### Completeness -/

namespace Plain

/-- What a projection leads to, once it arrived. -/
theorem arrives_field (hp : Plain d b types limit s) {st o : NodeId} {ob : ObjNode} {k : Nat}
    {P : Place} {arrived : NodeId → Prop} (hob : s.graph.obj o = .ok ob)
    (hP : s.graph.place? o = some P) (ha : Arrives b.graph s st (.field k) o ob arrived) :
    ∃ x Q, arrived x ∧ s.graph.place? x = some Q ∧
      (s.graph.mem ob.mem).project? types limit P k = some Q := by
  have hleads : ∃ x, arrived x ∧ Leads b.graph s (.field k) o ob x ∧ s.graph.HasObj x := by
    unfold Arrives at ha
    split at ha
    case isTrue hs => exact ⟨o, ha, by simp [Leads, hs], ob, hob⟩
    case isFalse hs =>
      rcases ha with ⟨hfi, hfi'⟩ | ⟨objs, hproj, hobjs⟩
      · rw [hp.fields, hfi] at hfi'
        cases hfi'
      · obtain ⟨-, hprojected⟩ := (Heap.project_spec hp.valid.heap hob).result hproj
        obtain ⟨x, hx⟩ := hprojected.nonempty hp.valid.heap
        exact ⟨x, (hobjs x hx).1, leads_of_projected hp.valid hp.valid.heap hob (by simpa using hs)
          hprojected hx, hprojected.hasObj hp.valid.heap hob hx⟩
  obtain ⟨x, harr, hl, hx⟩ := hleads
  obtain ⟨Q, hQ⟩ := hp.place hx
  exact ⟨x, Q, harr, hQ, hp.project?_of_leads hob hP (fun _ hf hs _ => hp.isArrayAt_eq hob hf hs) hl hQ⟩

theorem arrives_variant (hp : Plain d b types limit s) {st o : NodeId} {ob : ObjNode} {P : Place}
    {arrived : NodeId → Prop} (hob : s.graph.obj o = .ok ob) (hP : s.graph.place? o = some P)
    (ha : Arrives b.graph s st .variant o ob arrived) :
    (s.graph.mem ob.mem).fieldInsensitive = true ∧
      ∃ x, arrived x ∧ s.graph.place? x = some ⟨P.root, none⟩ := by
  unfold Arrives at ha
  split at ha
  case isTrue hs =>
    exact ⟨hp.fieldInsensitive_of_special hob hs, o, ha, hp.whole_of_leads hob hP (by simp [Leads, hs])⟩
  case isFalse hs =>
    exact ⟨ha.2, _, ha.1, hp.whole_of_leads hob hP (by simp [Leads, hs])⟩

theorem sees (hp : Plain d b types limit s) {st v o : NodeId} (ho : o ∈ s.pts v) : s.Sees st v o :=
  ⟨ho, hp.not_filtered st o⟩

/-- All that follows from the description is known when nothing is left to do. -/
theorem shows_of_derives (hp : Plain d b types limit s) (hrest : AtRest b.graph s) {f : ProgramFact}
    (hf : d.Derives types limit f) : Shows b.graph s f := by
  induction hf with
  | @seed sd name hsd hname =>
    obtain ⟨v, hv, hobjs⟩ := hp.encodes.seeds.present sd hsd
    obtain ⟨o, ho, hmem⟩ := hobjs name hname
    exact (hp.shows_pts hv).mpr ⟨o, hp.place?_eq_whole.mpr ho, hrest.seeds hmem⟩
  | addr hk =>
    obtain ⟨st, n, -, hst, hn, o, v, ho, hv, rfl⟩ := hp.encodes.statement hk
    exact (hp.shows_pts hv).mpr ⟨o, hp.place?_eq_whole.mpr ho, hrest.constraint hst hn⟩
  | copy hk _ ih =>
    obtain ⟨st, n, -, hst, hn, u, v, hu, hv, rfl⟩ := hp.encodes.statement hk
    obtain ⟨x, hx, hmem⟩ := (hp.shows_pts hu).mp ih
    exact (hp.shows_pts hv).mpr ⟨x, hx, hrest.constraint hst hn x hmem⟩
  | phi hk hop _ ih =>
    obtain ⟨st, n, -, hst, hn, v, ids, hv, hids, rfl⟩ := hp.encodes.statement hk
    obtain ⟨u, hu, hin⟩ := exists_of_resolved hids hop
    obtain ⟨x, hx, hmem⟩ := (hp.shows_pts hu).mp ih
    refine (hp.shows_pts hv).mpr ⟨x, hx, ?_⟩
    have hcon := hrest.constraint hst hn
    cases ids with
    | nil => cases hin
    | cons first rest =>
      rcases List.mem_cons.mp hin with rfl | hin
      · refine (hcon.1 x hmem).resolve_right fun h => ?_
        rw [hp.untyped] at h
        cases h.2.1
      · exact hcon.2 u hin x hmem
  | gep hk _ hm hproj ih =>
    obtain ⟨st, n, -, hst, hn, u, v, hu, hv, rfl⟩ := hp.encodes.statement hk
    obtain ⟨o, ho, hmem⟩ := (hp.shows_pts hu).mp ih
    obtain ⟨ob, hob⟩ := (hp.valid.pts hmem).2
    obtain ⟨x, Q, hx, hQ, hproj'⟩ :=
      hp.arrives_field hob ho (hrest.constraint hst hn o ob (hp.sees hmem) hob)
    rw [hp.encodes.memory_unique (hp.memory hob ho) hm, hproj, Option.some.injEq] at hproj'
    exact (hp.shows_pts hv).mpr ⟨x, hproj' ▸ hQ, hx⟩
  | variant hk _ ih =>
    obtain ⟨st, n, -, hst, hn, u, v, hu, hv, rfl⟩ := hp.encodes.statement hk
    obtain ⟨o, ho, hmem⟩ := (hp.shows_pts hu).mp ih
    obtain ⟨ob, hob⟩ := (hp.valid.pts hmem).2
    obtain ⟨-, x, hx, hQ⟩ :=
      hp.arrives_variant hob ho (hrest.constraint hst hn o ob (hp.sees hmem) hob)
    exact (hp.shows_pts hv).mpr ⟨x, hQ, hx⟩
  | load hk _ hne _ ih ih' =>
    obtain ⟨st, n, hi, hst, hn, u, v, hu, hv, rfl⟩ := hp.encodes.statement hk
    obtain ⟨o, ho, hmem⟩ := (hp.shows_pts hu).mp ih
    obtain ⟨o', x, ho', hx, hbefore⟩ := (shows_before hi).mp ih'
    obtain rfl := hp.place_inj ho ho'
    obtain ⟨ob, hob⟩ := (hp.valid.pts hmem).2
    refine (hp.shows_pts hv).mpr ⟨x, hx, ?_⟩
    exact hrest.constraint hst hn o ob (hp.sees hmem) hob
      (fun h => hne ((hp.special_iff hob ho _).mpr h)) x hbefore
  | store hk _ _ hne ih ih' =>
    obtain ⟨st, n, hi, hst, hn, u, v, hu, hv, rfl⟩ := hp.encodes.statement hk
    obtain ⟨x, hx, hsrc⟩ := (hp.shows_pts hu).mp ih
    obtain ⟨o, ho, hptr⟩ := (hp.shows_pts hv).mp ih'
    obtain ⟨ob, hob⟩ := (hp.valid.pts hptr).2
    refine (shows_after hi).mpr ⟨o, x, ho, hx, ?_⟩
    exact (hrest.constraint hst hn).1 o ob (hp.sees hptr) hob ((hp.isSpecial_iff hob ho).mpr hne) x hsrc
  | through hk _ _ hm hwhy ih ih' =>
    obtain ⟨st, n, hi, hst, hn, u, v, hu, hv, rfl⟩ := hp.encodes.statement hk
    obtain ⟨o, x, ho, hx, hbefore⟩ := (shows_before hi).mp ih
    obtain ⟨e, he, hptr⟩ := (hp.shows_pts hv).mp ih'
    refine (shows_after hi).mpr ⟨o, x, ho, hx, ?_⟩
    rcases (hrest.constraint hst hn).2 ⟨e, hptr⟩ o with hall | ⟨honly, ob, hob, hstrong⟩
    · exact hall x hbefore
    · -- The store overwrites the place only if it sees nothing else, and its memory allows it.
      obtain rfl := (honly e).mp (hp.sees hptr)
      rw [hp.strong_eq hob, hp.encodes.memory_unique (hp.memory hob he) hm] at hstrong
      rcases hwhy with hne | hweak
      · exact absurd (Option.some.inj (he.symm.trans ho)) hne
      · rw [hstrong] at hweak
        cases hweak
  | @flow f i j kind name x hf hi hj hname hk _ ih =>
    obtain ⟨st, n, hst, hmem, hn, hr⟩ := hp.encodes.statement hk
    obtain ⟨o, y, ho, hy, hleave⟩ := (shows_leaving hr hst).mp ih
    obtain ⟨src, dst, hsrc, hdst, hobjs⟩ := hp.encodes.flows.present f hf
    obtain ⟨l, hl, label, hedge, hlabel⟩ := hobjs name hname
    obtain ⟨src', hsrc', hid⟩ := hp.encodes.stmtId hi
    obtain ⟨dst', hdst', hid'⟩ := hp.encodes.stmtId hj
    obtain rfl := Option.some.inj (hsrc'.symm.trans hst)
    obtain rfl := Option.some.inj (hid.symm.trans hsrc)
    obtain rfl := Option.some.inj (hid'.symm.trans hdst)
    obtain rfl := Option.some.inj (hl.symm.trans (hp.place?_eq_whole.mp ho))
    refine (shows_before hdst').mpr ⟨l, y, ho, hy, ?_⟩
    exact hrest.carried hmem hn dst' label hedge l (by rwa [hp.prototype]) y hleave

end Plain

end PointsTo.Solver
