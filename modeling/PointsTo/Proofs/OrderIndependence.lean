import Mathlib.Logic.Equiv.Basic
import PointsTo.Proofs.Exactness
import PointsTo.Proofs.Reordering

/-! The order of visits and of statements does not matter.

    A run that keeps all fields until nothing waits shows that no projection overreaches. That is a
    property of the description; so no other run loses fields either, also with the statements listed
    in another order, and all of them end with the facts that follow from the description. -/

namespace PointsTo

/-- A list that has the entries of another one at other positions is a permutation of it. -/
theorem perm_of_positions {α : Type} {l l' : List α} {σ : Equiv.Perm Nat}
    (hl : ∀ i, l[σ i]? = l'[i]?) : l.Perm l' := by
  have hentries : ∀ l : List α, (List.range l.length).map (l[·]?) = l.map some := by
    intro l
    refine List.ext_getElem (by simp) fun i hi hi' => ?_
    simp [List.getElem?_eq_getElem (show i < l.length by simpa using hi)]
  have hlt : ∀ i, σ i < l.length ↔ i < l'.length := by
    intro i
    rw [← not_le, ← not_le, ← List.getElem?_eq_none_iff, hl, List.getElem?_eq_none_iff]
  have hpositions : ((List.range l'.length).map σ).Perm (List.range l.length) := by
    refine (List.perm_ext_iff_of_nodup (List.nodup_range.map σ.injective) List.nodup_range).mpr fun j => ?_
    simp only [List.mem_map, List.mem_range]
    constructor
    · rintro ⟨i, hi, rfl⟩
      exact (hlt i).mpr hi
    · intro hj
      exact ⟨σ.symm j, (hlt _).mp (by rwa [Equiv.apply_symm_apply]), σ.apply_symm_apply j⟩
  have hsome : (l'.map some).Perm (l.map some) := by
    rw [← hentries, ← hentries l]
    simp only [← hl]
    simpa [Function.comp_def] using hpositions.map (l[·]?)
  simpa [List.filterMap_map] using (hsome.filterMap id).symm

namespace Solver

variable {d : ProgramDesc} {b : Builder} {types : Hierarchy} {limit : Nat} {s : Solver}

theorem Reached.atRest {g₀ : Graph} {options : Options} {s₀ : Solver}
    (hs : Started g₀ types options s₀) (hr : Reached g₀ s₀ s) (hend : s.pending.items = []) :
    AtRest g₀ s where
  seeds h := hr.pts (hs.pts.mpr h)
  constraint hst hn := (hr.settled hst hn (by simp [hend])).1.1
  carried hst hn := (hr.settled hst hn (by simp [hend])).2

namespace Plain

/-- A state that keeps all fields and has nothing left to do rules out that projections overreach. -/
theorem not_overreaches (hp : Plain d b types limit s) (hrest : AtRest b.graph s) :
    ¬ d.Overreaches types limit := by
  rintro ⟨i, base, dst, offset, ty, P, m, hk, hbase, hm, hfi, hout⟩
  obtain ⟨st, n, -, hst, hn, u, v, hu, -, rfl⟩ := hp.encodes.statement hk
  obtain ⟨o, ho, hmem⟩ := (hp.shows_pts hu).mp (hp.shows_of_derives hrest hbase)
  obtain ⟨ob, hob⟩ := (hp.valid.pts hmem).2
  have hsame := hp.encodes.memory_unique (hp.memory hob ho) hm
  have harrives := hrest.constraint hst hn o ob (hp.sees hmem) hob
  cases offset with
  | none =>
    have hlost := (hp.arrives_variant hob ho harrives).1
    rw [hsame, hfi] at hlost
    cases hlost
  | some k =>
    obtain ⟨-, Q, -, -, hproj⟩ := hp.arrives_field hob ho harrives
    rw [hsame, hout k rfl] at hproj
    cases hproj

/-- An offset that is too large for a machine word is beyond the fields that are told apart. -/
theorem overreaches_of_overflows (hp : Plain d b types limit s)
    (hsound : Sound d types limit b.graph s) (hlimit : limit ≤ wordLimit) {st : NodeId}
    {n : StmtNode} (hst : st ∈ b.graph.stmts.toList) (hn : b.graph.stmt st = .ok n)
    (ho : Overflows s n) : d.Overreaches types limit := by
  obtain ⟨base, dst, k, o, ob, r, j, hgep, hmem, hob, hfi, hkind, hge⟩ := ho
  obtain ⟨i, kind, -, hk, hr⟩ := hp.encodes.position hst hn
  obtain ⟨P, hP⟩ := hp.place ⟨ob, hob⟩
  cases kind with
  | addr _ _ | copy _ _ _ | load _ _ _ | store _ _ _ | phi _ _ _ =>
    obtain ⟨_, _, -, -, rfl⟩ := hr
    cases hgep
  | gep baseName dstName offset ty =>
    obtain ⟨v, w, hv, -, rfl⟩ := hr
    obtain ⟨rfl, rfl, hoffset⟩ : v = base ∧ w = dst ∧ GepOffset.ofDesc offset = .field k := by
      simpa using hgep
    cases offset with
    | none => cases hoffset
    | some k' =>
      cases hoffset
      refine ⟨i, baseName, dstName, some k, ty, P, _, hk,
        hsound _ ⟨_, .pts (hp.encodes.named.values.mp hv) hP, hmem⟩, hp.memory hob hP, hfi, ?_⟩
      rintro _ ⟨⟩
      rcases hp.place_cases hob with ⟨-, hf, -⟩ | ⟨r', j', w', hkind', -, -, -, -, -, hP'⟩
      · simp [ObjNode.isField, hkind] at hf
      · rw [hP, Option.some.injEq] at hP'
        subst hP'
        obtain ⟨-, rfl⟩ : r = r' ∧ j = j' := by simpa [hkind] using hkind'
        simp [Memory.project?, hfi, hlimit.trans hge]

end Plain

section Runs

variable {options : Options} {s₀ : Solver}

/-- Where no projection overreaches, no run fails. -/
theorem Started.solve_eq_ok (he : b.Encodes d) (hs : Started b.graph types options s₀)
    (huntyped : options.typed = false) (hnot : ¬ d.Overreaches types options.maxFieldLimit)
    (hlimit : options.maxFieldLimit ≤ wordLimit) : ∃ t, s₀.solve = .ok t := by
  rcases (hs.solve he.wellFormed).cases with ⟨t, hsolve, -⟩ | ⟨-, k, u, hrun, st, n, rest, hitems, hn, hover⟩
  · exact ⟨t, hsolve⟩
  · obtain ⟨hp, hsound⟩ := hrun.plain he hs huntyped hnot
    have hst := hp.valid.pending (hitems ▸ List.mem_cons_self)
    exact absurd (hp.overreaches_of_overflows hsound hlimit hst hn hover) hnot

/-- Objects are known by their places. -/
def Placed (s : Solver) : Prop :=
  ∀ x, s.graph.HasObj x → ∃ P, s.graph.place? x = some P ∧ ∀ y, s.graph.place? y = some P → y = x

/-- Where no projection overreaches, every run keeps the fields and ends with just the facts that
    follow from the description. -/
theorem Run.exact (he : b.Encodes d) (hs : Started b.graph types options s₀)
    (huntyped : options.typed = false) (hnot : ¬ d.Overreaches types options.maxFieldLimit) {k : Nat}
    (hrun : Run s₀ k s) (hend : s.pending.items = []) :
    (∀ m, ¬ Collapsed b.graph s m) ∧ s.Placed ∧
      ∀ f, Shows b.graph s f ↔ d.Derives types options.maxFieldLimit f := by
  obtain ⟨hp, hsound⟩ := hrun.plain he hs huntyped hnot
  have hrest := (hrun.reached he.wellFormed hs.reached).atRest hs hend
  refine ⟨fun m hc => ?_, fun x hx => ?_, fun f => ⟨hsound f, hp.shows_of_derives hrest⟩⟩
  · have hsame := hc.2
    rw [hp.fields, hc.1] at hsame
    cases hsame
  · obtain ⟨P, hP⟩ := hp.place hx
    exact ⟨P, hP, fun y hy => hp.place_inj hy hP⟩

end Runs

/-! ### Exactness -/

/-- The flow-sensitive analysis is exact: if a run that ends keeps the fields of all allocations, it
    ends with just the facts that follow from the description, objects being known by their places.
    So do all runs, whichever order they visit waiting statements in, and with the statements of the
    program listed in any other order: they fail nowhere, keep all fields and end with the same facts. -/
theorem analysis_is_exact {d : ProgramDesc} {p : Program} (hbuild : Program.build d = .ok p)
    (types : Hierarchy) (options : Options) (hanalysis : options.analysis = .flowSensitive)
    {s t : Solver} {k : Nat} (hstart : (Solver.new types p.graph options).start = .ok s)
    (hrun : Run s k t) (hend : t.pending.items = []) (hkept : ∀ m, ¬ Collapsed p.graph t m) :
    t.Placed ∧ (∀ f, Shows p.graph t f ↔ d.Derives types options.maxFieldLimit f) ∧
    ∀ (l : List StmtDesc) (σ : Equiv.Perm Nat), (∀ i, l[σ i]? = d.statements[i]?) →
      ∃ p' s', Program.build { d with statements := l } = .ok p' ∧
        (Solver.new types p'.graph options).start = .ok s' ∧
        (options.maxFieldLimit ≤ wordLimit → ∃ t', s'.solve = .ok t') ∧
        ∀ k' t', Run s' k' t' → t'.pending.items = [] →
          (∀ m, ¬ Collapsed p'.graph t' m) ∧ t'.Placed ∧
            ∀ f, Shows p'.graph t' (f.reindex σ) ↔ Shows p.graph t f := by
  have huntyped : options.typed = false := by rw [Options.typed, hanalysis]; rfl
  obtain ⟨b, rfl, he⟩ := Program.build_spec hbuild
  obtain ⟨s₀, hstart₀, hs⟩ := start_spec he.wellFormed types options
  obtain rfl := ok_unique hstart hstart₀
  have hr := hrun.reached he.wellFormed hs.reached
  have hnot := (Plain.of_reached he hs huntyped hr hkept).not_overreaches (hr.atRest hs hend)
  obtain ⟨-, hplaced, hexact⟩ := hrun.exact he hs huntyped hnot hend
  refine ⟨hplaced, hexact, fun l σ hl => ?_⟩
  obtain ⟨p', hbuild'⟩ := Program.build_perm hbuild (perm_of_positions hl)
  obtain ⟨b', rfl, he'⟩ := Program.build_spec hbuild'
  obtain ⟨s', hstart', hs'⟩ := start_spec he'.wellFormed types options
  have hnot' := mt (ProgramDesc.overreaches_reorder hl).mp hnot
  refine ⟨b'.toProgram, s', hbuild', hstart', hs'.solve_eq_ok he' huntyped hnot', ?_⟩
  intro k' t' hrun' hend'
  obtain ⟨hkept', hplaced', hexact'⟩ := hrun'.exact he' hs' huntyped hnot' hend'
  exact ⟨hkept', hplaced', fun f =>
    (hexact' _).trans ((ProgramDesc.derives_reorder hl).trans (hexact f).symm)⟩

/-- A variable that is written twice before it is read, and a field that is written once. -/
def secondWrite : ProgramDesc where
  objects := [{ name := "o", alloc := .stack }, { name := "x", alloc := .stack },
    { name := "y", alloc := .stack }]
  values := ["p", "q", "r", "u", "l"]
  statements := [{ kind := .addr "o" "p" }, { kind := .gep "p" "q" (some 1) none },
    { kind := .addr "x" "r" }, { kind := .addr "y" "u" },
    { id := some "a", kind := .store "r" "p" none }, { id := some "b", kind := .store "u" "p" none },
    { id := some "c", kind := .load "p" "l" none }, { kind := .store "r" "q" none }]
  flows := [{ src := "a", dst := "b", objs := ["o"] }, { src := "b", dst := "c", objs := ["o"] }]

/-- The same statements, where the first two are listed the other way round. -/
def secondWriteSwapped : List StmtDesc :=
  { kind := .gep "p" "q" (some 1) none } :: { kind := .addr "o" "p" } :: secondWrite.statements.drop 2

/-- The analysis knows just what follows, and the same with the first two statements swapped. -/
theorem secondWrite_exact : ∃ p s k t, Program.build secondWrite = .ok p ∧
    (Solver.new .empty p.graph { analysis := .flowSensitive }).start = .ok s ∧ Run s k t ∧
    t.pending.items = [] ∧ (∀ m, ¬ Collapsed p.graph t m) ∧ t.Placed ∧
    (∀ f, Shows p.graph t f ↔ secondWrite.Derives .empty 512 f) ∧
    ∃ p' s', Program.build { secondWrite with statements := secondWriteSwapped } = .ok p' ∧
      (Solver.new .empty p'.graph { analysis := .flowSensitive }).start = .ok s' ∧
      ∀ k' t', Run s' k' t' → t'.pending.items = [] →
        ∀ f, Shows p'.graph t' (f.reindex (Equiv.swap 0 1)) ↔ Shows p.graph t f := by
  obtain ⟨p, s, k, t, hbuild, hstart, -, hrun, hend, hsame⟩ :=
    exists_end secondWrite .empty { analysis := .flowSensitive } (fun p t => p.graph.mems == t.graph.mems)
      (by decide +kernel)
  have hkept : ∀ m, ¬ Collapsed p.graph t m := by
    rintro m ⟨hfi, hfi'⟩
    rw [Graph.mem, ← eq_of_beq hsame, ← Graph.mem, hfi] at hfi'
    cases hfi'
  obtain ⟨hplaced, hexact, hany⟩ :=
    analysis_is_exact hbuild .empty { analysis := .flowSensitive } rfl hstart hrun hend hkept
  have hswap : ∀ i, secondWriteSwapped[Equiv.swap 0 1 i]? = secondWrite.statements[i]? := by
    rintro (_ | _ | i)
    · rfl
    · rfl
    · rw [Equiv.swap_apply_of_ne_of_ne (by omega) (by omega)]
      rfl
  obtain ⟨p', s', hbuild', hstart', -, hsame'⟩ := hany secondWriteSwapped (Equiv.swap 0 1) hswap
  exact ⟨p, s, k, t, hbuild, hstart, hrun, hend, hkept, hplaced, hexact, p', s', hbuild', hstart',
    fun k' t' hrun' hend' => (hsame' k' t' hrun' hend').2.2⟩

end Solver

end PointsTo
