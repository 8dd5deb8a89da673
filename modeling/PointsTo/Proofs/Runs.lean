import PointsTo.Proofs.Start
import PointsTo.Proofs.Step

/-! Runs of the analysis.

    A run takes steps, and between them the waiting statements may be put in any order; so it covers
    every order in which statements can be woken and visited. The invariant of all runs is that a
    statement that does not wait has nothing left to do. -/

namespace PointsTo.Solver

/-- A number of steps from one state to another, with the waiting statements in any order. -/
inductive Run (s : Solver) : Nat → Solver → Prop where
  | start : Run s 0 s
  | reorder {k : Nat} {t : Solver} (w : Worklist) : Run s k t → w.items.Perm t.pending.items →
      Run s k { t with pending := w }
  | step {k : Nat} {t u : Solver} {st : NodeId} : Run s k t → t.step = .ok (some st, u) →
      Run s (k + 1) u

variable {g₀ : Graph} {s₀ s s' : Solver}

/-! ### Edges of statements that do not wait -/

/-- Nothing new leaves a statement that is not visited and does not wait. -/
theorem Evolves.leaving {loc st : NodeId} (he : Evolves g₀ loc false s s') (hne : st ≠ loc)
    (hidle : st ∉ s'.pending.items) {fromOut : Bool} {o x : NodeId}
    (hx : x ∈ s'.flow.leaving fromOut st o) : x ∈ s.flow.leaving fromOut st o := by
  cases fromOut with
  | true => exact (he.afterNew hx).resolve_right hne
  | false => exact (he.beforeNew hx).resolve_right hidle

theorem EdgesCarry.keep {loc st : NodeId} {n : StmtNode} (he : Evolves g₀ loc false s s')
    (hv : s.Valid g₀) (hne : st ≠ loc) (hidle : st ∉ s'.pending.items) (hc : EdgesCarry g₀ s st n) :
    EdgesCarry g₀ s' st n := by
  intro t label hedge o ho x hx
  have hx' := he.leaving hne hidle hx
  rw [he.heap.prototype (hasObj_of_leaving hv hx').1] at ho
  exact he.before (hc t label hedge o ho x hx')

theorem EdgesMerge.keep {loc st : NodeId} {n : StmtNode} {m : MemId} (hwf : g₀.WellFormed)
    (he : Evolves g₀ loc false s s') (hv : s.Valid g₀) (hne : st ≠ loc)
    (hidle : st ∉ s'.pending.items) (hm : EdgesMerge g₀ m s st n) : EdgesMerge g₀ m s' st n := by
  rintro t label hedge ⟨l, hl, hlm⟩ o ho x hx
  have hx' := he.leaving hne hidle hx
  have hlobj := hv.heap.grows.hasObj ((hwf.indirect hedge).2 l hl)
  have hlm' := (he.heap.graph.within_iff hlobj).mp hlm
  have ho' := (he.heap.graph.within_iff (hasObj_of_leaving hv hx').1).mp ho
  exact he.before (hm t label hedge ⟨l, hl, hlm'⟩ o ho' x hx')

/-! ### The invariant -/

/-- What holds in every state that a run reaches from the start. -/
structure Reached (g₀ : Graph) (s₀ s : Solver) : Prop where
  valid : s.Valid g₀
  types : s.types = s₀.types
  options : s.options = s₀.options
  heap : s₀.heap.Extends s.heap
  pts : ∀ {v o}, o ∈ s₀.pts v → o ∈ s.pts v
  settled : ∀ {st n}, st ∈ g₀.stmts.toList → g₀.stmt st = .ok n → st ∉ s.pending.items →
    Settled g₀ s st n ∧ EdgesCarry g₀ s st n
  explained : ∀ {st n x}, g₀.stmt st = .ok n → s.filters.isFiltered st x = true → Explained s n x

/-- What one step does, told the statement it visits. -/
structure Steps (g₀ : Graph) (s : Solver) (st : NodeId) (n : StmtNode) (rest : Worklist) (u : Solver) :
    Prop where
  pending : s.pending.items = st :: rest.items
  mem : st ∈ g₀.stmts.toList
  stmt : g₀.stmt st = .ok n
  stepped : Stepped g₀ st n { s with pending := rest } u

/-- Taking a statement from the worklist. -/
theorem Valid.popped (hv : s.Valid g₀) {w : Worklist} (hw : ∀ st ∈ w.items, st ∈ s.pending.items) :
    Valid g₀ { s with pending := w } :=
  { hv with pending := fun hst => hv.pending (hw _ hst) }

theorem Steps.popped (hv : s.Valid g₀) {st : NodeId} {n : StmtNode} {rest : Worklist} {u : Solver}
    (hs : Steps g₀ s st n rest u) : Valid g₀ { s with pending := rest } :=
  hv.popped fun st' hst' => by rw [hs.pending]; exact List.mem_cons_of_mem _ hst'

/-- The statement whose turn it is has reason to overflow. -/
def MayOverflow (g₀ : Graph) (s : Solver) : Prop :=
  ∃ st n rest, s.pending.items = st :: rest ∧ g₀.stmt st = .ok n ∧ Overflows s n

theorem step_spec (hwf : g₀.WellFormed) (hv : s.Valid g₀) :
    Delivers (MayOverflow g₀ s) s.step fun r => match r with
      | (none, u) => u = s ∧ s.pending.items = []
      | (some st, u) => ∃ n rest, Steps g₀ s st n rest u := by
  unfold step
  cases hpop : s.pending.pop? with
  | none => exact ⟨rfl, Worklist.pop?_none.mp hpop⟩
  | some r =>
    obtain ⟨st, rest⟩ := r
    have hitems := Worklist.pop?_some.mp hpop
    have hst : st ∈ g₀.stmts.toList := hv.pending (by rw [hitems]; exact List.mem_cons_self)
    obtain ⟨n, hn⟩ := hwf.stmt hst
    have hpopped : Valid g₀ { s with pending := rest } :=
      hv.popped fun st' hst' => by rw [hitems]; exact List.mem_cons_of_mem _ hst'
    refine ((visit_spec hwf hst hn hpopped).because fun hwhy => ⟨st, n, rest.items, hitems, hn, hwhy⟩).bind
      fun u hu => ?_
    exact ⟨n, rest, hitems, hst, hn, hu⟩

theorem Reached.init (hv : s.Valid g₀) (hpending : ∀ st ∈ g₀.stmts.toList, st ∈ s.pending.items)
    (hfilters : ∀ st o, s.filters.isFiltered st o = false) : Reached g₀ s s where
  valid := hv
  types := rfl
  options := rfl
  heap := .refl _
  pts h := h
  settled hst _ hidle := absurd (hpending _ hst) hidle
  explained _ hx := absurd hx (by rw [hfilters]; decide)

theorem Reached.reorder (hr : Reached g₀ s₀ s) {w : Worklist} (hw : w.items.Perm s.pending.items) :
    Reached g₀ s₀ { s with pending := w } :=
  { hr with
    valid := hr.valid.popped fun _ h => hw.mem_iff.mp h
    settled := fun hst hn hidle => hr.settled hst hn fun h => hidle (hw.mem_iff.mpr h) }

/-- A statement that waits neither before nor after a step to another one is not disturbed by it. -/
theorem Steps.undisturbed (hwf : g₀.WellFormed) (hv : s.Valid g₀) {st st' : NodeId} {n n' : StmtNode}
    {rest : Worklist} {u : Solver} (hs : Steps g₀ s st n rest u) (hst' : st' ∈ g₀.stmts.toList)
    (hn' : g₀.stmt st' = .ok n') (hne : st' ≠ st) (hidle : st' ∉ u.pending.items) :
    st' ∉ s.pending.items ∧ Undisturbed g₀ st' n' { s with pending := rest } u := by
  have he := hs.stepped.evolves
  refine ⟨?_, he.undisturbed hwf (hs.popped hv) hs.stepped.valid hst' hn' hidle
    (fun h => absurd h (by decide)) fun o ho => (he.filtersNew ho).resolve_right hne⟩
  rw [hs.pending, List.mem_cons, not_or]
  exact ⟨hne, fun h => hidle (he.pending h)⟩

theorem Reached.step (hwf : g₀.WellFormed) (hr : Reached g₀ s₀ s) {st : NodeId} {n : StmtNode}
    {rest : Worklist} {u : Solver} (hs : Steps g₀ s st n rest u) : Reached g₀ s₀ u := by
  have he := hs.stepped.evolves
  refine ⟨hs.stepped.valid, he.types.trans hr.types, he.options.trans hr.options,
    hr.heap.trans he.heap, fun ho => he.pts (hr.pts ho), ?_, ?_⟩
  · intro st' n' hst' hn' hidle
    by_cases hsame : st' = st
    · subst hsame
      obtain rfl := ok_unique hs.stmt hn'
      exact ⟨(hs.stepped.settled.resolve_left hidle).1, hs.stepped.carried⟩
    · obtain ⟨hidle₀, hu⟩ := hs.undisturbed hwf hr.valid hst' hn' hsame hidle
      obtain ⟨hset, hcarry⟩ := hr.settled hst' hn' hidle₀
      exact ⟨hu.settled hset, EdgesCarry.keep he (hs.popped hr.valid) hsame hidle hcarry⟩
  · intro st' n' x hn' hx
    have hold : s.filters.isFiltered st' x = true → Explained u n' x := by
      intro hx
      obtain ⟨-, _, v, -, -, hxv⟩ := hr.valid.filters hx
      exact (hr.explained hn' hx).keep hr.valid he.types he.options he.heap he.pts (hr.valid.pts hxv).2
    by_cases hsame : st' = st
    · subst hsame
      obtain rfl := ok_unique hs.stmt hn'
      exact (hs.stepped.explained x hx).elim hold id
    · exact hold ((he.filtersNew hx).resolve_right hsame)

theorem Run.reached (hwf : g₀.WellFormed) (hinit : Reached g₀ s₀ s₀) {k : Nat} {t : Solver}
    (hrun : Run s₀ k t) : Reached g₀ s₀ t := by
  induction hrun with
  | start => exact hinit
  | reorder w _ hw ih => exact ih.reorder hw
  | step _ hstep ih =>
    obtain ⟨n, rest, hs⟩ := (step_spec hwf ih.valid).result hstep
    exact ih.step hwf hs

/-- Runs keep what is valid, and what is known of objects. -/
theorem Run.extends (hwf : g₀.WellFormed) (hv : s.Valid g₀) {k : Nat} {t : Solver} (hrun : Run s k t) :
    t.Valid g₀ ∧ s.heap.Extends t.heap := by
  induction hrun with
  | start => exact ⟨hv, .refl _⟩
  | reorder w _ hw ih => exact ⟨ih.1.popped fun _ h => hw.mem_iff.mp h, ih.2⟩
  | step _ hstep ih =>
    obtain ⟨n, rest, hs⟩ := (step_spec hwf ih.1).result hstep
    exact ⟨hs.stepped.valid, ih.2.trans hs.stepped.evolves.heap⟩

end PointsTo.Solver
