import PointsTo.Proofs.Transfer

/-! Stores keep the contract of transfer functions.

    A store writes to all objects that it sees, and lets through what the others held before. The only
    object that is not let through is the one it overwrites: the single object it sees, if that is
    strong. -/

namespace PointsTo.Solver

variable {why : Prop} {g₀ : Graph} {loc : NodeId} {n : StmtNode} {s : Solver}

/-! ### Strong objects -/

theorem isStrong_eq {o : NodeId} {ob : ObjNode} (hob : s.graph.obj o = .ok ob) :
    s.isStrong o = .ok (s.graph.strong ob) := by
  unfold isStrong Graph.strong
  simp only [hob, ok_bind]
  cases ob.kind <;> rfl

/-- Whatever is strong in a grown graph was strong all along. -/
theorem strong_of_grows {g : Graph} (hg : g₀.Grows g) {ob : ObjNode} (hs : g.strong ob = true) :
    g₀.strong ob = true := by
  have hfi : (g.mem ob.mem).fieldInsensitive = false → (g₀.mem ob.mem).fieldInsensitive = false := by
    intro h
    by_contra h₀
    rw [hg.collapsed (by simpa using h₀)] at h
    exact absurd h (by decide)
  unfold Graph.strong at hs ⊢
  cases hk : ob.kind with
  | base | field r k =>
    simp only [hk, hg.alloc, hg.isArray, hg.inRecursion, Bool.not_eq_true', Bool.or_eq_false_iff] at hs ⊢
    exact ⟨⟨hs.1.1, hfi hs.1.2⟩, hs.2⟩
  | dummy | special w => simp [hk] at hs

/-- The object that a store overwrites is its only target, and it is strong. -/
theorem overwritten_spec {targets : IdSet} (hobjs : ∀ o ∈ targets, s.graph.HasObj o) :
    ∃ killed, s.overwritten targets = .ok killed ∧ ∀ o, killed = some o ↔
      (∀ e, e ∈ targets ↔ e = o) ∧ ∃ ob, s.graph.obj o = .ok ob ∧ s.graph.strong ob = true := by
  unfold overwritten
  cases hhead : targets.toList.head? with
  | none =>
    refine ⟨none, rfl, fun o => ⟨fun h => absurd h (by simp), fun ⟨honly, _⟩ => ?_⟩⟩
    have ho := IdSet.mem_toList.mpr ((honly o).mpr rfl)
    rw [List.head?_eq_none_iff.mp hhead] at ho
    exact absurd ho List.not_mem_nil
  | some x =>
    have hx : x ∈ targets := IdSet.mem_toList.mp (List.mem_of_mem_head? hhead)
    obtain ⟨ob, hob⟩ := hobjs x hx
    have hone := IdSet.count_eq_one_iff hhead
    -- A single target is the first element of the set.
    have hfirst : ∀ o, (∀ e, e ∈ targets ↔ e = o) → x = o ∧ targets.count = 1 := by
      intro o honly
      have hxo := (honly x).mp hx
      exact ⟨hxo, hone.mpr fun y hy => ((honly y).mp hy).trans hxo.symm⟩
    simp only [isStrong_eq hob, ok_bind]
    by_cases hcount : targets.count = 1
    · rw [if_pos hcount]
      have honly : ∀ e, e ∈ targets ↔ e = x := fun e => ⟨hone.mp hcount e, fun h => h ▸ hx⟩
      cases hs : s.graph.strong ob with
      | true =>
        refine ⟨some x, rfl, fun o => ⟨?_, fun ⟨ho, _⟩ => congrArg some (hfirst o ho).1⟩⟩
        rintro ⟨⟩
        exact ⟨honly, ob, hob, hs⟩
      | false =>
        refine ⟨none, rfl, fun o => ⟨fun h => absurd h (by simp), fun ⟨ho, ob', hob', hs'⟩ => ?_⟩⟩
        rw [← (hfirst o ho).1] at hob'
        rw [← ok_unique hob hob', hs] at hs'
        exact absurd hs' (by decide)
    · rw [if_neg hcount]
      exact ⟨none, rfl, fun o =>
        ⟨fun h => absurd h (by simp), fun ⟨ho, _⟩ => absurd (hfirst o ho).2 hcount⟩⟩

/-! ### Writing -/

/-- What holds while a store writes to one object after the other. -/
structure Writing (loc : NodeId) (stored : IdSet) (s₁ : Solver) (done : List NodeId)
    (acc : Bool × Solver) (f : FlowFacts) : Prop where
  state : acc.2 = { s₁ with flow := f }
  ins : f.ins = s₁.flow.ins
  outs : ∀ l o x, x ∈ f.outs.setAt l o ↔ (l = loc ∧ o ∈ done ∧ x ∈ stored ∧
    ∃ ob, s₁.graph.obj o = .ok ob ∧ ob.isSpecial = false) ∨ x ∈ s₁.flow.outs.setAt l o
  changed : acc.1 = true → ∃ o x, x ∈ f.outs.setAt loc o ∧ x ∉ s₁.flow.outs.setAt loc o

theorem storeObject_spec {stored : IdSet} {s₁ : Solver} {done : List NodeId} {acc : Bool × Solver}
    {o : NodeId} (ho : s₁.graph.HasObj o) (hw : ∃ f, Writing loc stored s₁ done acc f) :
    Delivers why (storeObject loc stored acc o) fun r => ∃ f, Writing loc stored s₁ (done ++ [o]) r f := by
  obtain ⟨f, hw⟩ := hw
  obtain ⟨changed, s₂⟩ := acc
  obtain ⟨ob, hob⟩ := ho
  obtain rfl : s₂ = { s₁ with flow := f } := hw.state
  have hob' : Solver.graph { s₁ with flow := f } = s₁.graph := rfl
  simp only [storeObject, hob', hob, ok_bind]
  cases hs : ob.isSpecial with
  | true =>
    refine Delivers.ok ⟨f, rfl, hw.ins, fun l y x => ?_, hw.changed⟩
    rw [hw.outs]
    refine or_congr_left ⟨fun ⟨hl, hy, hx⟩ => ⟨hl, by simp [hy], hx⟩, fun ⟨hl, hy, hx, ob', hob', hs'⟩ => ?_⟩
    rcases List.mem_append.mp hy with hy | hy
    · exact ⟨hl, hy, hx, ob', hob', hs'⟩
    · rw [List.mem_singleton.mp hy] at hob'
      rw [← ok_unique hob hob', hs] at hs'
      exact absurd hs' (by decide)
  | false =>
    have hmem : ∀ l y x, x ∈ (f.addOut loc o stored).2.outs.setAt l y ↔
        (l = loc ∧ y = o ∧ x ∈ stored) ∨ x ∈ f.outs.setAt l y := fun l y x => FlowFacts.mem_outs_addOut
    refine Delivers.ok ⟨(f.addOut loc o stored).2, rfl, hw.ins, fun l y x => ?_, fun hc => ?_⟩
    · rw [hmem, hw.outs]
      simp only [List.mem_append, List.mem_singleton]
      constructor
      · rintro (⟨hl, rfl, hx⟩ | ⟨hl, hy, hx⟩ | hx)
        · exact Or.inl ⟨hl, Or.inr rfl, hx, ob, hob, hs⟩
        · exact Or.inl ⟨hl, Or.inl hy, hx⟩
        · exact Or.inr hx
      · rintro (⟨hl, hy | hy, hx, hns⟩ | hx)
        · exact Or.inr (Or.inl ⟨hl, hy, hx, hns⟩)
        · exact Or.inl ⟨hl, hy, hx⟩
        · exact Or.inr (Or.inr hx)
    · rcases Bool.or_eq_true_iff.mp hc with hc | hc
      · obtain ⟨y, x, hx, hnx⟩ := hw.changed hc
        exact ⟨y, x, (hmem loc y x).mpr (Or.inr hx), hnx⟩
      · obtain ⟨x, hx, hnx⟩ := FlowFacts.addOut_fst.mp hc
        exact ⟨o, x, (hmem loc o x).mpr (Or.inl ⟨rfl, rfl, hx⟩), fun h =>
          hnx ((hw.outs loc o x).mpr (Or.inr h))⟩

theorem written_spec (stored : IdSet) {s₁ : Solver} {targets : IdSet}
    (hobjs : ∀ o ∈ targets, s₁.graph.HasObj o) :
    Delivers why (targets.toList.foldlM (storeObject loc stored) (false, s₁))
      fun r => ∃ f, Writing loc stored s₁ targets.toList r f := by
  refine Delivers.foldlM (I := fun done r => ∃ f, Writing loc stored s₁ done r f)
    ⟨s₁.flow, rfl, rfl, by simp, fun h => absurd h Bool.false_ne_true⟩ ?_
  intro done o rest acc hsplit hw
  exact storeObject_spec (hobjs o (IdSet.mem_toList.mp (by rw [hsplit]; simp))) hw

/-! ### The visit -/

/-- What a store leaves behind: what it wrote, and what it let through. -/
structure Stored (loc src ptr : NodeId) (s₁ : Solver) (killed : Option NodeId) (flag : Bool)
    (f : FlowFacts) : Prop where
  kills : ∀ o, killed = some o ↔ Overwrites s₁.graph s₁ loc ptr o
  ins : f.ins = s₁.flow.ins
  outs : ∀ l o x, x ∈ f.outs.setAt l o ↔
    (l = loc ∧ some o ≠ killed ∧ x ∈ s₁.contentsBefore loc o) ∨
    (l = loc ∧ s₁.Sees loc ptr o ∧ x ∈ s₁.pts src ∧
      ∃ ob, s₁.graph.obj o = .ok ob ∧ ob.isSpecial = false) ∨
    x ∈ s₁.contentsAfter l o
  changed : flag = true → ∃ o x, x ∈ f.outs.setAt loc o ∧ x ∉ s₁.contentsAfter loc o

/-- Letting the other objects through completes the writing. -/
theorem stored_of_writing {src ptr : NodeId} {s₁ : Solver} {f : FlowFacts} {changed : Bool}
    {killed : Option NodeId}
    (hw : Writing loc (s₁.pts src) s₁ (s₁.effective loc ptr).toList (changed, { s₁ with flow := f }) f)
    (hkilled : ∀ o, killed = some o ↔ Overwrites s₁.graph s₁ loc ptr o) :
    Stored loc src ptr s₁ killed (changed || (f.outFromIn loc killed).1) (f.outFromIn loc killed).2 := by
  have houts : ∀ l o x, x ∈ (f.outFromIn loc killed).2.outs.setAt l o ↔
      (l = loc ∧ some o ≠ killed ∧ x ∈ s₁.contentsBefore loc o) ∨ x ∈ f.outs.setAt l o := by
    intro l o x
    rw [FlowFacts.mem_outs_outFromIn, hw.ins]
    rfl
  refine ⟨hkilled, (FlowFacts.ins_outFromIn f loc killed).trans hw.ins, fun l o x => ?_, fun hc => ?_⟩
  · rw [houts, hw.outs, IdSet.mem_toList, mem_effective]
    rfl
  · rcases Bool.or_eq_true_iff.mp hc with hc | hc
    · obtain ⟨o, x, hx, hnx⟩ := hw.changed hc
      exact ⟨o, x, (houts loc o x).mpr (Or.inr hx), hnx⟩
    · obtain ⟨o, x, hne, hx, hnx⟩ := FlowFacts.outFromIn_fst.mp hc
      rw [hw.ins] at hx
      exact ⟨o, x, (houts loc o x).mpr (Or.inl ⟨rfl, hne, hx⟩), fun h =>
        hnx ((hw.outs loc o x).mpr (Or.inr h))⟩

theorem Stored.constraint {src ptr : NodeId} {killed : Option NodeId} {flag : Bool} {f : FlowFacts}
    {s₁ : Solver} (hs : Stored loc src ptr s₁ killed flag f) (hg : g₀.Grows s₁.graph)
    (hk : n.kind = .store src ptr) (updates : Nat) :
    Constraint g₀ { s₁ with flow := f, numStrongUpdates := updates } loc n := by
  simp only [Constraint, hk]
  refine ⟨fun o ob ho hob hns x hx => ?_, fun _ o => ?_⟩
  · exact (hs.outs loc o x).mpr (Or.inr (Or.inl ⟨rfl, ho, hx, ob, hob, hns⟩))
  · by_cases hkill : killed = some o
    · obtain ⟨honly, ob, hob, hstrong⟩ := (hs.kills o).mp hkill
      exact Or.inr ⟨honly, ob, hob, strong_of_grows hg hstrong⟩
    · refine Or.inl fun x hx => (hs.outs loc o x).mpr (Or.inl ⟨rfl, Ne.symm hkill, ?_⟩)
      simp only [contentsBefore, hs.ins] at hx
      exact hx

/-- A store overwrites no object of an allocation without fields. -/
theorem Stored.merges {src ptr : NodeId} {killed : Option NodeId} {flag : Bool} {f : FlowFacts}
    {s₁ : Solver} (hs : Stored loc src ptr s₁ killed flag f) (hk : n.kind = .store src ptr) {m : MemId}
    (hm : (s₁.graph.mem m).fieldInsensitive = true) (updates : Nat) :
    Merges m { s₁ with flow := f, numStrongUpdates := updates } loc n := by
  simp only [Merges, hk]
  rintro o - ⟨ob, hob, rfl⟩ x hx
  have hkill : some o ≠ killed := by
    intro hkill
    obtain ⟨-, ob', hob', hstrong⟩ := (hs.kills o).mp hkill.symm
    obtain rfl := ok_unique hob hob'
    unfold Graph.strong at hstrong
    cases hkind : ob.kind <;> simp [hkind, hm] at hstrong
  refine (hs.outs loc o x).mpr (Or.inl ⟨rfl, hkill, ?_⟩)
  simp only [contentsBefore, hs.ins] at hx
  exact hx

theorem Stored.evolves {src ptr : NodeId} {killed : Option NodeId} {flag : Bool} {f : FlowFacts}
    {s₁ : Solver} (hs : Stored loc src ptr s₁ killed flag f) (updates : Nat) :
    Evolves g₀ loc flag s₁ { s₁ with flow := f, numStrongUpdates := updates } := by
  have hflow : Evolves g₀ loc flag s₁ { s₁ with flow := f } := evolves_after hs.ins ?_ ?_ hs.changed
  · exact hflow.counted _ _
  · exact fun {l o x} hx => (hs.outs l o x).mpr (Or.inr (Or.inr hx))
  · intro l o x hx
    rcases (hs.outs l o x).mp hx with ⟨hl, -⟩ | ⟨hl, -⟩ | hx
    · exact Or.inr hl
    · exact Or.inr hl
    · exact Or.inl hx

theorem Stored.valid {src ptr : NodeId} {killed : Option NodeId} {flag : Bool} {f : FlowFacts}
    {s₁ : Solver} (hs : Stored loc src ptr s₁ killed flag f) (hloc : loc ∈ g₀.stmts.toList)
    (hv : s₁.Valid g₀) (updates : Nat) :
    Valid g₀ { s₁ with flow := f, numStrongUpdates := updates } := by
  have hflow : Valid g₀ { s₁ with flow := f } := hv.withFlow ?_ ?_ ?_
  · exact hflow.counted _ _
  · intro l o x hx
    rw [hs.ins] at hx
    exact Or.inl hx
  · intro l o x hx
    rcases (hs.outs l o x).mp hx with ⟨rfl, -, hx⟩ | ⟨rfl, ho, hx, -⟩ | hx
    · exact Or.inr (hv.before hx)
    · exact Or.inr ⟨hloc, (hv.pts ho.1).2, (hv.pts hx).2⟩
    · exact Or.inl hx
  · rintro l o x ob (hx | hx) hob
    · rw [hs.ins] at hx
      exact hv.owned (Or.inl hx) hob
    · rcases (hs.outs l o x).mp hx with ⟨-, -, hx⟩ | ⟨-, -, -, ob', hob', hns⟩ | hx
      · exact hv.owned (Or.inl hx) hob
      · exact ok_unique hob' hob ▸ hns
      · exact hv.owned (Or.inr hx) hob

theorem Stored.visited {src ptr : NodeId} {killed : Option NodeId} {flag : Bool} {f : FlowFacts}
    {s₁ : Solver} (hs : Stored loc src ptr s₁ killed flag f) (hloc : loc ∈ g₀.stmts.toList)
    (hr : Ready g₀ loc n s s₁) (hk : n.kind = .store src ptr) (hne : ∃ e, e ∈ s₁.pts ptr)
    (updates : Nat) :
    Visited g₀ loc n s (flag, { s₁ with flow := f, numStrongUpdates := updates }) := by
  have he : Evolves g₀ loc flag s₁ { s₁ with flow := f, numStrongUpdates := updates } :=
    hs.evolves updates
  refine ⟨hs.valid hloc hr.valid updates, hr.evolves.trans he, ?_, ?_, ?_, hr.steady, ?_, ?_⟩
  · exact Or.inr (Or.inr ⟨⟨hs.constraint hr.valid.heap.grows hk updates, hr.judged⟩,
      fun m hm => hs.merges hk (hr.evolves.heap.graph.collapsed hm) updates⟩)
  · intro x hx
    refine (hr.explained x hx).imp_right fun hwhy => ?_
    obtain ⟨-, n', v, -, -, hxv⟩ := hr.valid.filters hx
    exact hwhy.keep hr.valid he.types he.options he.heap he.pts (hr.valid.pts hxv).2
  · intro ptr' x hptr' hx _ hseen
    exact (hr.judged.seen_fit hptr' hx hseen (not_beyond (by rw [hk]; rfl))).keep hr.valid he.types
      he.options he.heap (hr.valid.pts hx).2
  · intro known hold hsplit hrule fact hf
    have hready : ∀ fact, s₁.Holds fact → known fact := fun fact hf =>
      hr.known (fun fact hf => he.holds hf) rfl hold hsplit hf
    have hboth : ∀ fact, s₁.Holds fact → _ ∧ known fact := fun fact hf =>
      ⟨he.holds hf, hready fact hf⟩
    cases fact with
    | object o => exact hready (.object o) hf
    | pts v o => exact hready (.pts v o) hf
    | before l o x =>
      simp only [Holds, contentsBefore, hs.ins] at hf
      exact hready (.before l o x) hf
    | after l o x =>
      rcases (hs.outs l o x).mp hf with ⟨rfl, hkill, hx⟩ | ⟨rfl, ho, hx, hns⟩ | hx
      · refine hrule _ ?_
        simp only [Infers, hk, true_and]
        refine Or.inr ⟨hboth (.before l o x) hx, hne, fun e he => hboth (.pts ptr e) he, fun hover => ?_⟩
        exact hkill ((hs.kills o).mpr hover).symm
      · refine hrule _ ?_
        simp only [Infers, hk, true_and]
        exact Or.inl ⟨hboth (.pts src x) hx, hboth (.pts ptr o) ho.1, hns⟩
      · exact hready (.after l o x) hx
  · intro huntyped m hm
    exact (hr.collapses huntyped m hm).imp_right fun hc => hc.keep he.types he.heap

theorem visitStore_spec (hwf : g₀.WellFormed) (hloc : loc ∈ g₀.stmts.toList)
    (hn : g₀.stmt loc = .ok n) (hv : s.Valid g₀) {src ptr : NodeId} (hk : n.kind = .store src ptr) :
    Delivers why (s.visitStore loc src ptr n.ty) (Visited g₀ loc n s) := by
  have hptr : n.kind.pointer? = some ptr := by rw [hk]; rfl
  unfold visitStore
  cases hempty : (s.pts ptr).isEmpty with
  | true =>
    have hno : ∀ o, o ∉ s.pts ptr := IdSet.isEmpty_iff.mp hempty
    have hc : Constraint g₀ s loc n := by
      simp only [Constraint, hk]
      refine ⟨fun o _ ho => absurd ho.1 (hno o), ?_⟩
      rintro ⟨e, he⟩
      exact absurd he (hno e)
    have hj : AllJudged s loc n := by
      intro _ ptr' t hptr' _ x hx
      rw [hptr] at hptr'
      injection hptr' with hptr'
      exact absurd (hptr' ▸ hx) (hno x)
    have hm : ∀ m, Merges m s loc n := by
      intro m
      simp only [Merges, hk]
      exact fun o ho => absurd ho.1 (hno o)
    exact .idle hv ⟨hc, hj⟩ hm (by rw [hk]; rfl)
  | false =>
    obtain ⟨e, he⟩ := IdSet.exists_mem_of_not_isEmpty hempty
    have hrefine := ready_refineIf why hwf hloc hn hv hptr s.options.typed id fun h _ => h
    rw [hk] at hrefine
    simp only [Bool.false_eq_true, if_false]
    refine hrefine.ite_bind ?_
    rintro ⟨b, s₁⟩ ⟨hr, -⟩
    have hobjs : ∀ o ∈ s₁.effective loc ptr, s₁.graph.HasObj o := fun o ho =>
      (hr.valid.pts (mem_effective.mp ho).1).2
    refine (written_spec (s₁.pts src) hobjs).bind ?_
    rintro ⟨changed, s₂⟩ ⟨f, hw⟩
    obtain rfl : s₂ = { s₁ with flow := f } := hw.state
    obtain ⟨killed, hover, hkilled⟩ := overwritten_spec (s := { s₁ with flow := f }) hobjs
    simp only [mem_effective] at hkilled
    exact Delivers.bind_ok hover (Delivers.ok ((stored_of_writing hw hkilled).visited hloc hr hk
      ⟨e, hr.evolves.pts he⟩ _))

end PointsTo.Solver
