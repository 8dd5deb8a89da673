import PointsTo.Proofs.Safety

/-! How far projections go.

    A projection of a field adds its offset to that of the field, and the sum has to be a machine
    word. If it is, a projection at or beyond the field limit collapses the allocation and leads back
    to the object it started from. Field objects lie below the limit, so no sum is too large where
    every projection leaves room for a field in front of it. -/

namespace PointsTo

/-- The offset of a projection that has one. -/
def StmtKindDesc.offset? : StmtKindDesc → Option Nat
  | .gep _ _ offset _ => offset
  | _ => none

/-- Can all projections of a program start at any field below a limit without leaving the range of
    machine words? -/
def ProgramDesc.LeavesRoom (d : ProgramDesc) (limit : Nat) : Prop :=
  ∀ sd ∈ d.statements, ∀ k ∈ sd.kind.offset?, limit + k ≤ wordLimit

instance (d : ProgramDesc) (limit : Nat) : Decidable (d.LeavesRoom limit) :=
  inferInstanceAs (Decidable (∀ sd ∈ d.statements, ∀ k ∈ sd.kind.offset?, limit + k ≤ wordLimit))

/-- The offsets in a built program are those of its description. -/
theorem Builder.Encodes.exists_offset {d : ProgramDesc} {b : Builder} (he : b.Encodes d) {st : NodeId}
    {n : StmtNode} {base dst : NodeId} {k : Nat} (hst : st ∈ b.graph.stmts.toList)
    (hn : b.graph.stmt st = .ok n) (hk : n.kind = .gep base dst (.field k)) :
    ∃ sd ∈ d.statements, sd.kind.offset? = some k := by
  obtain ⟨i, hi⟩ := List.getElem?_of_mem hst
  rw [Array.getElem?_toList] at hi
  have hlt : i < d.statements.length := by
    rw [he.stmts.count]
    exact (Array.getElem?_eq_some_iff.mp hi).1
  obtain ⟨n', hn', hres⟩ := he.stmts.resolves (List.getElem?_eq_getElem hlt) hi
  obtain rfl := ok_unique hn hn'
  refine ⟨d.statements[i], List.getElem_mem hlt, ?_⟩
  cases hkind : d.statements[i].kind with
  | gep base' dst' offset ty =>
    rw [hkind] at hres
    obtain ⟨u, v, -, -, rfl⟩ := hres
    cases offset with
    | none => cases hk
    | some j =>
      injection hk with _ _ hj
      injection hj with hj
      exact congrArg some hj
  | addr | copy | load | store | phi =>
    rw [hkind] at hres
    simp only [Builder.Resolves] at hres
    grind

namespace Heap

variable {g₀ : Graph} {tys : TypeId → Prop} {h h' : Heap} {types : Hierarchy} {base root : NodeId}
  {o : ObjNode} {offset slot : Nat}

/-- A projection fails exactly if it adds up to more than a machine word. -/
theorem Valid.project_overflows_iff (hv : h.Valid g₀ tys) (ho : h.graph.obj base = .ok o) :
    h.project types base offset = .error .addOverflow ↔ h.opens types base o offset = true ∧
      ∃ r k, o.kind = .field r k ∧ wordLimit ≤ k + offset := by
  refine ⟨fun hover => ((project_spec hv ho).fault hover).2, ?_⟩
  rintro ⟨hopen, r, k, hk, hge⟩
  obtain ⟨ty, -, hproj⟩ := project_of_opens hv ho hopen
  have hslot : slotOf base (.field r k) offset = .error .addOverflow := by
    simp only [slotOf, checkedAdd, if_neg (Nat.not_lt.mpr hge)]
    rfl
  rw [hproj, hk, hslot]
  rfl

/-- Where a projection leads that stays within machine words: back to the object, which loses its
    fields, or to the objects of the slot. -/
theorem Valid.project_to_slot (hv : h.Valid g₀ tys) (ho : h.graph.obj base = .ok o)
    (hopen : h.opens types base o offset = true)
    (hslot : slotOf base o.kind offset = .ok (root, slot)) :
    ∃ objs h', h.project types base offset = .ok (objs, h') ∧
      (h.fieldLimit ≤ slot → objs = .ofList [base] ∧
        (h'.graph.mem o.mem).fieldInsensitive = true) ∧
      (slot < h.fieldLimit → (∃ x, x ∈ objs) ∧
        ∀ x ∈ objs, ∃ ox, h'.graph.obj x = .ok ox ∧ ox.kind = .field root slot) := by
  by_cases hlimit : h.fieldLimit ≤ slot
  · refine ⟨_, _, project_of_limit hv ho hopen hslot hlimit, fun _ => ⟨rfl, ?_⟩,
      fun hlt => absurd hlimit (Nat.not_le_of_lt hlt)⟩
    exact Graph.mem_collapse_self (hv.mem ho)
  · have hlt := Nat.lt_of_not_le hlimit
    cases hcell : h.fields.cell? root slot with
    | some objs =>
      refine ⟨objs, h, project_of_cell hv ho hopen hslot hlt hcell, fun hge => absurd hge hlimit,
        fun _ => ⟨hv.slot hcell, fun x hx => ?_⟩⟩
      exact hv.fields.mp (IdGrid.setAt_of_cell? hcell ▸ hx)
    | none =>
      obtain ⟨via, ty, n, h', -, -, hproj, hv', ha, hkind, -⟩ :=
        project_of_empty hv ho hopen hslot hlt hcell
      exact ⟨_, h', hproj, fun hge => absurd hge hlimit,
        fun _ => ⟨⟨_, ha.fields.mpr (Or.inl ⟨hkind, rfl⟩)⟩, fun x hx => hv'.fields.mp hx⟩⟩

end Heap

namespace Solver

/-- The statement whose turn it is does not overflow in a program that leaves room. -/
theorem Valid.not_mayOverflow {d : ProgramDesc} {b : Builder} {s : Solver} (he : b.Encodes d)
    (hv : s.Valid b.graph) (hroom : d.LeavesRoom s.heap.fieldLimit) : ¬ MayOverflow b.graph s := by
  rintro ⟨st, n, rest, hpending, hn, base, dst, k, o, ob, r, j, hk, -, hob, -, hkind, hge⟩
  have hst := hv.pending (by rw [hpending]; exact List.mem_cons_self)
  obtain ⟨sd, hsd, hoff⟩ := he.exists_offset hst hn hk
  have hle := hroom sd hsd k hoff
  have hlt := (hv.heap.fieldOf hob hkind).1
  omega

/-- In every state of an analysis, a projection that leads to a slot fails exactly if it adds up to
    more than a machine word; otherwise one at or beyond the field limit collapses the allocation and
    leads back to its object, and any other one leads to field objects of the slot. A step fails for
    no other reason, so none fails, and the analysis ends, if the offsets of all projections leave
    room for the fields below the limit. -/
theorem projections_overflow_or_collapse {d : ProgramDesc} {p : Program}
    (hbuild : Program.build d = .ok p) (types : Hierarchy) (options : Options) {s t : Solver} {n : Nat}
    (hstart : (Solver.new types p.graph options).start = .ok s) (hrun : Run s n t) :
    (∀ o ob k, t.graph.obj o = .ok ob → t.heap.opens types o ob k = true →
      (t.heap.project types o k = .error .addOverflow ↔
        ∃ r j, ob.kind = .field r j ∧ wordLimit ≤ j + k) ∧
      ∀ root slot, Heap.slotOf o ob.kind k = .ok (root, slot) →
        ∃ objs h', t.heap.project types o k = .ok (objs, h') ∧
          (options.maxFieldLimit ≤ slot → objs = .ofList [o] ∧
            (h'.graph.mem ob.mem).fieldInsensitive = true) ∧
          (slot < options.maxFieldLimit → (∃ x, x ∈ objs) ∧
            ∀ x ∈ objs, ∃ ox, h'.graph.obj x = .ok ox ∧ ox.kind = .field root slot)) ∧
    (∀ o ob k, t.graph.obj o = .ok ob → t.heap.opens types o ob k = false →
      t.heap.project types o k = .ok (.ofList [o], t.heap)) ∧
    (∀ e, t.step = .error e → e = .addOverflow ∧ MayOverflow p.graph t) ∧
    (d.LeavesRoom options.maxFieldLimit → (∃ r, t.step = .ok r) ∧ ∃ u, s.solve = .ok u) := by
  have hwf := Program.wellFormed_of_build hbuild
  obtain ⟨b, rfl, he⟩ := Program.build_spec hbuild
  have hs := started_of_start hwf hstart
  obtain ⟨hv, hext⟩ := hrun.extends hwf hs.valid
  have hlimit : t.heap.fieldLimit = options.maxFieldLimit := hext.fieldLimit.trans hs.fieldLimit
  refine ⟨fun o ob k hob hopen => ⟨?_, fun root slot hslot => ?_⟩, fun o ob k hob hclosed => ?_,
    fun e hstep => (step_spec hwf hv).fault hstep, fun hroom => ⟨?_, ?_⟩⟩
  · rw [hv.heap.project_overflows_iff hob]
    exact and_iff_right hopen
  · rw [← hlimit]
    exact hv.heap.project_to_slot hob hopen hslot
  · exact Heap.project_of_closed hv.heap hob hclosed
  · rcases (step_spec hwf hv).cases with ⟨r, hstep, -⟩ | ⟨-, hover⟩
    · exact ⟨r, hstep⟩
    · exact absurd hover (hv.not_mayOverflow he (hlimit ▸ hroom))
  · rcases (hs.solve hwf).cases with ⟨u, hsolve, -⟩ | ⟨-, k, u, hrun', hover⟩
    · exact ⟨u, hsolve⟩
    · obtain ⟨hu, hext'⟩ := hrun'.extends hwf hs.valid
      rw [← hs.fieldLimit, ← hext'.fieldLimit] at hroom
      exact absurd hover (hu.not_mayOverflow he hroom)

/-- Does a described program reach a state within a number of steps that passes a check? -/
def passesAfter (d : ProgramDesc) (types : Hierarchy) (options : Options) (n : Nat)
    (check : Solver → Bool) : Bool :=
  match Program.build d with
  | .ok p =>
    match (Solver.new types p.graph options).start >>= runFor n with
    | .ok t => check t
    | .error _ => false
  | .error _ => false

theorem exists_after (d : ProgramDesc) (types : Hierarchy) (options : Options) (n : Nat)
    (check : Solver → Bool) (h : passesAfter d types options n check = true) :
    ∃ p s k t, Program.build d = .ok p ∧ (Solver.new types p.graph options).start = .ok s ∧
      Run s k t ∧ check t = true := by
  unfold passesAfter at h
  cases hbuild : Program.build d with
  | error e => rw [hbuild] at h; cases h
  | ok p =>
    obtain ⟨s, hstart, -⟩ := start_spec (Program.wellFormed_of_build hbuild) types options
    simp only [hbuild, hstart, ok_bind] at h
    cases hsteps : runFor n s with
    | error e => rw [hsteps] at h; cases h
    | ok t =>
      rw [hsteps] at h
      obtain ⟨k, hrun⟩ := Run.of_runFor .start hsteps
      exact ⟨p, s, k, t, rfl, hstart, hrun, h⟩

/-- A pointer to a field that is moved by `k`. -/
def farField (k : Nat) : ProgramDesc where
  objects := [{ name := "o", alloc := .stack }]
  values := ["p", "q", "r"]
  statements := [{ kind := .addr "o" "p" }, { kind := .gep "p" "q" (some 1) none },
    { kind := .gep "q" "r" (some k) none }]

/-- Moving the pointer beyond the limit collapses the allocation. -/
theorem farField_collapses : ∃ p s n t ob objs h', Program.build (farField 600) = .ok p ∧
    (Solver.new .empty p.graph {}).start = .ok s ∧ Run s n t ∧ t.graph.obj 7 = .ok ob ∧
    t.heap.opens .empty 7 ob 600 = true ∧ Heap.slotOf 7 ob.kind 600 = .ok (3, 601) ∧
    t.heap.project .empty 7 600 = .ok (objs, h') ∧ objs = .ofList [7] ∧
    (h'.graph.mem ob.mem).fieldInsensitive = true ∧ (farField 600).LeavesRoom 512 ∧
    ∃ u, s.solve = .ok u := by
  obtain ⟨p, s, n, t, hbuild, hstart, hrun, hcheck⟩ := exists_after (farField 600) .empty {} 2
    (fun t => decide ((t.graph.obj 7).map (fun ob =>
      (t.heap.opens .empty 7 ob 600, Heap.slotOf 7 ob.kind 600)) = .ok (true, .ok (3, 601))))
    (by decide +kernel)
  obtain ⟨hprojects, -, -, hends⟩ := projections_overflow_or_collapse hbuild .empty {} hstart hrun
  have hroom : (farField 600).LeavesRoom 512 := by decide +kernel
  obtain ⟨ob, hob, hpair⟩ := map_eq_ok.mp (of_decide_eq_true hcheck)
  obtain ⟨hopen, hslot⟩ := Prod.mk.inj hpair
  obtain ⟨objs, h', hproj, hfar, -⟩ := (hprojects 7 ob 600 hob hopen).2 3 601 hslot
  obtain ⟨hobjs, hfi⟩ := hfar (by decide)
  exact ⟨p, s, n, t, ob, objs, h', hbuild, hstart, hrun, hob, hopen, hslot, hproj, hobjs, hfi, hroom,
    (hends hroom).2⟩

/-- Moving it by the largest machine word is a fault, though the object has fields to lose. -/
theorem farField_overflows : ∃ p s n t ob, Program.build (farField (wordLimit - 1)) = .ok p ∧
    (Solver.new .empty p.graph {}).start = .ok s ∧ Run s n t ∧ 7 ∈ t.pts 1 ∧
    t.graph.obj 7 = .ok ob ∧ ob.kind = .field 3 1 ∧ t.heap.fieldLimit ≤ 1 + (wordLimit - 1) ∧
    t.heap.project .empty 7 (wordLimit - 1) = .error .addOverflow ∧ t.step = .error .addOverflow := by
  obtain ⟨p, s, n, t, hbuild, hstart, hrun, hcheck⟩ := exists_after (farField (wordLimit - 1)) .empty {} 2
    (fun t => decide (7 ∈ t.pts 1) && decide ((t.graph.obj 7).map (·.kind) = .ok (.field 3 1)) &&
      decide (t.heap.fieldLimit ≤ 1 + (wordLimit - 1)) &&
      decide ((t.heap.project .empty 7 (wordLimit - 1)).map (·.1.toList) = .error .addOverflow) &&
      decide (t.step.map (·.1) = .error .addOverflow))
    (by decide +kernel)
  simp only [Bool.and_eq_true, decide_eq_true_eq] at hcheck
  obtain ⟨⟨⟨⟨hpts, hfield⟩, hlimit⟩, hproj⟩, hstep⟩ := hcheck
  obtain ⟨ob, hob, hkind⟩ := map_eq_ok.mp hfield
  exact ⟨p, s, n, t, ob, hbuild, hstart, hrun, hpts, hob, hkind, hlimit, map_eq_error.mp hproj,
    map_eq_error.mp hstep⟩

end Solver

end PointsTo
