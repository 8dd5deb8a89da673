import PointsTo.Proofs.Visits

/-! The transfer functions keep their contract: addresses, copies, merges, loads and stores. -/

namespace PointsTo.Solver

variable {why : Prop} {g₀ : Graph} {loc : NodeId} {n : StmtNode} {s : Solver}

theorem mem_effective {st v o : NodeId} : o ∈ s.effective st v ↔ s.Sees st v o := by
  rw [effective, IdSet.mem_subtract, Sees, ← FilterSets.isFiltered_iff, Bool.not_eq_true, pts]

/-- A statement without a pointer judges nothing. -/
theorem allJudged_of_no_pointer (hptr : n.kind.pointer? = none) : AllJudged s loc n := by
  intro _ ptr t hptr'
  rw [hptr] at hptr'
  exact absurd hptr' (by simp)

/-! ### Addresses and copies -/

theorem visitAddr_eq (hv : s.Valid g₀) (obj dst : NodeId) :
    ∃ flag p, s.visitAddr obj dst = (flag, { s with pointers := p }) ∧
      (∀ w o, o ∈ p.pts w ↔
        (w = dst ∧ (o = obj ∨ s.heap.prototypes[o]? = some obj)) ∨ o ∈ s.pts w) ∧
      (flag = true ↔ ∃ o, (o = obj ∨ s.heap.prototypes[o]? = some obj) ∧ o ∉ s.pts dst) := by
  have hclones : ∀ o, s.heap.prototypes[o]? = some obj ↔ o ∈ s.heap.clones.setAt obj := fun o =>
    hv.heap.clones.symm
  unfold visitAddr
  cases hc : s.heap.clones[obj]? with
  | none =>
    rw [show s.heap.clones.setAt obj = ∅ from IdTable.setAt_of_none hc] at hclones
    have hnone : ∀ o, ¬ s.heap.prototypes[o]? = some obj := fun o h =>
      IdSet.not_mem_empty o ((hclones o).mp h)
    refine ⟨(s.pointers.add dst obj).1, (s.pointers.add dst obj).2, rfl, fun w o => ?_, ?_⟩
    · rw [PointerSets.mem_pts_add]
      simp only [hnone, or_false]
      rfl
    · rw [PointerSets.add_fst]
      simp only [hnone, or_false, exists_eq_left]
      rfl
  | some cs =>
    rw [show s.heap.clones.setAt obj = cs from IdTable.setAt_of_some hc] at hclones
    refine ⟨(s.pointers.add dst obj).1 || ((s.pointers.add dst obj).2.addAll dst cs).1,
      ((s.pointers.add dst obj).2.addAll dst cs).2, rfl, fun w o => ?_, ?_⟩
    · rw [PointerSets.mem_pts_addAll, PointerSets.mem_pts_add, hclones, pts]
      constructor
      · rintro (⟨rfl, ho⟩ | ⟨rfl, rfl⟩ | ho)
        · exact Or.inl ⟨rfl, Or.inr ho⟩
        · exact Or.inl ⟨rfl, Or.inl rfl⟩
        · exact Or.inr ho
      · rintro (⟨rfl, rfl | ho⟩ | ho)
        · exact Or.inr (Or.inl ⟨rfl, rfl⟩)
        · exact Or.inl ⟨rfl, ho⟩
        · exact Or.inr (Or.inr ho)
    · simp only [Bool.or_eq_true_iff, PointerSets.add_fst, PointerSets.addAll_fst,
        PointerSets.mem_pts_add, true_and, hclones]
      constructor
      · rintro (hobj | ⟨o, ho, hno⟩)
        · exact ⟨obj, Or.inl rfl, hobj⟩
        · exact ⟨o, Or.inr ho, fun h => hno (Or.inr h)⟩
      · rintro ⟨o, rfl | ho, hno⟩
        · exact Or.inl hno
        · by_cases hobj : obj ∈ s.pts dst
          · refine Or.inr ⟨o, ho, ?_⟩
            rintro (rfl | h)
            · exact hno hobj
            · exact hno h
          · exact Or.inl hobj

theorem visitAddr_spec (hwf : g₀.WellFormed) (hloc : loc ∈ g₀.stmts.toList)
    (hn : g₀.stmt loc = .ok n) (hv : s.Valid g₀) {obj dst : NodeId} (hk : n.kind = .addr obj dst) :
    Visited g₀ loc n s (s.visitAddr obj dst) := by
  obtain ⟨flag, p, heq, hp, hflag⟩ := visitAddr_eq hv obj dst
  rw [heq]
  have htarget : n.kind.target? = some dst := by rw [hk]; rfl
  refine (Ready.refl hv (allJudged_of_no_pointer (by rw [hk]; rfl))).point hwf hloc hn htarget hp hflag
    ?_ ?_ (fun _ _ _ => not_beyond (by rw [hk]; rfl)) ?_
  · rintro o (rfl | hc)
    · exact hv.heap.grows.hasObj (hwf.addr hloc hn hk)
    · obtain ⟨-, ob, hob, -⟩ := hv.heap.clone hc
      exact ⟨ob, hob⟩
  · intro _
    simp only [Constraint, Merges, hk, implies_true, and_true]
    exact (hp dst obj).mpr (Or.inl ⟨rfl, Or.inl rfl⟩)
  · intro o ho
    simp only [Infers, hk, StmtKind.target?, true_and]
    exact ho

theorem visitCopy_spec (hwf : g₀.WellFormed) (hloc : loc ∈ g₀.stmts.toList)
    (hn : g₀.stmt loc = .ok n) (hv : s.Valid g₀) {src dst : NodeId} {init : Bool}
    (hk : n.kind = .copy src dst init) : Visited g₀ loc n s (s.visitCopy src dst) := by
  have htarget : n.kind.target? = some dst := by rw [hk]; rfl
  have hp : ∀ w o, o ∈ (s.pointers.copy dst src).2.pts w ↔ (w = dst ∧ o ∈ s.pts src) ∨ o ∈ s.pts w :=
    fun w o => PointerSets.mem_pts_copy
  refine (Ready.refl hv (allJudged_of_no_pointer (by rw [hk]; rfl))).point hwf hloc hn htarget hp
    PointerSets.copy_fst (fun o ho => (hv.pts ho).2) ?_ (fun _ _ _ => not_beyond (by rw [hk]; rfl)) ?_
  · intro hsame
    simp only [Constraint, Merges, hk, StmtKind.uses, implies_true, and_true] at hsame ⊢
    exact fun o ho => (hp dst o).mpr (Or.inl ⟨rfl, (hsame src (by simp) o).mp ho⟩)
  · intro o ho
    simp only [Infers, hk, StmtKind.target?, true_and]
    exact ho

/-! ### Merges -/

theorem foldl_mergeOperand (dst : NodeId) (operands : List NodeId) (b : Bool) (s : Solver) :
    ∃ flag p, operands.foldl (mergeOperand dst) (b, s) = (flag, { s with pointers := p }) ∧
      (∀ w o, o ∈ p.pts w ↔ (w = dst ∧ ∃ v ∈ operands, o ∈ s.pts v) ∨ o ∈ s.pts w) ∧
      (flag = true ↔ b = true ∨ ∃ o, (∃ v ∈ operands, o ∈ s.pts v) ∧ o ∉ s.pts dst) := by
  induction operands generalizing b s with
  | nil => exact ⟨b, s.pointers, rfl, by simp [pts], by simp⟩
  | cons v rest ih =>
    obtain ⟨flag, p, heq, hp, hflag⟩ := ih (b || (s.visitCopy v dst).1) (s.visitCopy v dst).2
    have hcopy : ∀ w o, o ∈ (s.visitCopy v dst).2.pts w ↔ (w = dst ∧ o ∈ s.pts v) ∨ o ∈ s.pts w :=
      fun w o => PointerSets.mem_pts_copy
    refine ⟨flag, p, heq, fun w o => ?_, ?_⟩
    · rw [hp]
      simp only [hcopy, List.mem_cons, exists_eq_or_imp]
      constructor
      · rintro (⟨rfl, u, hu, ⟨rfl, ho⟩ | ho⟩ | ⟨rfl, ho⟩ | ho)
        · exact Or.inl ⟨rfl, Or.inl ho⟩
        · exact Or.inl ⟨rfl, Or.inr ⟨u, hu, ho⟩⟩
        · exact Or.inl ⟨rfl, Or.inl ho⟩
        · exact Or.inr ho
      · rintro (⟨rfl, ho | ⟨u, hu, ho⟩⟩ | ho)
        · exact Or.inr (Or.inl ⟨rfl, ho⟩)
        · exact Or.inl ⟨rfl, u, hu, Or.inr ho⟩
        · exact Or.inr (Or.inr ho)
    · rw [hflag, Bool.or_eq_true_iff,
        show (s.visitCopy v dst).1 = true ↔ ∃ o ∈ s.pts v, o ∉ s.pts dst from PointerSets.copy_fst]
      simp only [hcopy, List.mem_cons, exists_eq_or_imp, true_and, not_or]
      constructor
      · rintro ((hb | ⟨o, ho, hno⟩) | ⟨o, ⟨u, hu, ⟨rfl, ho⟩ | ho⟩, hnv, hno⟩)
        · exact Or.inl hb
        · exact Or.inr ⟨o, Or.inl ho, hno⟩
        · exact absurd ho hnv
        · exact Or.inr ⟨o, Or.inr ⟨u, hu, ho⟩, hno⟩
      · rintro (hb | ⟨o, ho | ⟨u, hu, ho⟩, hno⟩)
        · exact Or.inl (Or.inl hb)
        · exact Or.inl (Or.inr ⟨o, ho, hno⟩)
        · by_cases hov : o ∈ s.pts v
          · exact Or.inl (Or.inr ⟨o, hov, hno⟩)
          · exact Or.inr ⟨o, ⟨u, hu, Or.inr ho⟩, hov, hno⟩

/-- What a merge passes on: all that the operands point to, except what is filtered of a receiver. -/
theorem visitPhi_of_pointers (hwf : g₀.WellFormed) (hloc : loc ∈ g₀.stmts.toList)
    (hn : g₀.stmt loc = .ok n) {s₁ : Solver} (hr : Ready g₀ loc n s s₁) {dst first : NodeId}
    {rest : List NodeId} (hk : n.kind = .phi dst (first :: rest)) {p : PointerSets} {flag : Bool}
    (passes : NodeId → Prop) (hpasses : ∀ o, passes o → o ∈ s₁.pts first)
    (hblocked : ∀ o ∈ s₁.pts first, passes o ∨
      (n.ty.isSome = true ∧ s₁.options.typed = true ∧ s₁.filters.isFiltered loc o = true))
    (hp : ∀ w o, o ∈ p.pts w ↔
      (w = dst ∧ (passes o ∨ ∃ v ∈ rest, o ∈ s₁.pts v)) ∨ o ∈ s₁.pts w)
    (hflag : flag = true ↔ ∃ o, (passes o ∨ ∃ v ∈ rest, o ∈ s₁.pts v) ∧ o ∉ s₁.pts dst) :
    Visited g₀ loc n s (flag, { s₁ with pointers := p }) := by
  have htarget : n.kind.target? = some dst := by rw [hk]; rfl
  refine hr.point hwf hloc hn htarget hp hflag ?_ ?_ (fun _ _ _ => not_beyond (by rw [hk]; rfl)) ?_
  · rintro o (ho | ⟨v, -, ho⟩)
    · exact (hr.valid.pts (hpasses o ho)).2
    · exact (hr.valid.pts ho).2
  · intro hsame
    simp only [Constraint, Merges, hk, StmtKind.uses, implies_true, and_true] at hsame ⊢
    constructor
    · intro o ho
      refine (hblocked o ((hsame first (by simp) o).mp ho)).imp_left fun ho => ?_
      exact (hp dst o).mpr (Or.inl ⟨rfl, Or.inl ho⟩)
    · intro v hv o ho
      exact (hp dst o).mpr (Or.inl ⟨rfl, Or.inr ⟨v, hv, (hsame v (by simp [hv]) o).mp ho⟩⟩)
  · rintro o (ho | ⟨v, hv, ho⟩)
    · simp only [Infers, hk, StmtKind.target?, true_and]
      exact ⟨first, by simp, hpasses o ho⟩
    · simp only [Infers, hk, StmtKind.target?, true_and]
      exact ⟨v, by simp [hv], ho⟩

theorem mergeReceiver_spec (hwf : g₀.WellFormed) (hloc : loc ∈ g₀.stmts.toList)
    (hn : g₀.stmt loc = .ok n) (hv : s.Valid g₀) (htyped : s.options.typed = true)
    {dst first : NodeId} {rest : List NodeId} (hk : n.kind = .phi dst (first :: rest)) :
    Delivers why (s.mergeReceiver loc dst first n.ty) fun r =>
      ∃ s₁, Ready g₀ loc n s s₁ ∧ r = s₁.point dst (s₁.effective loc first) := by
  have hrefine := ready_refine why hwf hloc hn hv htyped
    (show n.kind.pointer? = some first by rw [hk]; rfl)
  rw [hk] at hrefine
  refine hrefine.bind ?_
  rintro ⟨b, s₁⟩ ⟨hr, -⟩
  exact ⟨s₁, hr, rfl⟩

/-- All operands are merged alike. -/
theorem visitPhi_untyped (hwf : g₀.WellFormed) (hloc : loc ∈ g₀.stmts.toList)
    (hn : g₀.stmt loc = .ok n) (hv : s.Valid g₀) {dst first : NodeId} {rest : List NodeId}
    (hk : n.kind = .phi dst (first :: rest)) (hcond : (n.ty.isSome && s.options.typed) = false) :
    Visited g₀ loc n s ((first :: rest).foldl (mergeOperand dst) (false, s)) := by
  have hj : AllJudged s loc n := by
    intro htyped ptr t _ hcan
    rw [canonical_isSome hcan, htyped] at hcond
    exact absurd hcond (by decide)
  obtain ⟨flag, p, heq, hp, hflag⟩ := foldl_mergeOperand dst (first :: rest) false s
  rw [heq]
  refine visitPhi_of_pointers hwf hloc hn (.refl hv hj) hk (· ∈ s.pts first) (fun _ h => h)
    (fun _ h => Or.inl h) ?_ ?_
  · intro w o
    rw [hp]
    simp
  · rw [hflag]
    simp

/-- The first operand is merged without its filtered objects, the others are merged whole. -/
theorem visitPhi_typed (hwf : g₀.WellFormed) (hloc : loc ∈ g₀.stmts.toList)
    (hn : g₀.stmt loc = .ok n) (hr : Ready g₀ loc n s s₁) {dst first : NodeId} {rest : List NodeId}
    (hk : n.kind = .phi dst (first :: rest)) (hsome : n.ty.isSome = true)
    (htyped : s₁.options.typed = true) :
    Visited g₀ loc n s
      (rest.foldl (mergeOperand dst) (s₁.point dst (s₁.effective loc first))) := by
  obtain ⟨flag, p, heq, hp, hflag⟩ := foldl_mergeOperand dst rest
    (s₁.point dst (s₁.effective loc first)).1 (s₁.point dst (s₁.effective loc first)).2
  rw [Prod.eta] at heq
  rw [heq]
  refine visitPhi_of_pointers hwf hloc hn hr hk (s₁.Sees loc first) (fun _ h => h.1) ?_ ?_ ?_
  · intro o ho
    cases hfil : s₁.filters.isFiltered loc o with
    | false => exact Or.inl ⟨ho, hfil⟩
    | true => exact Or.inr ⟨hsome, htyped, rfl⟩
  · intro w o
    rw [hp]
    simp only [mem_pts_point, mem_effective]
    constructor
    · rintro (⟨rfl, v, hv, ⟨rfl, ho⟩ | ho⟩ | ⟨rfl, ho⟩ | ho)
      · exact Or.inl ⟨rfl, Or.inl ho⟩
      · exact Or.inl ⟨rfl, Or.inr ⟨v, hv, ho⟩⟩
      · exact Or.inl ⟨rfl, Or.inl ho⟩
      · exact Or.inr ho
    · rintro (⟨rfl, ho | ⟨v, hv, ho⟩⟩ | ho)
      · exact Or.inr (Or.inl ⟨rfl, ho⟩)
      · exact Or.inl ⟨rfl, v, hv, Or.inr ho⟩
      · exact Or.inr (Or.inr ho)
  · rw [hflag, point_fst]
    simp only [mem_pts_point, mem_effective, true_and, not_or]
    constructor
    · rintro (⟨o, ho, hno⟩ | ⟨o, ⟨v, hv, ⟨rfl, ho⟩ | ho⟩, hns, hno⟩)
      · exact ⟨o, Or.inl ho, hno⟩
      · exact absurd ho hns
      · exact ⟨o, Or.inr ⟨v, hv, ho⟩, hno⟩
    · rintro ⟨o, ho | ⟨v, hv, ho⟩, hno⟩
      · exact Or.inl ⟨o, ho, hno⟩
      · by_cases hsees : s₁.Sees loc first o
        · exact Or.inl ⟨o, hsees, hno⟩
        · exact Or.inr ⟨o, ⟨v, hv, Or.inr ho⟩, hsees, hno⟩

theorem visitPhi_spec (hwf : g₀.WellFormed) (hloc : loc ∈ g₀.stmts.toList)
    (hn : g₀.stmt loc = .ok n) (hv : s.Valid g₀) {dst : NodeId} {operands : List NodeId}
    (hk : n.kind = .phi dst operands) :
    Delivers why (s.visitPhi loc dst operands n.ty) (Visited g₀ loc n s) := by
  cases operands with
  | nil =>
    have hc : Constraint g₀ s loc n := by simp only [Constraint, hk]
    have hm : ∀ m, Merges m s loc n := fun m => by simp only [Merges, hk]
    exact .idle hv ⟨hc, allJudged_of_no_pointer (by rw [hk]; rfl)⟩ hm (by rw [hk]; rfl)
  | cons first rest =>
    unfold visitPhi
    cases hcond : n.ty.isSome && s.options.typed with
    | false => exact visitPhi_untyped hwf hloc hn hv hk hcond
    | true =>
      obtain ⟨hsome, htyped⟩ := Bool.and_eq_true_iff.mp hcond
      simp only [if_true]
      refine (mergeReceiver_spec hwf hloc hn hv htyped hk).bind ?_
      rintro _ ⟨s₁, hr, rfl⟩
      exact visitPhi_typed hwf hloc hn hr hk hsome (hr.evolves.options ▸ htyped)

/-! ### Loads -/

/-- What a load through a pointer to the object gives. -/
def Loads (s : Solver) (st o x : NodeId) : Prop :=
  ∃ ob, s.graph.obj o = .ok ob ∧ ob.kind ≠ .special .constant ∧ ∃ y, x ∈ s.contentsBefore st y ∧
    (y = o ∨ ((s.graph.mem ob.mem).fieldInsensitive = true ∧
      ∃ oy, s.graph.obj y = .ok oy ∧ oy.mem = ob.mem))

theorem mem_foldl_union {f : NodeId → IdSet} {ys : List NodeId} {loaded : IdSet} {x : NodeId} :
    x ∈ ys.foldl (fun loaded y => (loaded.union (f y)).2) loaded ↔ x ∈ loaded ∨ ∃ y ∈ ys, x ∈ f y := by
  induction ys generalizing loaded with
  | nil => simp
  | cons y ys ih =>
    rw [List.foldl_cons, ih, IdSet.mem_union]
    simp only [List.mem_cons, exists_eq_or_imp, or_assoc]

theorem loadObject_spec (hv : s.Valid g₀) (st : NodeId) {o : NodeId} (ho : s.graph.HasObj o)
    (loaded : IdSet) :
    ∃ r, s.loadObject st loaded o = .ok r ∧ ∀ x, x ∈ r ↔ x ∈ loaded ∨ s.Loads st o x := by
  obtain ⟨ob, hob⟩ := ho
  have hloads : ∀ x, s.Loads st o x ↔ ob.kind ≠ .special .constant ∧
      (x ∈ s.contentsBefore st o ∨ ((s.graph.mem ob.mem).fieldInsensitive = true ∧
        ∃ y ∈ (s.heap.memObjects.setAt ob.mem).toList, x ∈ s.contentsBefore st y)) := by
    intro x
    simp only [Loads, hob, IdSet.mem_toList, hv.heap.memObjects]
    constructor
    · rintro ⟨_, hob', hne, y, hx, hy⟩
      injection hob' with hob'
      subst hob'
      refine ⟨hne, ?_⟩
      rcases hy with rfl | ⟨hfi, hy⟩
      · exact Or.inl hx
      · exact Or.inr ⟨hfi, y, hy, hx⟩
    · rintro ⟨hne, hx | ⟨hfi, y, hy, hx⟩⟩
      · exact ⟨ob, rfl, hne, o, hx, Or.inl rfl⟩
      · exact ⟨ob, rfl, hne, y, hx, Or.inr ⟨hfi, hy⟩⟩
  simp only [hloads]
  unfold loadObject
  simp only [hob, ok_bind]
  by_cases hconst : ob.kind = .special .constant
  · rw [if_pos hconst]
    exact ⟨loaded, rfl, fun x => by simp [hconst]⟩
  rw [if_neg hconst]
  cases hfi : (s.graph.mem ob.mem).fieldInsensitive with
  | false =>
    refine ⟨_, rfl, fun x => ?_⟩
    rw [IdSet.mem_union]
    simp [hconst]
  | true =>
    refine ⟨_, rfl, fun x => ?_⟩
    rw [mem_foldl_union, IdSet.mem_union]
    simp [hconst, or_assoc]

theorem loaded_spec (hv : s.Valid g₀) {st : NodeId} {os : List NodeId}
    (hos : ∀ o ∈ os, s.graph.HasObj o) :
    Delivers why (os.foldlM (s.loadObject st) ∅) fun r => ∀ x, x ∈ r ↔ ∃ o ∈ os, s.Loads st o x := by
  refine Delivers.foldlM (I := fun done r => ∀ x, x ∈ r ↔ ∃ o ∈ done, s.Loads st o x)
    (fun x => by simp [IdSet.not_mem_empty]) ?_
  intro done o rest r hsplit hr
  obtain ⟨r', heq, hr'⟩ := loadObject_spec hv st (hos o (by rw [hsplit]; simp)) r
  refine .of_eq heq fun x => ?_
  rw [hr', hr]
  simp only [List.mem_append, List.mem_singleton, or_and_right, exists_or, exists_eq_left]

/-- Memory that the program does not own holds nothing, nor does what shares its allocation. -/
theorem kind_ne_constant (hwf : g₀.WellFormed) (hv : s.Valid g₀) {st o y x : NodeId} {ob : ObjNode}
    (hob : s.graph.obj o = .ok ob) (hy : s.graph.Within ob.mem y) (hx : x ∈ s.contentsBefore st y) :
    ob.kind ≠ .special .constant := by
  intro hk
  obtain ⟨oy, hoy, hmem⟩ := hy
  have hs : ob.isSpecial = true := by simp [ObjNode.isSpecial, hk]
  have hown := hv.owned (Or.inl hx) hoy
  rw [hv.isSpecial_of_mem hwf hob hs hoy hmem] at hown
  cases hown

theorem visitLoad_spec (hwf : g₀.WellFormed) (hloc : loc ∈ g₀.stmts.toList)
    (hn : g₀.stmt loc = .ok n) (hv : s.Valid g₀) {ptr dst : NodeId} (hk : n.kind = .load ptr dst) :
    Delivers why (s.visitLoad loc ptr dst n.ty) (Visited g₀ loc n s) := by
  have hptr : n.kind.pointer? = some ptr := by rw [hk]; rfl
  have htarget : n.kind.target? = some dst := by rw [hk]; rfl
  have hrefine := ready_refineIf why hwf hloc hn hv hptr s.options.typed id fun h _ => h
  rw [hk] at hrefine
  refine hrefine.ite_bind ?_
  rintro ⟨b, s₁⟩ ⟨hr, -⟩
  have hobjs : ∀ o ∈ (s₁.effective loc ptr).toList, s₁.graph.HasObj o := fun o ho =>
    (hr.valid.pts (mem_effective.mp (IdSet.mem_toList.mp ho)).1).2
  refine (loaded_spec hr.valid hobjs).bind ?_
  intro loaded hloaded
  have hp : ∀ w o, o ∈ (s₁.point dst loaded).2.pts w ↔ (w = dst ∧ o ∈ loaded) ∨ o ∈ s₁.pts w :=
    fun w o => mem_pts_point
  refine Delivers.ok (hr.point hwf hloc hn htarget hp point_fst ?_ ?_
    (fun _ _ _ => not_beyond (by rw [hk]; rfl)) ?_)
  · intro x hx
    obtain ⟨o, -, ob, -, -, y, hxy, -⟩ := (hloaded x).mp hx
    exact (hr.valid.before hxy).2.2
  · intro hsame
    simp only [Constraint, Merges, hk, StmtKind.uses] at hsame ⊢
    have hgives : ∀ {o x}, Sees (s₁.point dst loaded).2 loc ptr o → s₁.Loads loc o x →
        x ∈ (s₁.point dst loaded).2.pts dst := by
      intro o x ho hx
      refine (hp dst x).mpr (Or.inl ⟨rfl, (hloaded x).mpr ⟨o, ?_, hx⟩⟩)
      rw [IdSet.mem_toList, mem_effective]
      exact ⟨(hsame ptr (by simp) o).mp ho.1, ho.2⟩
    refine ⟨fun o ob ho hob hne x hx => hgives ho ⟨ob, hob, hne, o, hx, Or.inl rfl⟩, ?_⟩
    rintro m hm o ho ⟨ob, hob, rfl⟩ y hy x hx
    have hfi := hr.evolves.heap.graph.collapsed hm
    exact hgives ho ⟨ob, hob, kind_ne_constant hwf hr.valid hob hy hx, y, hx, Or.inr ⟨hfi, hy⟩⟩
  · intro x hx
    obtain ⟨o, ho, ob, hob, hne, y, hxy, hy⟩ := (hloaded x).mp hx
    simp only [Infers, hk, StmtKind.target?, true_and]
    rw [IdSet.mem_toList, mem_effective] at ho
    exact ⟨o, ob, y, ho.1, hob, hne, hxy, hy⟩

end PointsTo.Solver
