import PointsTo.Proofs.Constraints

/-! What a visit to a statement does.

    `Visited` is the contract of all transfer functions: the statement's constraint is met, unless it
    waits to be visited again, and what had no fields before the visit was treated as one place;
    whatever it filters it can explain, and what it does not filter it will never have a reason to;
    and everything new follows from what was known: by the rule of the statement in `Infers`, or, if
    it is a clone, because its pointer pointed to an object of the same prototype. -/

namespace PointsTo.Solver

/-! ### Rules -/

/-- The annotation of the statement explains why it filters the object; projections filter for other
    reasons too. -/
def Explained (s : Solver) (n : StmtNode) (x : NodeId) : Prop :=
  n.kind.isGep = true ∨ ∃ ptr t, n.kind.pointer? = some ptr ∧ s.types.canonical n.ty = some t ∧
    s.Rejected t (s.options.reuseAt n.kind) (· ∈ s.pts ptr) x

/-- A projection leads beyond the fields of the object's type. -/
def Beyond (s : Solver) (n : StmtNode) (x : NodeId) : Prop :=
  ∃ base dst k o ty, n.kind = .gep base dst (.field k) ∧ s.graph.obj x = .ok o ∧ o.isSpecial = false ∧
    s.heap.types[x]? = some ty ∧ s.isBeyondFields o ty k = true

/-- The statement has no reason to filter the object. -/
def Fit (s : Solver) (n : StmtNode) (x : NodeId) : Prop :=
  ¬ s.Beyond n x ∧ (s.options.typed = true → ∀ t, s.types.canonical n.ty = some t →
    s.IsForeign x ∨ s.Kept t (s.options.reuseAt n.kind) n.kind.isGep x)

/-- A projection of the object leads to another one: to itself, to the whole object, or to a slot. -/
def Leads (g₀ : Graph) (s : Solver) (offset : GepOffset) (o : NodeId) (ob : ObjNode) (x : NodeId) :
    Prop :=
  if ob.isSpecial then x = o
  else match offset with
    | .variant => x = ob.wholeOf o
    | .field k =>
      (x = o ∧ ((s.graph.mem ob.mem).fieldInsensitive = true ∨
        (k = 0 ∧ s.heap.isArrayAt s.types o ob = false))) ∨
      ∃ root slot ox, Heap.slotOf o ob.kind k = .ok (root, slot) ∧ slot < s.heap.fieldLimit ∧
        (g₀.mem ob.mem).fieldInsensitive = false ∧
        ¬ (k = 0 ∧ s.heap.isArrayAt s.types o ob = false) ∧
        s.graph.obj x = .ok ox ∧ ox.kind = .field root slot

/-- The preparations of the statement make new objects, and clones of what its pointer points to join
    the set of the pointer. -/
def Splits (known : Fact → Prop) (s : Solver) (n : StmtNode) : Fact → Prop
  | .object _ => True
  | .pts v c => n.kind.pointer? = some v ∧
    ∃ x, known (.pts v x) ∧ s.heap.prototypes[c]? = some (s.heap.prototype x)
  | .before _ _ _ | .after _ _ _ => False

/-- The fact follows from known facts by the rule of the statement. -/
def Infers (known : Fact → Prop) (g₀ : Graph) (s : Solver) (st : NodeId) (n : StmtNode) :
    Fact → Prop
  | .object _ => False
  | .pts v x => n.kind.target? = some v ∧
    match n.kind with
    | .addr obj _ => x = obj ∨ s.heap.prototypes[x]? = some obj
    | .copy src _ _ => known (.pts src x)
    | .phi _ operands => ∃ u ∈ operands, known (.pts u x)
    | .gep base _ offset => ∃ o ob, known (.pts base o) ∧ s.Sees st base o ∧ s.Fit n o ∧
        s.graph.obj o = .ok ob ∧ Leads g₀ s offset o ob x
    | .load ptr _ => ∃ o ob y, known (.pts ptr o) ∧ s.graph.obj o = .ok ob ∧
        ob.kind ≠ .special .constant ∧ known (.before st y x) ∧
        (y = o ∨ ((s.graph.mem ob.mem).fieldInsensitive = true ∧
          ∃ oy, s.graph.obj y = .ok oy ∧ oy.mem = ob.mem))
    | .store _ _ => False
  | .before _ _ _ => False
  | .after l o x => l = st ∧
    match n.kind with
    | .store src ptr =>
      (known (.pts src x) ∧ known (.pts ptr o) ∧
        ∃ ob, s.graph.obj o = .ok ob ∧ ob.isSpecial = false) ∨
      (known (.before st o x) ∧ (∃ e, e ∈ s.pts ptr) ∧ (∀ e ∈ s.pts ptr, known (.pts ptr e)) ∧
        ¬ Overwrites s.graph s st ptr o)
    | _ => False

/-- The statement is a projection that makes an allocation lose its fields. -/
def Collapses (known : Fact → Prop) (s : Solver) (n : StmtNode) (m : MemId) : Prop :=
  ∃ base dst offset o ob, n.kind = .gep base dst offset ∧ known (.pts base o) ∧
    s.graph.obj o = .ok ob ∧ ob.isSpecial = false ∧ ob.mem = m ∧
    match offset with
    | .variant => True
    | .field k => ∃ root slot, Heap.slotOf o ob.kind k = .ok (root, slot) ∧ s.heap.fieldLimit ≤ slot ∧
        ¬ (k = 0 ∧ s.heap.isArrayAt s.types o ob = false)

/-- The statement is a projection to an offset that is too large for a machine word. -/
def Overflows (s : Solver) (n : StmtNode) : Prop :=
  ∃ base dst k o ob r j, n.kind = .gep base dst (.field k) ∧ o ∈ s.pts base ∧
    s.graph.obj o = .ok ob ∧ (s.graph.mem ob.mem).fieldInsensitive = false ∧
    ob.kind = .field r j ∧ wordLimit ≤ j + k

theorem Splits.mono {known known' : Fact → Prop} {s : Solver} {n : StmtNode} {f : Fact}
    (hs : Splits known s n f) (h : ∀ f, known f → known' f) : Splits known' s n f := by
  cases f with
  | object o => trivial
  | pts v c =>
    obtain ⟨hptr, x, hx, hproto⟩ := hs
    exact ⟨hptr, x, h _ hx, hproto⟩
  | before l o x => exact hs
  | after l o x => exact hs

theorem Splits.keep {known : Fact → Prop} {s s' : Solver} {n : StmtNode} {f : Fact}
    (hs : Splits known s n f) (hheap : s'.heap = s.heap) : Splits known s' n f := by
  have hsame : Splits known s' n f = Splits known s n f := by
    cases f <;> simp only [Splits, hheap]
  exact hsame ▸ hs

theorem Infers.mono {known known' : Fact → Prop} {g₀ : Graph} {s : Solver} {st : NodeId}
    {n : StmtNode} {f : Fact} (hi : Infers known g₀ s st n f) (h : ∀ f, known f → known' f) :
    Infers known' g₀ s st n f := by
  cases f with
  | object o => exact hi
  | before l o x => exact hi
  | pts v x =>
    refine ⟨hi.1, ?_⟩
    have hi' := hi.2
    cases hk : n.kind with
    | addr obj dst => simpa only [hk] using hi'
    | store src ptr => simp only [hk] at hi'
    | copy src dst init =>
      simp only [hk] at hi' ⊢
      exact h _ hi'
    | phi dst operands =>
      simp only [hk] at hi' ⊢
      obtain ⟨u, hu, hx⟩ := hi'
      exact ⟨u, hu, h _ hx⟩
    | gep base dst offset =>
      simp only [hk] at hi' ⊢
      obtain ⟨o, ob, ho, hob⟩ := hi'
      exact ⟨o, ob, h _ ho, hob⟩
    | load ptr dst =>
      simp only [hk] at hi' ⊢
      obtain ⟨o, ob, y, ho, hob, hne, hx, hy⟩ := hi'
      exact ⟨o, ob, y, h _ ho, hob, hne, h _ hx, hy⟩
  | after l o x =>
    refine ⟨hi.1, ?_⟩
    have hi' := hi.2
    cases hk : n.kind with
    | store src ptr =>
      simp only [hk] at hi' ⊢
      rcases hi' with ⟨hx, ho, hob⟩ | ⟨hx, hne, hall, hnot⟩
      · exact Or.inl ⟨h _ hx, h _ ho, hob⟩
      · exact Or.inr ⟨h _ hx, hne, fun e he => h _ (hall e he), hnot⟩
    | addr _ _ | copy _ _ _ | phi _ _ | gep _ _ _ | load _ _ => simp only [hk] at hi'

/-- The rules read of the state everything but its contents and the worklist. -/
theorem Infers.keep {known : Fact → Prop} {g₀ : Graph} {s s' : Solver} {st : NodeId} {n : StmtNode}
    {f : Fact} (hi : Infers known g₀ s st n f) (htypes : s'.types = s.types)
    (hopts : s'.options = s.options) (hheap : s'.heap = s.heap) (hpointers : s'.pointers = s.pointers)
    (hfilters : s'.filters = s.filters) : Infers known g₀ s' st n f := by
  cases s
  cases s'
  cases htypes
  cases hopts
  cases hheap
  cases hpointers
  cases hfilters
  exact hi

/-- A projection of an object that was there before overflowed before. -/
theorem Overflows.back {g₀ : Graph} {s s' : Solver} {n : StmtNode} (ho : Overflows s' n)
    (hv : s.Valid g₀) (hext : s.heap.Extends s'.heap)
    (hpts : ∀ {v o ob}, o ∈ s'.pts v → s'.graph.obj o = .ok ob →
      ∃ x ∈ s.pts v, s'.graph.obj x = .ok ob) : Overflows s n := by
  obtain ⟨base, dst, k, o, ob, r, j, hk, ho, hob, hfi, hkind, hge⟩ := ho
  obtain ⟨x, hx, hobx⟩ := hpts ho hob
  obtain ⟨ob', hob'⟩ := (hv.pts hx).2
  obtain rfl := ok_unique (hext.graph.obj hob') hobx
  refine ⟨base, dst, k, x, ob', r, j, hk, hx, hob', ?_, hkind, hge⟩
  cases hfi' : (s.graph.mem ob'.mem).fieldInsensitive with
  | false => rfl
  | true => exact absurd ((hext.graph.collapsed hfi').symm.trans hfi) (by decide)

theorem Collapses.mono {known known' : Fact → Prop} {s : Solver} {n : StmtNode} {m : MemId}
    (hc : Collapses known s n m) (h : ∀ v o, known (.pts v o) → known' (.pts v o)) :
    Collapses known' s n m := by
  obtain ⟨base, dst, offset, o, ob, hk, ho, hwhy⟩ := hc
  exact ⟨base, dst, offset, o, ob, hk, h _ _ ho, hwhy⟩

/-! ### Lasting verdicts -/

section Lasting

variable {g₀ : Graph} {s s' : Solver} {n : StmtNode} {x : NodeId}

theorem not_beyond (hgep : n.kind.isGep = false) : ¬ s.Beyond n x := by
  rintro ⟨base, dst, k, o, ty, hk, -⟩
  rw [hk] at hgep
  cases hgep

/-- Whether a projection leads beyond an object's fields never changes. -/
theorem beyond_iff (htypes : s'.types = s.types) (hopts : s'.options = s.options)
    (hext : s.heap.Extends s'.heap) (hx : s.graph.HasObj x) : s'.Beyond n x ↔ s.Beyond n x := by
  obtain ⟨o, ho⟩ := hx
  have hbeyond : ∀ ty k, s'.isBeyondFields o ty k = s.isBeyondFields o ty k := fun ty k => by
    simp only [isBeyondFields, htypes, hopts, graph, hext.graph.isArray]
  have ho' : s'.graph.obj x = .ok o := hext.graph.obj ho
  simp only [Beyond, ho, ho', hext.types ⟨o, ho⟩, Except.ok.injEq]
  constructor <;> rintro ⟨base, dst, k, _, ty, hk, rfl, hs, hty, hb⟩
  · exact ⟨base, dst, k, o, ty, hk, rfl, hs, hty, (hbeyond ty k).symm.trans hb⟩
  · exact ⟨base, dst, k, o, ty, hk, rfl, hs, hty, (hbeyond ty k).trans hb⟩

/-- A statement that has no reason to filter an object never gets one. -/
theorem Fit.keep (hv : s.Valid g₀) (htypes : s'.types = s.types) (hopts : s'.options = s.options)
    (hext : s.heap.Extends s'.heap) (hx : s.graph.HasObj x) (hfit : s.Fit n x) : s'.Fit n x := by
  refine ⟨fun hb => hfit.1 ((beyond_iff htypes hopts hext hx).mp hb), fun htyped t ht => ?_⟩
  rw [hopts] at htyped ⊢
  rw [htypes] at ht
  exact (hfit.2 htyped t ht).imp (·.keep hext) (·.keep hv htypes hopts hext)

/-- What was judged and is not filtered is fit, if the statement projects to a field that is there. -/
theorem AllJudged.seen_fit {loc ptr : NodeId} (hj : AllJudged s loc n)
    (hptr : n.kind.pointer? = some ptr) (hx : x ∈ s.pts ptr)
    (hseen : s.filters.isFiltered loc x = false) (hbounds : ¬ s.Beyond n x) : s.Fit n x := by
  refine ⟨hbounds, fun htyped t ht => ?_⟩
  rcases hj htyped ptr t hptr ht x hx with hf | hf | hk
  · exact Or.inl hf
  · rw [hseen] at hf
    cases hf
  · exact Or.inr hk

end Lasting

/-! ### The contract -/

/-- What was done before a statement passes something on. -/
structure Ready (g₀ : Graph) (loc : NodeId) (n : StmtNode) (s s₁ : Solver) : Prop where
  valid : s₁.Valid g₀
  evolves : Evolves g₀ loc false s s₁
  judged : AllJudged s₁ loc n
  explained : ∀ x, s₁.filters.isFiltered loc x = true →
    s.filters.isFiltered loc x = true ∨ Explained s₁ n x
  steady : ∀ {x}, s.graph.HasObj x → s.Fit n x → s₁.filters.isFiltered loc x = true →
    s.filters.isFiltered loc x = true
  inferred : ∀ f, s₁.Holds f → s.Holds f ∨ Splits s.Holds s₁ n f
  collapses : s.options.typed = false → ∀ m, (s₁.graph.mem m).fieldInsensitive = true →
    (s.graph.mem m).fieldInsensitive = true ∨ Collapses s.Holds s₁ n m

/-- What a transfer function does. -/
structure Visited (g₀ : Graph) (loc : NodeId) (n : StmtNode) (s : Solver) (r : Bool × Solver) :
    Prop where
  valid : r.2.Valid g₀
  evolves : Evolves g₀ loc r.1 s r.2
  settled : loc ∈ r.2.pending.items ∨
    (r.1 = true ∧ ∃ v ∈ n.kind.uses, n.kind.target? = some v) ∨
    (Settled g₀ r.2 loc n ∧ ∀ m, (s.graph.mem m).fieldInsensitive = true → Merges m r.2 loc n)
  explained : ∀ x, r.2.filters.isFiltered loc x = true →
    s.filters.isFiltered loc x = true ∨ Explained r.2 n x
  fit : ∀ {ptr x}, n.kind.pointer? = some ptr → x ∈ r.2.pts ptr →
    x ∈ s.pts ptr ∨ n.kind.target? ≠ some ptr → r.2.filters.isFiltered loc x = false → r.2.Fit n x
  steady : ∀ {x}, s.graph.HasObj x → s.Fit n x → r.2.filters.isFiltered loc x = true →
    s.filters.isFiltered loc x = true
  inferred : ∀ known : Fact → Prop, (∀ f, s.Holds f → known f) →
    (∀ f, Splits (fun f => r.2.Holds f ∧ known f) r.2 n f → known f) →
    (∀ f, Infers (fun f => r.2.Holds f ∧ known f) g₀ r.2 loc n f → known f) →
    ∀ f, r.2.Holds f → known f
  collapses : s.options.typed = false → ∀ m, (r.2.graph.mem m).fieldInsensitive = true →
    (s.graph.mem m).fieldInsensitive = true ∨ Collapses s.Holds r.2 n m

section Contract

variable {g₀ : Graph} {loc : NodeId} {n : StmtNode} {s s₁ : Solver}

theorem Explained.keep {s' : Solver} (hv : s.Valid g₀) (htypes : s'.types = s.types)
    (hopts : s'.options = s.options) (hext : s.heap.Extends s'.heap)
    (hpts : ∀ {v o}, o ∈ s.pts v → o ∈ s'.pts v) {x : NodeId} (hx : s.graph.HasObj x)
    (he : Explained s n x) : Explained s' n x := by
  refine he.imp_right ?_
  rintro ⟨ptr, t, hptr, ht, hr⟩
  refine ⟨ptr, t, hptr, htypes.symm ▸ ht, ?_⟩
  rw [hopts]
  exact hr.keep htypes hopts hext hx fun c hc => ⟨hpts hc, (hv.pts hc).2⟩

theorem Collapses.keep {known : Fact → Prop} {s' : Solver} (htypes : s'.types = s.types)
    (hext : s.heap.Extends s'.heap) {m : MemId} (hc : Collapses known s n m) :
    Collapses known s' n m := by
  obtain ⟨base, dst, offset, o, ob, hk, ho, hob, hs, hm, hwhy⟩ := hc
  refine ⟨base, dst, offset, o, ob, hk, ho, hext.graph.obj hob, hs, hm, ?_⟩
  cases offset with
  | variant => trivial
  | field k =>
    obtain ⟨root, slot, hslot, hle, hopen⟩ := hwhy
    refine ⟨root, slot, hslot, hext.fieldLimit ▸ hle, ?_⟩
    rw [htypes, Heap.isArrayAt_eq hext hob]
    exact hopen

/-- A visit that has nothing to do. -/
theorem Visited.idle (hv : s.Valid g₀) (hset : Settled g₀ s loc n) (hm : ∀ m, Merges m s loc n)
    (hgep : n.kind.isGep = false) : Visited g₀ loc n s (false, s) where
  valid := hv
  evolves := .refl g₀ loc s
  settled := Or.inr (Or.inr ⟨hset, fun m _ => hm m⟩)
  explained _ hx := Or.inl hx
  fit hptr hx _ hseen := hset.2.seen_fit hptr hx hseen (not_beyond hgep)
  steady _ _ hx := hx
  inferred _ hold _ _ := hold
  collapses _ _ hm := Or.inl hm

/-- Nothing to do before the statement passes something on. -/
theorem Ready.refl (hv : s.Valid g₀) (hj : AllJudged s loc n) : Ready g₀ loc n s s where
  valid := hv
  evolves := .refl g₀ loc s
  judged := hj
  explained _ hx := Or.inl hx
  steady _ _ hx := hx
  inferred _ hf := Or.inl hf
  collapses _ _ hm := Or.inl hm

/-- What the preparations add to what is known. -/
theorem Ready.known (hr : Ready g₀ loc n s s₁) {s' : Solver} (he : ∀ f, s₁.Holds f → s'.Holds f)
    (hheap : s'.heap = s₁.heap) {known : Fact → Prop} (hold : ∀ f, s.Holds f → known f)
    (hsplit : ∀ f, Splits (fun f => s'.Holds f ∧ known f) s' n f → known f) {f : Fact}
    (hf : s₁.Holds f) : known f := by
  rcases hr.inferred f hf with hf | hs
  · exact hold f hf
  · exact hsplit f ((hs.keep hheap).mono fun f hf => ⟨he f (hr.evolves.holds hf), hold f hf⟩)

/-- Without types there are no clones. -/
theorem Ready.pts_of_untyped (hr : Ready g₀ loc n s s₁) (huntyped : s.options.typed = false)
    {v o : NodeId} (ho : o ∈ s₁.pts v) : o ∈ s.pts v := by
  rcases hr.inferred (.pts v o) ho with ho | ⟨-, x, -, hproto⟩
  · exact ho
  · have htyped := hr.valid.clones hproto
    rw [hr.evolves.options, huntyped] at htyped
    cases htyped

/-- The statement passes new objects on to the value that it defines. -/
theorem Ready.point (hwf : g₀.WellFormed) (hloc : loc ∈ g₀.stmts.toList) (hn : g₀.stmt loc = .ok n)
    (hr : Ready g₀ loc n s s₁) {dst : NodeId} (htarget : n.kind.target? = some dst)
    {p : PointerSets} {new : NodeId → Prop} {flag : Bool}
    (hp : ∀ w o, o ∈ p.pts w ↔ (w = dst ∧ new o) ∨ o ∈ s₁.pts w)
    (hflag : flag = true ↔ ∃ o, new o ∧ o ∉ s₁.pts dst) (hobj : ∀ o, new o → s₁.graph.HasObj o)
    (hcon : (∀ v ∈ n.kind.uses, ∀ o, o ∈ p.pts v ↔ o ∈ s₁.pts v) →
      Constraint g₀ { s₁ with pointers := p } loc n ∧
      ∀ m, (s.graph.mem m).fieldInsensitive = true → Merges m { s₁ with pointers := p } loc n)
    (hbounds : ∀ {ptr x}, n.kind.pointer? = some ptr → x ∈ s₁.pts ptr →
      s₁.filters.isFiltered loc x = false → ¬ s₁.Beyond n x)
    (hinf : ∀ o, new o → Infers s₁.Holds g₀ { s₁ with pointers := p } loc n (.pts dst o)) :
    Visited g₀ loc n s (flag, { s₁ with pointers := p }) := by
  have hpts : ∀ {v o}, o ∈ s₁.pts v → o ∈ p.pts v := fun ho => (hp _ _).mpr (Or.inr ho)
  have he : Evolves g₀ loc flag s₁ { s₁ with pointers := p } :=
    evolves_target hp hflag ⟨n, hn, htarget⟩
  refine ⟨hr.valid.withPointers hp (hwf.target hloc hn htarget).1 hobj, hr.evolves.trans he,
    ?_, ?_, ?_, hr.steady, ?_, ?_⟩
  · by_cases hself : flag = true ∧ dst ∈ n.kind.uses
    · exact Or.inr (Or.inl ⟨hself.1, dst, hself.2, htarget⟩)
    · have hsame : ∀ v ∈ n.kind.uses, ∀ o, o ∈ p.pts v ↔ o ∈ s₁.pts v := by
        intro v hv o
        refine ⟨fun ho => ?_, hpts⟩
        rcases (hp v o).mp ho with ⟨rfl, hnew⟩ | ho
        · by_contra hno
          exact hself ⟨hflag.mpr ⟨o, hnew, hno⟩, hv⟩
        · exact ho
      refine Or.inr (Or.inr ⟨⟨(hcon hsame).1, fun htyped ptr t hptr ht x hx => ?_⟩, (hcon hsame).2⟩)
      exact hr.judged htyped ptr t hptr ht x ((hsame ptr (StmtKind.pointer?_mem_uses hptr) x).mp hx)
  · intro x hx
    refine (hr.explained x hx).imp_right fun hwhy => ?_
    obtain ⟨-, n', v, -, -, hxv⟩ := hr.valid.filters hx
    exact hwhy.keep hr.valid he.types he.options he.heap he.pts (hr.valid.pts hxv).2
  · -- What a statement adds to its own pointer is judged when it is visited again.
    intro ptr x hptr hx hold hseen
    have hx₁ : x ∈ s₁.pts ptr := by
      rcases (hp ptr x).mp hx with ⟨rfl, -⟩ | hx
      · exact hr.evolves.pts (hold.resolve_right (not_not_intro htarget))
      · exact hx
    exact (hr.judged.seen_fit hptr hx₁ hseen (hbounds hptr hx₁ hseen)).keep hr.valid he.types he.options
      he.heap (hr.valid.pts hx₁).2
  · intro known hold hsplit hrule f hf
    -- New are clones made on the way, and what the value that is defined points to.
    have hready : ∀ f, s₁.Holds f → known f := fun f hf =>
      hr.known (fun f hf => he.holds hf) rfl hold hsplit hf
    cases f with
    | object o => exact hready (.object o) hf
    | before st o x => exact hready (.before st o x) hf
    | after st o x => exact hready (.after st o x) hf
    | pts v o =>
      rcases (hp v o).mp hf with ⟨rfl, hnew⟩ | ho
      · exact hrule _ ((hinf o hnew).mono fun f hf => ⟨he.holds hf, hready f hf⟩)
      · exact hready (.pts v o) ho
  · intro huntyped m hm
    exact (hr.collapses huntyped m hm).imp_right fun hc => hc.keep he.types he.heap

theorem canonical_isSome {types : Hierarchy} {ty : Option TypeId} {t : TypeId}
    (ht : types.canonical ty = some t) : ty.isSome = true := by
  cases ty with
  | none => exact absurd ht (by simp [show types.canonical none = none from rfl])
  | some u => rfl

/-- Judging the objects of the statement's pointer. -/
theorem ready_refine (why : Prop) (hwf : g₀.WellFormed) (hloc : loc ∈ g₀.stmts.toList)
    (hn : g₀.stmt loc = .ok n) (hv : s.Valid g₀) (htyped : s.options.typed = true) {ptr : NodeId}
    (hptr : n.kind.pointer? = some ptr) :
    Delivers why (s.refine loc ptr n.ty (s.options.reuseAt n.kind) n.kind.isGep)
      fun r => Ready g₀ loc n s r.2 ∧ r.2.flow = s.flow := by
  refine (refine_spec hwf hv htyped hloc hn hptr (s.options.reuseAt n.kind) n.kind.isGep).mono ?_
  rintro ⟨b, s₁⟩ hr
  have huntyped : s.options.typed ≠ false := by rw [htyped]; decide
  have hflow : s₁.flow = s.flow := hr.flow
  refine ⟨⟨hr.valid, hr.evolves, ?_, ?_, ?_, ?_, fun h => absurd h huntyped⟩, hr.flow⟩
  · intro _ ptr' t hptr' hcan x hx
    obtain rfl := Option.some.inj (hptr.symm.trans hptr')
    rw [hr.evolves.types] at hcan
    rw [hr.evolves.options]
    exact hr.judged t hcan x hx
  · intro x hx
    rcases hr.rejected x hx with hx | ⟨t, hcan, hrej⟩
    · exact Or.inl hx
    · refine Or.inr (Or.inr ⟨ptr, t, hptr, ?_, ?_⟩)
      · rw [hr.evolves.types]; exact hcan
      · rw [hr.evolves.options]; exact hrej
  · exact fun _ hfit hx => hr.steady _ (hfit.2 htyped) hx
  · intro f hf
    cases f with
    | object o => exact Or.inr trivial
    | pts v x =>
      rcases hr.added hf with hx | ⟨rfl, t, -, y, hy, hproto⟩
      · exact Or.inl hx
      · exact Or.inr ⟨hptr, y, hy, hproto⟩
    | before st o x =>
      simp only [Holds, contentsBefore, hflow] at hf
      exact Or.inl hf
    | after st o x =>
      simp only [Holds, contentsAfter, hflow] at hf
      exact Or.inl hf

/-- Judging the objects of the statement's pointer where there are types. -/
theorem ready_refineIf (why : Prop) (hwf : g₀.WellFormed) (hloc : loc ∈ g₀.stmts.toList)
    (hn : g₀.stmt loc = .ok n) (hv : s.Valid g₀) {ptr : NodeId} (hptr : n.kind.pointer? = some ptr)
    (cond : Bool) (htyped : cond = true → s.options.typed = true)
    (hcond : s.options.typed = true → n.ty.isSome = true → cond = true) :
    Delivers why (if cond then s.refine loc ptr n.ty (s.options.reuseAt n.kind) n.kind.isGep
      else pure (false, s)) fun r => Ready g₀ loc n s r.2 ∧ r.2.flow = s.flow := by
  cases cond with
  | false =>
    refine ⟨Ready.refl hv fun ht _ _ _ hcan => ?_, rfl⟩
    exact absurd (hcond ht (canonical_isSome hcan)) (by decide)
  | true => exact ready_refine why hwf hloc hn hv (htyped rfl) hptr

end Contract

end PointsTo.Solver
