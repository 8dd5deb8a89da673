import PointsTo.Proofs.Transfer

/-! Projections keep the contract of transfer functions.

    A projection treats the objects of its pointer one after the other. On the way it makes field
    objects, collapses allocations and hides objects whose types have no such field; none of this
    takes back what arrived for the objects before. -/

namespace PointsTo

namespace Heap

variable {g₀ : Graph} {tys : TypeId → Prop} {h h' : Heap} {types : Hierarchy} {o : NodeId}
  {ob : ObjNode} {k : Nat} {objs : IdSet}

theorem opens_eq_false_iff (hs : ob.isSpecial = false) : h.opens types o ob k = false ↔
    (h.graph.mem ob.mem).fieldInsensitive = true ∨ (k = 0 ∧ h.isArrayAt types o ob = false) := by
  unfold opens
  cases (h.graph.mem ob.mem).fieldInsensitive <;> simp [hs]

theorem opens_eq_true_iff (hs : ob.isSpecial = false) : h.opens types o ob k = true ↔
    (h.graph.mem ob.mem).fieldInsensitive = false ∧ ¬ (k = 0 ∧ h.isArrayAt types o ob = false) := by
  rw [← Bool.not_eq_false, opens_eq_false_iff hs, not_or, Bool.not_eq_true]

/-- The only way to lose the fields of an allocation is to project beyond the field limit. -/
theorem Projected.collapses (hs : ob.isSpecial = false) (hp : Projected h types o ob k objs h')
    {m : MemId} (hm : (h'.graph.mem m).fieldInsensitive = true) :
    (h.graph.mem m).fieldInsensitive = true ∨ (ob.mem = m ∧ ∃ root slot,
      slotOf o ob.kind k = .ok (root, slot) ∧ h.fieldLimit ≤ slot ∧
        ¬ (k = 0 ∧ h.isArrayAt types o ob = false)) := by
  cases hp with
  | itself => exact Or.inl hm
  | found => exact Or.inl hm
  | made hopen hslot hlt hcell hadds =>
    rw [hadds.graph] at hm
    exact Or.inl hm
  | collapsed hopen hslot hlimit =>
    rw [Graph.mem_collapse] at hm
    split at hm
    case isTrue heq =>
      exact Or.inr ⟨heq.1.symm, _, _, hslot, hlimit, ((opens_eq_true_iff hs).mp hopen).2⟩
    case isFalse => exact Or.inl hm

/-- Where fields are lost an object stands for its own fields. -/
theorem Projected.itself_of_collapsed (hp : Projected h types o ob k objs h')
    (hfi : (h.graph.mem ob.mem).fieldInsensitive = true) : o ∈ objs := by
  have hclosed : h.opens types o ob k = false := by simp [opens, hfi]
  cases hp with
  | itself => exact IdSet.mem_ofList.mpr (List.mem_singleton.mpr rfl)
  | collapsed hopen | found hopen | made hopen =>
    rw [hclosed] at hopen
    cases hopen

end Heap

namespace Solver

variable {g₀ : Graph} {loc : NodeId} {n : StmtNode} {s s' : Solver} {offset : GepOffset}
  {o x : NodeId} {ob : ObjNode}

/-! ### What a projection leads to -/

theorem Leads.keep (htypes : s'.types = s.types) (hext : s.heap.Extends s'.heap)
    (hob : s.graph.obj o = .ok ob) (hl : Leads g₀ s offset o ob x) : Leads g₀ s' offset o ob x := by
  unfold Leads at hl ⊢
  split at hl
  case isTrue hs => rw [if_pos hs]; exact hl
  case isFalse hs =>
    rw [if_neg hs]
    cases offset with
    | variant => exact hl
    | field k =>
      simp only [htypes, Heap.isArrayAt_eq hext hob, hext.fieldLimit]
      rcases hl with ⟨hx, hfi | hzero⟩ | ⟨root, slot, ox, hslot, hlt, hfi, hopen, hox, hk⟩
      · exact Or.inl ⟨hx, Or.inl (hext.graph.collapsed hfi)⟩
      · exact Or.inl ⟨hx, Or.inr hzero⟩
      · exact Or.inr ⟨root, slot, ox, hslot, hlt, hfi, hopen, hext.graph.obj hox, hk⟩

theorem leads_of_projected {k : Nat} {h' : Heap} {objs : IdSet} (hv : s.Valid g₀)
    (hv' : h'.Valid g₀ (Accessed s.types g₀)) (hob : s.graph.obj o = .ok ob)
    (hs : ob.isSpecial = false) (hp : Heap.Projected s.heap s.types o ob k objs h') (hx : x ∈ objs) :
    Leads g₀ { s with heap := h' } (.field k) o ob x := by
  have hfi₀ : (s.graph.mem ob.mem).fieldInsensitive = false →
      (g₀.mem ob.mem).fieldInsensitive = false := by
    intro h
    by_contra h₀
    have hcol : (s.graph.mem ob.mem).fieldInsensitive = true :=
      hv.heap.grows.collapsed (by simpa using h₀)
    rw [hcol] at h
    exact absurd h (by decide)
  have hext := hp.extend
  unfold Leads
  rw [if_neg (by rw [hs]; decide)]
  simp only [Heap.isArrayAt_eq hext hob]
  cases hp with
  | itself hclosed =>
    rw [IdSet.mem_ofList, List.mem_singleton] at hx
    exact Or.inl ⟨hx, (Heap.opens_eq_false_iff hs).mp hclosed⟩
  | collapsed hopen hslot hlimit =>
    rw [IdSet.mem_ofList, List.mem_singleton] at hx
    refine Or.inl ⟨hx, Or.inl ?_⟩
    show ((s.graph.collapse ob.mem).mem ob.mem).fieldInsensitive = true
    rw [Graph.mem_collapse, if_pos ⟨rfl, hv.heap.mem hob⟩]
  | found hopen hslot hlt hcell =>
    obtain ⟨hfi, hnz⟩ := (Heap.opens_eq_true_iff hs).mp hopen
    rw [← IdGrid.setAt_of_cell? hcell, hv.heap.fields] at hx
    obtain ⟨ox, hox, hk⟩ := hx
    exact Or.inr ⟨_, _, ox, hslot, hlt, hfi₀ hfi, hnz, hox, hk⟩
  | made hopen hslot hlt hcell hadds =>
    obtain ⟨hfi, hnz⟩ := (Heap.opens_eq_true_iff hs).mp hopen
    rw [hv'.fields] at hx
    obtain ⟨ox, hox, hk⟩ := hx
    exact Or.inr ⟨_, _, ox, hslot, hadds.fieldLimit ▸ hlt, hfi₀ hfi, hnz, hox, hk⟩

theorem Arrives.mono {st : NodeId} {arrived arrived' : NodeId → Prop}
    (ha : Arrives g₀ s st offset o ob arrived) (hsub : ∀ x, arrived x → arrived' x) :
    Arrives g₀ s st offset o ob arrived' := by
  unfold Arrives Projects at ha ⊢
  split at ha
  case isTrue hs => rw [if_pos hs]; exact hsub _ ha
  case isFalse hs =>
    rw [if_neg hs]
    cases offset with
    | variant => exact ⟨hsub _ ha.1, ha.2⟩
    | field k =>
      refine ha.imp_right ?_
      rintro ⟨objs, hproj, hobjs⟩
      exact ⟨objs, hproj, fun x hx => ⟨hsub x (hobjs x hx).1, (hobjs x hx).2⟩⟩

/-! ### One object after the other -/

/-- What holds while the objects of a projection's pointer are treated. -/
structure Projecting (g₀ : Graph) (loc : NodeId) (n : StmtNode) (base : NodeId) (offset : GepOffset)
    (s₁ : Solver) (done : List NodeId) (acc : IdSet × Solver) : Prop where
  valid : acc.2.Valid g₀
  evolves : Evolves g₀ loc false s₁ acc.2
  pointers : acc.2.pointers = s₁.pointers
  flow : acc.2.flow = s₁.flow
  pending : acc.2.pending = s₁.pending
  seen : ∀ o ∈ done, o ∈ s₁.pts base
  objs : ∀ x ∈ acc.1, acc.2.graph.HasObj x
  arrived : ∀ o ∈ done, ∀ ob, acc.2.graph.obj o = .ok ob →
    acc.2.filters.isFiltered loc o = false → Arrives g₀ acc.2 loc offset o ob (· ∈ acc.1) ∧
      ∀ k, offset = .field k → (s₁.graph.mem ob.mem).fieldInsensitive = true → o ∈ acc.1
  leads : ∀ x ∈ acc.1, ∃ o ∈ done, ∃ ob, acc.2.filters.isFiltered loc o = false ∧
    acc.2.graph.obj o = .ok ob ∧ Leads g₀ acc.2 offset o ob x
  hides : ∀ x, acc.2.filters.isFiltered loc x = true →
    s₁.filters.isFiltered loc x = true ∨ acc.2.Beyond n x
  bounds : ∀ o ∈ done, acc.2.filters.isFiltered loc o = false → ¬ acc.2.Beyond n o
  collapses : ∀ m, (acc.2.graph.mem m).fieldInsensitive = true →
    (s₁.graph.mem m).fieldInsensitive = true ∨ Collapses s₁.Holds acc.2 n m

namespace Projecting

variable {base : NodeId} {s₁ : Solver} {done : List NodeId} {objs objs' : IdSet}

theorem init (hv : s₁.Valid g₀) : Projecting g₀ loc n base offset s₁ [] (∅, s₁) where
  valid := hv
  evolves := .refl g₀ loc s₁
  pointers := rfl
  flow := rfl
  pending := rfl
  seen _ ho := absurd ho List.not_mem_nil
  objs x hx := absurd hx (IdSet.not_mem_empty x)
  arrived _ ho := absurd ho List.not_mem_nil
  leads x hx := absurd hx (IdSet.not_mem_empty x)
  hides _ hx := Or.inl hx
  bounds _ ho := absurd ho List.not_mem_nil
  collapses _ hm := Or.inl hm

theorem mem_pts (hp : Projecting g₀ loc n base offset s₁ done (objs, s)) {v : NodeId} :
    x ∈ s.pts v ↔ x ∈ s₁.pts v := by
  rw [pts, pts, hp.pointers]

/-- One more object was treated. -/
theorem next (hp : Projecting g₀ loc n base offset s₁ done (objs, s)) (ho : o ∈ s₁.pts base)
    (hv' : s'.Valid g₀) (he : Evolves g₀ loc false s s') (hpointers : s'.pointers = s.pointers)
    (hflow : s'.flow = s.flow) (hpending : s'.pending = s.pending)
    (hproto : s'.heap.prototypes = s.heap.prototypes) (hold : ∀ x ∈ objs, x ∈ objs')
    (hnew : ∀ x ∈ objs', x ∈ objs ∨ (s'.graph.HasObj x ∧ s'.filters.isFiltered loc o = false ∧
      ∃ ob, s'.graph.obj o = .ok ob ∧ Leads g₀ s' offset o ob x))
    (hhide : ∀ x, s'.filters.isFiltered loc x = true →
      s.filters.isFiltered loc x = true ∨ s'.Beyond n x)
    (hbound : s'.filters.isFiltered loc o = false → ¬ s'.Beyond n o)
    (harr : ∀ ob, s'.graph.obj o = .ok ob → s'.filters.isFiltered loc o = false →
      Arrives g₀ s' loc offset o ob (· ∈ objs') ∧
        ∀ k, offset = .field k → (s₁.graph.mem ob.mem).fieldInsensitive = true → o ∈ objs')
    (hcol : ∀ m, (s'.graph.mem m).fieldInsensitive = true →
      (s.graph.mem m).fieldInsensitive = true ∨ Collapses s₁.Holds s' n m) :
    Projecting g₀ loc n base offset s₁ (done ++ [o]) (objs', s') := by
  have hobj : ∀ o' ∈ done, s.graph.HasObj o' := fun o' ho' =>
    (hp.valid.pts (hp.mem_pts.mpr (hp.seen o' ho'))).2
  have hbeyond : ∀ {x}, s.graph.HasObj x → (s'.Beyond n x ↔ s.Beyond n x) := fun hx =>
    beyond_iff he.types he.options he.heap hx
  have hback : ∀ {x}, s'.filters.isFiltered loc x = false → s.filters.isFiltered loc x = false :=
    fun {x} hfil => by
      by_contra h
      rw [he.filters (by simpa using h)] at hfil
      exact absurd hfil (by decide)
  refine ⟨hv', hp.evolves.trans he, hpointers.trans hp.pointers, hflow.trans hp.flow,
    hpending.trans hp.pending, ?seen, ?objs, ?arrived, ?leads, ?hides, ?bounds, ?collapses⟩
  case seen =>
    intro o' ho'
    rcases List.mem_append.mp ho' with ho' | ho'
    · exact hp.seen o' ho'
    · exact List.mem_singleton.mp ho' ▸ ho
  case objs =>
    exact fun y hy => (hnew y hy).elim (fun h => he.heap.graph.hasObj (hp.objs y h)) And.left
  case arrived =>
    intro o' ho' ob hob hfil
    rcases List.mem_append.mp ho' with ho' | ho'
    · -- What arrived before is still there: fields may be new, but no clones.
      obtain ⟨ob', hob'⟩ := hobj o' ho'
      obtain rfl := ok_unique hob (he.heap.graph.obj hob')
      have hfil' := hback hfil
      obtain ⟨harrives, hself⟩ := hp.arrived o' ho' ob hob' hfil'
      refine ⟨harrives.keep hp.valid hv' he.types he.heap hob' (fun hc => Or.inl (hproto ▸ hc))
        fun y hy => ⟨hold y hy, hp.objs y hy⟩, fun k hk hfi => hold _ (hself k hk hfi)⟩
    · rw [List.mem_singleton] at ho'
      subst ho'
      exact harr ob hob hfil
  case leads =>
    intro y hy
    rcases hnew y hy with hy | ⟨-, hfil, ob, hob, hl⟩
    · obtain ⟨o', ho', ob, hfil, hob, hl⟩ := hp.leads y hy
      refine ⟨o', List.mem_append_left _ ho', ob, ?_, he.heap.graph.obj hob,
        hl.keep he.types he.heap hob⟩
      -- Only an object without the field is hidden, and that was found out when it was treated.
      cases hfil' : s'.filters.isFiltered loc o' with
      | false => rfl
      | true =>
        rcases hhide o' hfil' with h | h
        · rw [hfil] at h
          cases h
        · exact absurd ((hbeyond (hobj o' ho')).mp h) (hp.bounds o' ho' hfil)
    · exact ⟨o, List.mem_append_right _ (List.mem_singleton.mpr rfl), ob, hfil, hob, hl⟩
  case hides =>
    intro x hx
    rcases hhide x hx with hx | hx
    · refine (hp.hides x hx).imp_right fun hb => (hbeyond ?_).mpr hb
      obtain ⟨-, -, v, -, -, hxv⟩ := hp.valid.filters hx
      exact (hp.valid.pts hxv).2
    · exact Or.inr hx
  case bounds =>
    intro o' ho' hfil hb
    rcases List.mem_append.mp ho' with ho' | ho'
    · exact hp.bounds o' ho' (hback hfil) ((hbeyond (hobj o' ho')).mp hb)
    · obtain rfl := List.mem_singleton.mp ho'
      exact hbound hfil hb
  case collapses =>
    intro m hm
    rcases hcol m hm with hm | hc
    · exact (hp.collapses m hm).imp_right fun hc => hc.keep he.types he.heap
    · exact Or.inr hc

/-- An object that is filtered adds nothing. -/
theorem filtered (hp : Projecting g₀ loc n base offset s₁ done (objs, s)) (ho : o ∈ s₁.pts base)
    (hfil : s.filters.isFiltered loc o = true) :
    Projecting g₀ loc n base offset s₁ (done ++ [o]) (objs, s) :=
  hp.next ho hp.valid (.refl g₀ loc s) rfl rfl rfl rfl (fun _ h => h) (fun _ h => Or.inl h)
    (fun _ h => Or.inl h) (fun h => absurd h (by rw [hfil]; decide))
    (fun _ _ h => absurd h (by rw [hfil]; decide)) fun _ h => Or.inl h

/-- Foreign memory stands for its own fields. -/
theorem foreign (hp : Projecting g₀ loc n base offset s₁ done (objs, s)) (ho : o ∈ s₁.pts base)
    (hfil : s.filters.isFiltered loc o = false) (hob : s.graph.obj o = .ok ob)
    (hs : ob.isSpecial = true) :
    Projecting g₀ loc n base offset s₁ (done ++ [o]) ((objs.insert o).2, s) := by
  refine hp.next ho hp.valid (.refl g₀ loc s) rfl rfl rfl rfl
    (fun _ h => IdSet.mem_insert.mpr (Or.inr h)) (fun y hy => ?_) (fun _ h => Or.inl h) (fun _ => ?_)
    (fun ob' hob' _ => ?_) fun _ h => Or.inl h
  · rcases IdSet.mem_insert.mp hy with rfl | hy
    · exact Or.inr ⟨⟨ob, hob⟩, hfil, ob, hob, by simp [Leads, hs]⟩
    · exact Or.inl hy
  · rintro ⟨_, _, _, ob', _, -, hob', hs', -⟩
    rw [ok_unique hob' hob, hs] at hs'
    cases hs'
  · obtain rfl := ok_unique hob hob'
    have hself : o ∈ (objs.insert o).2 := IdSet.mem_insert.mpr (Or.inl rfl)
    simp only [Arrives, hs, if_true]
    exact ⟨hself, fun _ _ _ => hself⟩

/-- A projection to an unknown place gives the whole object and collapses its allocation. -/
theorem variant (hp : Projecting g₀ loc n base .variant s₁ done (objs, s)) (ho : o ∈ s₁.pts base)
    (hfil : s.filters.isFiltered loc o = false) (hob : s.graph.obj o = .ok ob) (hs : ob.isSpecial = false) {dst : NodeId}
    (hk : n.kind = .gep base dst .variant) :
    Projecting g₀ loc n base .variant s₁ (done ++ [o])
      ((objs.insert (ob.wholeOf o)).2, { s with heap.graph := s.graph.collapse ob.mem }) := by
  have hext := Heap.extends_collapse s.heap ob.mem
  have hwhole : s.graph.HasObj (ob.wholeOf o) := by
    unfold ObjNode.wholeOf
    split
    case h_1 r k hkind =>
      obtain ⟨-, w, hw, -⟩ := hp.valid.heap.fieldOf hob hkind
      exact ⟨w, hw⟩
    case h_2 => exact ⟨ob, hob⟩
  refine hp.next ho (hp.valid.withHeap hext (hp.valid.heap.collapse _) (Or.inl rfl))
    (evolves_heap hext rfl) rfl rfl rfl rfl (fun _ h => IdSet.mem_insert.mpr (Or.inr h))
    (fun y hy => ?_) (fun _ h => Or.inl h) (fun _ => ?_) (fun ob' hob' _ => ?_) fun m hm => ?_
  · rcases IdSet.mem_insert.mp hy with rfl | hy
    · exact Or.inr ⟨hwhole, hfil, ob, hob, by simp [Leads, hs]⟩
    · exact Or.inl hy
  · rintro ⟨_, _, _, _, _, hk', -⟩
    rw [hk] at hk'
    cases hk'
  · obtain rfl := ok_unique hob' hob
    simp only [Arrives, hs, Bool.false_eq_true, if_false]
    exact ⟨⟨IdSet.mem_insert.mpr (Or.inl rfl), Graph.mem_collapse_self (hp.valid.heap.mem hob')⟩,
      fun _ h => by cases h⟩
  · rw [show (Solver.graph { s with heap.graph := s.graph.collapse ob.mem }) =
      s.graph.collapse ob.mem from rfl, Graph.mem_collapse] at hm
    split at hm
    case isTrue heq =>
      exact Or.inr ⟨base, dst, .variant, o, ob, hk, ho, hob, hs, heq.1.symm, trivial⟩
    case isFalse => exact Or.inl hm

/-- An object whose type has no such field is hidden. -/
theorem hidden (hp : Projecting g₀ loc n base offset s₁ done (objs, s)) (ho : o ∈ s₁.pts base)
    (htyped : s.options.typed = true) (hn : g₀.stmt loc = .ok n) (hptr : n.kind.pointer? = some base)
    (hbeyond : s.Beyond n o) :
    Projecting g₀ loc n base offset s₁ (done ++ [o]) (objs, s.hide loc o) := by
  have hhid : (s.hide loc o).filters.isFiltered loc o ≠ false := by
    rw [isFiltered_hide.mpr (Or.inl ⟨rfl, rfl⟩)]
    decide
  refine hp.next ho (hp.valid.hide htyped hn hptr (hp.mem_pts.mpr ho)) (evolves_hide o) rfl rfl rfl rfl
    (fun _ h => h) (fun _ h => Or.inl h) (fun x hx => ?_) (fun h => absurd h hhid)
    (fun _ _ h => absurd h hhid) fun _ h => Or.inl h
  rcases isFiltered_hide.mp hx with ⟨-, rfl⟩ | hx
  · exact Or.inr hbeyond
  · exact Or.inl hx

/-- A projection to a field gives what the heap finds, and is told of clones that join it later. -/
theorem field {k : Nat} (hp : Projecting g₀ loc n base (.field k) s₁ done (objs, s))
    (ho : o ∈ s₁.pts base) (hfil : s.filters.isFiltered loc o = false) (hbounds : ¬ s.Beyond n o)
    (hloc : loc ∈ g₀.stmts.toList) (hob : s.graph.obj o = .ok ob)
    (hs : ob.isSpecial = false) {dst : NodeId} (hk : n.kind = .gep base dst (.field k))
    {fields : IdSet} {h' : Heap} (hv' : h'.Valid g₀ (Accessed s.types g₀))
    (hproj : Heap.Projected s.heap s.types o ob k fields h') :
    Projecting g₀ loc n base (.field k) s₁ (done ++ [o]) ((objs.union fields).2,
      { s with heap := fields.toList.foldl (·.addRetriever · loc) h' }) := by
  obtain ⟨R, hR, hmem⟩ := Heap.foldl_addRetriever loc fields.toList h'
  rw [hR]
  have hext := hproj.extend
  have hextR : h'.Extends { h' with retrievers := R } :=
    { Heap.Extends.refl h' with retrievers := fun hst => hmem.mpr (Or.inr hst) }
  have hvR : Heap.Valid g₀ (Accessed s.types g₀) { h' with retrievers := R } :=
    hv'.withRetrievers fun hst => by
      rcases hmem.mp hst with ⟨rfl, -⟩ | hst
      · exact hloc
      · exact hv'.retrievers hst
  have hbeyond : Beyond { s with heap := { h' with retrievers := R } } n o ↔ s.Beyond n o :=
    beyond_iff rfl rfl (hext.trans hextR) ⟨ob, hob⟩
  refine hp.next ho (hp.valid.withHeap (hext.trans hextR) hvR (Or.inl hproj.prototypes))
    (evolves_heap (hext.trans hextR) hproj.prototypes) rfl rfl rfl hproj.prototypes
    (fun _ h => IdSet.mem_union.mpr (Or.inl h)) (fun y hy => ?_) (fun _ h => Or.inl h)
    (fun _ hb => hbounds (hbeyond.mp hb)) (fun ob' hob' _ => ?_) fun m hm => ?_
  · rcases IdSet.mem_union.mp hy with hy | hy
    · exact Or.inl hy
    · have hl := leads_of_projected hp.valid hv' hob hs hproj hy
      exact Or.inr ⟨hproj.hasObj hv' hob hy, hfil, ob, hext.graph.obj hob, hl⟩
  · obtain rfl := ok_unique hob' (hext.graph.obj hob)
    refine ⟨?_, fun _ _ hfi => IdSet.mem_union.mpr (Or.inr
      (hproj.itself_of_collapsed (hp.evolves.heap.graph.collapsed hfi)))⟩
    simp only [Arrives, hs, Bool.false_eq_true, if_false]
    rcases hproj.again hp.valid.heap hv' hob with ⟨hfi, hfi'⟩ | hagain
    · refine Or.inl ⟨?_, hfi'⟩
      by_contra h₀
      rw [hp.valid.heap.grows.collapsed (by simpa using h₀)] at hfi
      exact absurd hfi (by decide)
    · obtain ⟨fields', hproj', hsame⟩ := Heap.project_stable hv' hvR hextR (hext.graph.obj hob) rfl hagain
        fun _ _ _ _ _ _ _ _ hc => hc
      refine Or.inr ⟨fields', hproj', fun y hy => ?_⟩
      have hy' := (hsame y).mp hy
      exact ⟨IdSet.mem_union.mpr (Or.inr hy'),
        hmem.mpr (Or.inl ⟨rfl, y, IdSet.mem_toList.mpr hy', rfl⟩)⟩
  · refine (hproj.collapses hs hm).imp_right ?_
    rintro ⟨hobm, root, slot, hslot, hlimit, hnz⟩
    refine ⟨base, dst, .field k, o, ob, hk, ho, hext.graph.obj hob, hs, hobm, root, slot,
      hslot, ?_, ?_⟩
    · rw [← hext.fieldLimit] at hlimit
      exact hlimit
    · rw [← Heap.isArrayAt_eq (hext.trans hextR) hob] at hnz
      exact hnz

end Projecting

theorem projectObject_spec {base dst : NodeId} {s₁ : Solver} {done : List NodeId} {acc : IdSet × Solver}
    (hloc : loc ∈ g₀.stmts.toList) (hn : g₀.stmt loc = .ok n) (hk : n.kind = .gep base dst offset)
    (hv₁ : s₁.Valid g₀) (ho : o ∈ s₁.pts base) (hp : Projecting g₀ loc n base offset s₁ done acc) :
    Delivers (Overflows s₁ n) (projectObject loc offset acc o)
      (Projecting g₀ loc n base offset s₁ (done ++ [o])) := by
  obtain ⟨objs, s⟩ := acc
  obtain ⟨ob, hob⟩ := (hp.valid.pts (hp.mem_pts.mpr ho)).2
  simp only [projectObject, hob, ok_bind]
  cases hfil : s.options.typed && s.filters.isFiltered loc o with
  | true => exact hp.filtered ho (Bool.and_eq_true_iff.mp hfil).2
  | false =>
    have hseen : s.filters.isFiltered loc o = false := by
      cases h : s.filters.isFiltered loc o with
      | false => rfl
      | true =>
        rw [h, (hp.valid.filters h).1] at hfil
        cases hfil
    cases hs : ob.isSpecial with
    | true => exact hp.foreign ho hseen hob hs
    | false =>
      cases offset with
      | variant => exact hp.variant ho hseen hob hs hk
      | field k =>
        obtain ⟨ty, hty⟩ := hp.valid.heap.typed ⟨ob, hob⟩
        have htypeOf : s.heap.typeOf o = .ok ty := by simp [Heap.typeOf, hty]
        simp only [Bool.false_eq_true, if_false, htypeOf, ok_bind]
        cases hbeyond : s.isBeyondFields ob ty k with
        | true =>
          have htyped : s.options.typed = true := by
            simp only [isBeyondFields, Bool.and_eq_true] at hbeyond
            exact hbeyond.1.1.1.1
          exact hp.hidden ho htyped hn (by rw [hk]; rfl) ⟨base, dst, k, ob, ty, hk, hob, hs, hty, hbeyond⟩
        | false =>
          have hbounds : ¬ s.Beyond n o := by
            rintro ⟨_, _, k', ob', ty', hk', hob', -, hty', hb⟩
            obtain rfl := ok_unique hob hob'
            obtain rfl := Option.some.inj (hty.symm.trans hty')
            obtain ⟨-, -, hk'⟩ := StmtKind.gep.inj (hk.symm.trans hk')
            obtain rfl := GepOffset.field.inj hk'
            rw [hbeyond] at hb
            cases hb
          refine ((Heap.project_spec hp.valid.heap hob).because ?_).bind ?_
          · rintro ⟨hopen, r, j, hkind, hge⟩
            have hfi := Heap.not_fieldInsensitive_of_opens hopen
            exact Overflows.back ⟨base, dst, k, o, ob, r, j, hk, hp.mem_pts.mpr ho, hob, hfi, hkind, hge⟩
              hv₁ hp.evolves.heap fun hx hobx => ⟨_, hp.mem_pts.mp hx, hobx⟩
          rintro ⟨fields, h'⟩ ⟨hv', hproj⟩
          exact hp.field ho hseen hbounds hloc hob hs hk hv' hproj

/-- What overflows after the preparations overflowed before them: a clone is a node like its prototype. -/
theorem Ready.overflows {s₁ : Solver} (hr : Ready g₀ loc n s s₁) (hv : s.Valid g₀)
    (ho : Overflows s₁ n) : Overflows s n := by
  refine ho.back hv hr.evolves.heap fun {v o ob} ho hob => ?_
  rcases hr.inferred (.pts v o) ho with ho | ⟨-, x, hx, hproto⟩
  · exact ⟨o, ho, hob⟩
  · obtain ⟨ox, hox⟩ := (hv.pts hx).2
    have hox' := hr.evolves.heap.graph.obj hox
    obtain ⟨-, o', hob', hp⟩ := hr.valid.heap.clone hproto
    obtain rfl := ok_unique hob hob'
    obtain rfl := ok_unique hp (hr.valid.heap.prototype hox').1
    exact ⟨x, hx, hox'⟩

/-- A projection is ready to pass on what it collected. -/
theorem Projecting.ready {base dst : NodeId} {s₁ s₂ : Solver} {objs : IdSet}
    (hr : Ready g₀ loc n s s₁) (hk : n.kind = .gep base dst offset) {done : List NodeId}
    (hp : Projecting g₀ loc n base offset s₁ done (objs, s₂)) : Ready g₀ loc n s s₂ where
  valid := hp.valid
  evolves := hr.evolves.trans hp.evolves
  judged := by
    intro htyped ptr t hptr hcan x hx
    rw [hp.evolves.options] at htyped ⊢
    rw [hp.evolves.types] at hcan
    exact (hr.judged htyped ptr t hptr hcan x (hp.mem_pts.mp hx)).keep hr.valid hp.evolves
  explained _ _ := Or.inr (Or.inl (by rw [hk]; rfl))
  steady := by
    intro x hx hfit hfil
    rcases hp.hides x hfil with hfil | hb
    · exact hr.steady hx hfit hfil
    · have he := hr.evolves.trans hp.evolves
      exact absurd ((beyond_iff he.types he.options he.heap hx).mp hb) hfit.1
  inferred := by
    intro f hf
    have hflow : s₂.flow = s₁.flow := hp.flow
    cases f with
    | object o => exact Or.inr trivial
    | pts v o =>
      refine (hr.inferred (.pts v o) (hp.mem_pts.mp hf)).imp_right ?_
      rintro ⟨hptr, x, hx, hproto⟩
      have hox := (hr.valid.pts (hr.evolves.pts hx)).2
      obtain ⟨-, o', ho', -⟩ := hr.valid.heap.clone hproto
      refine ⟨hptr, x, hx, ?_⟩
      rw [hp.evolves.heap.prototypes ⟨o', ho'⟩, hp.evolves.heap.prototype hox]
      exact hproto
    | before st o x =>
      simp only [Holds, contentsBefore, hflow] at hf
      exact hr.inferred _ hf
    | after st o x =>
      simp only [Holds, contentsAfter, hflow] at hf
      exact hr.inferred _ hf
  collapses := by
    intro huntyped m hm
    rcases hp.collapses m hm with hm | hc
    · exact (hr.collapses huntyped m hm).imp_right fun hc =>
        hc.keep hp.evolves.types hp.evolves.heap
    · exact Or.inr (hc.mono fun v o => hr.pts_of_untyped huntyped)

theorem visitGep_spec (hwf : g₀.WellFormed) (hloc : loc ∈ g₀.stmts.toList)
    (hn : g₀.stmt loc = .ok n) (hv : s.Valid g₀) {base dst : NodeId}
    (hk : n.kind = .gep base dst offset) :
    Delivers (Overflows s n) (s.visitGep loc base dst offset n.ty) (Visited g₀ loc n s) := by
  have hptr : n.kind.pointer? = some base := by rw [hk]; rfl
  have htarget : n.kind.target? = some dst := by rw [hk]; rfl
  have hrefine := ready_refineIf (Overflows s n) hwf hloc hn hv hptr (s.options.typed && n.ty.isSome)
    (fun h => (Bool.and_eq_true_iff.mp h).1) fun h h' => Bool.and_eq_true_iff.mpr ⟨h, h'⟩
  rw [hk] at hrefine
  refine hrefine.ite_bind ?_
  rintro ⟨b, s₁⟩ ⟨hr, -⟩
  refine Delivers.bind (P := Projecting g₀ loc n base offset s₁ (s₁.pts base).toList)
    ((Delivers.foldlM (Projecting.init hr.valid) fun done o rest acc hsplit hp =>
      projectObject_spec hloc hn hk hr.valid (IdSet.mem_toList.mp (by rw [hsplit]; simp)) hp).because
        (hr.overflows hv)) ?_
  rintro ⟨objs, s₂⟩ hp
  have hr₂ := hp.ready hr hk
  have hpts : ∀ w o, o ∈ (s₂.point dst objs).2.pts w ↔ (w = dst ∧ o ∈ objs) ∨ o ∈ s₂.pts w :=
    fun w o => mem_pts_point
  refine Delivers.ok (hr₂.point hwf hloc hn htarget hpts point_fst hp.objs ?_ ?_ ?_)
  · intro hsame
    have harr : ∀ o ob, Sees (s₂.point dst objs).2 loc base o → s₂.graph.obj o = .ok ob → _ :=
      fun o ob ho hob => hp.arrived o (IdSet.mem_toList.mpr (hp.mem_pts.mp
        ((hsame base (by simp [hk, StmtKind.uses]) o).mp ho.1))) ob hob ho.2
    refine ⟨?_, fun m hm => ?_⟩
    · simp only [Constraint, hk]
      intro o ob ho hob
      exact (harr o ob ho hob).1.mono fun x hx => (hpts dst x).mpr (Or.inl ⟨rfl, hx⟩)
    · unfold Merges
      cases offset with
      | variant => simp only [hk]
      | field k =>
        simp only [hk]
        rintro o ho ⟨ob, hob, rfl⟩
        have hself := (harr o ob ho hob).2 k rfl (hr.evolves.heap.graph.collapsed hm)
        exact (hpts dst o).mpr (Or.inl ⟨rfl, hself⟩)
  · intro ptr x hptr' hx hseen
    obtain rfl := Option.some.inj (hptr.symm.trans hptr')
    exact hp.bounds x (IdSet.mem_toList.mpr (hp.mem_pts.mp hx)) hseen
  · intro x hx
    obtain ⟨o, ho, ob, hfil, hob, hl⟩ := hp.leads x hx
    have hobase : o ∈ s₂.pts base := hp.mem_pts.mpr (hp.seen o ho)
    have hfit : s₂.Fit n o := hr₂.judged.seen_fit hptr hobase hfil (hp.bounds o ho hfil)
    simp only [Infers, hk, StmtKind.target?, true_and]
    exact ⟨o, ob, hobase, ⟨(hpts base o).mpr (Or.inr hobase), hfil⟩, hfit, hob, hl⟩

end Solver

end PointsTo
