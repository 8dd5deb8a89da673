import PointsTo.Proofs.Evolution

/-! How the objects of a pointer are judged at a typed access.

    An object is kept by the rules of `verdict`, and it is filtered for one of the reasons in
    `Rejected`; both outlast the visit, because the types of objects never change and field
    sensitivity is never regained. After a visit every object of its pointer was judged, the clones
    among them, and what was kept once is never filtered. -/

namespace PointsTo.Solver

/-- Is an object of the first type seen by pointers to the second? -/
def views? (s : Solver) (a b : Option TypeId) : Bool := s.types.isBase a b s.options.firstField

/-- An access of type `t` keeps an object. -/
def Kept (s : Solver) (t : TypeId) (reuse gep : Bool) (x : NodeId) : Prop :=
  ∃ o ty, s.graph.obj x = .ok o ∧ s.heap.types[x]? = some ty ∧ s.verdict o ty t reuse gep = .ok .keep

/-- Why an access of type `t` may filter an object: its type is neither `t` nor more special than
    `t`, and either a clone of type `t` is seen in its place, or the object is of a type that has
    nothing to do with `t` and must not be used at another one. -/
def Rejected (s : Solver) (t : TypeId) (reuse : Bool) (seen : NodeId → Prop) (x : NodeId) : Prop :=
  ∃ ty, s.heap.types[x]? = some ty ∧ ty ≠ some t ∧
    (s.views? (some t) ty = true → s.views? ty (some t) = true) ∧
    ((∃ c, seen c ∧ s.heap.prototypes[c]? = some (s.heap.prototype x) ∧
        s.heap.types[c]? = some (some t)) ∨
      (reuse = false ∧ ty.isSome = true ∧ s.views? ty (some t) = false ∧
        s.views? (some t) ty = false))

/-- Is the object foreign memory? -/
def IsForeign (s : Solver) (x : NodeId) : Prop := ∃ o, s.graph.obj x = .ok o ∧ o.isSpecial = true

section Persistence

variable {g₀ : Graph} {loc : NodeId} {dirty : Bool} {s s' : Solver} {t : TypeId}

theorem views?_eq (htypes : s'.types = s.types) (hopts : s'.options = s.options)
    (a b : Option TypeId) : s'.views? a b = s.views? a b := by
  simp only [views?, htypes, hopts]

theorem IsForeign.keep {x : NodeId} (hext : s.heap.Extends s'.heap) (hx : s.IsForeign x) :
    s'.IsForeign x := by
  obtain ⟨o, ho, hs⟩ := hx
  exact ⟨o, hext.graph.obj ho, hs⟩

theorem Rejected.keep {reuse : Bool} {seen seen' : NodeId → Prop} {x : NodeId}
    (htypes : s'.types = s.types) (hopts : s'.options = s.options)
    (hext : s.heap.Extends s'.heap) (hx : s.graph.HasObj x)
    (hseen : ∀ c, seen c → seen' c ∧ s.graph.HasObj c) (hr : s.Rejected t reuse seen x) :
    s'.Rejected t reuse seen' x := by
  obtain ⟨ty, hty, hne, hbase, hwhy⟩ := hr
  refine ⟨ty, (hext.types hx).trans hty, hne, ?_, ?_⟩
  · rw [views?_eq htypes hopts, views?_eq htypes hopts]
    exact hbase
  · rcases hwhy with ⟨c, hc, hproto, hcty⟩ | ⟨hreuse, hsome, hb, hb'⟩
    · obtain ⟨hc', hcobj⟩ := hseen c hc
      refine Or.inl ⟨c, hc', ?_, (hext.types hcobj).trans hcty⟩
      rw [hext.prototypes hcobj, hext.prototype hx, hproto]
    · refine Or.inr ⟨hreuse, hsome, ?_, ?_⟩
      · rw [views?_eq htypes hopts]; exact hb
      · rw [views?_eq htypes hopts]; exact hb'

end Persistence

/-! ### Verdicts -/

theorem isBase_refl (h : Hierarchy) (a : Option TypeId) (ext : Bool) : h.isBase a a ext = true := by
  unfold Hierarchy.isBase
  cases h.canonical a with
  | none => rfl
  | some c => simp

/-- Undefined types are related in both directions or in none. -/
theorem isBase_none_comm (h : Hierarchy) (a : Option TypeId) (ext : Bool) :
    h.isBase a none ext = h.isBase none a ext := by
  have hnone : h.canonical none = none := rfl
  unfold Hierarchy.isBase
  rw [hnone]
  cases h.canonical a <;> rfl

section Verdict

variable {g₀ : Graph} {s : Solver} {x : NodeId} {o : ObjNode} {ty : Option TypeId} {t : TypeId}
  {reuse gep : Bool}

theorem nestsInObject_ok (hv : s.Valid g₀) (ho : s.graph.obj x = .ok o) (ty : Option TypeId)
    (t : TypeId) :
    ∃ b, s.nestsInObject o ty t = .ok b := by
  unfold nestsInObject
  split
  · exact ⟨true, rfl⟩
  · cases hk : o.kind with
    | field r k =>
      obtain ⟨-, w, hw, -, -⟩ := hv.heap.fieldOf ho hk
      obtain ⟨rty, hrty⟩ := hv.heap.typed ⟨w, hw⟩
      have hroot : s.heap.typeOf r = .ok rty := by simp [Heap.typeOf, hrty]
      exact ⟨_, by simp only [hroot, ok_bind]; rfl⟩
    | base | dummy | special _ => exact ⟨false, rfl⟩

/-- The reasons behind each verdict. -/
def VerdictReason (s : Solver) (o : ObjNode) (ty : Option TypeId) (t : TypeId) (reuse gep : Bool) :
    Verdict → Prop
  | .keep => s.views? (some t) ty = true ∨
      ((s.graph.mem o.mem).fieldInsensitive = true ∧ t ∈ s.types.fieldTypes ty) ∨ gep = true
  | .clone => ty ≠ some t ∧ (s.views? (some t) ty = true → s.views? ty (some t) = true)
  | .hide => reuse = false ∧ ty.isSome = true ∧ s.views? ty (some t) = false ∧
      s.views? (some t) ty = false

/-- The verdict by the rules that compare types, the last ones to be asked. -/
def verdictByType (s : Solver) (o : ObjNode) (ty : Option TypeId) (t : TypeId) (reuse : Bool) :
    Verdict :=
  if ty = none then .clone
  else if ty ≠ some t && s.views? ty (some t) && (!reuse || !o.isField) then .clone
  else if s.views? (some t) ty then .keep
  else if reuse && ty ≠ some t then .clone
  else .hide

theorem verdict_eq (s : Solver) (o : ObjNode) (ty : Option TypeId) (t : TypeId) (reuse gep : Bool) :
    s.verdict o ty t reuse gep =
      if (s.graph.mem o.mem).fieldInsensitive && (s.types.fieldTypes ty).contains t then .ok .keep
      else (if gep then s.nestsInObject o ty t else .ok false) >>= fun nests =>
        .ok (if nests then .keep else s.verdictByType o ty t reuse) := by
  have hlast : .ok (s.verdictByType o ty t reuse) = (if ty = none then (.ok .clone : Except Fault _)
      else if ty ≠ some t && s.views? ty (some t) && (!reuse || !o.isField) then .ok .clone
      else if s.views? (some t) ty then .ok .keep
      else if reuse && ty ≠ some t then .ok .clone
      else .ok .hide) := by
    unfold verdictByType
    simp only [apply_ite Except.ok]
  cases gep with
  | false =>
    simp only [Bool.false_eq_true, if_false, ok_bind, hlast]
    rfl
  | true =>
    simp only [if_true, apply_ite Except.ok, hlast]
    rfl

theorem verdictByType_reason (s : Solver) (o : ObjNode) (ty : Option TypeId) (t : TypeId)
    (reuse gep : Bool) : s.VerdictReason o ty t reuse gep (s.verdictByType o ty t reuse) := by
  unfold verdictByType
  split
  case isTrue hnone =>
    subst hnone
    refine ⟨by simp, fun hb => ?_⟩
    rw [views?, ← isBase_none_comm]
    exact hb
  case isFalse hnone =>
  split
  case isTrue hspecial =>
    simp only [Bool.and_eq_true, decide_eq_true_eq] at hspecial
    exact ⟨hspecial.1.1, fun _ => hspecial.1.2⟩
  case isFalse hspecial =>
  split
  case isTrue hviews => exact Or.inl hviews
  case isFalse hviews =>
  have hne : ty ≠ some t := by
    rintro rfl
    exact hviews (isBase_refl _ _ _)
  split
  case isTrue => exact ⟨hne, fun hb => absurd hb hviews⟩
  case isFalse hreuse =>
    have hreuse : reuse = false := by simpa [hne] using hreuse
    refine ⟨hreuse, Option.isSome_iff_ne_none.mpr hnone, ?_, by simpa using hviews⟩
    simpa [hreuse, hne] using hspecial

theorem verdict_ok (hv : s.Valid g₀) (ho : s.graph.obj x = .ok o) (ty : Option TypeId)
    (t : TypeId) (reuse gep : Bool) : ∃ v, s.verdict o ty t reuse gep = .ok v := by
  obtain ⟨nests, hnests⟩ := nestsInObject_ok hv ho ty t
  rw [verdict_eq]
  split
  · exact ⟨.keep, rfl⟩
  · cases gep with
    | false => exact ⟨_, rfl⟩
    | true =>
      rw [if_pos rfl, hnests]
      exact ⟨_, rfl⟩

theorem verdict_reason {v : Verdict} (h : s.verdict o ty t reuse gep = .ok v) :
    s.VerdictReason o ty t reuse gep v := by
  rw [verdict_eq] at h
  split at h
  case isTrue hcovers =>
    obtain rfl := Except.ok.inj h
    simp only [Bool.and_eq_true, List.contains_iff_mem] at hcovers
    exact Or.inr (Or.inl hcovers)
  case isFalse =>
    obtain ⟨nests, hnests, h⟩ := bind_eq_ok.mp h
    obtain rfl := Except.ok.inj h
    cases nests with
    | false => exact verdictByType_reason s o ty t reuse gep
    | true =>
      -- Only a projection asks for nested types.
      cases gep with
      | false => cases hnests
      | true => exact Or.inr (Or.inr rfl)

theorem verdict_spec (hv : s.Valid g₀) (ho : s.graph.obj x = .ok o) (ty : Option TypeId)
    (t : TypeId) (reuse gep : Bool) :
    ∃ v, s.verdict o ty t reuse gep = .ok v ∧ s.VerdictReason o ty t reuse gep v := by
  obtain ⟨v, hverdict⟩ := verdict_ok hv ho ty t reuse gep
  exact ⟨v, hverdict, verdict_reason hverdict⟩

/-- An object that the verdict does not keep is neither foreign memory nor kept. -/
theorem not_fit_of_verdict {v : Verdict} (ho : s.graph.obj x = .ok o) (hs : o.isSpecial = false)
    (hty : s.heap.types[x]? = some ty) (hverdict : s.verdict o ty t reuse gep = .ok v)
    (hv : v ≠ .keep) : ¬ (s.IsForeign x ∨ s.Kept t reuse gep x) := by
  rintro (⟨o', ho', hs'⟩ | ⟨o', ty', ho', hty', hkeep⟩) <;> obtain rfl := ok_unique ho ho'
  · rw [hs] at hs'
    cases hs'
  · obtain rfl := Option.some.inj (hty.symm.trans hty')
    exact hv (ok_unique hverdict hkeep)

/-- An object of the accessed type is kept. -/
theorem kept_of_type (hv : s.Valid g₀) (ho : s.graph.obj x = .ok o)
    (hty : s.heap.types[x]? = some (some t)) : s.Kept t reuse gep x := by
  obtain ⟨v, hverdict, hwhy⟩ := verdict_spec hv ho (some t) t reuse gep
  cases v with
  | keep => exact ⟨o, some t, ho, hty, hverdict⟩
  | clone => exact absurd rfl hwhy.1
  | hide =>
    have hviews := hwhy.2.2.1
    rw [views?, isBase_refl] at hviews
    cases hviews

end Verdict

section Lasting

variable {g₀ : Graph} {loc : NodeId} {s s' : Solver} {x : NodeId} {t : TypeId} {reuse gep : Bool}

theorem nestsInObject_eq (hv : s.Valid g₀) (htypes : s'.types = s.types)
    (hext : s.heap.Extends s'.heap) {o : ObjNode} (ho : s.graph.obj x = .ok o) (ty : Option TypeId) :
    s'.nestsInObject o ty t = s.nestsInObject o ty t := by
  have hnests : ∀ ty, s'.nestsIn t ty = s.nestsIn t ty := fun ty => by simp only [nestsIn, htypes]
  unfold nestsInObject
  cases hk : o.kind with
  | field r k =>
    obtain ⟨-, w, hw, -, -⟩ := hv.heap.fieldOf ho hk
    simp only [hnests, Heap.typeOf, hext.types ⟨w, hw⟩]
  | base | dummy | special _ => simp only [hnests]

/-- What an access keeps it keeps in every later state: an object that loses its fields can only be
    kept for one more reason. -/
theorem Kept.keep (hv : s.Valid g₀) (htypes : s'.types = s.types) (hopts : s'.options = s.options)
    (hext : s.heap.Extends s'.heap) (hk : s.Kept t reuse gep x) : s'.Kept t reuse gep x := by
  obtain ⟨o, ty, ho, hty, hverdict⟩ := hk
  refine ⟨o, ty, hext.graph.obj ho, (hext.types ⟨o, ho⟩).trans hty, ?_⟩
  unfold verdict at hverdict ⊢
  simp only [htypes, hopts, nestsInObject_eq hv htypes hext ho]
  split
  case isTrue => rfl
  case isFalse hopen =>
    rwa [if_neg fun h => hopen ?_] at hverdict
    rw [Bool.and_eq_true] at h ⊢
    exact ⟨hext.graph.collapsed h.1, h.2⟩

/-- Was the object judged at the statement? -/
def Judged (s : Solver) (loc : NodeId) (t : TypeId) (reuse gep : Bool) (x : NodeId) : Prop :=
  s.IsForeign x ∨ s.filters.isFiltered loc x = true ∨ s.Kept t reuse gep x

theorem Judged.keep (hv : s.Valid g₀) {dirty : Bool} (he : Evolves g₀ loc dirty s s') {st : NodeId}
    (hj : s.Judged st t reuse gep x) : s'.Judged st t reuse gep x := by
  rcases hj with hf | hf | hk
  · exact Or.inl (hf.keep he.heap)
  · exact Or.inr (Or.inl (he.filters hf))
  · exact Or.inr (Or.inr (hk.keep hv he.types he.options he.heap))

end Lasting

/-! ### Replacing an object -/

section Replace

variable {g₀ : Graph} {loc : NodeId} {s : Solver}

/-- A clone that is asked for, and announced if it was made. -/
theorem evolves_cloned (hv : s.Valid g₀) {h' : Heap} {x c : NodeId} {o : ObjNode} {t : TypeId}
    {woken : List NodeId} (ho : s.graph.obj x = .ok o) (hc : Heap.Cloned s.heap h' x o t c woken) :
    Evolves g₀ loc false s (Solver.enqueue { s with heap := h' } woken) := by
  rcases hc.made with ⟨rfl, rfl⟩ | ⟨hadds, -, rfl⟩
  · exact Evolves.refl g₀ loc s
  · exact
    { Evolves.refl g₀ loc s with
      heap := hadds.extend
      pending := fun h => Worklist.mem_pushAll.mpr (Or.inr h)
      ptsNew := Or.inl
      beforeNew := Or.inl
      clones := by
        intro c p hcp
        rcases hadds.clone_cases hv.heap hcp with hold | ⟨-, hp⟩
        · exact Or.inl hold
        · right
          injection hp with hp
          intro o' ho' st hst
          have hsame := (hv.heap.prototype ho).1
          rw [← hp] at ho' hst
          rw [show s.graph.obj _ = _ from hsame] at ho'
          injection ho' with ho'
          exact Worklist.mem_pushAll.mpr (Or.inl (ho' ▸ hst))
      paid := Or.inr ⟨.object s.graph.nodes.size, hadds.hasObj_new, hv.heap.not_hasObj_size⟩
      dirtyPaid := fun h => absurd h (by decide) }

theorem announced_mem_stmts (hv : s.Valid g₀) {p : NodeId} {kind : ObjKind} {st : NodeId}
    (hst : st ∈ s.heap.announced p kind) : st ∈ g₀.stmts.toList := by
  unfold Heap.announced at hst
  split at hst
  · exact hv.heap.retrievers (IdSet.mem_sorted.mp hst)
  · exact (hv.heap.sites (Option.mem_toList.mp hst)).2

theorem Valid.cloned (hv : s.Valid g₀) (htyped : s.options.typed = true) {h' : Heap} {x c : NodeId}
    {o : ObjNode} {t : TypeId} {woken : List NodeId} (hv' : h'.Valid g₀ (Accessed s.types g₀))
    (hc : Heap.Cloned s.heap h' x o t c woken) :
    Valid g₀ (Solver.enqueue { s with heap := h' } woken) := by
  rcases hc.made with ⟨rfl, rfl⟩ | ⟨hadds, -, rfl⟩
  · exact hv
  · exact (hv.withHeap hadds.extend hv' (Or.inr htyped)).enqueue fun _ => announced_mem_stmts hv

/-- Replacing an object by its clone at another type hides it. -/
theorem replace_spec (hv : s.Valid g₀) (htyped : s.options.typed = true) {n : StmtNode}
    {ptr x : NodeId} {o : ObjNode} {ty : Option TypeId} {t : TypeId} (hn : g₀.stmt loc = .ok n)
    (hptr : n.kind.pointer? = some ptr) (hx : x ∈ s.pts ptr) (ho : s.graph.obj x = .ok o)
    (hs : o.isSpecial = false) (hacc : Accessed s.types g₀ t) (hty : s.heap.types[x]? = some ty)
    (hne : ty ≠ some t) (objs : IdSet) :
    ∃ c s', s.replace loc x t objs = .ok ((objs.insert c).2, s') ∧ s'.Valid g₀ ∧
      Evolves g₀ loc false s s' ∧ s'.pointers = s.pointers ∧ s'.flow = s.flow ∧
      (∀ y, s'.filters.isFiltered loc y = true ↔ y = x ∨ s.filters.isFiltered loc y = true) ∧
      s'.heap.prototypes[c]? = some (s'.heap.prototype x) ∧ s'.heap.types[c]? = some (some t) := by
  obtain ⟨c, woken, h', hclone, hv', hc⟩ := Heap.cloneAs_spec hv.heap ho hs hacc
  have he : Evolves g₀ loc false s _ := evolves_cloned hv ho hc
  have hcx : c ≠ x := by
    rintro rfl
    have hcty : h'.types[c]? = some ty := (he.heap.types ⟨o, ho⟩).trans hty
    rw [hc.types] at hcty
    injection hcty with hcty
    exact hne hcty.symm
  have hvc := hv.cloned htyped hv' hc
  refine ⟨c, (Solver.enqueue { s with heap := h' } woken).hide loc x, ?_,
    hvc.hide htyped hn hptr hx, he.trans (evolves_hide x), rfl, rfl, ?_, ?_, hc.types⟩
  · unfold replace
    simp only [hclone, ok_bind, if_neg hcx]
    rfl
  · intro y
    rw [isFiltered_hide]
    simp only [true_and]
    rfl
  · have hproto : h'.prototype x = s.heap.prototype x := he.heap.prototype ⟨o, ho⟩
    exact hc.prototypes.trans (congrArg some hproto.symm)

end Replace

/-! ### Judging all objects -/

section Refine

variable {why : Prop} {g₀ : Graph} {loc ptr : NodeId} {t : TypeId} {reuse gep : Bool}

/-- The object is a clone, made for the accessed type, of what a pointer points to. -/
def Replaces (s : Solver) (t : TypeId) (seen : NodeId → Prop) (c : NodeId) : Prop :=
  s.heap.types[c]? = some (some t) ∧ ∃ x, seen x ∧ s.heap.prototypes[c]? = some (s.heap.prototype x)

/-- What holds while the objects of a pointer are judged one after the other. -/
structure Judging (g₀ : Graph) (loc ptr : NodeId) (t : TypeId) (reuse gep : Bool) (s₀ : Solver)
    (done : List NodeId) (acc : IdSet × Solver) : Prop where
  start : s₀.Valid g₀
  valid : acc.2.Valid g₀
  evolves : Evolves g₀ loc false s₀ acc.2
  pointers : acc.2.pointers = s₀.pointers
  flow : acc.2.flow = s₀.flow
  old : ∀ x ∈ s₀.pts ptr, x ∈ acc.1
  added : ∀ x ∈ acc.1, x ∈ s₀.pts ptr ∨ acc.2.Replaces t (· ∈ s₀.pts ptr) x
  judged : ∀ x ∈ done, acc.2.Judged loc t reuse gep x
  rejected : ∀ x, acc.2.filters.isFiltered loc x = true →
    s₀.filters.isFiltered loc x = true ∨ acc.2.Rejected t reuse (· ∈ acc.1) x
  steady : ∀ x, s₀.IsForeign x ∨ s₀.Kept t reuse gep x → acc.2.filters.isFiltered loc x = true →
    s₀.filters.isFiltered loc x = true

namespace Judging

variable {s₀ : Solver} {done : List NodeId} {objs objs' : IdSet} {s s' : Solver}

theorem init (hv : s₀.Valid g₀) : Judging g₀ loc ptr t reuse gep s₀ [] (s₀.pts ptr, s₀) where
  start := hv
  valid := hv
  evolves := .refl g₀ loc s₀
  pointers := rfl
  flow := rfl
  old _ hx := hx
  added _ hx := Or.inl hx
  judged _ hx := absurd hx List.not_mem_nil
  rejected _ hx := Or.inl hx
  steady _ _ hx := hx

theorem mem_pts (hj : Judging g₀ loc ptr t reuse gep s₀ done (objs, s)) {v x : NodeId} :
    x ∈ s.pts v ↔ x ∈ s₀.pts v := by
  rw [pts, pts, hj.pointers]

theorem new (hj : Judging g₀ loc ptr t reuse gep s₀ done (objs, s)) {x : NodeId} (hx : x ∈ objs) :
    s.graph.HasObj x := by
  rcases hj.added x hx with hx | ⟨-, y, -, hproto⟩
  · exact (hj.valid.pts (hj.mem_pts.mpr hx)).2
  · obtain ⟨-, o, ho, -⟩ := hj.valid.heap.clone hproto
    exact ⟨o, ho⟩

/-- One more object was judged, and whatever was newly filtered has a reason. -/
theorem next (hj : Judging g₀ loc ptr t reuse gep s₀ done (objs, s)) (hv' : s'.Valid g₀)
    (he : Evolves g₀ loc false s s') (hp : s'.pointers = s.pointers) (hf : s'.flow = s.flow)
    (hold : ∀ x ∈ objs, x ∈ objs') {x : NodeId}
    (hnew : ∀ y ∈ objs', y ∈ objs ∨ s'.Replaces t (· ∈ s₀.pts ptr) y)
    (hx : s'.Judged loc t reuse gep x)
    (hrej : ∀ y, s'.filters.isFiltered loc y = true → s.filters.isFiltered loc y = true ∨
      (s'.Rejected t reuse (· ∈ objs') y ∧ ¬ (s.IsForeign y ∨ s.Kept t reuse gep y))) :
    Judging g₀ loc ptr t reuse gep s₀ (done ++ [x]) (objs', s') where
  start := hj.start
  valid := hv'
  evolves := hj.evolves.trans he
  pointers := hp.trans hj.pointers
  flow := hf.trans hj.flow
  old y hy := hold y (hj.old y hy)
  added := by
    intro y hy
    rcases hnew y hy with hy | hy
    · refine (hj.added y hy).imp_right ?_
      rintro ⟨hty, z, hz, hproto⟩
      have hobj := hj.new hy
      refine ⟨(he.heap.types hobj).trans hty, z, hz, ?_⟩
      rw [he.heap.prototypes hobj, he.heap.prototype (hj.new (hj.old z hz)), hproto]
    · exact Or.inr hy
  judged := by
    intro y hy
    rcases List.mem_append.mp hy with hy | hy
    · exact (hj.judged y hy).keep hj.valid he
    · rw [List.mem_singleton] at hy
      exact hy ▸ hx
  rejected := by
    intro y hy
    rcases hrej y hy with hy | ⟨hy, -⟩
    · obtain ⟨-, n, v, -, -, hyv⟩ := hj.valid.filters hy
      refine (hj.rejected y hy).imp_right fun hr => ?_
      exact hr.keep he.types he.options he.heap (hj.valid.pts hyv).2 fun c hc => ⟨hold c hc, hj.new hc⟩
    · exact Or.inr hy
  steady := by
    intro y hfit hy
    rcases hrej y hy with hy | ⟨-, hunfit⟩
    · exact hj.steady y hfit hy
    · have hk := hj.evolves
      exact absurd (hfit.imp (·.keep hk.heap) (·.keep hj.start hk.types hk.options hk.heap)) hunfit

/-- Nothing but the verdict on one object. -/
theorem skip (hj : Judging g₀ loc ptr t reuse gep s₀ done (objs, s)) {x : NodeId}
    (hx : s.Judged loc t reuse gep x) : Judging g₀ loc ptr t reuse gep s₀ (done ++ [x]) (objs, s) :=
  hj.next hj.valid (.refl g₀ loc s) rfl rfl (fun _ h => h) (fun _ h => Or.inl h) hx
    fun _ h => Or.inl h

section Filtered

variable {n : StmtNode} {x : NodeId} {o : ObjNode} {ty : Option TypeId}

/-- The object was filtered for a clone at the accessed type. -/
theorem replaced (hj : Judging g₀ loc ptr t reuse gep s₀ done (objs, s))
    (htyped : s.options.typed = true) (hn : g₀.stmt loc = .ok n) (hptr : n.kind.pointer? = some ptr)
    (hacc : Accessed s.types g₀ t) (hx : x ∈ s₀.pts ptr) (ho : s.graph.obj x = .ok o)
    (hs : o.isSpecial = false) (hty : s.heap.types[x]? = some ty)
    (hwhy : s.VerdictReason o ty t reuse gep .clone)
    (hunfit : ¬ (s.IsForeign x ∨ s.Kept t reuse gep x)) :
    ∃ acc, s.replace loc x t objs = .ok acc ∧ Judging g₀ loc ptr t reuse gep s₀ (done ++ [x]) acc := by
  obtain ⟨c, s', hrep, hv', he, hp, hf, hfilters, hproto, hcty⟩ :=
    replace_spec hj.valid htyped hn hptr (hj.mem_pts.mpr hx) ho hs hacc hty hwhy.1 objs
  have hx' : s'.filters.isFiltered loc x = true := (hfilters x).mpr (Or.inl rfl)
  refine ⟨_, hrep, hj.next hv' he hp hf (fun y hy => IdSet.mem_insert.mpr (Or.inr hy)) ?_
    (Or.inr (Or.inl hx')) ?_⟩
  · intro y hy
    rcases IdSet.mem_insert.mp hy with rfl | hy
    · exact Or.inr ⟨hcty, x, hx, hproto⟩
    · exact Or.inl hy
  · intro y hy
    rcases (hfilters y).mp hy with rfl | hy
    · refine Or.inr ⟨⟨ty, (he.heap.types ⟨o, ho⟩).trans hty, hwhy.1, ?_,
        Or.inl ⟨c, IdSet.mem_insert.mpr (Or.inl rfl), hproto, hcty⟩⟩, hunfit⟩
      rw [views?_eq he.types he.options, views?_eq he.types he.options]
      exact hwhy.2
    · exact Or.inl hy

/-- The object was filtered and nothing took its place. -/
theorem hidden (hj : Judging g₀ loc ptr t reuse gep s₀ done (objs, s))
    (htyped : s.options.typed = true) (hn : g₀.stmt loc = .ok n) (hptr : n.kind.pointer? = some ptr)
    (hx : x ∈ s₀.pts ptr) (hty : s.heap.types[x]? = some ty)
    (hwhy : s.VerdictReason o ty t reuse gep .hide)
    (hunfit : ¬ (s.IsForeign x ∨ s.Kept t reuse gep x)) :
    Judging g₀ loc ptr t reuse gep s₀ (done ++ [x]) (objs, s.hide loc x) := by
  have hrejected : (s.hide loc x).Rejected t reuse (· ∈ objs) x := by
    obtain ⟨hreuse, hsome, hb, hb'⟩ := hwhy
    refine ⟨ty, hty, ?_, fun h => ?_, Or.inr ⟨hreuse, hsome, hb, hb'⟩⟩
    · rintro rfl
      rw [views?, isBase_refl] at hb
      exact absurd hb (by decide)
    · rw [show (s.hide loc x).views? (some t) ty = false from hb'] at h
      exact absurd h (by decide)
  refine hj.next (hj.valid.hide htyped hn hptr (hj.mem_pts.mpr hx)) (evolves_hide x) rfl rfl
    (fun _ h => h) (fun _ h => Or.inl h)
    (Or.inr (Or.inl (isFiltered_hide.mpr (Or.inl ⟨rfl, rfl⟩)))) ?_
  intro y hy
  rcases isFiltered_hide.mp hy with ⟨-, rfl⟩ | hy
  · exact Or.inr ⟨hrejected, hunfit⟩
  · exact Or.inl hy

end Filtered

end Judging

theorem refineObject_spec {s₀ : Solver} {done : List NodeId} {acc : IdSet × Solver} {n : StmtNode}
    {x : NodeId} (htyped : s₀.options.typed = true) (hn : g₀.stmt loc = .ok n)
    (hptr : n.kind.pointer? = some ptr) (hacc : Accessed s₀.types g₀ t) (hx : x ∈ s₀.pts ptr)
    (hj : Judging g₀ loc ptr t reuse gep s₀ done acc) :
    Delivers why (refineObject loc t reuse gep acc x)
      (Judging g₀ loc ptr t reuse gep s₀ (done ++ [x])) := by
  obtain ⟨objs, s⟩ := acc
  have htyped' : s.options.typed = true := by rw [hj.evolves.options]; exact htyped
  have hacc' : Accessed s.types g₀ t := by rw [hj.evolves.types]; exact hacc
  obtain ⟨o, ho⟩ := (hj.valid.pts (hj.mem_pts.mpr hx)).2
  obtain ⟨ty, hty⟩ := hj.valid.heap.typed ⟨o, ho⟩
  have htypeOf : s.heap.typeOf x = .ok ty := by simp [Heap.typeOf, hty]
  simp only [refineObject, ho, ok_bind, htypeOf]
  by_cases hfil : s.filters.isFiltered loc x = true
  · rw [if_pos hfil]
    exact hj.skip (Or.inr (Or.inl hfil))
  · rw [if_neg hfil]
    cases hs : o.isSpecial with
    | true => exact hj.skip (Or.inl ⟨o, ho, hs⟩)
    | false =>
      obtain ⟨v, hverdict, hwhy⟩ := verdict_spec hj.valid ho ty t reuse gep
      simp only [Bool.false_eq_true, if_false, hverdict, ok_bind]
      cases v with
      | keep => exact hj.skip (Or.inr (Or.inr ⟨o, ty, ho, hty, hverdict⟩))
      | clone =>
        obtain ⟨acc, hrep, hj'⟩ := hj.replaced htyped' hn hptr hacc' hx ho hs hty hwhy
          (not_fit_of_verdict ho hs hty hverdict (by decide))
        exact .of_eq hrep hj'
      | hide =>
        exact hj.hidden htyped' hn hptr hx hty hwhy
          (not_fit_of_verdict ho hs hty hverdict (by decide))

/-- A change of the points-to sets in favour of one value whose users are then put on the worklist. -/
theorem evolves_users {s : Solver} (hv : s.Valid g₀) (ptr : NodeId) (objs : IdSet) :
    Evolves g₀ loc false s (if (s.point ptr objs).1
      then (s.point ptr objs).2.enqueue (s.graph.users ptr) else (s.point ptr objs).2) := by
  have hpts : ∀ {v x}, x ∈ s.pts v → x ∈ (s.point ptr objs).2.pts v := fun h =>
    mem_pts_point.mpr (Or.inr h)
  cases hchanged : (s.point ptr objs).1 with
  | false =>
    rw [if_neg (by decide)]
    exact
    { Evolves.refl g₀ loc s with
      pts := hpts
      ptsNew := by
        intro v x hx
        rcases mem_pts_point.mp hx with ⟨rfl, hobjs⟩ | hx
        · left
          by_contra hnew
          rw [point_fst.mpr ⟨x, hobjs, hnew⟩] at hchanged
          exact absurd hchanged (by decide)
        · exact Or.inl hx
      paid := Or.inl rfl
      dirtyPaid := fun h => absurd h (by decide) }
  | true =>
    rw [if_pos rfl]
    obtain ⟨x, hx, hnew⟩ := point_fst.mp hchanged
    exact
    { Evolves.refl g₀ loc s with
      pending := fun h => Worklist.mem_pushAll.mpr (Or.inr h)
      pts := hpts
      ptsNew := by
        intro v y hy
        rcases mem_pts_point.mp hy with ⟨rfl, -⟩ | hy
        · refine Or.inr (Or.inl fun u hu => Worklist.mem_pushAll.mpr (Or.inl ?_))
          rw [show s.graph.users v = g₀.users v from hv.heap.grows.users v]
          exact hu
        · exact Or.inl hy
      beforeNew := Or.inl
      clones := Or.inl
      paid := Or.inr ⟨.pts ptr x, mem_pts_point.mpr (Or.inl ⟨rfl, hx⟩), hnew⟩
      dirtyPaid := fun h => absurd h (by decide) }

/-- What judging all objects of a pointer at a statement does. -/
structure Refined (g₀ : Graph) (loc ptr : NodeId) (ty : Option TypeId) (reuse gep : Bool)
    (s s' : Solver) : Prop where
  valid : s'.Valid g₀
  evolves : Evolves g₀ loc false s s'
  flow : s'.flow = s.flow
  added : ∀ {v x}, x ∈ s'.pts v → x ∈ s.pts v ∨ (v = ptr ∧ ∃ t, s'.Replaces t (· ∈ s.pts ptr) x)
  judged : ∀ t, s.types.canonical ty = some t → ∀ x ∈ s'.pts ptr, s'.Judged loc t reuse gep x
  rejected : ∀ x, s'.filters.isFiltered loc x = true → s.filters.isFiltered loc x = true ∨
    ∃ t, s.types.canonical ty = some t ∧ s'.Rejected t reuse (· ∈ s'.pts ptr) x
  steady : ∀ x, (∀ t, s.types.canonical ty = some t → s.IsForeign x ∨ s.Kept t reuse gep x) →
    s'.filters.isFiltered loc x = true → s.filters.isFiltered loc x = true

/-- Once all objects are judged, the clones are added to the pointer's set. -/
theorem refined_of_judging {s s₁ : Solver} {ty : Option TypeId} {objs : IdSet}
    (hcan : s.types.canonical ty = some t) (hvalue : g₀.isValue ptr = true)
    (husers : ∀ u ∈ g₀.users ptr, u ∈ g₀.stmts.toList)
    (hj : Judging g₀ loc ptr t reuse gep s (s.pts ptr).toList (objs, s₁)) :
    Refined g₀ loc ptr ty reuse gep s (if (s₁.point ptr objs).1
      then (s₁.point ptr objs).2.enqueue (s₁.graph.users ptr) else (s₁.point ptr objs).2) := by
  have he : Evolves g₀ loc false s₁ _ := evolves_users hj.valid ptr objs
  have hpoint := hj.valid.point hvalue fun x hx => hj.new hx
  have hgraph : s₁.graph.users ptr = g₀.users ptr := hj.valid.heap.grows.users ptr
  -- The new state is that after judging, with the clones added and perhaps more statements waiting.
  suffices h : ∀ {s₂ : Solver}, s₂.Valid g₀ → Evolves g₀ loc false s₁ s₂ → s₂.heap = s₁.heap →
      s₂.filters = s₁.filters → s₂.flow = s₁.flow →
      (∀ {v x}, x ∈ s₂.pts v ↔ (v = ptr ∧ x ∈ objs) ∨ x ∈ s₁.pts v) →
      Refined g₀ loc ptr ty reuse gep s s₂ by
    cases hchanged : (s₁.point ptr objs).1 with
    | true =>
      rw [hchanged, if_pos rfl] at he
      rw [if_pos rfl]
      exact h (hpoint.enqueue (by rw [hgraph]; exact husers)) he rfl rfl rfl mem_pts_point
    | false =>
      rw [hchanged, if_neg (by decide)] at he
      rw [if_neg (by decide)]
      exact h hpoint he rfl rfl rfl mem_pts_point
  intro s₂ hv₂ he hheap hfil hflow hpts
  have hobjs : ∀ {x}, x ∈ s₂.pts ptr → x ∈ objs := fun hx =>
    (hpts.mp hx).elim And.right fun hx => hj.old _ (hj.mem_pts.mp hx)
  refine ⟨hv₂, hj.evolves.trans he, hflow.trans hj.flow, fun {v x} hx => ?_, fun t' ht' x hx => ?_,
    fun x hx => ?_, fun x hfit hx => ?_⟩
  · simp only [Replaces, hheap]
    rcases hpts.mp hx with ⟨rfl, hx⟩ | hx
    · exact (hj.added x hx).imp_right fun hr => ⟨rfl, t, hr⟩
    · exact Or.inl (hj.mem_pts.mp hx)
  · obtain rfl := Option.some.inj (hcan.symm.trans ht')
    rcases hj.added x (hobjs hx) with hold | ⟨hty, -⟩
    · exact (hj.judged x (IdSet.mem_toList.mpr hold)).keep hj.valid he
    · obtain ⟨o, ho⟩ := (hv₂.pts hx).2
      exact Or.inr (Or.inr (kept_of_type hv₂ ho (hheap ▸ hty)))
  · rw [hfil] at hx
    obtain ⟨-, n, v, -, -, hxv⟩ := hj.valid.filters hx
    refine (hj.rejected x hx).imp_right fun hr => ⟨t, hcan, ?_⟩
    exact hr.keep he.types he.options he.heap (hj.valid.pts hxv).2 fun c hc =>
      ⟨hpts.mpr (Or.inl ⟨rfl, hc⟩), hj.new hc⟩
  · exact hj.steady x (hfit t hcan) (hfil ▸ hx)

theorem refine_spec {s : Solver} {n : StmtNode} (hwf : g₀.WellFormed) (hv : s.Valid g₀)
    (htyped : s.options.typed = true) (hloc : loc ∈ g₀.stmts.toList) (hn : g₀.stmt loc = .ok n)
    (hptr : n.kind.pointer? = some ptr) (reuse gep : Bool) :
    Delivers why (s.refine loc ptr n.ty reuse gep) fun r => Refined g₀ loc ptr n.ty reuse gep s r.2 := by
  unfold refine
  cases hcan : s.types.canonical n.ty with
  | none =>
    refine ⟨hv, .refl g₀ loc s, rfl, Or.inl, fun t ht => ?_, fun x hx => Or.inl hx, fun _ _ hx => hx⟩
    rw [hcan] at ht
    exact absurd ht (by simp)
  | some t =>
    have huses := hwf.uses hloc hn (StmtKind.pointer?_mem_uses hptr)
    refine Delivers.bind (P := Judging g₀ loc ptr t reuse gep s (s.pts ptr).toList)
      (Delivers.foldlM (Judging.init hv) fun done x rest acc hxs hj =>
        refineObject_spec htyped hn hptr ⟨loc, hloc, n, hn, hcan⟩
          (IdSet.mem_toList.mp (by rw [hxs]; simp)) hj) ?_
    rintro ⟨objs, s₁⟩ hj
    exact refined_of_judging hcan huses.1 (fun _ => hwf.users) hj

end Refine

end PointsTo.Solver
