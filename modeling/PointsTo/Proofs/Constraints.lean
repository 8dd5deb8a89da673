import PointsTo.Proofs.Judging
import PointsTo.Proofs.Projection

/-! The value-flow constraints of a program.

    `Constraint` says of one statement that everything it has to pass on has arrived. It is about the
    present state: the set of a pointer, what is filtered, which objects there are. `Undisturbed` says
    that none of this changed for the statement; then its constraint, once met, is still met. -/

namespace PointsTo

/-- Is the statement a projection? -/
def StmtKind.isGep : StmtKind → Bool
  | .gep _ _ _ => true
  | _ => false

/-- May the accesses of a statement use an object at another type? -/
def Options.reuseAt (o : Options) : StmtKind → Bool
  | .load _ _ => o.loadReuse
  | .store _ _ | .gep _ _ _ => o.storeReuse
  | .addr _ _ | .copy _ _ _ | .phi _ _ => false

/-- Does a store through a pointer to just this object overwrite what it holds, if the allocations
    are as in the graph? -/
def Graph.strong (g : Graph) (o : ObjNode) : Bool :=
  let m := g.mem o.mem
  match o.kind with
  | .base | .field _ _ =>
    !(m.alloc == .heap || m.isArray || m.inRecursion || m.fieldInsensitive || m.alloc == .special)
  | .dummy | .special _ => false

/-- The whole object that an object belongs to. -/
def ObjNode.wholeOf (o : ObjNode) (id : NodeId) : NodeId :=
  match o.kind with
  | .field base _ => base
  | _ => id

theorem ObjNode.wholeOf_of_whole {o : ObjNode} (hf : o.isField = false) (id : NodeId) :
    o.wholeOf id = id := by
  unfold wholeOf
  split
  case h_1 hk => simp [isField, hk] at hf
  case h_2 => rfl

/-- Is the object one of the allocation? -/
def Graph.Within (g : Graph) (m : MemId) (o : NodeId) : Prop := ∃ ob, g.obj o = .ok ob ∧ ob.mem = m

theorem Graph.Grows.within_iff {g g' : Graph} (hg : g.Grows g') {m : MemId} {o : NodeId}
    (ho : g.HasObj o) : g'.Within m o ↔ g.Within m o := by
  obtain ⟨ob, hob⟩ := ho
  simp only [Within, hob, hg.obj hob]

namespace Solver

/-- Does the statement see the object in the set of a value? -/
def Sees (s : Solver) (st v o : NodeId) : Prop := o ∈ s.pts v ∧ s.filters.isFiltered st o = false

/-- Was an allocation of the graph collapsed since the start? -/
def Collapsed (g₀ : Graph) (s : Solver) (m : MemId) : Prop :=
  (g₀.mem m).fieldInsensitive = false ∧ (s.graph.mem m).fieldInsensitive = true

/-- A store overwrites the only object that it sees. -/
def Overwrites (g₀ : Graph) (s : Solver) (st ptr o : NodeId) : Prop :=
  (∀ e, s.Sees st ptr e ↔ e = o) ∧ ∃ ob, s.graph.obj o = .ok ob ∧ g₀.strong ob = true

/-- The object's projection arrived, unless its fields were lost on the way, and the statement is told
    of whatever joins it. -/
def Projects (g₀ : Graph) (s : Solver) (st o : NodeId) (ob : ObjNode) (k : Nat)
    (arrived : NodeId → Prop) : Prop :=
  Collapsed g₀ s ob.mem ∨ ∃ objs, s.heap.project s.types o k = .ok (objs, s.heap) ∧
    ∀ x ∈ objs, arrived x ∧ st ∈ s.heap.retrievers.setAt (s.heap.prototype x)

/-- What a projection of an object leads to arrived; a projection to an unknown place also made the
    allocation lose its fields. -/
def Arrives (g₀ : Graph) (s : Solver) (st : NodeId) (offset : GepOffset) (o : NodeId) (ob : ObjNode)
    (arrived : NodeId → Prop) : Prop :=
  if ob.isSpecial then arrived o
  else match offset with
    | .variant => arrived (ob.wholeOf o) ∧ (s.graph.mem ob.mem).fieldInsensitive = true
    | .field k => Projects g₀ s st o ob k arrived

/-- What a statement has to pass on has arrived. -/
def Constraint (g₀ : Graph) (s : Solver) (st : NodeId) (n : StmtNode) : Prop :=
  match n.kind with
  | .addr obj dst => obj ∈ s.pts dst
  | .copy src dst _ => ∀ o ∈ s.pts src, o ∈ s.pts dst
  | .phi _ [] => True
  | .phi dst (first :: rest) =>
    (∀ o ∈ s.pts first, o ∈ s.pts dst ∨
      (n.ty.isSome = true ∧ s.options.typed = true ∧ s.filters.isFiltered st o = true)) ∧
    ∀ v ∈ rest, ∀ o ∈ s.pts v, o ∈ s.pts dst
  | .gep base dst offset => ∀ o ob, s.Sees st base o → s.graph.obj o = .ok ob →
    Arrives g₀ s st offset o ob (· ∈ s.pts dst)
  | .load ptr dst => ∀ o ob, s.Sees st ptr o → s.graph.obj o = .ok ob → ob.kind ≠ .special .constant →
    ∀ x ∈ s.contentsBefore st o, x ∈ s.pts dst
  | .store src ptr =>
    (∀ o ob, s.Sees st ptr o → s.graph.obj o = .ok ob → ob.isSpecial = false →
      ∀ x ∈ s.pts src, x ∈ s.contentsAfter st o) ∧
    ((∃ e, e ∈ s.pts ptr) → ∀ o, (∀ x ∈ s.contentsBefore st o, x ∈ s.contentsAfter st o) ∨
      Overwrites g₀ s st ptr o)

/-- The statement treats an allocation as one place: a projection to a field leads to the object
    itself, a load gives what any object of the allocation holds, and a store overwrites none. -/
def Merges (m : MemId) (s : Solver) (st : NodeId) (n : StmtNode) : Prop :=
  match n.kind with
  | .gep base dst (.field _) => ∀ o, s.Sees st base o → s.graph.Within m o → o ∈ s.pts dst
  | .load ptr dst => ∀ o, s.Sees st ptr o → s.graph.Within m o →
    ∀ y, s.graph.Within m y → ∀ x ∈ s.contentsBefore st y, x ∈ s.pts dst
  | .store _ ptr => ∀ o, s.Sees st ptr o → s.graph.Within m o →
    ∀ x ∈ s.contentsBefore st o, x ∈ s.contentsAfter st o
  | .addr _ _ | .copy _ _ _ | .phi _ _ | .gep _ _ .variant => True

/-- All objects of the statement's pointer were judged by the accessed type. -/
def AllJudged (s : Solver) (st : NodeId) (n : StmtNode) : Prop :=
  s.options.typed = true → ∀ ptr t, n.kind.pointer? = some ptr → s.types.canonical n.ty = some t →
    ∀ x ∈ s.pts ptr, s.Judged st t (s.options.reuseAt n.kind) n.kind.isGep x

/-- The statement has nothing left to do. -/
def Settled (g₀ : Graph) (s : Solver) (st : NodeId) (n : StmtNode) : Prop :=
  Constraint g₀ s st n ∧ AllJudged s st n

/-! ### Persistence -/

section Projects

variable {g₀ : Graph} {st o : NodeId} {ob : ObjNode} {s s' : Solver} {arrived arrived' : NodeId → Prop}

theorem sameFields_of_not_collapsed (hv : s.Valid g₀) (hext : s.heap.Extends s'.heap) {m : MemId}
    (hnot : ¬ Collapsed g₀ s' m) : s.heap.SameFields s'.heap m := by
  cases hfi : (s.heap.graph.mem m).fieldInsensitive with
  | true => exact (hext.graph.collapsed hfi).trans hfi.symm
  | false =>
    have hfi₀ : (g₀.mem m).fieldInsensitive = false := by
      by_contra hfi₀
      rw [hv.heap.grows.collapsed (by simpa using hfi₀)] at hfi
      exact absurd hfi (by decide)
    rw [Heap.SameFields, hfi]
    by_contra hfi'
    exact hnot ⟨hfi₀, (Bool.not_eq_false _).mp hfi'⟩

/-- What arrived stays, unless a clone was announced to the statement. -/
theorem Projects.keep {k : Nat} (hv : s.Valid g₀) (hv' : s'.Valid g₀) (htypes : s'.types = s.types)
    (hext : s.heap.Extends s'.heap) (hob : s.graph.obj o = .ok ob)
    (hclones : ∀ {c p : NodeId}, s'.heap.prototypes[c]? = some p → s.heap.prototypes[c]? = some p ∨
      ∀ o, s.graph.obj p = .ok o → st ∉ s.heap.announced p o.kind)
    (harr : ∀ x, arrived x → arrived' x ∧ s.graph.HasObj x) (hp : Projects g₀ s st o ob k arrived) :
    Projects g₀ s' st o ob k arrived' := by
  by_cases hcol : Collapsed g₀ s' ob.mem
  · exact Or.inl hcol
  rcases hp with ⟨hfi₀, hfi⟩ | ⟨objs, hproj, hobjs⟩
  · exact Or.inl ⟨hfi₀, hext.graph.collapsed hfi⟩
  obtain ⟨objs', hproj', hmem⟩ := Heap.project_stable hv.heap (htypes ▸ hv'.heap) hext hob
    (sameFields_of_not_collapsed hv hext hcol) hproj (by
      intro f hf of root slot hof hkind c hc
      rcases hclones hc with hc | hsilent
      · exact hc
      · -- A clone that joined the slot was announced to the statement.
        refine absurd ?_ (hsilent of (hv.heap.prototype hof).1)
        simp only [Heap.announced, hkind, IdSet.mem_sorted]
        exact (hobjs f hf).2)
  rw [← htypes] at hproj'
  refine Or.inr ⟨objs', hproj', fun x hx => ?_⟩
  obtain ⟨hxarr, hxst⟩ := hobjs x ((hmem x).mp hx)
  obtain ⟨hxarr', hxobj⟩ := harr x hxarr
  refine ⟨hxarr', ?_⟩
  rw [hext.prototype hxobj]
  exact hext.retrievers hxst

theorem Arrives.keep {offset : GepOffset} (hv : s.Valid g₀) (hv' : s'.Valid g₀)
    (htypes : s'.types = s.types) (hext : s.heap.Extends s'.heap) (hob : s.graph.obj o = .ok ob)
    (hclones : ∀ {c p : NodeId}, s'.heap.prototypes[c]? = some p → s.heap.prototypes[c]? = some p ∨
      ∀ o, s.graph.obj p = .ok o → st ∉ s.heap.announced p o.kind)
    (harr : ∀ x, arrived x → arrived' x ∧ s.graph.HasObj x)
    (ha : Arrives g₀ s st offset o ob arrived) : Arrives g₀ s' st offset o ob arrived' := by
  unfold Arrives at ha ⊢
  cases hs : ob.isSpecial with
  | true =>
    simp only [hs, if_true] at ha ⊢
    exact (harr _ ha).1
  | false =>
    simp only [hs, Bool.false_eq_true, if_false] at ha ⊢
    cases offset with
    | variant => exact ⟨(harr _ ha.1).1, hext.graph.collapsed ha.2⟩
    | field k => exact ha.keep hv hv' htypes hext hob hclones harr

end Projects

/-- Nothing that the statement reads changed. -/
structure Undisturbed (g₀ : Graph) (st : NodeId) (n : StmtNode) (s s' : Solver) : Prop where
  valid : s.Valid g₀
  valid' : s'.Valid g₀
  types : s'.types = s.types
  options : s'.options = s.options
  heap : s.heap.Extends s'.heap
  pts : ∀ {v o}, o ∈ s.pts v → o ∈ s'.pts v
  uses : ∀ {v o}, v ∈ n.kind.uses → o ∈ s'.pts v → o ∈ s.pts v
  before : ∀ {o x}, x ∈ s'.contentsBefore st o → x ∈ s.contentsBefore st o
  after : ∀ {o x}, x ∈ s.contentsAfter st o → x ∈ s'.contentsAfter st o
  filters : ∀ o, s'.filters.isFiltered st o = s.filters.isFiltered st o
  clones : ∀ {c p : NodeId}, s'.heap.prototypes[c]? = some p → s.heap.prototypes[c]? = some p ∨
    ∀ o, s.graph.obj p = .ok o → st ∉ s.heap.announced p o.kind

namespace Undisturbed

variable {g₀ : Graph} {st : NodeId} {n : StmtNode} {s s' : Solver}

theorem sees (hu : Undisturbed g₀ st n s s') {v o : NodeId} (hv : v ∈ n.kind.uses) :
    s'.Sees st v o ↔ s.Sees st v o := by
  rw [Sees, Sees, hu.filters]
  exact and_congr_left fun _ => ⟨hu.uses hv, hu.pts⟩

/-- An object that the statement sees was there before. -/
theorem obj (hu : Undisturbed g₀ st n s s') {v o : NodeId} {ob : ObjNode} (ho : s.Sees st v o)
    (hob : s'.graph.obj o = .ok ob) : s.graph.obj o = .ok ob := by
  obtain ⟨ob', hob'⟩ := (hu.valid.pts ho.1).2
  exact ok_unique (hu.heap.graph.obj hob') hob ▸ hob'

theorem overwrites (hu : Undisturbed g₀ st n s s') {ptr o : NodeId} (hptr : ptr ∈ n.kind.uses)
    (ho : Overwrites g₀ s st ptr o) : Overwrites g₀ s' st ptr o := by
  obtain ⟨honly, ob, hob, hstrong⟩ := ho
  exact ⟨fun e => (hu.sees hptr).trans (honly e), ob, hu.heap.graph.obj hob, hstrong⟩

theorem constraint (hu : Undisturbed g₀ st n s s') (hc : Constraint g₀ s st n) :
    Constraint g₀ s' st n := by
  unfold Constraint at hc ⊢
  have huses := @hu.uses
  have hsees := @hu.sees
  have hover := @hu.overwrites
  cases hk : n.kind with
  | addr obj dst =>
    simp only [hk] at hc ⊢
    exact hu.pts hc
  | copy src dst init =>
    simp only [hk, StmtKind.uses] at hc huses ⊢
    exact fun o ho => hu.pts (hc o (huses (by simp) ho))
  | phi dst operands =>
    cases operands with
    | nil => trivial
    | cons first rest =>
      simp only [hk, StmtKind.uses] at hc huses ⊢
      refine ⟨fun o ho => ?_, fun v hv o ho => hu.pts (hc.2 v hv o (huses (by simp [hv]) ho))⟩
      rw [hu.options, hu.filters]
      exact (hc.1 o (huses (by simp) ho)).imp_left hu.pts
  | gep base dst offset =>
    simp only [hk, StmtKind.uses] at hc hsees ⊢
    intro o ob ho hob
    rw [hsees (by simp)] at ho
    have hob' := hu.obj ho hob
    exact (hc o ob ho hob').keep hu.valid hu.valid' hu.types hu.heap hob' hu.clones fun x hx =>
      ⟨hu.pts hx, (hu.valid.pts hx).2⟩
  | load ptr dst =>
    simp only [hk, StmtKind.uses] at hc hsees ⊢
    intro o ob ho hob hne x hx
    rw [hsees (by simp)] at ho
    exact hu.pts (hc o ob ho (hu.obj ho hob) hne x (hu.before hx))
  | store src ptr =>
    simp only [hk, StmtKind.uses] at hc huses hsees hover ⊢
    refine ⟨fun o ob ho hob hs x hx => ?_, ?_⟩
    · rw [hsees (by simp)] at ho
      exact hu.after (hc.1 o ob ho (hu.obj ho hob) hs x (huses (by simp) hx))
    · rintro ⟨e, he⟩ o
      rcases hc.2 ⟨e, huses (by simp) he⟩ o with hflow | ho
      · exact Or.inl fun x hx => hu.after (hflow x (hu.before hx))
      · exact Or.inr (hover (by simp) ho)

theorem merges (hu : Undisturbed g₀ st n s s') {m : MemId} (hm : Merges m s st n) : Merges m s' st n := by
  have hsees := @hu.sees
  have hwithin : ∀ {v o}, s.Sees st v o → s'.graph.Within m o → s.graph.Within m o := fun ho =>
    (hu.heap.graph.within_iff (hu.valid.pts ho.1).2).mp
  unfold Merges at hm ⊢
  cases hk : n.kind with
  | addr obj dst => trivial
  | copy src dst init => trivial
  | phi dst operands => trivial
  | gep base dst offset =>
    cases offset with
    | variant => trivial
    | field k =>
      simp only [hk, StmtKind.uses] at hm hsees ⊢
      intro o ho hom
      rw [hsees (by simp)] at ho
      exact hu.pts (hm o ho (hwithin ho hom))
  | load ptr dst =>
    simp only [hk, StmtKind.uses] at hm hsees ⊢
    intro o ho hom y hy x hx
    rw [hsees (by simp)] at ho
    have hx' := hu.before hx
    exact hu.pts (hm o ho (hwithin ho hom) y
      ((hu.heap.graph.within_iff (hu.valid.before hx').2.1).mp hy) x hx')
  | store src ptr =>
    simp only [hk, StmtKind.uses] at hm hsees ⊢
    intro o ho hom x hx
    rw [hsees (by simp)] at ho
    exact hu.after (hm o ho (hwithin ho hom) x (hu.before hx))

theorem judged (hu : Undisturbed g₀ st n s s') {t : TypeId} {reuse gep : Bool} {x : NodeId}
    (hj : s.Judged st t reuse gep x) : s'.Judged st t reuse gep x := by
  rcases hj with hf | hf | hk
  · exact Or.inl (hf.keep hu.heap)
  · exact Or.inr (Or.inl ((hu.filters x).trans hf))
  · exact Or.inr (Or.inr (hk.keep hu.valid hu.types hu.options hu.heap))

/-- A statement that has nothing left to do is not given anything to do by changes elsewhere. -/
theorem settled (hu : Undisturbed g₀ st n s s') (hs : Settled g₀ s st n) : Settled g₀ s' st n := by
  refine ⟨hu.constraint hs.1, fun htyped ptr t hptr ht x hx => hu.judged ?_⟩
  rw [hu.options] at htyped ⊢
  rw [hu.types] at ht
  exact hs.2 htyped ptr t hptr ht x (hu.uses (StmtKind.pointer?_mem_uses hptr) hx)

end Undisturbed

/-- Whoever does not wait after a part of a visit was not disturbed by it. -/
theorem Evolves.undisturbed {g₀ : Graph} {loc st : NodeId} {dirty : Bool} {n : StmtNode}
    {s s' : Solver} (he : Evolves g₀ loc dirty s s') (hwf : g₀.WellFormed) (hv : s.Valid g₀)
    (hv' : s'.Valid g₀) (hst : st ∈ g₀.stmts.toList) (hn : g₀.stmt st = .ok n)
    (hidle : st ∉ s'.pending.items)
    (hclean : dirty = true → ∀ v, Targets g₀ loc v → v ∉ n.kind.uses)
    (hfilters : ∀ o, s'.filters.isFiltered st o = true → s.filters.isFiltered st o = true) :
    Undisturbed g₀ st n s s' where
  valid := hv
  valid' := hv'
  types := he.types
  options := he.options
  heap := he.heap
  pts := he.pts
  uses := by
    intro v o hv ho
    rcases he.ptsNew ho with ho | hall | ⟨hd, ht⟩
    · exact ho
    · exact absurd (hall st (hwf.uses hst hn hv).2) hidle
    · exact absurd hv (hclean hd v ht)
  before := fun hx => (he.beforeNew hx).resolve_right hidle
  after := he.after
  filters o := Bool.eq_iff_iff.mpr ⟨hfilters o, he.filters⟩
  clones := fun hc => (he.clones hc).imp_right fun hall o ho hst' => hidle (hall o ho st hst')

end Solver

end PointsTo
