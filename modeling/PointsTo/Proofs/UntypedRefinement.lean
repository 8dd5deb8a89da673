import PointsTo.Proofs.HeapSteps
import PointsTo.Solver.Run

/-! Without types the refined analysis is the plain one.

    In the hierarchy without types no access has a canonical type, so no object is ever judged: none is
    split, none is hidden, and what a statement sees of a pointer is all of it. The two analyses then go
    in lockstep. They need not have the same tables of points-to sets, since the refined analysis merges
    the receiver of a constructor by adding its set where the plain one copies it, which may leave an
    entry with an empty set behind; but every variable points to the same objects in the same order.
    Every transfer function keeps this relation and fails, if it does, with the same fault. -/

namespace PointsTo

/-! ### Tables with the same sets -/

namespace PointerSets

/-- Do all variables have the same sets in the two tables? -/
def Alike (p q : PointerSets) : Prop := ∀ v, p.pts v = q.pts v

variable {p q : PointerSets}

theorem Alike.add (h : p.Alike q) (var elem : Nat) :
    (p.add var elem).1 = (q.add var elem).1 ∧ (p.add var elem).2.Alike (q.add var elem).2 := by
  refine ⟨congrArg (fun s => (IdSet.insert s elem).1) (h var), fun v => ?_⟩
  rw [pts_add, pts_add, h var, h v]

theorem Alike.addAll (h : p.Alike q) (var : Nat) (elems : IdSet) :
    (p.addAll var elems).1 = (q.addAll var elems).1 ∧
      (p.addAll var elems).2.Alike (q.addAll var elems).2 := by
  refine ⟨congrArg (fun s => (IdSet.union s elems).1) (h var), fun v => ?_⟩
  rw [pts_addAll, pts_addAll, h var, h v]

/-- One table copies what the other adds. -/
theorem Alike.addAll_copy (h : p.Alike q) (dst src : Nat) :
    (p.addAll dst (p.pts src)).1 = (q.copy dst src).1 ∧
      (p.addAll dst (p.pts src)).2.Alike (q.copy dst src).2 := by
  obtain ⟨hflag, hpts⟩ := copy_eq_addAll q dst src
  obtain ⟨hflag', hpts'⟩ := h.addAll dst (q.pts src)
  rw [h src, hflag]
  exact ⟨hflag', fun v => (hpts' v).trans (hpts v).symm⟩

theorem Alike.copy (h : p.Alike q) (dst src : Nat) :
    (p.copy dst src).1 = (q.copy dst src).1 ∧ (p.copy dst src).2.Alike (q.copy dst src).2 := by
  obtain ⟨hflag, hpts⟩ := copy_eq_addAll p dst src
  obtain ⟨hflag', hpts'⟩ := h.addAll_copy dst src
  exact ⟨hflag.trans hflag', fun v => (hpts v).trans (hpts' v)⟩

end PointerSets

/-! ### Heaps without clones -/

namespace Heap

variable {h h' : Heap}

/-- Was no object ever split? -/
def Unsplit (h : Heap) : Prop := h.numClones = 0 ∧ h.clones = ∅ ∧ h.prototypes = ∅

theorem Unsplit.register {obj : NodeId} {ty : Option TypeId} (hu : h.Unsplit)
    (hr : h.register obj ty = .ok h') : h'.Unsplit := by
  obtain ⟨o, -, hr⟩ := bind_eq_ok.mp hr
  cases hr
  exact hu

theorem Unsplit.makeField {base root : NodeId} {slot : Nat} {ty : Option TypeId} (hu : h.Unsplit)
    (hm : h.makeField base root slot ty = .ok h') : h'.Unsplit := by
  obtain ⟨⟨field, graph⟩, -, hm⟩ := bind_eq_ok.mp hm
  obtain ⟨o, -, hm⟩ := bind_eq_ok.mp hm
  cases hm
  rw [Unsplit, numClones_enter, clones_enter, prototypes_enter, inheritSite_eq]
  exact hu

theorem Unsplit.project {types : Hierarchy} {base : NodeId} {offset : Nat} {objs : IdSet}
    (hu : h.Unsplit) (hp : h.project types base offset = .ok (objs, h')) : h'.Unsplit := by
  obtain ⟨o, -, hp⟩ := bind_eq_ok.mp hp
  dsimp only at hp
  split at hp
  · cases hp; exact hu
  obtain ⟨ty, -, hp⟩ := bind_eq_ok.mp hp
  split at hp
  · cases hp; exact hu
  obtain ⟨⟨root, slot⟩, -, hp⟩ := bind_eq_ok.mp hp
  dsimp only at hp
  split at hp
  · cases hp; exact hu
  split at hp
  · cases hp; exact hu
  obtain ⟨fieldTy, -, hp⟩ := bind_eq_ok.mp hp
  obtain ⟨h₁, hm, hp⟩ := bind_eq_ok.mp hp
  cases hp
  exact hu.makeField hm

theorem Unsplit.addRetrievers (hu : h.Unsplit) (fields : List NodeId) (stmt : NodeId) :
    (fields.foldl (·.addRetriever · stmt) h).Unsplit :=
  List.foldlRecOn fields _ hu fun _ hu _ _ => hu

end Heap

namespace Solver

/-! ### States side by side -/

variable {s t : Solver} {α : Type}

/-- Is the state one of a plain analysis without types that split and hid nothing? -/
def Untyped (t : Solver) : Prop :=
  t.types = .empty ∧ t.options.analysis = .flowSensitive ∧ t.filters = ∅ ∧ t.heap.Unsplit

/-- The state in the refined analysis, with a table of its own. -/
def refined (t : Solver) (p : PointerSets) : Solver :=
  { t with options := { t.options with analysis := .typedHeap }, pointers := p }

/-- Does a state of the refined analysis differ from a plain one in nothing but its table? -/
def Mirrors (s t : Solver) : Prop := t.Untyped ∧ ∃ p : PointerSets, p.Alike t.pointers ∧ s = t.refined p

/-- Equal results that come with states that mirror each other. -/
inductive Alongside : α × Solver → α × Solver → Prop
  | intro (a : α) {s t : Solver} (h : Mirrors s t) : Alongside (a, s) (a, t)

variable {r r' : α × Solver}

theorem Alongside.fst (h : Alongside r r') : r.1 = r'.1 := by
  cases h; rfl

theorem Alongside.snd (h : Alongside r r') : Mirrors r.2 r'.2 := by
  cases h with
  | intro a h => exact h

theorem Alongside.of_eq (heq : r.1 = r'.1) (h : Mirrors r.2 r'.2) :
    Alongside r r' := by
  obtain ⟨a, s⟩ := r
  obtain ⟨b, t⟩ := r'
  cases heq
  exact .intro a h

theorem Untyped.typed (hu : t.Untyped) : t.options.typed = false := by
  rw [Options.typed, hu.2.1]; rfl

theorem Untyped.unsplit (hu : t.Untyped) : t.heap.Unsplit := hu.2.2.2

theorem Untyped.withHeap {heap : Heap} (hu : t.Untyped) (hheap : heap.Unsplit) :
    Untyped { t with heap } :=
  ⟨hu.1, hu.2.1, hu.2.2.1, hheap⟩

theorem Untyped.isFiltered (hu : t.Untyped) (stmt obj : NodeId) :
    t.filters.isFiltered stmt obj = false := by
  rw [hu.2.2.1, FilterSets.isFiltered_empty]

theorem Untyped.canonical (hu : t.Untyped) (ty : Option TypeId) : t.types.canonical ty = none := by
  rw [hu.1]
  cases ty <;> rfl

/-- No access has a type, so none judges an object. -/
theorem Untyped.refine (hu : t.Untyped) (p : PointerSets) (loc ptr : NodeId) (ty : Option TypeId)
    (reuse gep : Bool) : (t.refined p).refine loc ptr ty reuse gep = .ok (false, t.refined p) := by
  have hty : (t.refined p).types.canonical ty = none := hu.canonical ty
  rw [Solver.refine, hty]
  rfl

/-- No object has a type, so no projection is beyond its fields. -/
theorem Untyped.isBeyondFields (hu : t.Untyped) (p : PointerSets) (o : ObjNode) (ty : Option TypeId)
    (offset : Nat) : (t.refined p).isBeyondFields o ty offset = false := by
  have hty : (t.refined p).types.isAggregate ty = false := by
    simp [Hierarchy.isAggregate, Hierarchy.desc?, show (t.refined p).types.canonical ty = none from
      hu.canonical ty]
  simp [Solver.isBeyondFields, hty]

theorem Untyped.effective (hu : t.Untyped) (p : PointerSets) (stmt v : NodeId) :
    (t.refined p).effective stmt v = p.pts v := by
  have hnone : t.filters.setAt stmt = ∅ := by rw [hu.2.2.1]; exact IdTable.setAt_empty stmt
  show ((p.pts v).subtract (t.filters.setAt stmt)).2 = p.pts v
  rw [hnone, IdSet.subtract_empty]

theorem Mirrors.graph (h : Mirrors s t) : s.graph = t.graph := by
  obtain ⟨-, p, -, rfl⟩ := h
  rfl

theorem Mirrors.pending (h : Mirrors s t) : s.pending = t.pending := by
  obtain ⟨-, p, -, rfl⟩ := h
  rfl

theorem Mirrors.pts (h : Mirrors s t) (v : NodeId) : s.pts v = t.pts v := by
  obtain ⟨-, p, hp, rfl⟩ := h
  exact hp v

theorem Mirrors.effective (h : Mirrors s t) (stmt v : NodeId) :
    s.effective stmt v = t.effective stmt v := by
  obtain ⟨-, p, hp, rfl⟩ := h
  exact congrArg (fun objs => (IdSet.subtract objs (t.filters.setAt stmt)).2) (hp v)

theorem Mirrors.enqueue (h : Mirrors s t) (stmts : List NodeId) :
    Mirrors (s.enqueue stmts) (t.enqueue stmts) := by
  obtain ⟨hu, p, hp, rfl⟩ := h
  exact ⟨hu, p, hp, rfl⟩

theorem Mirrors.point (h : Mirrors s t) (v : NodeId) (objs : IdSet) :
    Alongside (s.point v objs) (t.point v objs) := by
  obtain ⟨hu, p, hp, rfl⟩ := h
  obtain ⟨hflag, hpts⟩ := hp.addAll v objs
  exact .of_eq hflag ⟨hu, _, hpts, rfl⟩

/-! ### Transfer functions -/

theorem Mirrors.visitAddr (h : Mirrors s t) (obj dst : NodeId) :
    Alongside (s.visitAddr obj dst) (t.visitAddr obj dst) := by
  obtain ⟨hu, p, hp, rfl⟩ := h
  obtain ⟨hflag, hpts⟩ := hp.add dst obj
  have hnone : t.heap.clones[obj]? = none := by rw [hu.unsplit.2.1]; exact Std.TreeMap.getElem?_emptyc
  have hnone' : (t.refined p).heap.clones[obj]? = none := hnone
  rw [Solver.visitAddr, Solver.visitAddr, hnone, hnone']
  exact .of_eq hflag ⟨hu, _, hpts, rfl⟩

theorem Mirrors.visitCopy (h : Mirrors s t) (src dst : NodeId) :
    Alongside (s.visitCopy src dst) (t.visitCopy src dst) := by
  obtain ⟨hu, p, hp, rfl⟩ := h
  obtain ⟨hflag, hpts⟩ := hp.copy dst src
  exact .of_eq hflag ⟨hu, _, hpts, rfl⟩

theorem Alongside.projectObject {r r' : IdSet × Solver} (h : Alongside r r') (stmt : NodeId)
    (offset : GepOffset) (obj : NodeId) :
    Agree Alongside (projectObject stmt offset r obj) (projectObject stmt offset r' obj) := by
  obtain @⟨objs, _, t, hu, p, hp, rfl⟩ := h
  -- Only the refined analysis asks whether the object is filtered.
  have hfiltered : (t.refined p).filters.isFiltered stmt obj = false := hu.isFiltered stmt obj
  simp only [Solver.projectObject, hfiltered, hu.typed, Bool.and_false, Bool.false_and,
    Bool.false_eq_true, if_false]
  refine .bind_same fun o _ => ?_
  split
  · exact .ok (.intro _ ⟨hu, p, hp, rfl⟩)
  cases offset with
  | variant => exact .ok (.intro _ ⟨hu, p, hp, rfl⟩)
  | field k =>
    refine .bind_same fun ty _ => ?_
    have hbeyond : t.isBeyondFields o ty k = false := by simp [Solver.isBeyondFields, hu.typed]
    simp only [hu.isBeyondFields p, hbeyond, Bool.false_eq_true, if_false]
    refine .bind_same fun r hr => ?_
    have hunsplit := (hu.unsplit.project hr).addRetrievers r.1.toList stmt
    exact .ok (.intro _ ⟨hu.withHeap hunsplit, p, hp, rfl⟩)

theorem Mirrors.visitGep (h : Mirrors s t) (stmt base dst : NodeId) (offset : GepOffset)
    (ty : Option TypeId) :
    Agree Alongside (s.visitGep stmt base dst offset ty) (t.visitGep stmt base dst offset ty) := by
  have hpts := h.pts base
  obtain ⟨hu, p, hp, rfl⟩ := h
  simp only [Solver.visitGep, hu.refine, hu.typed, pure_eq_ok, ite_self, ok_bind, Bool.false_and,
    Bool.false_eq_true, if_false, hpts]
  have hfold := Agree.foldlM (fun _ _ obj h => Alongside.projectObject h stmt offset obj)
    (t.pts base).toList (.intro ∅ ⟨hu, p, hp, rfl⟩)
  refine hfold.bind fun r r' hr => .ok ?_
  obtain ⟨objs, h⟩ := hr
  exact h.point dst objs

theorem Mirrors.loadObject (h : Mirrors s t) (stmt : NodeId) :
    s.loadObject stmt = t.loadObject stmt := by
  obtain ⟨-, p, -, rfl⟩ := h
  rfl

theorem Mirrors.visitLoad (h : Mirrors s t) (stmt ptr dst : NodeId) (ty : Option TypeId) :
    Agree Alongside (s.visitLoad stmt ptr dst ty) (t.visitLoad stmt ptr dst ty) := by
  have hseen := h.effective stmt ptr
  have hload := h.loadObject stmt
  have hm := h
  obtain ⟨hu, p, -, rfl⟩ := h
  simp only [Solver.visitLoad, hu.refine, hu.typed, pure_eq_ok, ite_self, ok_bind,
    Bool.false_eq_true, if_false, hseen, hload]
  exact .bind_same fun loaded _ => .ok (hm.point dst loaded)

theorem Alongside.storeObject {r r' : Bool × Solver} (h : Alongside r r') (stmt : NodeId)
    (stored : IdSet) (obj : NodeId) :
    Agree Alongside (storeObject stmt stored r obj) (storeObject stmt stored r' obj) := by
  obtain @⟨changed, _, t, hu, p, hp, rfl⟩ := h
  refine .bind_same fun o _ => ?_
  split
  · exact .ok (.intro _ ⟨hu, p, hp, rfl⟩)
  · exact .ok (.intro _ ⟨hu, p, hp, rfl⟩)

theorem Mirrors.visitStore (h : Mirrors s t) (stmt src ptr : NodeId) (ty : Option TypeId) :
    Agree Alongside (s.visitStore stmt src ptr ty) (t.visitStore stmt src ptr ty) := by
  have hseen := h.effective stmt ptr
  have hsrc := h.pts src
  have hptr := h.pts ptr
  have hm := h
  obtain ⟨hu, p, -, rfl⟩ := h
  simp only [Solver.visitStore, hu.refine, hu.typed, pure_eq_ok, ite_self, ok_bind,
    Bool.false_eq_true, if_false, hseen, hsrc, hptr]
  split
  · exact .ok (.intro _ hm)
  have hfold := Agree.foldlM (fun _ _ obj h => Alongside.storeObject h stmt (t.pts src) obj)
    (t.effective stmt ptr).toList (.intro false hm)
  refine hfold.bind fun r r' hr => ?_
  obtain ⟨changed, hu, q, hq, rfl⟩ := hr
  exact .bind_same fun killed _ => .ok (.intro _ ⟨hu, q, hq, rfl⟩)

theorem Alongside.mergeOperand {r r' : Bool × Solver} (h : Alongside r r') (dst operand : NodeId) :
    Alongside (mergeOperand dst r operand) (mergeOperand dst r' operand) := by
  have hcopy := h.snd.visitCopy operand dst
  exact .of_eq (congrArg₂ (· || ·) h.fst hcopy.fst) hcopy.snd

/-- The receiver of a constructor is merged like any operand. -/
theorem Mirrors.mergeReceiver (h : Mirrors s t) (stmt dst operand : NodeId) (ty : Option TypeId) :
    Agree Alongside (s.mergeReceiver stmt dst operand ty)
      (.ok (Solver.mergeOperand dst (false, t) operand)) := by
  obtain ⟨hu, p, hp, rfl⟩ := h
  obtain ⟨hflag, hpts⟩ := hp.addAll_copy dst operand
  simp only [Solver.mergeReceiver, hu.refine, ok_bind, hu.effective]
  exact .ok (.of_eq hflag ⟨hu, _, hpts, rfl⟩)

theorem Mirrors.visitPhi (h : Mirrors s t) (stmt dst : NodeId) (operands : List NodeId)
    (receiver : Option TypeId) :
    Agree Alongside (s.visitPhi stmt dst operands receiver) (t.visitPhi stmt dst operands receiver) := by
  cases operands with
  | nil => exact .ok (.intro _ h)
  | cons first rest =>
    have hrest : ∀ {r r' : Bool × Solver}, Alongside r r' →
        Alongside (rest.foldl (Solver.mergeOperand dst) r) (rest.foldl (Solver.mergeOperand dst) r') :=
      fun h => List.foldl_rel h fun operand _ _ _ h => h.mergeOperand dst operand
    simp only [Solver.visitPhi, h.1.typed, Bool.and_false, Bool.false_eq_true, if_false]
    split
    · exact (h.mergeReceiver stmt dst first receiver).bind fun _ _ hr => .ok (hrest hr)
    · exact .ok (hrest (.mergeOperand (.intro false h) dst first))

theorem Mirrors.transfer (h : Mirrors s t) (stmt : NodeId) :
    Agree Alongside (s.transfer stmt) (t.transfer stmt) := by
  rw [Solver.transfer, Solver.transfer, h.graph]
  refine .bind_same fun node _ => ?_
  split
  · exact .ok (h.visitAddr _ _)
  · exact .ok (h.visitCopy _ _)
  · exact h.visitGep stmt _ _ _ _
  · exact h.visitLoad stmt _ _ _
  · exact h.visitStore stmt _ _ _
  · exact h.visitPhi stmt _ _ _

/-! ### Runs -/

theorem Mirrors.propagateEdge (h : Mirrors s t) (fromOut : Bool) (stmt : NodeId)
    (edge : NodeId × IdSet) :
    Agree Mirrors (propagateEdge fromOut stmt s edge) (propagateEdge fromOut stmt t edge) := by
  obtain ⟨hu, p, hp, rfl⟩ := h
  refine .bind_same fun objs _ => .ok ?_
  have hflow : (t.refined p).flow = t.flow := rfl
  rw [hflow]
  obtain ⟨changed, flow⟩ := objs.toList.foldl (carry fromOut stmt edge.1) (false, t.flow)
  cases changed with
  | true => exact ⟨hu, p, hp, rfl⟩
  | false => exact ⟨hu, p, hp, rfl⟩

theorem Mirrors.propagate (h : Mirrors s t) (stmt : NodeId) :
    Agree Mirrors (s.propagate stmt) (t.propagate stmt) := by
  rw [Solver.propagate, Solver.propagate, h.graph]
  refine .bind_same fun node _ => ?_
  exact Agree.foldlM (fun _ _ edge h => h.propagateEdge _ stmt edge) _ h

theorem Mirrors.visit (h : Mirrors s t) (stmt : NodeId) :
    Agree Mirrors (s.visit stmt) (t.visit stmt) := by
  have hm : Mirrors { s with numProcessed := s.numProcessed + 1 }
      { t with numProcessed := t.numProcessed + 1 } := by
    obtain ⟨hu, p, hp, rfl⟩ := h
    exact ⟨hu, p, hp, rfl⟩
  refine (hm.transfer stmt).bind fun r r' hr => ?_
  obtain @⟨changed, s, t, h⟩ := hr
  cases changed with
  | true =>
    have hwoken := h.enqueue (s.graph.directSuccessors stmt)
    nth_rewrite 2 [h.graph] at hwoken
    exact hwoken.propagate stmt
  | false => exact h.propagate stmt

theorem Mirrors.step (h : Mirrors s t) : Agree Alongside s.step t.step := by
  rw [Solver.step, Solver.step, h.pending]
  split
  · exact .ok (.intro none h)
  case h_2 stmt pending _ =>
    have hm : Mirrors { s with pending } { t with pending } := by
      obtain ⟨hu, p, hp, rfl⟩ := h
      exact ⟨hu, p, hp, rfl⟩
    exact (hm.visit stmt).bind fun _ _ h => .ok (.intro (some stmt) h)

/-- What one step keeps, any number of steps keeps. -/
theorem Mirrors.runFor (h : Mirrors s t) (n : Nat) : Agree Mirrors (runFor n s) (runFor n t) := by
  induction n generalizing s t with
  | zero => exact .ok h
  | succ n ih =>
    refine h.step.bind fun r r' hr => ?_
    obtain ⟨visited, h⟩ := hr
    cases visited with
    | none => exact .ok h
    | some stmt => exact ih h

theorem Mirrors.registerObject (h : Mirrors s t) (obj : NodeId) :
    Agree Mirrors (s.registerObject obj) (t.registerObject obj) := by
  obtain ⟨hu, p, hp, rfl⟩ := h
  refine .bind_same fun ty _ => .bind_same fun heap hheap => .ok ?_
  exact ⟨hu.withHeap (hu.unsplit.register hheap), p, hp, rfl⟩

theorem Mirrors.registerSite (h : Mirrors s t) (stmt : NodeId) :
    Agree Mirrors (s.registerSite stmt) (t.registerSite stmt) := by
  obtain ⟨hu, p, hp, rfl⟩ := h
  refine .bind_same fun node _ => ?_
  split
  · exact .ok ⟨hu, p, hp, rfl⟩
  · exact .ok ⟨hu, p, hp, rfl⟩

theorem Mirrors.start (h : Mirrors s t) : Agree Mirrors s.start t.start := by
  rw [Solver.start, Solver.start, h.graph]
  refine (Agree.foldlM (fun _ _ obj h => h.registerObject obj) _ h).bind fun s₁ t₁ h₁ => ?_
  rw [h₁.graph]
  refine (Agree.foldlM (fun _ _ stmt h => h.registerSite stmt) _ h₁).bind fun s₂ t₂ h₂ => .ok ?_
  obtain ⟨hu, p, hp, rfl⟩ := h₂
  have hseeds : (addSeeds p t₂.graph.seeds.toList).Alike (addSeeds t₂.pointers t₂.graph.seeds.toList) :=
    List.foldl_rel (r := PointerSets.Alike) hp fun seed _ _ _ h => (h.add seed.1 seed.2).2
  exact ⟨hu, _, hseeds, rfl⟩

theorem Mirrors.solve (h : Mirrors s t) : Agree Mirrors s.solve t.solve := by
  have hbound : s.stepBound = t.stepBound := by
    obtain ⟨-, p, -, rfl⟩ := h
    rfl
  rw [Solver.solve, Solver.solve, hbound]
  exact h.runFor t.stepBound

/-- Two states that no answer of the analysis tells apart, in which no object was split and none is
    hidden from a statement. -/
structure Coincide (s t : Solver) : Prop where
  pending : s.pending = t.pending
  pts : ∀ v, s.pts v = t.pts v
  /-- The contents of all objects before and after all statements. -/
  flow : s.flow = t.flow
  /-- The objects with their fields, and which allocations are field-insensitive. -/
  heap : s.heap = t.heap
  numProcessed : s.numProcessed = t.numProcessed
  numStrongUpdates : s.numStrongUpdates = t.numStrongUpdates
  noClone : t.heap.numClones = 0 ∧ ∀ obj, t.heap.isClone obj = false
  unfiltered : ∀ stmt obj, s.filters.isFiltered stmt obj = false ∧ t.filters.isFiltered stmt obj = false

theorem Mirrors.coincide (h : Mirrors s t) : Coincide s t := by
  have hpts := h.pts
  obtain ⟨hu, p, hp, rfl⟩ := h
  obtain ⟨hcount, -, hprototypes⟩ := hu.unsplit
  refine ⟨rfl, hpts, rfl, rfl, rfl, rfl, ⟨hcount, fun obj => ?_⟩, fun stmt obj => ?_⟩
  · rw [Heap.isClone, hprototypes]
    exact Std.TreeMap.contains_emptyc
  · exact ⟨hu.isFiltered stmt obj, hu.isFiltered stmt obj⟩

/-- Without types the refined analysis of a graph goes in lockstep with the plain one, whatever the
    statements and objects are annotated with and whatever the other options: after any number of
    steps, and at the end, their states coincide or both failed with the same fault. -/
theorem untyped_refinement_is_plain (g : Graph) (options : Options) :
    let typed := Solver.new .empty g { options with analysis := .typedHeap }
    let plain := Solver.new .empty g { options with analysis := .flowSensitive }
    (∀ n, Agree Coincide (typed.start >>= runFor n) (plain.start >>= runFor n)) ∧
      Agree Coincide typed.analyze plain.analyze := by
  intro typed plain
  have hnew : Mirrors typed plain := ⟨⟨rfl, rfl, rfl, rfl, rfl, rfl⟩, ∅, fun _ => rfl, rfl⟩
  have hstart := hnew.start
  constructor
  · intro n
    exact (hstart.bind fun _ _ h => h.runFor n).mono fun _ _ h => h.coincide
  · exact (hstart.bind fun _ _ h => h.solve).mono fun _ _ h => h.coincide

end Solver

end PointsTo
