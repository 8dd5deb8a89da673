import Mathlib.Logic.Relation
import PointsTo.Proofs.Projection
import PointsTo.Proofs.Runs

/-! What an analysis does to its heap.

    It does four things, in whichever order: it clones an object, projects an object, collapses an
    allocation, or notes who asked for a field. Hence what each of these keeps, of a valid heap, holds
    of the heap in every state. -/

namespace PointsTo

namespace Heap

variable {g₀ : Graph} {tys : TypeId → Prop} {types : Hierarchy} {h h' : Heap}

/-- One thing that an analysis of a graph does to its heap. -/
inductive Edits (g₀ : Graph) (types : Hierarchy) (h : Heap) : Heap → Prop
  | clone {x c : NodeId} {o : ObjNode} {t : TypeId} {woken : List NodeId} {h' : Heap}
    (hx : h.graph.obj x = .ok o) (hs : o.isSpecial = false)
    (hclone : h.cloneAs x (some t) = .ok ((c, woken), h')) : Edits g₀ types h h'
  | project {x : NodeId} {o : ObjNode} {offset : Nat} {objs : IdSet} {h' : Heap}
    (hx : h.graph.obj x = .ok o) (hproj : h.project types x offset = .ok (objs, h')) :
    Edits g₀ types h h'
  | collapse (m : MemId) : Edits g₀ types h { h with graph := h.graph.collapse m }
  | retrieve (f : NodeId) {st : NodeId} (hst : st ∈ g₀.stmts.toList) :
    Edits g₀ types h (h.addRetriever f st)

/-- A heap is valid whatever types its objects are cloned at. -/
theorem Valid.anyTypes (hv : h.Valid g₀ tys) : h.Valid g₀ fun _ => True :=
  { hv with
    cloneType := fun hc => by
      obtain ⟨t, -, ht⟩ := hv.cloneType hc
      exact ⟨t, trivial, ht⟩ }

theorem Edits.valid (he : Edits g₀ types h h') (hv : h.Valid g₀ fun _ => True) :
    h'.Valid g₀ fun _ => True := by
  cases he with
  | clone hx hs hclone =>
    obtain ⟨c, woken, h₁, hclone', hv', -⟩ := cloneAs_spec hv hx hs trivial
    cases ok_unique hclone hclone'
    exact hv'
  | project hx hproj => exact ((project_spec hv hx).result hproj).1
  | collapse m => exact hv.collapse m
  | retrieve f hst =>
    refine hv.withRetrievers fun {f' st'} hmem => ?_
    rcases IdTable.mem_addTo.mp hmem with ⟨-, rfl⟩ | hold
    · exact hst
    · exact hv.retrievers hold

/-- What every edit keeps is kept by all of them in a row. -/
theorem keeps_of_edits {P : Heap → Prop}
    (hstep : ∀ {h h'}, h.Valid g₀ (fun _ => True) → P h → Edits g₀ types h h' → P h')
    (hedits : Relation.ReflTransGen (Edits g₀ types) h h') (hv : h.Valid g₀ fun _ => True)
    (hP : P h) : P h' := by
  suffices hboth : h'.Valid g₀ (fun _ => True) ∧ P h' from hboth.2
  induction hedits with
  | refl => exact ⟨hv, hP⟩
  | tail _ hlast ih => exact ⟨hlast.valid ih.1, hstep ih.1 ih.2 hlast⟩

end Heap

namespace Solver

variable {g₀ : Graph} {s s' s'' : Solver} {loc x : NodeId}

/-- The state worked on its heap by edits only. -/
structure Reworks (g₀ : Graph) (s s' : Solver) : Prop where
  types : s'.types = s.types
  heap : Relation.ReflTransGen (Heap.Edits g₀ s.types) s.heap s'.heap

namespace Reworks

theorem of_eq (htypes : s'.types = s.types) (hheap : s'.heap = s.heap) : Reworks g₀ s s' :=
  ⟨htypes, by rw [hheap]⟩

theorem trans (h : Reworks g₀ s s') (h' : Reworks g₀ s' s'') : Reworks g₀ s s'' :=
  ⟨h'.types.trans h.types, h.heap.trans (h.types ▸ h'.heap)⟩

theorem edit {h' : Heap} (he : Heap.Edits g₀ s.types s.heap h') : Reworks g₀ s { s with heap := h' } :=
  ⟨rfl, .single he⟩

/-- A fold whose steps work on the heap by edits does so as well. -/
theorem foldlM {σ α : Type} {f : σ → α → Except Fault σ} {xs : List α} {r r' : σ} (state : σ → Solver)
    (hstep : ∀ r x r', f r x = .ok r' → Reworks g₀ (state r) (state r'))
    (hfold : xs.foldlM f r = .ok r') : Reworks g₀ (state r) (state r') :=
  foldlM_result (I := fun _ u => Reworks g₀ (state r) (state u)) (.of_eq rfl rfl)
    (fun _ _ _ u v _ hu hv => hu.trans (hstep u _ v hv)) hfold

end Reworks

/-! ### Judging objects -/

theorem replace_reworks {accessed : TypeId} {objs : IdSet} {o : ObjNode} {r : IdSet × Solver}
    (ho : s.graph.obj x = .ok o) (hs : o.isSpecial = false)
    (h : s.replace loc x accessed objs = .ok r) : Reworks g₀ s r.2 := by
  rw [replace, bind_eq_ok] at h
  obtain ⟨⟨⟨c, woken⟩, heap⟩, hclone, h⟩ := h
  have hedit : Reworks g₀ s { s with heap } := .edit (.clone ho hs hclone)
  dsimp only at h
  split at h
  · cases h
    exact hedit.trans (.of_eq rfl rfl)
  · cases h
    exact hedit.trans (.of_eq rfl rfl)

theorem refineObject_reworks {accessed : TypeId} {reuse gep : Bool} {r r' : IdSet × Solver}
    (h : refineObject loc accessed reuse gep r x = .ok r') : Reworks g₀ r.2 r'.2 := by
  unfold refineObject at h
  dsimp only at h
  split at h
  · cases h
    exact .of_eq rfl rfl
  rw [bind_eq_ok] at h
  obtain ⟨o, ho, h⟩ := h
  split at h
  · cases h
    exact .of_eq rfl rfl
  case isFalse hs =>
    rw [bind_eq_ok] at h
    obtain ⟨ty, -, h⟩ := h
    rw [bind_eq_ok] at h
    obtain ⟨verdict, -, h⟩ := h
    cases verdict with
    | keep =>
      cases h
      exact .of_eq rfl rfl
    | clone => exact replace_reworks ho (by simpa using hs) h
    | hide =>
      cases h
      exact .of_eq rfl rfl

theorem refine_reworks {ptr : NodeId} {ty : Option TypeId} {reuse gep : Bool} {r : Bool × Solver}
    (h : s.refine loc ptr ty reuse gep = .ok r) : Reworks g₀ s r.2 := by
  unfold refine at h
  split at h
  · cases h
    exact .of_eq rfl rfl
  · rw [bind_eq_ok] at h
    obtain ⟨r', hfold, h⟩ := h
    have hjudged : Reworks g₀ s r'.2 :=
      Reworks.foldlM Prod.snd (fun _ _ _ h => refineObject_reworks h) hfold
    dsimp only at h
    cases h
    refine hjudged.trans (.of_eq ?_ ?_)
    · split <;> rfl
    · split <;> rfl

/-- A visit that starts by judging objects, or does not. -/
theorem ite_refine_reworks {c : Bool} {ptr : NodeId} {ty : Option TypeId} {reuse gep : Bool}
    {r : Bool × Solver}
    (h : (if c then s.refine loc ptr ty reuse gep else pure (false, s)) = .ok r) :
    Reworks g₀ s r.2 := by
  split at h
  · exact refine_reworks h
  · cases h
    exact .of_eq rfl rfl

/-! ### Visits -/

theorem foldl_addRetriever_reworks (hloc : loc ∈ g₀.stmts.toList) (types : Hierarchy) (fs : List NodeId)
    (h : Heap) :
    Relation.ReflTransGen (Heap.Edits g₀ types) h (fs.foldl (·.addRetriever · loc) h) := by
  induction fs generalizing h with
  | nil => exact .refl
  | cons f fs ih => exact (Relation.ReflTransGen.single (.retrieve f hloc)).trans (ih _)

theorem projectObject_reworks (hloc : loc ∈ g₀.stmts.toList) {offset : GepOffset}
    {r r' : IdSet × Solver} (h : projectObject loc offset r x = .ok r') : Reworks g₀ r.2 r'.2 := by
  unfold projectObject at h
  dsimp only at h
  split at h
  · cases h
    exact .of_eq rfl rfl
  rw [bind_eq_ok] at h
  obtain ⟨o, ho, h⟩ := h
  split at h
  · cases h
    exact .of_eq rfl rfl
  cases offset with
  | variant =>
    cases h
    exact .edit (.collapse o.mem)
  | field k =>
    rw [bind_eq_ok] at h
    obtain ⟨ty, -, h⟩ := h
    split at h
    · cases h
      exact .of_eq rfl rfl
    · rw [bind_eq_ok] at h
      obtain ⟨⟨fields, heap⟩, hproj, h⟩ := h
      have hedit : Reworks g₀ r.2 { r.2 with heap } := .edit (.project ho hproj)
      cases h
      exact hedit.trans ⟨rfl, foldl_addRetriever_reworks hloc _ _ _⟩

theorem visitGep_reworks (hloc : loc ∈ g₀.stmts.toList) {base dst : NodeId} {offset : GepOffset}
    {ty : Option TypeId} {r : Bool × Solver} (h : s.visitGep loc base dst offset ty = .ok r) :
    Reworks g₀ s r.2 := by
  obtain ⟨r₁, hrefine, h⟩ := ite_bind_eq_ok.mp h
  rw [bind_eq_ok] at h
  obtain ⟨r₂, hfold, h⟩ := h
  have hprojected : Reworks g₀ r₁.2 r₂.2 :=
    Reworks.foldlM Prod.snd (fun _ _ _ h => projectObject_reworks hloc h) hfold
  cases h
  exact ((ite_refine_reworks hrefine).trans hprojected).trans (.of_eq rfl rfl)

theorem visitLoad_reworks {ptr dst : NodeId} {ty : Option TypeId} {r : Bool × Solver}
    (h : s.visitLoad loc ptr dst ty = .ok r) : Reworks g₀ s r.2 := by
  obtain ⟨r₁, hrefine, h⟩ := ite_bind_eq_ok.mp h
  rw [bind_eq_ok] at h
  obtain ⟨loaded, -, h⟩ := h
  cases h
  exact (ite_refine_reworks hrefine).trans (.of_eq rfl rfl)

theorem storeObject_reworks {stored : IdSet} {r r' : Bool × Solver}
    (h : storeObject loc stored r x = .ok r') : Reworks g₀ r.2 r'.2 := by
  rw [storeObject, bind_eq_ok] at h
  obtain ⟨o, -, h⟩ := h
  split at h
  · cases h
    exact .of_eq rfl rfl
  · cases h
    exact .of_eq rfl rfl

theorem visitStore_reworks {src ptr : NodeId} {ty : Option TypeId} {r : Bool × Solver}
    (h : s.visitStore loc src ptr ty = .ok r) : Reworks g₀ s r.2 := by
  unfold visitStore at h
  split at h
  · cases h
    exact .of_eq rfl rfl
  · obtain ⟨r₁, hrefine, h⟩ := ite_bind_eq_ok.mp h
    rw [bind_eq_ok] at h
    obtain ⟨r₂, hfold, h⟩ := h
    rw [bind_eq_ok] at h
    obtain ⟨killed, -, h⟩ := h
    have hstored : Reworks g₀ (false, r₁.2).2 r₂.2 :=
      Reworks.foldlM Prod.snd (fun _ _ _ h => storeObject_reworks h) hfold
    cases h
    exact ((ite_refine_reworks hrefine).trans hstored).trans (.of_eq rfl rfl)

theorem foldl_mergeOperand_reworks (dst : NodeId) (operands : List NodeId) (r : Bool × Solver) :
    Reworks g₀ r.2 (operands.foldl (mergeOperand dst) r).2 := by
  induction operands generalizing r with
  | nil => exact .of_eq rfl rfl
  | cons v operands ih =>
    have hfirst : Reworks g₀ r.2 (mergeOperand dst r v).2 := .of_eq rfl rfl
    exact hfirst.trans (ih _)

theorem visitPhi_reworks {dst : NodeId} {operands : List NodeId} {receiver : Option TypeId}
    {r : Bool × Solver} (h : s.visitPhi loc dst operands receiver = .ok r) : Reworks g₀ s r.2 := by
  unfold visitPhi at h
  cases operands with
  | nil =>
    cases h
    exact .of_eq rfl rfl
  | cons first rest =>
    obtain ⟨r₁, hfirst, h⟩ := ite_bind_eq_ok.mp h
    cases h
    refine Reworks.trans ?_ (foldl_mergeOperand_reworks dst rest r₁)
    split at hfirst
    · rw [mergeReceiver, bind_eq_ok] at hfirst
      obtain ⟨r₀, hrefine, hfirst⟩ := hfirst
      cases hfirst
      exact (refine_reworks hrefine).trans (.of_eq rfl rfl)
    · cases hfirst
      exact .of_eq rfl rfl

theorem transfer_reworks (hloc : loc ∈ g₀.stmts.toList) {r : Bool × Solver}
    (h : s.transfer loc = .ok r) : Reworks g₀ s r.2 := by
  rw [transfer, bind_eq_ok] at h
  obtain ⟨n, -, h⟩ := h
  split at h
  · cases h
    unfold visitAddr
    dsimp only
    split
    · exact .of_eq rfl rfl
    · exact .of_eq rfl rfl
  · cases h
    exact .of_eq rfl rfl
  · exact visitGep_reworks hloc h
  · exact visitLoad_reworks h
  · exact visitStore_reworks h
  · exact visitPhi_reworks h

theorem propagate_reworks (h : s.propagate loc = .ok s') : Reworks g₀ s s' := by
  rw [propagate, bind_eq_ok] at h
  obtain ⟨n, -, h⟩ := h
  refine Reworks.foldlM id (fun u edge v hedge => ?_) h
  rw [propagateEdge, bind_eq_ok] at hedge
  obtain ⟨objs, -, hedge⟩ := hedge
  cases hedge
  split
  · exact .of_eq rfl rfl
  · exact .of_eq rfl rfl

theorem visit_reworks (hloc : loc ∈ g₀.stmts.toList) (h : s.visit loc = .ok s') : Reworks g₀ s s' := by
  rw [visit, bind_eq_ok] at h
  obtain ⟨r, htransfer, h⟩ := h
  have hcounted : Reworks g₀ s { s with numProcessed := s.numProcessed + 1 } := .of_eq rfl rfl
  refine (hcounted.trans (transfer_reworks hloc htransfer)).trans (Reworks.trans ?_ (propagate_reworks h))
  split
  · exact .of_eq rfl rfl
  · exact .of_eq rfl rfl

/-! ### Runs -/

theorem step_reworks (hv : s.Valid g₀) {st : NodeId} (h : s.step = .ok (some st, s')) :
    Reworks g₀ s s' := by
  unfold step at h
  split at h
  · cases h
  · rename_i st' pending hpop
    rw [bind_eq_ok] at h
    obtain ⟨u, hvisit, h⟩ := h
    cases h
    have hmem : st ∈ g₀.stmts.toList :=
      hv.pending (by rw [Worklist.pop?_some.mp hpop]; exact List.mem_cons_self)
    have hpopped : Reworks g₀ s { s with pending } := .of_eq rfl rfl
    exact hpopped.trans (visit_reworks hmem hvisit)

/-- Runs work on the heap by edits only. -/
theorem Run.reworks (hwf : g₀.WellFormed) (hv : s.Valid g₀) {k : Nat} (hrun : Run s k s') :
    Reworks g₀ s s' := by
  induction hrun with
  | start => exact .of_eq rfl rfl
  | reorder w _ _ ih => exact ih.trans (.of_eq rfl rfl)
  | step hrun hstep ih => exact ih.trans (step_reworks (hrun.extends hwf hv).1 hstep)

end Solver

end PointsTo
