import PointsTo.Proofs.SetRegisters
import PointsTo.Proofs.Tables

/-! The two maps of points-to sets.

    Five operations change the points-to sets of variables and, separately, the map from elements to
    the variables that hold them. Whatever the operations and their order, a variable is among the
    holders of an element exactly if the element is in its set. Each operation does to the sets what
    it does to the finite sets they denote, tells whether the set of its variable became another one,
    and leaves the entries of all other variables as they are. -/

namespace PointsTo

namespace PointerSets

variable {p : PointerSets} {var elem v x : Nat} {h : IdTable}

/-! ### Holders -/

theorem mem_hold {elems : List Nat} :
    v ∈ (hold h var elems).setAt x ↔ (x ∈ elems ∧ v = var) ∨ v ∈ h.setAt x := by
  induction elems generalizing h with
  | nil => simp [hold]
  | cons y elems ih =>
    have hstep : hold h var (y :: elems) = hold (h.addTo y var).2 var elems := rfl
    rw [hstep, ih, IdTable.mem_addTo, List.mem_cons]
    tauto

theorem mem_release : v ∈ (release h var elem).setAt x ↔ v ∈ h.setAt x ∧ ¬ (x = elem ∧ v = var) := by
  rw [release]
  cases hget : h[elem]? with
  | none =>
    have hnone : h.setAt elem = ∅ := IdTable.setAt_of_none hget
    refine ⟨fun hv => ⟨hv, ?_⟩, And.left⟩
    rintro ⟨rfl, -⟩
    exact IdSet.not_mem_empty v (hnone ▸ hv)
  | some s =>
    have hsome : h.setAt elem = s := IdTable.setAt_of_some hget
    rw [IdTable.setAt_insert]
    by_cases hx : elem = x
    · subst hx
      rw [if_pos rfl, IdSet.mem_erase, hsome]
      tauto
    · rw [if_neg hx]
      exact ⟨fun hv => ⟨hv, fun hxv => hx hxv.1.symm⟩, And.left⟩

theorem mem_foldl_release {elems : List Nat} :
    v ∈ IdTable.setAt (elems.foldl (release · var) h) x ↔
      v ∈ h.setAt x ∧ ¬ (x ∈ elems ∧ v = var) := by
  induction elems generalizing h with
  | nil => simp
  | cons y elems ih =>
    rw [List.foldl_cons, ih, mem_release, List.mem_cons]
    tauto

/-! ### The entries of variables -/

theorem get?_add (p : PointerSets) (var elem v : Nat) :
    (p.add var elem).2.get? v = if var = v then some ((p.pts var).insert elem).2 else p.get? v := by
  simp only [get?, add, IdTable.addTo, Std.TreeMap.getElem?_insert, Nat.compare_eq_eq, pts]

theorem get?_addAll (p : PointerSets) (var : Nat) (elems : IdSet) (v : Nat) :
    (p.addAll var elems).2.get? v =
      if var = v then some ((p.pts var).union elems).2 else p.get? v := by
  simp only [get?, addAll, IdTable.unionInto, Std.TreeMap.getElem?_insert, Nat.compare_eq_eq, pts]

theorem get?_copy_of_ne {dst : Nat} (src : Nat) (hne : v ≠ dst) :
    (p.copy dst src).2.get? v = p.get? v := by
  rw [copy]
  by_cases heq : dst = src
  · rw [if_pos heq]
  · rw [if_neg heq]
    cases p.get? src with
    | none => rfl
    | some s => exact (get?_addAll p dst s v).trans (if_neg hne.symm)

theorem get?_clearVar_of_ne (hne : v ≠ var) : (p.clearVar var).get? v = p.get? v := by
  rw [clearVar]
  cases p.get? var with
  | none => rfl
  | some s =>
    show (p.sets.insert var ∅)[v]? = p.sets[v]?
    rw [Std.TreeMap.getElem?_insert, if_neg]
    rw [Nat.compare_eq_eq]
    exact hne.symm

theorem mem_pts_clearVar : x ∈ (p.clearVar var).pts v ↔ v ≠ var ∧ x ∈ p.pts v := by
  rw [clearVar]
  cases hget : p.get? var with
  | none =>
    have hnone : p.pts var = ∅ := IdTable.setAt_of_none hget
    refine ⟨fun hx => ⟨?_, hx⟩, And.right⟩
    rintro rfl
    exact IdSet.not_mem_empty x (hnone ▸ hx)
  | some s =>
    show x ∈ IdTable.setAt (p.sets.insert var ∅) v ↔ _
    rw [IdTable.setAt_insert]
    by_cases hv : var = v
    · simp [hv]
    · rw [if_neg hv]
      exact ⟨fun hx => ⟨Ne.symm hv, hx⟩, And.right⟩

/-! ### The maps are inverse to each other -/

/-- A variable is among the holders of an element exactly if the element is in its set. -/
def Inverse (p : PointerSets) : Prop := ∀ v x, v ∈ p.holders.setAt x ↔ x ∈ p.pts v

theorem inverse_empty : (∅ : PointerSets).Inverse := fun v x => by
  have hholders : (∅ : PointerSets).holders.setAt x = ∅ := IdTable.setAt_empty x
  simp [hholders]

theorem Inverse.add (hp : p.Inverse) (var elem : Nat) : (p.add var elem).2.Inverse := by
  intro v x
  have hholders : (p.add var elem).2.holders = hold p.holders var [elem] := rfl
  rw [hholders, mem_hold, mem_pts_add, hp v x, List.mem_singleton, and_comm]

theorem Inverse.addAll (hp : p.Inverse) (var : Nat) (elems : IdSet) :
    (p.addAll var elems).2.Inverse := by
  intro v x
  have hholders : (p.addAll var elems).2.holders = hold p.holders var elems.toList := rfl
  rw [hholders, mem_hold, mem_pts_addAll, hp v x, IdSet.mem_toList, and_comm]

theorem Inverse.copy (hp : p.Inverse) (dst src : Nat) : (p.copy dst src).2.Inverse := by
  rw [PointerSets.copy]
  by_cases heq : dst = src
  · rw [if_pos heq]
    exact hp
  · rw [if_neg heq]
    cases p.get? src with
    | none => exact hp
    | some s => exact hp.addAll dst s

/-- Taking a variable out of the holders of what its set lists is enough, because it is among the
    holders of nothing else. -/
theorem Inverse.clearVar (hp : p.Inverse) (var : Nat) : (p.clearVar var).Inverse := by
  intro v x
  rw [mem_pts_clearVar, PointerSets.clearVar]
  cases hget : p.get? var with
  | none =>
    have hnone : p.pts var = ∅ := IdTable.setAt_of_none hget
    show v ∈ p.holders.setAt x ↔ _
    rw [hp v x]
    refine ⟨fun hx => ⟨?_, hx⟩, And.right⟩
    rintro rfl
    exact IdSet.not_mem_empty x (hnone ▸ hx)
  | some s =>
    have hsome : p.pts var = s := IdTable.setAt_of_some hget
    show v ∈ IdTable.setAt (s.toList.foldl (release · var) p.holders) x ↔ _
    rw [mem_foldl_release, hp v x, IdSet.mem_toList, ← hsome, and_comm]
    refine and_congr_left fun hx => not_congr ⟨And.right, ?_⟩
    rintro rfl
    exact ⟨hx, rfl⟩

end PointerSets

/-! ### Operations -/

/-- An operation on points-to sets. -/
inductive PointerOp where
  | add (var elem : Nat)
  | addAll (var : Nat) (elems : IdSet)
  | copy (dst src : Nat)
  | clearVar (var : Nat)
  | clear
  deriving DecidableEq, Repr

namespace PointerOp

/-- Passes on the flag of an operation that has one. -/
def tell (r : Bool × PointerSets) : Option Bool × PointerSets := (some r.1, r.2)

/-- Carries out an operation; one that adds to a set tells whether the set changed. -/
def perform (p : PointerSets) : PointerOp → Option Bool × PointerSets
  | add var elem => tell (p.add var elem)
  | addAll var elems => tell (p.addAll var elems)
  | copy dst src => tell (p.copy dst src)
  | clearVar var => (none, p.clearVar var)
  | clear => (none, ∅)

/-- The points-to sets after operations that start with none. -/
def after (ops : List PointerOp) : PointerSets := ops.foldl (fun p op => (perform p op).2) ∅

/-- The variable to which an operation is applied; clearing everything is applied to none. -/
def target? : PointerOp → Option Nat
  | add var _ | addAll var _ | copy var _ | clearVar var => some var
  | clear => none

/-- Does an operation add to a set? -/
def adds : PointerOp → Bool
  | add _ _ | addAll _ _ | copy _ _ => true
  | clearVar _ | clear => false

/-- What an operation makes of finite sets. -/
def onSets (sets : Nat → Finset Nat) : PointerOp → Nat → Finset Nat
  | add var elem => Function.update sets var (insert elem (sets var))
  | addAll var elems => Function.update sets var (sets var ∪ elems.toFinset)
  | copy dst src => Function.update sets dst (sets dst ∪ sets src)
  | clearVar var => Function.update sets var ∅
  | clear => fun _ => ∅

end PointerOp

/-- The finite sets that variables point to. -/
def PointerSets.denote (p : PointerSets) : Nat → Finset Nat := fun var => (p.pts var).toFinset

namespace PointerOp

variable (p : PointerSets)

/-- A set of which the members are known is the set that an update puts in its place. -/
theorem denote_eq_update {q : PointerSets} {var : Nat} {S : Finset Nat}
    (hmem : ∀ v x, x ∈ q.pts v ↔ if v = var then x ∈ S else x ∈ p.pts v) :
    q.denote = Function.update p.denote var S := by
  funext v
  ext x
  rw [PointerSets.denote, IdSet.mem_toFinset, hmem v x]
  by_cases hv : v = var
  · subst hv
    rw [if_pos rfl, Function.update_self]
  · rw [if_neg hv, Function.update_of_ne hv, PointerSets.denote, IdSet.mem_toFinset]

theorem denote_perform (op : PointerOp) : (perform p op).2.denote = onSets p.denote op := by
  cases op with
  | add var elem =>
    refine denote_eq_update p fun v x => ?_
    simp only [perform, tell, PointerSets.mem_pts_add, PointerSets.denote, Finset.mem_insert,
      IdSet.mem_toFinset]
    by_cases hv : v = var <;> simp [hv]
  | addAll var elems =>
    refine denote_eq_update p fun v x => ?_
    simp only [perform, tell, PointerSets.mem_pts_addAll, PointerSets.denote, Finset.mem_union,
      IdSet.mem_toFinset]
    by_cases hv : v = var <;> simp [hv, or_comm]
  | copy dst src =>
    refine denote_eq_update p fun v x => ?_
    simp only [perform, tell, PointerSets.mem_pts_copy, PointerSets.denote, Finset.mem_union,
      IdSet.mem_toFinset]
    by_cases hv : v = dst <;> simp [hv, or_comm]
  | clearVar var =>
    refine denote_eq_update p fun v x => ?_
    simp only [perform, PointerSets.mem_pts_clearVar, Finset.notMem_empty]
    by_cases hv : v = var <;> simp [hv]
  | clear =>
    funext v
    simp [perform, onSets, PointerSets.denote]

theorem tell_fst {r : Bool × PointerSets} {S T : Finset Nat} (hflag : r.1 = true ↔ S ≠ T) :
    (tell r).1 = some (decide (S ≠ T)) :=
  congrArg some (Bool.eq_iff_iff.mpr (hflag.trans decide_eq_true_iff.symm))

/-- The flag of an addition tells whether the set of its variable became another one. -/
theorem perform_fst {op : PointerOp} {var : Nat} (hvar : op.target? = some var) :
    (perform p op).1 =
      if op.adds then some (decide ((perform p op).2.denote var ≠ p.denote var)) else none := by
  rw [denote_perform]
  cases op with
  | add v elem =>
    obtain rfl := Option.some_inj.mp hvar
    simp only [onSets, Function.update_self]
    exact tell_fst (IdSet.becomes_insert (p.pts v) elem).flag
  | addAll v elems =>
    obtain rfl := Option.some_inj.mp hvar
    simp only [onSets, Function.update_self]
    exact tell_fst (IdSet.becomes_union (p.pts v) elems).flag
  | copy v src =>
    obtain rfl := Option.some_inj.mp hvar
    simp only [onSets, Function.update_self]
    refine tell_fst ?_
    rw [(PointerSets.copy_eq_addAll p v src).1]
    exact (IdSet.becomes_union (p.pts v) (p.pts src)).flag
  | clearVar v => rfl
  | clear => rfl

/-- An operation leaves alone the entries of the variables to which it is not applied. -/
theorem get?_perform_of_ne {op : PointerOp} {var v : Nat} (hvar : op.target? = some var)
    (hne : v ≠ var) : (perform p op).2.get? v = p.get? v := by
  cases op with
  | add w elem =>
    obtain rfl := Option.some_inj.mp hvar
    exact (PointerSets.get?_add p w elem v).trans (if_neg hne.symm)
  | addAll w elems =>
    obtain rfl := Option.some_inj.mp hvar
    exact (PointerSets.get?_addAll p w elems v).trans (if_neg hne.symm)
  | copy w src =>
    obtain rfl := Option.some_inj.mp hvar
    exact PointerSets.get?_copy_of_ne src hne
  | clearVar w =>
    obtain rfl := Option.some_inj.mp hvar
    exact PointerSets.get?_clearVar_of_ne hne
  | clear => cases hvar

theorem inverse_perform {p : PointerSets} (hp : p.Inverse) (op : PointerOp) :
    (perform p op).2.Inverse := by
  cases op with
  | add var elem => exact hp.add var elem
  | addAll var elems => exact hp.addAll var elems
  | copy dst src => exact hp.copy dst src
  | clearVar var => exact hp.clearVar var
  | clear => exact PointerSets.inverse_empty

theorem inverse_after (ops : List PointerOp) : (after ops).Inverse := by
  refine List.foldlRecOn ops _ PointerSets.inverse_empty fun p hp op _ => ?_
  exact inverse_perform hp op

/-- After any operations, a variable is among the holders of an element exactly if the element is in
    its set. The next operation, whichever it is, does to the sets what it does to finite sets; its
    flag tells whether the set of its variable became another one; and the entries of all other
    variables stay as they are. -/
theorem maps_stay_inverse (ops : List PointerOp) :
    let p := after ops
    (∀ var elem, (∃ s ∈ p.holders? elem, var ∈ s) ↔ ∃ s ∈ p.get? var, elem ∈ s) ∧
    ∀ op : PointerOp, (perform p op).2.denote = onSets p.denote op ∧
      ∀ var, op.target? = some var →
        ((perform p op).1 =
          if op.adds then some (decide ((perform p op).2.denote var ≠ p.denote var)) else none) ∧
        ∀ v, v ≠ var → (perform p op).2.get? v = p.get? v := by
  intro p
  refine ⟨fun var elem => ?_, fun op => ⟨denote_perform p op, fun var hvar =>
    ⟨perform_fst p hvar, fun v hne => get?_perform_of_ne p hvar hne⟩⟩⟩
  rw [PointerSets.holders?, IdTable.exists_mem_entry_iff, PointerSets.get?,
    IdTable.exists_mem_entry_iff]
  exact inverse_after ops var elem

/-- A set of two elements is copied to another variable. -/
theorem maps_stay_inverse_copied :
    let p := after [.add 1 10, .add 1 11]
    target? (.copy 2 1) = some 2 ∧ (perform p (.copy 2 1)).1 = some true ∧
      (perform p (.copy 2 1)).2.get? 1 = p.get? 1 := by
  intro p
  have hcopy := ((maps_stay_inverse [.add 1 10, .add 1 11]).2 (.copy 2 1)).2 2 rfl
  refine ⟨rfl, hcopy.1.trans ?_, hcopy.2 1 (by decide)⟩
  decide +kernel

end PointerOp

end PointsTo
