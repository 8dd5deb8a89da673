import Mathlib.Data.Finset.Card
import PointsTo.Proofs.IdSet

/-! Sets of ids stand for finite sets.

    A set of ids denotes the finite set of what it lists. Operations on any number of registers are
    carried out twice, on sets of ids and on finite sets, where an operation tells whether the set of
    its register became another one. The two runs go side by side: each operation tells the same in
    both, and every register denotes the finite set in its place, whichever shapes the sets of ids
    have taken on the way. -/

namespace PointsTo

/-! ### What a set of ids denotes -/

namespace IdSet

variable {s t : IdSet} {x : Nat}

/-- The finite set that a set of ids denotes. -/
def toFinset (s : IdSet) : Finset Nat := s.toList.toFinset

@[simp] theorem mem_toFinset : x ∈ s.toFinset ↔ x ∈ s := by
  rw [toFinset, List.mem_toFinset, mem_toList]

@[simp] theorem toFinset_empty : (∅ : IdSet).toFinset = ∅ := rfl

theorem contains_eq_decide_mem (s : IdSet) (x : Nat) : s.contains x = decide (x ∈ s.toFinset) := by
  simp only [contains_eq_decide, mem_toFinset]

theorem count_eq_card (s : IdSet) : s.count = s.toFinset.card := by
  rw [count_eq_length, toFinset, List.toFinset_card_of_nodup s.nodup_toList]

theorem isEmpty_eq_decide (s : IdSet) : s.isEmpty = decide (s.toFinset = ∅) := by
  rw [Bool.eq_iff_iff, isEmpty_iff, decide_eq_true_iff, Finset.eq_empty_iff_forall_notMem]
  simp only [mem_toFinset]

theorem superset_eq_decide (s t : IdSet) : s.superset t = decide (t.toFinset ⊆ s.toFinset) := by
  rw [Bool.eq_iff_iff, superset_iff, decide_eq_true_iff, Finset.subset_iff]
  simp only [mem_toFinset]

theorem intersects_eq_decide (s t : IdSet) :
    s.intersects t = decide (¬ Disjoint s.toFinset t.toFinset) := by
  rw [Bool.eq_iff_iff, intersects_iff, decide_eq_true_iff, Finset.not_disjoint_iff]
  simp only [mem_toFinset]

/-- Equally many elements, all of the one among those of the other, make one set. -/
theorem sameElems_eq_decide (s t : IdSet) : s.sameElems t = decide (s.toFinset = t.toFinset) := by
  rw [Bool.eq_iff_iff, sameElems, Bool.and_eq_true, beq_iff_eq, superset_eq_decide, count_eq_card,
    count_eq_card, decide_eq_true_iff, decide_eq_true_iff]
  constructor
  · rintro ⟨hcard, hsub⟩
    exact (Finset.eq_of_subset_of_card_le hsub hcard.le).symm
  · intro heq
    rw [heq]
    exact ⟨rfl, subset_rfl⟩

/-! ### What the operations denote -/

/-- A set of ids becomes one that denotes `S`, and the flag tells whether that is another set. -/
structure Becomes (s : IdSet) (r : Bool × IdSet) (S : Finset Nat) : Prop where
  denotes : r.2.toFinset = S
  flag : r.1 = true ↔ S ≠ s.toFinset

theorem becomes_insert (s : IdSet) (x : Nat) : Becomes s (s.insert x) (Insert.insert x s.toFinset) where
  denotes := by
    ext y
    simp
  flag := by rw [insert_fst, ne_eq, Finset.insert_eq_self, mem_toFinset]

theorem becomes_erase (s : IdSet) (x : Nat) : Becomes s (s.erase x) (s.toFinset.erase x) where
  denotes := by
    ext y
    simp [and_comm]
  flag := by rw [erase_fst, ne_eq, Finset.erase_eq_self, mem_toFinset, not_not]

theorem becomes_union (s t : IdSet) : Becomes s (s.union t) (s.toFinset ∪ t.toFinset) where
  denotes := by
    ext y
    simp
  flag := by
    rw [union_fst, ne_eq, Finset.union_eq_left, Finset.not_subset]
    simp only [mem_toFinset]

theorem becomes_subtract (s t : IdSet) : Becomes s (s.subtract t) (s.toFinset \ t.toFinset) where
  denotes := by
    ext y
    simp
  flag := by
    rw [subtract_fst, ne_eq, sdiff_eq_left, Finset.not_disjoint_iff]
    simp only [mem_toFinset]

theorem becomes_intersect (s t : IdSet) : Becomes s (s.intersect t) (s.toFinset ∩ t.toFinset) where
  denotes := by
    ext y
    simp
  flag := by
    rw [intersect_fst, ne_eq, Finset.inter_eq_left, Finset.not_subset]
    simp only [mem_toFinset]

end IdSet

/-! ### Registers -/

/-- An operation on the set of a register. -/
inductive SetOp where
  | insert (r x : Nat)
  | erase (r x : Nat)
  | union (r q : Nat)
  | subtract (r q : Nat)
  | intersect (r q : Nat)
  | clear (r : Nat)
  /-- Register `r` takes the set of register `q`. -/
  | copy (r q : Nat)
  deriving DecidableEq, Repr

namespace SetOp

/-- Puts a changed set of ids into its register and passes on its flag. -/
def put (regs : Nat → IdSet) (r : Nat) (p : Bool × IdSet) : Option Bool × (Nat → IdSet) :=
  (some p.1, Function.update regs r p.2)

/-- Carries out an operation on sets of ids. -/
def onIds (regs : Nat → IdSet) : SetOp → Option Bool × (Nat → IdSet)
  | insert r x => put regs r ((regs r).insert x)
  | erase r x => put regs r ((regs r).erase x)
  | union r q => put regs r ((regs r).union (regs q))
  | subtract r q => put regs r ((regs r).subtract (regs q))
  | intersect r q => put regs r ((regs r).intersect (regs q))
  | clear r => (none, Function.update regs r ∅)
  | copy r q => (none, Function.update regs r (regs q))

/-- Gives a register another finite set and tells whether it is another one. -/
def change (sets : Nat → Finset Nat) (r : Nat) (S : Finset Nat) : Option Bool × (Nat → Finset Nat) :=
  (some (decide (S ≠ sets r)), Function.update sets r S)

/-- Carries out an operation on finite sets. -/
def onSets (sets : Nat → Finset Nat) : SetOp → Option Bool × (Nat → Finset Nat)
  | insert r x => change sets r (Insert.insert x (sets r))
  | erase r x => change sets r ((sets r).erase x)
  | union r q => change sets r (sets r ∪ sets q)
  | subtract r q => change sets r (sets r \ sets q)
  | intersect r q => change sets r (sets r ∩ sets q)
  | clear r => (none, Function.update sets r ∅)
  | copy r q => (none, Function.update sets r (sets q))

/-- Carries out operations one after the other, and lists what each of them tells. -/
def runFrom {σ : Type} (act : σ → SetOp → Option Bool × σ) : σ → List SetOp → List (Option Bool) × σ
  | s, [] => ([], s)
  | s, op :: ops =>
    let r := act s op
    let rest := runFrom act r.2 ops
    (r.1 :: rest.1, rest.2)

/-- Operations on sets of ids that are empty at first. -/
def runOnIds (ops : List SetOp) : List (Option Bool) × (Nat → IdSet) := runFrom onIds (fun _ => ∅) ops

/-- Operations on finite sets that are empty at first. -/
def runOnSets (ops : List SetOp) : List (Option Bool) × (Nat → Finset Nat) :=
  runFrom onSets (fun _ => ∅) ops

/-- What the registers denote. -/
def denote (regs : Nat → IdSet) : Nat → Finset Nat := fun r => (regs r).toFinset

theorem denote_update (regs : Nat → IdSet) (r : Nat) (s : IdSet) :
    denote (Function.update regs r s) = Function.update (denote regs) r s.toFinset := by
  funext q
  by_cases hq : q = r
  · subst hq
    simp [denote]
  · simp [denote, hq]

theorem change_denote {regs : Nat → IdSet} {r : Nat} {p : Bool × IdSet} {S : Finset Nat}
    (h : (regs r).Becomes p S) :
    change (denote regs) r S = ((put regs r p).1, denote (put regs r p).2) := by
  have hflag : decide (S ≠ denote regs r) = p.1 := by
    rw [Bool.eq_iff_iff, decide_eq_true_iff, h.flag, denote]
  rw [change, put, hflag, denote_update, h.denotes]

/-- One operation tells the same on sets of ids as on what they denote, and leads to what they denote
    afterwards. -/
theorem onSets_denote (regs : Nat → IdSet) (op : SetOp) :
    onSets (denote regs) op = ((onIds regs op).1, denote (onIds regs op).2) := by
  cases op with
  | insert r x => exact change_denote (IdSet.becomes_insert _ _)
  | erase r x => exact change_denote (IdSet.becomes_erase _ _)
  | union r q => exact change_denote (IdSet.becomes_union _ _)
  | subtract r q => exact change_denote (IdSet.becomes_subtract _ _)
  | intersect r q => exact change_denote (IdSet.becomes_intersect _ _)
  | clear r => rw [onSets, onIds, denote_update, IdSet.toFinset_empty]
  | copy r q => rw [onSets, onIds, denote_update, denote]

theorem runFrom_denote (ops : List SetOp) (regs : Nat → IdSet) :
    runFrom onSets (denote regs) ops =
      ((runFrom onIds regs ops).1, denote (runFrom onIds regs ops).2) := by
  induction ops generalizing regs with
  | nil => rfl
  | cons op ops ih => rw [runFrom, onSets_denote, ih, runFrom]

theorem runOnSets_eq (ops : List SetOp) :
    runOnSets ops = ((runOnIds ops).1, denote (runOnIds ops).2) :=
  runFrom_denote ops fun _ => ∅

/-- Sets of ids behave as finite sets under all operations, in any number of registers. Each operation
    that changes a set tells whether it did; each register denotes the finite set that the operations
    define; membership, number of elements, emptiness, inclusion, common elements and equality are
    those of the finite sets; every element is listed once; and a set in the small shape never has
    more than 32 elements, all different. -/
theorem registers_denote_sets (ops : List SetOp) :
    let regs := (runOnIds ops).2
    let sets := (runOnSets ops).2
    (runOnIds ops).1 = (runOnSets ops).1 ∧ ∀ r,
      (regs r).toList.Nodup ∧ (∀ x, x ∈ (regs r).toList ↔ x ∈ sets r) ∧
      (∀ x, (regs r).contains x = decide (x ∈ sets r)) ∧
      (regs r).count = (sets r).card ∧ (regs r).isEmpty = decide (sets r = ∅) ∧
      (∀ s, regs r = .small s → s.elems.length ≤ 32 ∧ s.elems.Nodup) ∧
      ∀ q, (regs r).superset (regs q) = decide (sets q ⊆ sets r) ∧
        (regs r).intersects (regs q) = decide (¬ Disjoint (sets r) (sets q)) ∧
        (regs r).sameElems (regs q) = decide (sets r = sets q) := by
  rw [runOnSets_eq]
  refine ⟨rfl, fun r => ⟨IdSet.nodup_toList _, fun x => ?_, IdSet.contains_eq_decide_mem _,
    IdSet.count_eq_card _, IdSet.isEmpty_eq_decide _, fun s _ => ⟨s.length_le, s.nodup⟩,
    fun q => ⟨IdSet.superset_eq_decide _ _, IdSet.intersects_eq_decide _ _,
      IdSet.sameElems_eq_decide _ _⟩⟩⟩
  exact IdSet.mem_toList.trans IdSet.mem_toFinset.symm

end SetOp

end PointsTo
