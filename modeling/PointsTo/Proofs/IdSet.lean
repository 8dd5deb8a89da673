import Mathlib.Data.List.Perm.Subperm
import PointsTo.IdSet
import PointsTo.Proofs.BitSet

/-! What sets of ids denote.

    Membership, enumeration and the flags of the operations agree with finite sets of naturals,
    whichever of the two shapes the operands have. -/

namespace PointsTo.IdSet

theorem mem_iff {x : Nat} {s : IdSet} : x ∈ s ↔ s.contains x = true := Iff.rfl

theorem contains_eq_decide (s : IdSet) (x : Nat) : s.contains x = decide (x ∈ s) := by
  by_cases h : x ∈ s
  · rw [mem_iff.mp h]; simp [h]
  · have hc : s.contains x = false := by simpa [mem_iff] using h
    simp [h, hc]

@[simp] theorem mem_small {x : Nat} {s : SmallSet} : x ∈ IdSet.small s ↔ x ∈ s.elems := by
  simp [mem_iff, contains]

@[simp] theorem mem_large {x : Nat} {b : BitSet} : x ∈ IdSet.large b ↔ b.contains x = true := Iff.rfl

@[simp] theorem not_mem_empty (x : Nat) : x ∉ (∅ : IdSet) := by
  show x ∉ IdSet.small .empty
  simp [SmallSet.empty]

@[simp] theorem mem_toList {x : Nat} {s : IdSet} : x ∈ s.toList ↔ x ∈ s := by
  cases s with
  | small s => simp [toList]
  | large b => simp [toList]

theorem nodup_toList (s : IdSet) : s.toList.Nodup := by
  cases s with
  | small s => exact s.nodup
  | large b => exact b.nodup_toList

theorem count_eq_length (s : IdSet) : s.count = s.toList.length := by
  cases s with
  | small s => rfl
  | large b => exact b.count_eq_length

theorem isEmpty_iff {s : IdSet} : s.isEmpty = true ↔ ∀ x, x ∉ s := by
  cases s with
  | small s =>
    simp only [isEmpty, mem_small, List.isEmpty_iff]
    exact List.eq_nil_iff_forall_not_mem
  | large b =>
    simp only [isEmpty, mem_large, BitSet.isEmpty_iff, Bool.not_eq_true]

theorem exists_mem_of_not_isEmpty {s : IdSet} (h : s.isEmpty = false) : ∃ x, x ∈ s := by
  by_contra hall
  have : s.isEmpty = true := isEmpty_iff.mpr (fun x hx => hall ⟨x, hx⟩)
  rw [h] at this
  cases this

/-! ### Insertion -/

@[simp] theorem mem_insert {s : IdSet} {x y : Nat} : y ∈ (s.insert x).2 ↔ y = x ∨ y ∈ s := by
  cases s with
  | small s =>
    rw [insert]
    by_cases hx : x ∈ s.elems
    · rw [dif_pos hx]
      simp only [mem_small]
      constructor
      · exact Or.inr
      · rintro (rfl | h)
        · exact hx
        · exact h
    · rw [dif_neg hx]
      by_cases hs : s.elems.length < smallCapacity
      · rw [dif_pos hs]
        simp only [mem_small, SmallSet.push, List.mem_append, List.mem_singleton]
        exact or_comm
      · rw [dif_neg hs]
        simp
  | large b => simp [insert]

theorem insert_fst {s : IdSet} {x : Nat} : (s.insert x).1 = true ↔ x ∉ s := by
  cases s with
  | small s =>
    rw [insert]
    by_cases hx : x ∈ s.elems
    · simp [hx]
    · rw [dif_neg hx]
      by_cases hs : s.elems.length < smallCapacity
      · simp [hs, hx]
      · simp [hs, hx, BitSet.insert_fst]
  | large b => simp [insert, BitSet.insert_fst]

/-- What a fold of insertions yields, flag and set, from any start. -/
theorem foldl_insert (xs : List Nat) (changed : Bool) (s : IdSet) :
    let r := xs.foldl (fun (p : Bool × IdSet) x => (p.1 || (p.2.insert x).1, (p.2.insert x).2))
      (changed, s)
    (∀ y, y ∈ r.2 ↔ y ∈ xs ∨ y ∈ s) ∧ (r.1 = true ↔ changed = true ∨ ∃ x ∈ xs, x ∉ s) := by
  induction xs generalizing changed s with
  | nil => simp
  | cons x xs ih =>
    obtain ⟨hmem, hflag⟩ := ih (changed || (s.insert x).1) (s.insert x).2
    refine ⟨fun y => ?_, ?_⟩
    · rw [List.foldl_cons, hmem, mem_insert, List.mem_cons]
      tauto
    · rw [List.foldl_cons, hflag, Bool.or_eq_true, insert_fst]
      constructor
      · rintro ((h | h) | ⟨y, hy, hys⟩)
        · exact Or.inl h
        · exact Or.inr ⟨x, List.mem_cons_self, h⟩
        · exact Or.inr ⟨y, List.mem_cons_of_mem _ hy, fun h => hys (mem_insert.mpr (Or.inr h))⟩
      · rintro (h | ⟨y, hy, hys⟩)
        · exact Or.inl (Or.inl h)
        · by_cases hxs : x ∈ s
          · have hyx : y ≠ x := by rintro rfl; exact hys hxs
            refine Or.inr ⟨y, (List.mem_cons.mp hy).resolve_left hyx, fun h => ?_⟩
            exact (mem_insert.mp h).elim hyx hys
          · exact Or.inl (Or.inr hxs)

@[simp] theorem mem_insertAll {s : IdSet} {xs : List Nat} {y : Nat} :
    y ∈ (s.insertAll xs).2 ↔ y ∈ xs ∨ y ∈ s :=
  (foldl_insert xs false s).1 y

theorem insertAll_fst {s : IdSet} {xs : List Nat} :
    (s.insertAll xs).1 = true ↔ ∃ x ∈ xs, x ∉ s := by
  refine (foldl_insert xs false s).2.trans ?_
  simp

@[simp] theorem mem_ofList {xs : List Nat} {y : Nat} : y ∈ ofList xs ↔ y ∈ xs := by
  have hempty : y ∉ IdSet.empty := not_mem_empty y
  rw [ofList, mem_insertAll]
  tauto

/-! ### Union -/

@[simp] theorem mem_union {s t : IdSet} {x : Nat} : x ∈ (s.union t).2 ↔ x ∈ s ∨ x ∈ t := by
  cases t with
  | small b =>
    have hunion : s.union (.small b) = s.insertAll b.elems := by cases s <;> rfl
    rw [hunion, mem_insertAll, mem_small]
    exact or_comm
  | large b =>
    cases s with
    | small a => simp [union]
    | large a => simp [union]

theorem union_fst {s t : IdSet} : (s.union t).1 = true ↔ ∃ x ∈ t, x ∉ s := by
  cases t with
  | small b =>
    have hunion : s.union (.small b) = s.insertAll b.elems := by cases s <;> rfl
    simp only [hunion, insertAll_fst, mem_small]
  | large b =>
    cases s with
    | small a => simp [union, BitSet.union_fst]
    | large a => simp [union, BitSet.union_fst]

@[simp] theorem union_empty (s : IdSet) : s.union ∅ = (false, s) := by
  cases s <;> rfl

theorem insert_elem {s : SmallSet} {x : Nat} (h : x ∈ s.elems) :
    (small s).insert x = (false, small s) := by
  rw [insert, dif_pos h]

/-- A set keeps its shape and its order when its own elements are added. -/
@[simp] theorem union_self (s : IdSet) : s.union s = (false, s) := by
  cases s with
  | large b => rw [union, BitSet.union_self]
  | small s =>
    suffices h : ∀ xs : List Nat, xs ⊆ s.elems → (small s).insertAll xs = (false, small s) from
      h s.elems (List.Subset.refl _)
    intro xs
    induction xs with
    | nil => exact fun _ => rfl
    | cons x xs ih =>
      intro hxs
      rw [List.cons_subset] at hxs
      simpa only [insertAll, List.foldl_cons, insert_elem hxs.1, Bool.or_false] using ih hxs.2

/-! ### Removal and difference -/

@[simp] theorem mem_erase {s : IdSet} {x y : Nat} : y ∈ (s.erase x).2 ↔ y ∈ s ∧ y ≠ x := by
  cases s with
  | small s =>
    rw [erase]
    by_cases hx : x ∈ s.elems
    · rw [dif_pos hx]
      simp only [mem_small, SmallSet.erase]
      rw [(swapErase_perm_erase hx).mem_iff, s.nodup.mem_erase_iff]
      exact and_comm
    · rw [dif_neg hx]
      simp only [mem_small]
      constructor
      · intro hy
        exact ⟨hy, by rintro rfl; exact hx hy⟩
      · exact fun h => h.1
  | large b => simp [erase]

theorem erase_fst {s : IdSet} {x : Nat} : (s.erase x).1 = true ↔ x ∈ s := by
  cases s with
  | small s =>
    rw [erase]
    by_cases hx : x ∈ s.elems
    · simp [hx]
    · simp [hx]
  | large b => simp [erase, BitSet.erase_fst]

/-- What a fold of removals yields, flag and set, from any start. -/
theorem foldl_erase (xs : List Nat) (changed : Bool) (s : IdSet) :
    let r := xs.foldl (fun (p : Bool × IdSet) x => (p.1 || (p.2.erase x).1, (p.2.erase x).2))
      (changed, s)
    (∀ y, y ∈ r.2 ↔ y ∈ s ∧ y ∉ xs) ∧ (r.1 = true ↔ changed = true ∨ ∃ x ∈ xs, x ∈ s) := by
  induction xs generalizing changed s with
  | nil => simp
  | cons x xs ih =>
    obtain ⟨hmem, hflag⟩ := ih (changed || (s.erase x).1) (s.erase x).2
    refine ⟨fun y => ?_, ?_⟩
    · rw [List.foldl_cons, hmem, mem_erase, List.mem_cons]
      tauto
    · rw [List.foldl_cons, hflag, Bool.or_eq_true, erase_fst]
      constructor
      · rintro ((h | h) | ⟨y, hy, hys⟩)
        · exact Or.inl h
        · exact Or.inr ⟨x, List.mem_cons_self, h⟩
        · exact Or.inr ⟨y, List.mem_cons_of_mem _ hy, (mem_erase.mp hys).1⟩
      · rintro (h | ⟨y, hy, hys⟩)
        · exact Or.inl (Or.inl h)
        · by_cases hyx : y = x
          · exact Or.inl (Or.inr (hyx ▸ hys))
          · exact Or.inr ⟨y, (List.mem_cons.mp hy).resolve_left hyx, mem_erase.mpr ⟨hys, hyx⟩⟩

theorem mem_eraseAll {s : IdSet} {xs : List Nat} {y : Nat} : y ∈ (s.eraseAll xs).2 ↔ y ∈ s ∧ y ∉ xs :=
  (foldl_erase xs false s).1 y

theorem eraseAll_fst {s : IdSet} {xs : List Nat} : (s.eraseAll xs).1 = true ↔ ∃ x ∈ xs, x ∈ s := by
  refine (foldl_erase xs false s).2.trans ?_
  simp

theorem mem_filterSmall {s : SmallSet} {p : Nat → Bool} {x : Nat} :
    x ∈ (filterSmall s p).2 ↔ x ∈ s.elems ∧ p x = true := by
  simp [filterSmall, SmallSet.filter]

theorem filterSmall_fst {s : SmallSet} {p : Nat → Bool} :
    (filterSmall s p).1 = true ↔ ∃ x ∈ s.elems, p x = false := by
  simp only [filterSmall, SmallSet.filter, bne_iff_ne, ne_eq, List.length_filter_eq_length_iff,
    not_forall, Bool.not_eq_true, exists_prop]

theorem subtract_small (a : SmallSet) (t : IdSet) :
    (IdSet.small a).subtract t = filterSmall a fun x => !t.contains x := by
  cases t <;> rfl

@[simp] theorem mem_subtract {s t : IdSet} {x : Nat} : x ∈ (s.subtract t).2 ↔ x ∈ s ∧ x ∉ t := by
  cases s with
  | small a => simp [subtract_small, mem_filterSmall, contains_eq_decide]
  | large a =>
    cases t with
    | small b => exact mem_eraseAll.trans (by rw [mem_small])
    | large b => simp [subtract]

@[simp] theorem subtract_empty (s : IdSet) : (s.subtract ∅).2 = s := by
  cases s with
  | large b => rfl
  | small s =>
    have hall : s.elems.filter (fun x => !(∅ : IdSet).contains x) = s.elems :=
      List.filter_eq_self.mpr fun x _ => rfl
    simp only [subtract_small, filterSmall, SmallSet.filter, hall]

theorem subtract_fst {s t : IdSet} : (s.subtract t).1 = true ↔ ∃ x ∈ s, x ∈ t := by
  cases s with
  | small a => simp [subtract_small, filterSmall_fst, contains_eq_decide]
  | large a =>
    cases t with
    | small b => exact eraseAll_fst.trans (by simp only [mem_small, and_comm])
    | large b => simp [subtract, BitSet.subtract_fst]

/-! ### Intersection -/

theorem intersect_small (a : SmallSet) (t : IdSet) :
    (IdSet.small a).intersect t = filterSmall a t.contains := by
  cases t <;> rfl

@[simp] theorem mem_intersect {s t : IdSet} {x : Nat} : x ∈ (s.intersect t).2 ↔ x ∈ s ∧ x ∈ t := by
  cases s with
  | small a => simp [intersect_small, mem_filterSmall, contains_eq_decide]
  | large a =>
    cases t with
    | small b => simp [intersect, SmallSet.filter, and_comm]
    | large b => simp [intersect]

theorem intersect_fst {s t : IdSet} : (s.intersect t).1 = true ↔ ∃ x ∈ s, x ∉ t := by
  cases s with
  | small a => simp [intersect_small, filterSmall_fst, contains_eq_decide]
  | large a =>
    cases t with
    | small b =>
      -- What is kept is part of the large set, so the counts differ just if something is left out.
      have hkept : (b.elems.filter a.contains).Nodup := b.nodup.filter _
      have hsub : (b.elems.filter a.contains).Subperm a.toList :=
        List.subperm_of_subset hkept fun x hx => (a.mem_toList x).mpr (List.mem_filter.mp hx).2
      simp only [intersect, SmallSet.filter, bne_iff_ne, ne_eq, BitSet.count_eq_length]
      rw [← not_forall_not, not_iff_not]
      constructor
      · rintro hlen x ⟨hxa, hxb⟩
        have hx := (hsub.perm_of_length_le (Nat.le_of_eq hlen.symm)).mem_iff.mpr ((a.mem_toList x).mpr hxa)
        exact hxb (mem_small.mpr (List.mem_filter.mp hx).1)
      · intro hall
        refine ((List.perm_ext_iff_of_nodup hkept a.nodup_toList).mpr fun x => ?_).length_eq
        rw [List.mem_filter, a.mem_toList, and_iff_right_iff_imp]
        intro hxa
        by_contra hxb
        exact hall x ⟨hxa, mt mem_small.mp hxb⟩
    | large b => simp [intersect, BitSet.intersect_fst]

/-! ### Comparison -/

theorem superset_iff {s t : IdSet} : s.superset t = true ↔ ∀ x ∈ t, x ∈ s := by
  have hlist : t.toList.all s.contains = true ↔ ∀ x ∈ t, x ∈ s := by
    simp [List.all_eq_true, contains_eq_decide]
  cases s with
  | small a => exact hlist
  | large a =>
    cases t with
    | small b => exact hlist
    | large b => simp [superset, BitSet.superset_iff]

theorem intersects_iff {s t : IdSet} : s.intersects t = true ↔ ∃ x ∈ s, x ∈ t := by
  cases s with
  | small a => cases t <;> simp [intersects, contains]
  | large a =>
    cases t with
    | small b => simp [intersects, contains, and_comm]
    | large b => simp [intersects, BitSet.intersects_iff]

/-! ### Sorted enumeration -/

@[simp] theorem mem_sorted {s : IdSet} {x : Nat} : x ∈ s.sorted ↔ x ∈ s := by
  rw [sorted, (List.mergeSort_perm _ _).mem_iff, mem_toList]

/-- A set with one element is the singleton of the first one listed. -/
theorem count_eq_one_iff {s : IdSet} {x : Nat} (hx : s.toList.head? = some x) :
    s.count = 1 ↔ ∀ y ∈ s, y = x := by
  rw [count_eq_length]
  constructor
  · intro hlen y hy
    obtain ⟨z, hz⟩ := List.length_eq_one_iff.mp hlen
    have hy' := mem_toList.mpr hy
    simp only [hz, List.mem_singleton, List.head?_cons, Option.some.injEq] at hy' hx
    rw [hy', hx]
  · intro hall
    cases hl : s.toList with
    | nil => rw [hl] at hx; cases hx
    | cons z zs =>
      cases zs with
      | nil => rfl
      | cons w ws =>
        -- Two listed elements would both be `x`.
        have hnd := s.nodup_toList
        have hz : z = x := hall z (mem_toList.mp (by simp [hl]))
        have hw : w = x := hall w (mem_toList.mp (by simp [hl]))
        rw [hl, hz, hw] at hnd
        simp at hnd

end PointsTo.IdSet
