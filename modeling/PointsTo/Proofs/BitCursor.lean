import Mathlib.Algebra.Group.Nat.Defs
import Mathlib.Data.List.Sort
import Mathlib.Logic.Relation
import PointsTo.BitCursor
import PointsTo.Proofs.BitSet
import PointsTo.Proofs.Delivers

/-! The walk through a row visits its elements in order.

    Except at its start a cursor stands at a word of the row (`At`): its offset is the number of bits
    in front of that word, and what it keeps of the word are bits of it. One visit leads from a word
    to the same or a later one, and gives the first of the elements that were left (`At.next`); so the
    whole walk gives all of them. The offset is a machine word. It wraps around once, when the first
    word is loaded, and after that it stays below the number of bits of the row. -/

namespace PointsTo

theorem checkedAdd_eq {a b : Nat} (h : a + b < 2 ^ 64) : checkedAdd a b = .ok (a + b) := if_pos h

namespace BitCursor

variable {s : BitSet} {c c' : BitCursor} {k : Nat}

/-! ### What is left to visit -/

/-- The lowest set bit of a word comes before its others. -/
theorem bitsOf_eq_cons {w : UInt64} (h : w ≠ 0) :
    BitSet.bitsOf w = lowestBit w :: BitSet.bitsOf (dropLowest w) := by
  have hmem : ∀ i, i ∈ BitSet.bitsOf (dropLowest w) ↔ i ∈ BitSet.bitsOf w ∧ i ≠ lowestBit w := by
    intro i
    rw [BitSet.mem_bitsOf, BitSet.mem_bitsOf, testBit_dropLowest h, Bool.and_eq_true, decide_eq_true_iff]
  have hlow : ∀ i ∈ BitSet.bitsOf w, lowestBit w ≤ i := by
    intro i hi
    by_contra hlt
    have hfalse : BitSet.testBit w i = false := BitVec.getLsbD_false_of_lt_ctz (Nat.lt_of_not_le hlt)
    rw [BitSet.mem_bitsOf, hfalse] at hi
    cases hi
  refine List.SortedLT.eq_of_mem_iff (BitSet.sorted_bitsOf w).sortedLT ?_ fun i => ?_
  · refine (List.pairwise_cons.mpr ⟨fun i hi => ?_, BitSet.sorted_bitsOf _⟩).sortedLT
    obtain ⟨hi, hne⟩ := (hmem i).mp hi
    exact Nat.lt_of_le_of_ne (hlow i hi) (Ne.symm hne)
  · rw [List.mem_cons, hmem]
    constructor
    · intro hi
      exact (em (i = lowestBit w)).imp_right fun hne => ⟨hi, hne⟩
    · rintro (rfl | ⟨hi, -⟩)
      · exact (BitSet.mem_bitsOf _ _).mpr (testBit_lowestBit h)
      · exact hi

/-- The elements of words that follow each other in a row, the first of them at place `k`. -/
def elemsFrom (k : Nat) (words : List UInt64) : List Nat :=
  (words.zipIdx k).flatMap fun p => (BitSet.bitsOf p.1).map (64 * p.2 + ·)

theorem elemsFrom_nil (k : Nat) : elemsFrom k [] = [] := rfl

theorem elemsFrom_cons (k : Nat) (w : UInt64) (words : List UInt64) :
    elemsFrom k (w :: words) = (BitSet.bitsOf w).map (64 * k + ·) ++ elemsFrom (k + 1) words := rfl

theorem toList_eq_elemsFrom (s : BitSet) : s.toList = elemsFrom 0 s.words.toList := rfl

/-- The elements that a cursor at the `k`-th word has not visited. -/
def left (k : Nat) (c : BitCursor) : List Nat :=
  (BitSet.bitsOf c.word).map (64 * k + ·) ++ elemsFrom (k + 1) c.rest

theorem bitsOf_zero : BitSet.bitsOf 0 = [] := by
  rw [BitSet.bitsOf, List.filter_eq_nil_iff]
  intro i _
  rw [BitSet.testBit_zero]
  exact Bool.false_ne_true

theorem left_of_zero (h0 : c.word = 0) : left k c = elemsFrom (k + 1) c.rest := by
  rw [left, h0, bitsOf_zero, List.map_nil, List.nil_append]

theorem rest_of_load_eq_none (h : c.load = none) : c.rest = [] := by
  cases hrest : c.rest with
  | nil => rfl
  | cons w rest => simp [load, hrest] at h

theorem elemsFrom_of_load (h : c.load = some c') : elemsFrom k c.rest = left k c' := by
  rw [(load_eq_some h).1, elemsFrom_cons, left]

/-! ### Places on the walk -/

/-- The cursor stands at the `k`-th word of the row. -/
structure At (s : BitSet) (k : Nat) (c : BitCursor) : Prop where
  lt_size : k < s.words.size
  offset_eq : c.offset.toNat = 64 * k
  rest_eq : c.rest = s.words.toList.drop (k + 1)
  bits : ∀ i, BitSet.testBit c.word i = true → BitSet.testBit (s.word k) i = true

/-- Loading the `k`-th word of a row, with an offset that comes to the bits in front of it. -/
theorem at_of_load (hload : c.load = some c') (hrest : c.rest = s.words.toList.drop k)
    (hoffset : (c.offset + 64).toNat = 64 * k) : At s k c' ∧ c'.word = s.word k := by
  obtain ⟨hcons, hoffset'⟩ := load_eq_some hload
  rw [hcons] at hrest
  have hlt : k < s.words.toList.length := by
    by_contra hge
    rw [List.drop_eq_nil_of_le (Nat.le_of_not_lt hge)] at hrest
    cases hrest
  obtain ⟨hword, hrest⟩ := List.cons.inj (hrest.trans (List.drop_eq_getElem_cons hlt))
  rw [Array.length_toList] at hlt
  have hword : c'.word = s.word k := by
    rw [hword]
    simp [BitSet.word, hlt]
  exact ⟨⟨hlt, hoffset' ▸ hoffset, hrest, fun i hi => hword ▸ hi⟩, hword⟩

/-- The first word is loaded with an offset that wraps around to zero. -/
theorem at_of_load_start (hload : (start s).load = some c) : At s 0 c ∧ c.word = s.word 0 :=
  at_of_load hload rfl (show (UInt64.ofNat (wordLimit - 64) + 64).toNat = 64 * 0 by decide)

/-- Every other word is loaded with an offset that stays below the number of bits of the row. -/
theorem At.load (hs : s.words.size ≤ 2 ^ 58) (h : At s k c) (hload : c.load = some c') :
    At s (k + 1) c' ∧ c'.word = s.word (k + 1) := by
  refine at_of_load hload h.rest_eq ?_
  have hlen : k + 1 < s.words.size := by
    have := length_rest_of_load hload
    rw [h.rest_eq, List.length_drop, Array.length_toList] at this
    omega
  rw [UInt64.toNat_add, h.offset_eq]
  show (64 * k + 64) % 2 ^ 64 = 64 * (k + 1)
  omega

/-- One visit: the cursor gives the first element that was left, if there was one, and goes on to a
    place where the others are left. -/
theorem At.next (hs : s.words.size ≤ 2 ^ 58) (h : At s k c) : ∃ r c' k', c.next = .ok (r, c') ∧
    At s k' c' ∧ left k c = r.toList ++ left k' c' ∧ (r = none → left k' c' = []) := by
  fun_induction BitCursor.next c generalizing k with
  | case1 c h0 hload =>
    refine ⟨none, c, k, rfl, h, rfl, fun _ => ?_⟩
    rw [left_of_zero h0, rest_of_load_eq_none hload, elemsFrom_nil]
  | case2 c h0 d hload _ ih =>
    obtain ⟨r, c', k', hnext, hat, hleft, hnone⟩ := ih (h.load hs hload).1
    exact ⟨r, c', k', hnext, hat, by rw [left_of_zero h0, elemsFrom_of_load hload, hleft], hnone⟩
  | case3 c hne =>
    have hsum : checkedAdd (lowestBit c.word) c.offset.toNat = .ok (64 * k + lowestBit c.word) := by
      have hlow := lowestBit_lt hne
      have hk := h.lt_size
      rw [h.offset_eq, checkedAdd_eq (by omega), Nat.add_comm]
    refine ⟨some (64 * k + lowestBit c.word), { c with word := dropLowest c.word }, k, by rw [hsum]; rfl,
      ⟨h.lt_size, h.offset_eq, h.rest_eq, fun i hi => ?_⟩, ?_, fun hnone => by cases hnone⟩
    · rw [testBit_dropLowest hne, Bool.and_eq_true] at hi
      exact h.bits i hi.1
    · rw [left, bitsOf_eq_cons hne]
      rfl

theorem next_of_load_eq_none (h0 : c.word = 0) (h : c.load = none) : c.next = .ok (none, c) := by
  rw [next, if_pos h0]
  split
  case h_1 => rfl
  case h_2 hload => cases h.symm.trans hload

theorem next_of_load_eq_some (h0 : c.word = 0) (h : c.load = some c') : c.next = c'.next := by
  rw [next, if_pos h0]
  split
  case h_1 hload => cases h.symm.trans hload
  case h_2 hload =>
    obtain rfl := Option.some.inj (h.symm.trans hload)
    rfl

/-- The first visit begins with the first word, where all elements are left. -/
theorem next_start (s : BitSet) : (s.toList = [] ∧ (start s).next = .ok (none, start s)) ∨
    ∃ c, At s 0 c ∧ (start s).next = c.next ∧ left 0 c = s.toList := by
  have hall : s.toList = elemsFrom 0 (start s).rest := toList_eq_elemsFrom s
  cases hload : (start s).load with
  | none =>
    refine Or.inl ⟨?_, next_of_load_eq_none rfl hload⟩
    rw [hall, rest_of_load_eq_none hload, elemsFrom_nil]
  | some c =>
    refine Or.inr ⟨c, (at_of_load_start hload).1, next_of_load_eq_some rfl hload, ?_⟩
    rw [hall, elemsFrom_of_load hload]

/-! ### The whole walk -/

theorem At.collect (hs : s.words.size ≤ 2 ^ 58) (h : At s k c) : c.collect = .ok (left k c) := by
  fun_induction BitCursor.collect c generalizing k with
  | case1 c e herr =>
    obtain ⟨r, c', k', hnext, -⟩ := h.next hs
    cases herr.symm.trans hnext
  | case2 c d hend =>
    obtain ⟨r, c', k', hnext, -, hleft, hnone⟩ := h.next hs
    cases hend.symm.trans hnext
    rw [hleft, hnone rfl]
    rfl
  | case3 c x d hvisit _ ih =>
    obtain ⟨r, c', k', hnext, hat, hleft, -⟩ := h.next hs
    cases hvisit.symm.trans hnext
    rw [ih hat, hleft]
    rfl

/-- What a cursor collects depends on its next visit only. -/
theorem collect_congr (h : c.next = c'.next) : c.collect = c'.collect := by
  rw [BitCursor.collect, BitCursor.collect]
  -- Both cursors have the same next visit, so only three of the nine cases are left.
  split <;> rename_i hc <;> split <;> rename_i hc' <;> cases hc.symm.trans (h.trans hc') <;> rfl

/-- The walk from the start gives the elements of the row in ascending order. -/
theorem collect_start (hs : s.words.size ≤ 2 ^ 58) : (start s).collect = .ok s.toList := by
  rcases next_start s with ⟨hempty, hnext⟩ | ⟨c, hat, hnext, hleft⟩
  · rw [hempty, BitCursor.collect]
    split
    case h_1 e herr => cases herr.symm.trans hnext
    case h_2 => rfl
    case h_3 x d hvisit => cases hvisit.symm.trans hnext
  · rw [collect_congr hnext, hat.collect hs, hleft]

/-- Loads words one after the other. -/
def loads : Nat → BitCursor → Option BitCursor
  | 0, c => some c
  | n + 1, c => (c.loads n).bind load

/-- Each word of the row is loaded in its turn, with the offset that belongs to it. -/
theorem at_loads (hs : s.words.size ≤ 2 ^ 58) (hk : k < s.words.size) :
    ∃ c, (start s).loads (k + 1) = some c ∧ At s k c ∧ c.word = s.word k := by
  induction k with
  | zero =>
    cases hload : (start s).load with
    | none =>
      have hempty : s.words.toList = [] := rest_of_load_eq_none hload
      rw [← Array.length_toList, hempty] at hk
      cases hk
    | some c => exact ⟨c, hload, at_of_load_start hload⟩
  | succ k ih =>
    obtain ⟨c, hloads, hat, -⟩ := ih (Nat.lt_of_succ_lt hk)
    cases hload : c.load with
    | none =>
      have hempty := hat.rest_eq.symm.trans (rest_of_load_eq_none hload)
      rw [List.drop_eq_nil_iff, Array.length_toList] at hempty
      omega
    | some d => exact ⟨d, by rw [loads, hloads, Option.bind_some, hload], hat.load hs hload⟩

/-- The cursor comes to another place by one visit. -/
def Visits (c c' : BitCursor) : Prop := ∃ r, c.next = .ok (r, c')

/-- A place on the walk through a row: its start, or a place at one of the words. -/
def OnWalk (s : BitSet) (c : BitCursor) : Prop := c = start s ∨ ∃ k, At s k c

theorem OnWalk.next (hs : s.words.size ≤ 2 ^ 58) (h : OnWalk s c) :
    ∃ r c', c.next = .ok (r, c') ∧ OnWalk s c' := by
  have hword : ∀ {k d}, At s k d → ∃ r c', d.next = .ok (r, c') ∧ OnWalk s c' := by
    intro k d hd
    obtain ⟨r, c', k', hnext, hat, -⟩ := hd.next hs
    exact ⟨r, c', hnext, Or.inr ⟨k', hat⟩⟩
  rcases h with rfl | ⟨k, hat⟩
  · rcases next_start s with ⟨-, hnext⟩ | ⟨d, hat, hnext, -⟩
    · exact ⟨none, start s, hnext, Or.inl rfl⟩
    · rw [hnext]
      exact hword hat
  · exact hword hat

/-- All places that visits lead to from the start are places on the walk. -/
theorem onWalk_of_visits (hs : s.words.size ≤ 2 ^ 58)
    (h : Relation.ReflTransGen Visits (start s) c) : OnWalk s c := by
  induction h with
  | refl => exact Or.inl rfl
  | tail _ hvisit ih =>
    obtain ⟨r, hnext⟩ := hvisit
    obtain ⟨r', c', hnext', hwalk⟩ := ih.next hs
    cases hnext.symm.trans hnext'
    exact hwalk

end BitCursor

end PointsTo
