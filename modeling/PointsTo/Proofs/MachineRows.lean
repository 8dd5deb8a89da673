import Mathlib.Data.Set.Insert
import PointsTo.Proofs.BitCursor

/-! Rows of machine words stand for sets.

    A row of at most 2^57 words has at most 2^63 bits, so that its capacity, the number of its elements
    and the offsets of its words are machine words. On such rows no operation faults: each reads only
    words that the row has, and gives what the same operation gives without regard to the limits of
    machine words (`tryInsert_eq` and its like). What that does to the members is known, so every
    operation acts as the one on sets does, its flag tells whether there are other members than before,
    and its result is again such a row. -/

namespace PointsTo.BitSet

variable {s t : BitSet} {x n i : Nat}

/-- The row has at most 2^57 words. -/
def Fits (s : BitSet) : Prop := s.words.size ≤ 2 ^ 57

instance : DecidablePred Fits := fun s => inferInstanceAs (Decidable (s.words.size ≤ 2 ^ 57))

/-! ### Operations within the limits of machine words -/

theorem Fits.capacity_eq (hs : s.Fits) : s.capacity = .ok (s.words.size * 64) := by
  refine if_pos ?_
  show s.words.size * 64 < 2 ^ 64
  unfold Fits at hs
  omega

theorem wordAt_eq (h : i < s.words.size) : s.wordAt i = .ok (s.word i) := by
  simp [wordAt, word, h]

theorem rewriteAt_eq (h : i < s.words.size) (f : UInt64 → UInt64) :
    s.rewriteAt i f = .ok (f (s.word i) != s.word i, s.setWord i (f (s.word i))) := by
  rw [rewriteAt, wordAt_eq h]
  rfl

theorem reserve_eq (s : BitSet) (h : n + 64 < 2 ^ 64) : s.reserve n = .ok (s.grow (wordsFor n)) := by
  rw [reserve, checkCapacity, checkedAdd_eq h]
  rfl

/-- A word meets the mask of `x` just if it has the bit of `x`. -/
theorem and_mask_bne_zero (w : UInt64) (x : Nat) : (w &&& mask x != 0) = testBit w (x % 64) := by
  rw [Bool.eq_iff_iff, bne_iff_ne]
  constructor
  · intro hne
    obtain ⟨j, -, hbit⟩ := exists_testBit hne
    rw [testBit_and, testBit_mask, Bool.and_eq_true, decide_eq_true_iff] at hbit
    exact hbit.2 ▸ hbit.1
  · intro hbit hzero
    have := congrArg (testBit · (x % 64)) hzero
    simp [testBit_and, testBit_mask, testBit_zero, hbit] at this

theorem Fits.tryContains_eq (hs : s.Fits) (x : Nat) : s.tryContains x = .ok (s.contains x) := by
  rw [tryContains, hs.capacity_eq, ok_bind]
  split
  case isTrue h => rw [contains_of_size_le (by omega), pure_eq_ok]
  case isFalse h =>
    rw [wordAt_eq (by omega), ok_bind, and_mask_bne_zero, pure_eq_ok, contains_eq]

theorem tryInsert_eq (s : BitSet) (h : x + 65 < 2 ^ 64) : s.tryInsert x = .ok (s.insert x) := by
  rw [tryInsert, checkedAdd_eq (by omega), ok_bind, reserve_eq s (by omega), ok_bind,
    rewriteAt_eq (size_grow_gt s x)]
  rfl

theorem Fits.tryErase_eq (hs : s.Fits) (x : Nat) : s.tryErase x = .ok (s.erase x) := by
  rw [tryErase, hs.capacity_eq, ok_bind]
  split
  case isTrue h =>
    have hout : s.words.size ≤ x / 64 := by omega
    have herase : s.erase x = (false, s) := by
      simp [erase, setWord, word_of_size_le s hout, Array.setIfInBounds, Nat.not_lt.mpr hout]
    rw [herase, pure_eq_ok]
  case isFalse h =>
    rw [rewriteAt_eq (by omega)]
    rfl

theorem wordsFor_mul (n : Nat) : wordsFor (n * 64) = n := by
  unfold wordsFor
  omega

theorem tryUnion_eq (s : BitSet) (ht : t.Fits) : s.tryUnion t = .ok (s.union t) := by
  have hcap : t.words.size * 64 + 64 < 2 ^ 64 := by
    unfold Fits at ht
    omega
  rw [tryUnion, ht.capacity_eq, ok_bind, reserve_eq s hcap, ok_bind, wordsFor_mul]
  rfl

theorem popCount_le (w : UInt64) : popCount w ≤ 64 := by
  simpa [popCount] using List.countP_le_length (p := testBit w) (l := List.range 64)

/-- Adding up the elements of words, from a total that leaves room for all of them. -/
theorem foldlM_popCount (words : List UInt64) (total : Nat)
    (h : total + 64 * words.length < 2 ^ 64) :
    words.foldlM (fun total w => checkedAdd total (popCount w)) total =
      .ok (total + (words.map popCount).foldr (· + ·) 0) := by
  induction words generalizing total with
  | nil => rfl
  | cons w words ih =>
    have hw := popCount_le w
    rw [List.length_cons] at h
    rw [List.foldlM_cons, checkedAdd_eq (by omega), ok_bind, ih _ (by omega), List.map_cons,
      List.foldr_cons, Nat.add_assoc]

theorem Fits.tryCount_eq (hs : s.Fits) : s.tryCount = .ok s.count := by
  have hroom : 0 + 64 * s.words.toList.length < 2 ^ 64 := by
    rw [Array.length_toList]
    unfold Fits at hs
    omega
  rw [tryCount, foldlM_popCount _ _ hroom, Nat.zero_add]
  rfl

theorem Fits.tryToList_eq (hs : s.Fits) : s.tryToList = .ok s.toList :=
  BitCursor.collect_start (Nat.le_trans hs (by decide))

/-! ### Results are within the limits again -/

theorem Fits.grow (hs : s.Fits) (hn : n ≤ 2 ^ 57) : (s.grow n).Fits := by
  rw [Fits, size_grow]
  exact Nat.max_le.mpr ⟨hs, hn⟩

theorem wordsFor_le (h : n ≤ 2 ^ 63) : wordsFor n ≤ 2 ^ 57 := by
  unfold wordsFor
  omega

theorem Fits.setWord (hs : s.Fits) (i : Nat) (w : UInt64) : (s.setWord i w).Fits := by
  rwa [Fits, BitSet.setWord, Array.size_setIfInBounds]

theorem Fits.update (hs : s.Fits) (f : UInt64 → UInt64 → UInt64) (t : BitSet) : (update f s t).2.Fits := by
  rwa [Fits, BitSet.update, size_combine]

theorem Fits.insert (hs : s.Fits) (hx : x < 2 ^ 63) : (s.insert x).2.Fits :=
  (hs.grow (wordsFor_le hx)).setWord _ _

theorem Fits.union (hs : s.Fits) (ht : t.Fits) : (s.union t).2.Fits := (hs.grow ht).update _ _

theorem Fits.intersect (hs : s.Fits) (t : BitSet) : (s.intersect t).2.Fits := by
  simp only [Fits, BitSet.intersect, clearFrom, Array.size_mapIdx]
  exact hs.update _ t

/-! ### What the operations do to the members -/

/-- The set of the numbers whose bit is set. -/
def members (s : BitSet) : Set Nat := { x | testBit (s.word (x / 64)) (x % 64) = true }

@[simp] theorem mem_members : x ∈ s.members ↔ s.contains x = true := Iff.rfl

/-- The operation gives a row with the members `S`, within the limits, and a flag that tells whether
    these are other members than those of `s`. -/
def Becomes (s : BitSet) (r : Except Fault (Bool × BitSet)) (S : Set Nat) : Prop :=
  ∃ p, r = .ok p ∧ p.2.Fits ∧ p.2.members = S ∧ (p.1 = true ↔ S ≠ s.members)

theorem becomes_tryInsert (hs : s.Fits) (hx : x < 2 ^ 63) :
    s.Becomes (s.tryInsert x) (Insert.insert x s.members) := by
  refine ⟨_, tryInsert_eq s (by omega), hs.insert hx, ?_, ?_⟩
  · ext y
    simp
  · rw [insert_fst, ne_eq, Set.insert_eq_self, mem_members, Bool.not_eq_true', Bool.not_eq_true]

theorem becomes_tryErase (hs : s.Fits) (x : Nat) : s.Becomes (s.tryErase x) (s.members \ {x}) := by
  refine ⟨_, hs.tryErase_eq x, hs.setWord _ _, ?_, ?_⟩
  · ext y
    simp
  · rw [erase_fst, ne_eq, sdiff_eq_left, Set.disjoint_singleton_right, mem_members, not_not]

theorem becomes_tryUnion (hs : s.Fits) (ht : t.Fits) :
    s.Becomes (s.tryUnion t) (s.members ∪ t.members) := by
  refine ⟨_, tryUnion_eq s ht, hs.union ht, ?_, ?_⟩
  · ext y
    simp
  · rw [union_fst, ne_eq, Set.union_eq_left, Set.not_subset]
    simp only [mem_members, Bool.not_eq_true]

theorem becomes_subtract (hs : s.Fits) (t : BitSet) :
    s.Becomes (.ok (s.subtract t)) (s.members \ t.members) := by
  refine ⟨_, rfl, hs.update _ t, ?_, ?_⟩
  · ext y
    simp
  · rw [subtract_fst, ne_eq, sdiff_eq_left, Set.not_disjoint_iff]
    rfl

theorem becomes_intersect (hs : s.Fits) (t : BitSet) :
    s.Becomes (.ok (s.intersect t)) (s.members ∩ t.members) := by
  refine ⟨_, rfl, hs.intersect t, ?_, ?_⟩
  · ext y
    simp
  · rw [intersect_fst, ne_eq, Set.inter_eq_left, Set.not_subset]
    simp only [mem_members, Bool.not_eq_true]

/-- Making room keeps the members, unless the wanted capacity cannot be rounded up. -/
theorem delivers_reserve (hs : s.Fits) (n : Nat) : Delivers (2 ^ 64 ≤ n + 64) (s.reserve n) fun r =>
    n ≤ r.words.size * 64 ∧ r.members = s.members ∧ (n ≤ 2 ^ 63 → r.Fits) := by
  rcases Nat.lt_or_ge (n + 64) (2 ^ 64) with h | h
  · refine .of_eq (reserve_eq s h) ⟨?_, ?_, fun hn => hs.grow (wordsFor_le hn)⟩
    · rw [size_grow]
      unfold wordsFor
      omega
    · ext y
      simp
  · have hsum : checkedAdd n 64 = .error .addOverflow := if_neg (Nat.not_lt.mpr h)
    rw [reserve, checkCapacity, hsum]
    exact .overflow h

theorem members_empty : empty.members = ∅ := by
  ext y
  simp

/-! ### Rows and sets -/

/-- Rows of at most 2^57 words behave as sets of numbers, whatever their lengths and however many zero
    words they end in. The walk through a row lists its elements in ascending order, which are those
    that a look-up finds and as many as counting gives; each word is loaded with the number of bits in
    front of it as the offset, and no place on the walk faults. Adding and removing an element, union,
    difference and intersection give the sets they should, and tell whether the set has changed. The
    tests for inclusion and for common elements are exact, and making room changes no set. No operation
    reads a word that a row does not have. -/
theorem rows_implement_sets {a b : BitSet} (ha : a.Fits) (hb : b.Fits) (hx : x < 2 ^ 63) :
    (∃ l, a.tryToList = .ok l ∧ l.Pairwise (· < ·) ∧ (∀ y, y ∈ l ↔ a.tryContains y = .ok true) ∧
      a.tryCount = .ok l.length) ∧
    (∀ y, ∃ r, a.tryContains y = .ok r ∧ (r = true ↔ y ∈ a.members)) ∧
    (∀ k < a.words.size, ∃ c, (BitCursor.start a).loads (k + 1) = some c ∧ c.word = a.word k ∧
      c.offset.toNat = 64 * k) ∧
    (∀ c, Relation.ReflTransGen BitCursor.Visits (BitCursor.start a) c →
      BitCursor.OnWalk a c ∧ ∃ r c', c.next = .ok (r, c')) ∧
    a.Becomes (a.tryInsert x) (Insert.insert x a.members) ∧
    a.Becomes (a.tryErase x) (a.members \ {x}) ∧
    a.Becomes (a.tryUnion b) (a.members ∪ b.members) ∧
    a.Becomes (.ok (a.subtract b)) (a.members \ b.members) ∧
    a.Becomes (.ok (a.intersect b)) (a.members ∩ b.members) ∧
    (a.superset b = true ↔ b.members ⊆ a.members) ∧
    (a.intersects b = true ↔ (a.members ∩ b.members).Nonempty) ∧
    ∀ n, Delivers (2 ^ 64 ≤ n + 64) (a.reserve n) (fun r =>
        n ≤ r.words.size * 64 ∧ r.members = a.members ∧ (n ≤ 2 ^ 63 → r.Fits)) ∧
      Delivers (2 ^ 64 ≤ n + 64) (withCapacity n) fun r =>
        n ≤ r.words.size * 64 ∧ r.members = ∅ ∧ (n ≤ 2 ^ 63 → r.Fits) := by
  have hsize : a.words.size ≤ 2 ^ 58 := Nat.le_trans ha (by decide)
  refine ⟨⟨a.toList, ha.tryToList_eq, a.sorted_toList, fun y => ?_, ?_⟩,
    fun y => ⟨_, ha.tryContains_eq y, Iff.rfl⟩, fun k hk => ?_, fun c hc => ?_,
    becomes_tryInsert ha hx, becomes_tryErase ha x, becomes_tryUnion ha hb, becomes_subtract ha b,
    becomes_intersect ha b, superset_iff a b, intersects_iff a b, fun n => ⟨delivers_reserve ha n, ?_⟩⟩
  · rw [mem_toList, ha.tryContains_eq, Except.ok.injEq]
  · rw [ha.tryCount_eq, count_eq_length]
  · obtain ⟨c, hloads, hat, hword⟩ := BitCursor.at_loads hsize hk
    exact ⟨c, hloads, hword, hat.offset_eq⟩
  · have hwalk := BitCursor.onWalk_of_visits hsize hc
    obtain ⟨r, c', hnext, -⟩ := hwalk.next hsize
    exact ⟨hwalk, r, c', hnext⟩
  · rw [← members_empty]
    exact delivers_reserve (s := empty) (by decide) n

/-- The numbers 3 and 255, in a row that ends in a zero word. -/
def longRow : BitSet := ⟨#[8, 0, 0, 0x8000000000000000, 0]⟩

/-- The numbers 3 and 66. -/
def shortRow : BitSet := ⟨#[8, 4]⟩

/-- Adding the last number of the long row changes nothing; meeting the short row clears the word that
    holds it, and changes the set. -/
theorem longRow_meets_shortRow : longRow.Fits ∧ shortRow.Fits ∧ 255 < 2 ^ 63 ∧
    longRow.tryInsert 255 = .ok (false, longRow) ∧
    Insert.insert 255 longRow.members = longRow.members ∧
    longRow.intersect shortRow = (true, ⟨#[8, 0, 0, 0, 0]⟩) ∧
    BitSet.members ⟨#[8, 0, 0, 0, 0]⟩ = longRow.members ∩ shortRow.members ∧
    longRow.members ∩ shortRow.members ≠ longRow.members := by
  have hlong : longRow.Fits := by decide
  have hshort : shortRow.Fits := by decide
  have hinsert : longRow.tryInsert 255 = .ok (false, longRow) := by decide +kernel
  have hmeet : longRow.intersect shortRow = (true, ⟨#[8, 0, 0, 0, 0]⟩) := by decide +kernel
  obtain ⟨-, -, -, -, ⟨p, hp, -, -, hsame⟩, -, -, -, ⟨q, hq, -, hmembers, hother⟩, -⟩ :=
    rows_implement_sets hlong hshort (x := 255) (by decide)
  obtain rfl := ok_unique hinsert hp
  obtain rfl := ok_unique (congrArg Except.ok hmeet) hq
  refine ⟨hlong, hshort, by decide, hinsert, ?_, hmeet, hmembers, hother.mp rfl⟩
  exact not_not.mp fun hne => Bool.false_ne_true (hsame.mpr hne)

end PointsTo.BitSet
