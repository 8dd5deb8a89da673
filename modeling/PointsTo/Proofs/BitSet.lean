import Mathlib.Data.List.Nodup
import PointsTo.BitSet

/-! What rows of words denote.

    A row denotes the set of the `x` for which `contains` holds. Each operation is described by what
    it does to `contains`, whatever the lengths of the rows, and its flag by whether some member came
    or went. Everything goes back to bits: a word is determined by its 64 bits (`word_ext`), and the
    words beyond the end of a row are zero. -/

namespace PointsTo.BitSet

/-! ### Bits of words -/

theorem testBit_zero (i : Nat) : testBit 0 i = false := by
  simp [testBit]

theorem testBit_of_le (w : UInt64) {i : Nat} (h : 64 ≤ i) : testBit w i = false := by
  apply Nat.testBit_lt_two_pow
  exact Nat.lt_of_lt_of_le w.toNat_lt (Nat.pow_le_pow_right (by decide) h)

theorem testBit_or (a b : UInt64) (i : Nat) : testBit (a ||| b) i = (testBit a i || testBit b i) := by
  simp [testBit]

theorem testBit_and (a b : UInt64) (i : Nat) : testBit (a &&& b) i = (testBit a i && testBit b i) := by
  simp [testBit]

theorem testBit_and_not (a b : UInt64) (i : Nat) :
    testBit (a &&& ~~~b) i = (testBit a i && !testBit b i) := by
  rcases Nat.lt_or_ge i 64 with h | h
  · simp only [testBit, UInt64.toNat_and, UInt64.toNat_not, Nat.testBit_and]
    have hb : UInt64.size - 1 - b.toNat = 2 ^ 64 - (b.toNat + 1) := by
      simp only [UInt64.size]; omega
    rw [hb, Nat.testBit_two_pow_sub_succ b.toNat_lt]
    simp [h]
  · simp [testBit_of_le _ h]

/-- A word is determined by its bits. -/
theorem word_ext {a b : UInt64} (h : ∀ i < 64, testBit a i = testBit b i) : a = b := by
  apply UInt64.toNat_inj.mp
  apply Nat.eq_of_testBit_eq
  intro i
  rcases Nat.lt_or_ge i 64 with hi | hi
  · exact h i hi
  · exact (testBit_of_le a hi).trans (testBit_of_le b hi).symm

theorem exists_testBit {w : UInt64} (h : w ≠ 0) : ∃ i < 64, testBit w i = true := by
  by_contra hnone
  refine h (word_ext fun i hi => ?_)
  rw [testBit_zero, ← Bool.not_eq_true]
  exact fun hbit => hnone ⟨i, hi, hbit⟩

/-! ### Words of rows -/

theorem word_grow (s : BitSet) (n i : Nat) : (s.grow n).word i = s.word i := by
  simp only [word, grow, Array.getD_eq_getD_getElem?, Array.getElem?_append]
  split
  · rfl
  · rename_i hi
    rw [Array.getElem?_eq_none (Nat.le_of_not_lt hi)]
    rcases h : (Array.replicate (n - s.words.size) (0 : UInt64))[i - s.words.size]? with _ | w
    · rfl
    · rw [Array.getElem?_replicate] at h
      split at h
      · injection h with h
        rw [← h]; rfl
      · cases h

theorem size_grow (s : BitSet) (n : Nat) : (s.grow n).words.size = max s.words.size n := by
  simp only [grow, Array.size_append, Array.size_replicate]
  omega

theorem le_size_grow (s : BitSet) (n : Nat) : n ≤ (s.grow n).words.size := by
  rw [size_grow]
  exact Nat.le_max_right _ _

theorem word_setWord (s : BitSet) (i j : Nat) (w : UInt64) :
    (s.setWord i w).word j = if i = j ∧ i < s.words.size then w else s.word j := by
  simp only [word, setWord, Array.getD_eq_getD_getElem?, Array.getElem?_setIfInBounds]
  by_cases hij : i = j
  · subst hij
    by_cases hi : i < s.words.size
    · simp [hi]
    · simp [hi]
  · simp [hij]

theorem word_of_size_le (s : BitSet) {i : Nat} (h : s.words.size ≤ i) : s.word i = 0 := by
  simp [word, Array.getElem?_eq_none h]

theorem word_of_mem_zipIdx {s : BitSet} {w : UInt64} {i : Nat} (h : (w, i) ∈ s.words.toList.zipIdx) :
    s.word i = w := by
  rw [word, Array.getD_eq_getD_getElem?, ← Array.getElem?_toList, List.mem_zipIdx_iff_getElem?.mp h]
  rfl

theorem contains_eq (s : BitSet) (x : Nat) :
    s.contains x = testBit (s.word (x / 64)) (x % 64) := rfl

theorem contains_at (s : BitSet) (i : Nat) {j : Nat} (hj : j < 64) :
    s.contains (64 * i + j) = testBit (s.word i) j := by
  have hdiv : (64 * i + j) / 64 = i := by omega
  have hmod : (64 * i + j) % 64 = j := by omega
  rw [contains_eq, hdiv, hmod]

/-- A row has no members beyond its words. -/
theorem contains_of_size_le {s : BitSet} {x : Nat} (h : s.words.size ≤ x / 64) :
    s.contains x = false := by
  rw [contains_eq, word_of_size_le s h, testBit_zero]

theorem lt_size_of_contains {s : BitSet} {x : Nat} (h : s.contains x = true) :
    x / 64 < s.words.size := by
  by_contra hi
  cases h.symm.trans (contains_of_size_le (Nat.le_of_not_lt hi))

@[simp] theorem contains_empty (x : Nat) : empty.contains x = false :=
  contains_of_size_le (Nat.zero_le _)

@[simp] theorem contains_grow (s : BitSet) (n x : Nat) : (s.grow n).contains x = s.contains x := by
  rw [contains_eq, word_grow, contains_eq]

/-! ### Insertion -/

theorem size_grow_gt (s : BitSet) (x : Nat) : x / 64 < (s.grow (wordsFor (x + 1))).words.size := by
  have h := le_size_grow s (wordsFor (x + 1))
  simp only [wordsFor] at h ⊢
  omega

@[simp] theorem contains_insert (s : BitSet) (x y : Nat) :
    (s.insert x).2.contains y = (decide (y = x) || s.contains y) := by
  simp only [contains_eq, insert, word_setWord, word_grow]
  by_cases hw : x / 64 = y / 64
  · rw [if_pos ⟨hw, size_grow_gt s x⟩, testBit_or, testBit_mask, hw, Bool.or_comm]
    have hxy : y % 64 = x % 64 ↔ y = x := by omega
    simp [hxy]
  · have hne : y ≠ x := by rintro rfl; exact hw rfl
    rw [if_neg (fun h => hw h.1)]
    simp [hne]

theorem insert_fst (s : BitSet) (x : Nat) : (s.insert x).1 = !s.contains x := by
  simp only [insert, word_grow, contains_eq]
  cases hc : testBit (s.word (x / 64)) (x % 64) with
  | false =>
    simp only [Bool.not_false, bne_iff_ne, ne_eq]
    intro heq
    have hbit := congrArg (testBit · (x % 64)) heq
    simp [testBit_or, testBit_mask, hc] at hbit
  | true =>
    simp only [Bool.not_true, bne_eq_false_iff_eq]
    apply word_ext
    intro i hi
    rw [testBit_or, testBit_mask]
    by_cases hix : i = x % 64
    · simp [hix, hc]
    · simp [hix]

/-- Inserting the elements of a list one by one. -/
theorem contains_foldl_insert (xs : List Nat) (s : BitSet) (y : Nat) :
    (xs.foldl (fun s x => (s.insert x).2) s).contains y = (decide (y ∈ xs) || s.contains y) := by
  induction xs generalizing s with
  | nil => simp
  | cons x xs ih =>
    rw [List.foldl_cons, ih, contains_insert]
    by_cases hx : y = x <;> simp [hx]

@[simp] theorem contains_ofList (xs : List Nat) (y : Nat) :
    (ofList xs).contains y = decide (y ∈ xs) := by
  rw [ofList, contains_foldl_insert, contains_empty, Bool.or_false]

/-! ### Combinations of rows -/

section Combinations

variable {f : UInt64 → UInt64 → UInt64} {s t : BitSet}

theorem size_combine (f : UInt64 → UInt64 → UInt64) (s t : BitSet) :
    (combine f s t).words.size = s.words.size := by
  simp [combine]

theorem word_combine {i : Nat} (hs : i < s.words.size) (ht : i < t.words.size) :
    (combine f s t).word i = f (s.word i) (t.word i) := by
  simp [word, combine, hs, ht]

theorem word_combine_of_size_le {i : Nat} (h : s.words.size ≤ i ∨ t.words.size ≤ i) :
    (combine f s t).word i = s.word i := by
  rcases Nat.lt_or_ge i s.words.size with hs | hs
  · have ht := h.resolve_left (Nat.not_le.mpr hs)
    simp [word, combine, hs, Array.getElem?_eq_none ht]
  · rw [word_of_size_le s hs, word_of_size_le _ (size_combine f s t ▸ hs)]

/-- Where the second row has no members, a combination that ignores zero words changes nothing. -/
theorem word_combine_of_zero (hzero : ∀ a, f a 0 = a) {i : Nat} (hs : i < s.words.size) :
    (combine f s t).word i = f (s.word i) (t.word i) := by
  rcases Nat.lt_or_ge i t.words.size with ht | ht
  · exact word_combine hs ht
  · rw [word_combine_of_size_le (Or.inr ht), word_of_size_le t ht, hzero]

/-- A combination of words that works bit by bit does so on members, except on those that only the
    second row has room for. -/
theorem contains_combine {g : Bool → Bool → Bool} (hzero : ∀ a, f a 0 = a)
    (hf : ∀ a b i, testBit (f a b) i = g (testBit a i) (testBit b i)) {x : Nat}
    (hroom : x / 64 < s.words.size ∨ g false (t.contains x) = false) :
    (combine f s t).contains x = g (s.contains x) (t.contains x) := by
  by_cases hi : x / 64 < s.words.size
  · rw [contains_eq, word_combine_of_zero hzero hi, hf, contains_eq, contains_eq]
  · have hsize : s.words.size ≤ x / 64 := Nat.le_of_not_lt hi
    have hcomb : (combine f s t).contains x = false := contains_of_size_le (size_combine f s t ▸ hsize)
    rw [hcomb, contains_of_size_le hsize, hroom.resolve_left hi]

/-- Rows have the same members just if they have the same words. -/
theorem contains_eq_iff : (∀ x, s.contains x = t.contains x) ↔ ∀ i, s.word i = t.word i := by
  constructor
  · intro h i
    apply word_ext
    intro j hj
    rw [← contains_at s i hj, ← contains_at t i hj, h]
  · intro h x
    rw [contains_eq, contains_eq, h]

theorem exists_contains_ne_iff : (∃ x, s.contains x ≠ t.contains x) ↔ ∃ i, s.word i ≠ t.word i := by
  rw [← not_iff_not, not_exists_not, not_exists_not, contains_eq_iff]

/-- What is gathered along a list has a bit just if one of its parts has. -/
theorem foldl_or_eq_zero {α : Type} (g : α → UInt64) (l : List α) (bits : UInt64) :
    l.foldl (fun bits p => bits ||| g p) bits = 0 ↔ bits = 0 ∧ ∀ p ∈ l, g p = 0 := by
  induction l generalizing bits with
  | nil => simp
  | cons p l ih => rw [List.foldl_cons, ih, UInt64.or_eq_zero_iff, List.forall_mem_cons, and_assoc]

theorem mem_zip_words {p : UInt64 × UInt64} : p ∈ s.words.zip t.words ↔
    ∃ i, i < s.words.size ∧ i < t.words.size ∧ p = (s.word i, t.word i) := by
  rw [Array.mem_iff_getElem?]
  refine exists_congr fun i => ?_
  rw [Array.getElem?_zip_eq_some]
  constructor
  · rintro ⟨hs, ht⟩
    obtain ⟨hi, -⟩ := Array.getElem?_eq_some_iff.mp hs
    obtain ⟨hi', -⟩ := Array.getElem?_eq_some_iff.mp ht
    exact ⟨hi, hi', by simp [word, hs, ht]⟩
  · rintro ⟨hs, ht, rfl⟩
    simp [word, hs, ht]

/-- No bit changes just if the combination has the same words as the row. -/
theorem changes_eq_zero_iff : changes f s t = 0 ↔ ∀ i, (combine f s t).word i = s.word i := by
  rw [changes, ← Array.foldl_toList, foldl_or_eq_zero, and_iff_right rfl]
  simp only [Array.mem_toList_iff, mem_zip_words, UInt64.xor_eq_zero_iff]
  constructor
  · intro h i
    rcases Nat.lt_or_ge i t.words.size with ht | ht
    · rcases Nat.lt_or_ge i s.words.size with hs | hs
      · rw [word_combine hs ht]
        exact (h _ ⟨i, hs, ht, rfl⟩).symm
      · exact word_combine_of_size_le (Or.inl hs)
    · exact word_combine_of_size_le (Or.inr ht)
  · rintro h p ⟨i, hs, ht, rfl⟩
    exact (h i).symm.trans (word_combine hs ht)

theorem update_fst_iff_word :
    (update f s t).1 = true ↔ ∃ i, (combine f s t).word i ≠ s.word i := by
  rw [update, bne_iff_ne, ne_eq, changes_eq_zero_iff, not_forall]

/-- The flag of a combination tells whether some member came or went. -/
theorem update_fst : (update f s t).1 = true ↔ ∃ x, (update f s t).2.contains x ≠ s.contains x := by
  rw [exists_contains_ne_iff, update_fst_iff_word, update]

end Combinations

/-! ### Union and difference -/

@[simp] theorem contains_union (s t : BitSet) (x : Nat) :
    (s.union t).2.contains x = (s.contains x || t.contains x) := by
  have hroom : x / 64 < (s.grow t.words.size).words.size ∨ (false || t.contains x) = false := by
    rcases Nat.lt_or_ge (x / 64) t.words.size with hi | hi
    · exact Or.inl (Nat.lt_of_lt_of_le hi (le_size_grow s _))
    · exact Or.inr (by rw [contains_of_size_le hi]; rfl)
  rw [union, update, contains_combine (g := (· || ·)) (fun _ => UInt64.or_zero) testBit_or hroom,
    contains_grow]

theorem union_fst (s t : BitSet) :
    (s.union t).1 = true ↔ ∃ x, t.contains x = true ∧ s.contains x = false := by
  have hflag := update_fst (f := (· ||| ·)) (s := s.grow t.words.size) (t := t)
  have hsnd : ∀ x, (update (· ||| ·) (s.grow t.words.size) t).2.contains x =
      (s.contains x || t.contains x) := contains_union s t
  simp only [hsnd, contains_grow] at hflag
  rw [union, hflag]
  constructor
  · rintro ⟨x, hx⟩
    refine ⟨x, ?_⟩
    cases hs : s.contains x <;> cases ht : t.contains x <;> simp [hs, ht] at hx ⊢
  · rintro ⟨x, ht, hs⟩
    exact ⟨x, by simp [hs, ht]⟩

/-- Rows of the same length are equal if their words are. -/
theorem ext_word {s t : BitSet} (hsize : s.words.size = t.words.size)
    (h : ∀ i < s.words.size, s.word i = t.word i) : s = t := by
  cases s with
  | mk a =>
    cases t with
    | mk b =>
      congr 1
      apply Array.ext hsize
      intro i ha hb
      have := h i ha
      simpa [word, ha, hb] using this

theorem union_self (s : BitSet) : s.union s = (false, s) := by
  have hgrow : s.grow s.words.size = s := by simp [grow]
  have hwords : combine (· ||| ·) s s = s := by
    apply ext_word (size_combine _ s s)
    intro i hi
    have hs : i < s.words.size := size_combine _ s s ▸ hi
    rw [word_combine hs hs, UInt64.or_self]
  have hflag : changes (· ||| ·) s s = 0 := changes_eq_zero_iff.mpr fun i => by rw [hwords]
  simp [union, update, hgrow, hwords, hflag]

@[simp] theorem contains_subtract (s t : BitSet) (x : Nat) :
    (s.subtract t).2.contains x = (s.contains x && !t.contains x) :=
  contains_combine (g := (· && !·)) (by simp) testBit_and_not (Or.inr rfl)

theorem subtract_fst (s t : BitSet) :
    (s.subtract t).1 = true ↔ ∃ x, s.contains x = true ∧ t.contains x = true := by
  refine update_fst.trans (exists_congr fun x => ?_)
  rw [show (update _ s t).2.contains x = _ from contains_subtract s t x]
  cases s.contains x <;> cases t.contains x <;> decide

/-! ### Intersection -/

theorem word_clearFrom (s : BitSet) (n i : Nat) :
    (s.clearFrom n).2.word i = if i < n then s.word i else 0 := by
  rcases Nat.lt_or_ge i s.words.size with hs | hs
  · simp [word, clearFrom, hs]
  · simp [word, clearFrom, Array.getElem?_eq_none hs]

theorem clearFrom_fst (s : BitSet) (n : Nat) :
    (s.clearFrom n).1 = true ↔ ∃ i, n ≤ i ∧ s.word i ≠ 0 := by
  simp only [clearFrom, List.any_eq_true, bne_iff_ne, List.mem_iff_getElem?, List.getElem?_drop,
    Array.getElem?_toList]
  constructor
  · rintro ⟨w, ⟨k, hk⟩, hw⟩
    exact ⟨n + k, Nat.le_add_right n k, by simpa [word, hk] using hw⟩
  · rintro ⟨i, hi, hw⟩
    have hs : i < s.words.size := by
      by_contra hs
      exact hw (word_of_size_le s (Nat.le_of_not_lt hs))
    refine ⟨s.word i, ⟨i - n, ?_⟩, hw⟩
    simp [word, Nat.add_sub_cancel' hi, hs]

/-- Clearing the words that have no counterpart completes the intersection. -/
theorem word_intersect (s t : BitSet) (i : Nat) :
    (s.intersect t).2.word i = s.word i &&& t.word i := by
  simp only [intersect, update, word_clearFrom]
  rcases Nat.lt_or_ge i t.words.size with ht | ht
  · rw [if_pos ht]
    rcases Nat.lt_or_ge i s.words.size with hs | hs
    · exact word_combine hs ht
    · rw [word_combine_of_size_le (Or.inl hs), word_of_size_le s hs, UInt64.zero_and]
  · rw [if_neg (Nat.not_lt.mpr ht), word_of_size_le t ht, UInt64.and_zero]

@[simp] theorem contains_intersect (s t : BitSet) (x : Nat) :
    (s.intersect t).2.contains x = (s.contains x && t.contains x) := by
  rw [contains_eq, word_intersect, testBit_and, contains_eq, contains_eq]

/-- The flag tells of a change as far as both rows go, or of one beyond the second row. -/
theorem intersect_fst_iff_word (s t : BitSet) :
    (s.intersect t).1 = true ↔ ∃ i, (s.intersect t).2.word i ≠ s.word i := by
  have hword : ∀ i, (s.intersect t).2.word i =
      if i < t.words.size then (combine (· &&& ·) s t).word i else 0 := word_clearFrom _ _
  have hflag : (s.intersect t).1 = true ↔ (∃ i, (combine (· &&& ·) s t).word i ≠ s.word i) ∨
      ∃ i, t.words.size ≤ i ∧ (combine (· &&& ·) s t).word i ≠ 0 := by
    rw [intersect, Bool.or_eq_true, update_fst_iff_word, clearFrom_fst]
    rfl
  rw [hflag]
  constructor
  · rintro (⟨i, hi⟩ | ⟨i, ht, hi⟩)
    · have ht : i < t.words.size := by
        by_contra ht
        exact hi (word_combine_of_size_le (Or.inr (Nat.le_of_not_lt ht)))
      exact ⟨i, by rwa [hword, if_pos ht]⟩
    · rw [word_combine_of_size_le (Or.inr ht)] at hi
      exact ⟨i, by rw [hword, if_neg (Nat.not_lt.mpr ht)]; exact hi.symm⟩
  · rintro ⟨i, hi⟩
    rw [hword] at hi
    split at hi
    case isTrue => exact Or.inl ⟨i, hi⟩
    case isFalse ht =>
      have ht := Nat.le_of_not_lt ht
      exact Or.inr ⟨i, ht, by rw [word_combine_of_size_le (Or.inr ht)]; exact hi.symm⟩

theorem intersect_fst (s t : BitSet) :
    (s.intersect t).1 = true ↔ ∃ x, s.contains x = true ∧ t.contains x = false := by
  rw [intersect_fst_iff_word, ← exists_contains_ne_iff]
  refine exists_congr fun x => ?_
  rw [contains_intersect]
  cases s.contains x <;> cases t.contains x <;> decide

/-! ### Removal -/

@[simp] theorem contains_erase (s : BitSet) (x y : Nat) :
    (s.erase x).2.contains y = (s.contains y && !decide (y = x)) := by
  simp only [contains_eq, erase, word_setWord]
  by_cases hw : x / 64 = y / 64
  · by_cases hi : x / 64 < s.words.size
    · rw [if_pos ⟨hw, hi⟩, testBit_and_not, testBit_mask, hw]
      have hxy : y % 64 = x % 64 ↔ y = x := by omega
      simp [hxy]
    · rw [if_neg (fun h => hi h.2), word_of_size_le s (by omega)]
      simp [testBit_zero]
  · have hne : y ≠ x := by rintro rfl; exact hw rfl
    rw [if_neg (fun h => hw h.1)]
    simp [hne]

theorem erase_fst (s : BitSet) (x : Nat) : (s.erase x).1 = s.contains x := by
  simp only [erase, contains_eq]
  cases hc : testBit (s.word (x / 64)) (x % 64) with
  | false =>
    simp only [bne_eq_false_iff_eq]
    apply word_ext
    intro i hi
    rw [testBit_and_not, testBit_mask]
    by_cases hix : i = x % 64
    · simp [hix, hc]
    · simp [hix]
  | true =>
    simp only [bne_iff_ne, ne_eq]
    intro heq
    have hbit := congrArg (testBit · (x % 64)) heq
    simp [testBit_and_not, testBit_mask, hc] at hbit

/-! ### Comparison -/

/-- A test of the words of one row against those of another one is a test of all places. -/
theorem forall_words_iff {P : UInt64 → UInt64 → Prop} (hzero : ∀ a, P a 0) {s t : BitSet} :
    (∀ p ∈ t.words.toList.zipIdx, P (s.word p.2) p.1) ↔ ∀ i, P (s.word i) (t.word i) := by
  constructor
  · intro h i
    rcases Nat.lt_or_ge i t.words.size with hi | hi
    · refine h (t.word i, i) (List.mem_zipIdx_iff_getElem?.mpr ?_)
      simp [word, hi]
    · rw [word_of_size_le t hi]
      exact hzero _
  · rintro h ⟨w, i⟩ hwi
    exact word_of_mem_zipIdx hwi ▸ h i

theorem superset_iff (s t : BitSet) :
    s.superset t = true ↔ ∀ x, t.contains x = true → s.contains x = true := by
  simp only [superset, List.all_eq_true, beq_iff_eq]
  refine (forall_words_iff (P := fun a b => a &&& b = b) (by simp)).trans ?_
  constructor
  · intro h x hx
    rw [contains_eq, ← h (x / 64), testBit_and, Bool.and_eq_true] at hx
    exact hx.1
  · intro h i
    apply word_ext
    intro j hj
    rw [testBit_and, ← contains_at s i hj, ← contains_at t i hj]
    cases ht : t.contains (64 * i + j) with
    | false => simp
    | true => simp [h _ ht]

/-- Rows share an element just if they have words in one place that share a bit. -/
theorem intersects_iff (s t : BitSet) :
    s.intersects t = true ↔ ∃ x, s.contains x = true ∧ t.contains x = true := by
  simp only [intersects, Array.any_eq_true', bne_iff_ne, mem_zip_words]
  constructor
  · rintro ⟨p, ⟨i, -, -, rfl⟩, hne⟩
    obtain ⟨j, hj, hbit⟩ := exists_testBit hne
    rw [testBit_and, Bool.and_eq_true] at hbit
    exact ⟨64 * i + j, by rw [contains_at s i hj]; exact hbit.1, by rw [contains_at t i hj]; exact hbit.2⟩
  · rintro ⟨x, hs, ht⟩
    refine ⟨_, ⟨x / 64, lt_size_of_contains hs, lt_size_of_contains ht, rfl⟩, fun hzero => ?_⟩
    have hbit := congrArg (testBit · (x % 64)) hzero
    rw [contains_eq] at hs ht
    simp [testBit_and, testBit_zero, hs, ht] at hbit

/-! ### Enumeration -/

theorem mem_bitsOf (w : UInt64) (i : Nat) : i ∈ bitsOf w ↔ testBit w i = true := by
  simp only [bitsOf, List.mem_filter, List.mem_range, and_iff_right_iff_imp]
  intro h
  by_contra hi
  simp [testBit_of_le w (Nat.le_of_not_lt hi)] at h

theorem lt_of_mem_bitsOf {w : UInt64} {i : Nat} (h : i ∈ bitsOf w) : i < 64 :=
  List.mem_range.mp (List.mem_filter.mp h).1

theorem sorted_bitsOf (w : UInt64) : (bitsOf w).Pairwise (· < ·) := List.pairwise_lt_range.filter _

@[simp] theorem mem_toList (s : BitSet) (x : Nat) : x ∈ s.toList ↔ s.contains x = true := by
  simp only [toList, List.mem_flatMap, List.mem_map, Prod.exists]
  constructor
  · rintro ⟨w, i, hwi, j, hj, rfl⟩
    rw [contains_at _ _ (lt_of_mem_bitsOf hj), word_of_mem_zipIdx hwi]
    exact (mem_bitsOf w j).mp hj
  · intro h
    have hi : x / 64 < s.words.size := lt_size_of_contains h
    refine ⟨s.word (x / 64), x / 64, ?_, x % 64, (mem_bitsOf _ _).mpr h, by omega⟩
    apply List.mem_zipIdx_iff_getElem?.mpr
    simp [word, hi]

theorem sorted_toList (s : BitSet) : s.toList.Pairwise (· < ·) := by
  rw [toList, List.pairwise_flatMap]
  constructor
  · rintro ⟨w, i⟩ -
    exact (sorted_bitsOf w).map _ fun a b hab => Nat.add_lt_add_left hab _
  · have hidx : (s.words.toList.zipIdx.map Prod.snd).Pairwise (· < ·) := by
      rw [List.zipIdx_map_snd]
      exact List.pairwise_lt_range'
    refine (List.pairwise_map.mp hidx).imp ?_
    rintro ⟨w, i⟩ ⟨w', i'⟩ hlt x hx y hy
    -- Words at different places have their elements in different ranges of 64.
    obtain ⟨j, hj, rfl⟩ := List.mem_map.mp hx
    obtain ⟨j', hj', rfl⟩ := List.mem_map.mp hy
    have h1 := lt_of_mem_bitsOf hj
    have hlt : i < i' := hlt
    omega

theorem nodup_toList (s : BitSet) : s.toList.Nodup := s.sorted_toList.imp Nat.ne_of_lt

theorem length_bitsOf (w : UInt64) : (bitsOf w).length = popCount w := by
  rw [bitsOf, popCount, List.countP_eq_length_filter]

theorem count_eq_length (s : BitSet) : s.count = s.toList.length := by
  have hmap : s.words.toList.map popCount =
      s.words.toList.zipIdx.map fun p => ((bitsOf p.1).map (64 * p.2 + ·)).length := by
    simp only [List.length_map, length_bitsOf]
    conv => lhs; rw [← List.zipIdx_map_fst 0 s.words.toList]
    rw [List.map_map]; rfl
  rw [count, toList, List.length_flatMap, hmap]
  rfl

theorem isEmpty_iff (s : BitSet) : s.isEmpty = true ↔ ∀ x, s.contains x = false := by
  simp only [isEmpty, Array.all_eq_true_iff_forall_mem, beq_iff_eq]
  constructor
  · intro h x
    rcases Nat.lt_or_ge (x / 64) s.words.size with hi | hi
    · have hword : s.word (x / 64) = 0 := by
        simp only [word, Array.getD_eq_getD_getElem?, Array.getElem?_eq_getElem hi]
        exact h _ (Array.getElem_mem hi)
      rw [contains_eq, hword, testBit_zero]
    · exact contains_of_size_le hi
  · intro h w hw
    obtain ⟨i, hi, rfl⟩ := Array.mem_iff_getElem.mp hw
    apply word_ext
    intro j hj
    have hword : s.word i = s.words[i] := by simp [word, hi]
    rw [← hword, ← contains_at s i hj, h, testBit_zero]

end PointsTo.BitSet
