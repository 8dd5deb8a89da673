import PointsTo.BitSet

/-! Walks through the elements of a row, in ascending order.

    A cursor keeps what it has not visited of the current word, the number of bits in front of that
    word and the words to come. It starts before the first word, with an offset that lies a word's
    length below zero: loading a word moves the offset on by that length, and the first time it wraps
    around to zero. -/

namespace PointsTo

/-- A place on the walk through a row. -/
structure BitCursor where
  /-- The current word without the bits already visited. -/
  word : UInt64
  /-- The number of bits in front of the current word. -/
  offset : UInt64
  /-- The words after the current one. -/
  rest : List UInt64
  deriving DecidableEq, Repr

namespace BitCursor

/-- The place in front of a row's first word. -/
def start (s : BitSet) : BitCursor := ⟨0, UInt64.ofNat (wordLimit - 64), s.words.toList⟩

/-- The position of the lowest set bit of a word, 64 if no bit is set. -/
def lowestBit (w : UInt64) : Nat := w.toBitVec.ctz.toNat

/-- The word with its lowest set bit flipped. -/
def dropLowest (w : UInt64) : UInt64 := w ^^^ BitSet.mask (lowestBit w)

/-- Goes on to the next word, if there is one. -/
def load (c : BitCursor) : Option BitCursor :=
  match c.rest with
  | [] => none
  | w :: rest => some ⟨w, c.offset + 64, rest⟩

theorem load_eq_some {c c' : BitCursor} (h : c.load = some c') :
    c.rest = c'.word :: c'.rest ∧ c'.offset = c.offset + 64 := by
  rw [load] at h
  split at h
  case h_1 => cases h
  case h_2 hrest =>
    cases h
    exact ⟨hrest, rfl⟩

theorem length_rest_of_load {c c' : BitCursor} (h : c.load = some c') :
    c'.rest.length < c.rest.length := by
  rw [(load_eq_some h).1]
  exact Nat.lt_succ_self _

/-- Visits the lowest bit left of the current word, or of the first word after it that has one. -/
def next (c : BitCursor) : Except Fault (Option Nat × BitCursor) :=
  if c.word = 0 then
    match h : c.load with
    | none => return (none, c)
    | some c' =>
      have := length_rest_of_load h
      c'.next
  else do
    let x ← checkedAdd (lowestBit c.word) c.offset.toNat
    return (some x, { c with word := dropLowest c.word })
termination_by c.rest.length

/-! ### The walk comes to an end -/

theorem toBitVec_ne_zero {w : UInt64} (h : w ≠ 0) : w.toBitVec ≠ 0#64 :=
  fun h0 => h (UInt64.toBitVec_inj.mp h0)

theorem testBit_lowestBit {w : UInt64} (h : w ≠ 0) : BitSet.testBit w (lowestBit w) = true :=
  BitVec.getLsbD_true_ctz_of_ne_zero (toBitVec_ne_zero h)

theorem lowestBit_lt {w : UInt64} (h : w ≠ 0) : lowestBit w < 64 :=
  BitVec.lt_def.mp (BitVec.ctz_lt_iff_ne_zero.mpr (toBitVec_ne_zero h))

/-- The lowest set bit is cleared, and no other bit changes. -/
theorem testBit_dropLowest {w : UInt64} (h : w ≠ 0) (i : Nat) :
    BitSet.testBit (dropLowest w) i = (BitSet.testBit w i && decide (i ≠ lowestBit w)) := by
  have hxor : BitSet.testBit (dropLowest w) i =
      (BitSet.testBit w i ^^ BitSet.testBit (BitSet.mask (lowestBit w)) i) := by
    simp [BitSet.testBit, dropLowest]
  rw [hxor, BitSet.testBit_mask, Nat.mod_eq_of_lt (lowestBit_lt h)]
  by_cases hi : i = lowestBit w
  · simp [hi, testBit_lowestBit h]
  · simp [hi]

theorem dropLowest_lt {w : UInt64} (h : w ≠ 0) : (dropLowest w).toNat < w.toNat := by
  have hsub : (dropLowest w).toNat &&& w.toNat = (dropLowest w).toNat := by
    apply Nat.eq_of_testBit_eq
    intro i
    have hbit : (dropLowest w).toNat.testBit i = (w.toNat.testBit i && decide (i ≠ lowestBit w)) :=
      testBit_dropLowest h i
    rw [Nat.testBit_and, hbit]
    cases w.toNat.testBit i <;> simp
  refine Nat.lt_of_le_of_ne (hsub ▸ Nat.and_le_right) fun heq => ?_
  have hbit := testBit_dropLowest h (lowestBit w)
  rw [UInt64.toNat_inj.mp heq, testBit_lowestBit h] at hbit
  simp at hbit

/-- Every visit leaves fewer words to come, or as many and less of the current one. -/
theorem lex_of_next {c c' : BitCursor} {x : Nat} (h : c.next = .ok (some x, c')) :
    Prod.Lex (· < ·) (· < ·) (c'.rest.length, c'.word.toNat) (c.rest.length, c.word.toNat) := by
  fun_induction next c with
  | case1 => cases h
  | case2 c _ d hload _ ih =>
    have hlen := length_rest_of_load hload
    rcases Prod.lex_def.mp (ih h) with hlt | ⟨heq, -⟩
    · exact .left _ _ (Nat.lt_trans hlt hlen)
    · exact .left _ _ (Nat.lt_of_le_of_lt (Nat.le_of_eq heq) hlen)
  | case3 c hne =>
    cases hsum : checkedAdd (lowestBit c.word) c.offset.toNat with
    | error e =>
      rw [hsum] at h
      cases h
    | ok y =>
      rw [hsum] at h
      cases h
      exact .right _ (dropLowest_lt hne)

/-- All elements that the cursor has not visited yet. -/
def collect (c : BitCursor) : Except Fault (List Nat) :=
  match h : c.next with
  | .error e => .error e
  | .ok (none, _) => return []
  | .ok (some x, c') =>
    have := lex_of_next h
    do return x :: (← c'.collect)
termination_by (c.rest.length, c.word.toNat)
decreasing_by assumption

end BitCursor

/-- Lists the elements by walking through the row. -/
def BitSet.tryToList (s : BitSet) : Except Fault (List Nat) := (BitCursor.start s).collect

end PointsTo
