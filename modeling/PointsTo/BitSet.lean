import PointsTo.Fault

/-! Sets of naturals as rows of 64-bit words.

    Bit `x % 64` of word `x / 64` says whether `x` is in the set; words beyond the row count as
    zero, so a row may end in zero words without changing its members. Equality of rows is finer
    than equality of sets. The operations that change a set also tell whether a word changed. -/

namespace PointsTo

/-- A set of naturals, stored as bits. -/
structure BitSet where
  words : Array UInt64
  deriving DecidableEq, Repr

namespace BitSet

/-- The set without words. -/
def empty : BitSet := ⟨#[]⟩

instance : EmptyCollection BitSet := ⟨empty⟩
instance : Inhabited BitSet := ⟨empty⟩

/-- The least number of words that hold `capacity` bits. -/
def wordsFor (capacity : Nat) : Nat := (capacity + 63) / 64

/-- The `i`-th word, zero beyond the end of the row. -/
def word (s : BitSet) (i : Nat) : UInt64 := s.words.getD i 0

/-- The word in which only the bit of `x` is set. -/
def mask (x : Nat) : UInt64 := 1 <<< UInt64.ofNat (x % 64)

/-- Is bit `i` of the word set? -/
def testBit (w : UInt64) (i : Nat) : Bool := w.toNat.testBit i

/-- The only bit that is set in the word of `x`. -/
theorem testBit_mask (x i : Nat) : testBit (mask x) i = decide (i = x % 64) := by
  have hx : x % 64 < 64 := Nat.mod_lt _ (by decide)
  have hmask : (mask x).toNat = 2 ^ (x % 64) := by
    have hlt : 2 ^ (x % 64) < 2 ^ 64 := Nat.pow_lt_pow_right (by decide) hx
    simp only [mask, UInt64.toNat_shiftLeft, UInt64.toNat_ofNat', UInt64.toNat_one,
      Nat.shiftLeft_eq, Nat.one_mul]
    have h64 : x % 64 % 2 ^ 64 % 64 = x % 64 := by omega
    rw [h64]
    exact Nat.mod_eq_of_lt hlt
  rw [testBit, hmask, Nat.testBit_two_pow]
  simp [eq_comm]

/-- The positions of the set bits of a word, in ascending order. -/
def bitsOf (w : UInt64) : List Nat := (List.range 64).filter (testBit w)

/-- The number of set bits of a word. -/
def popCount (w : UInt64) : Nat := (List.range 64).countP (testBit w)

/-- Appends zero words until the row has at least `n` of them. -/
def grow (s : BitSet) (n : Nat) : BitSet :=
  ⟨s.words ++ Array.replicate (n - s.words.size) 0⟩

/-- Overwrites one word of the row. -/
def setWord (s : BitSet) (i : Nat) (w : UInt64) : BitSet := ⟨s.words.setIfInBounds i w⟩

/-- Is `x` in the set? -/
def contains (s : BitSet) (x : Nat) : Bool := testBit (s.word (x / 64)) (x % 64)

/-- The elements in ascending order. -/
def toList (s : BitSet) : List Nat :=
  s.words.toList.zipIdx.flatMap fun (w, i) => (bitsOf w).map (64 * i + ·)

/-- The number of elements. -/
def count (s : BitSet) : Nat := (s.words.toList.map popCount).foldr (· + ·) 0

/-- Has the set no element? -/
def isEmpty (s : BitSet) : Bool := s.words.all (· == 0)

/-- Removes every element and keeps the row's length. -/
def clear (s : BitSet) : BitSet := ⟨s.words.map fun _ => 0⟩

/-- Adds `x`; the flag tells whether it was absent. -/
def insert (s : BitSet) (x : Nat) : Bool × BitSet :=
  let g := s.grow (wordsFor (x + 1))
  let old := g.word (x / 64)
  let new := old ||| mask x
  (new != old, g.setWord (x / 64) new)

/-- Removes `x`; the flag tells whether it was present. -/
def erase (s : BitSet) (x : Nat) : Bool × BitSet :=
  let old := s.word (x / 64)
  let new := old &&& ~~~ mask x
  (new != old, s.setWord (x / 64) new)

/-- The set of a list's elements. -/
def ofList (xs : List Nat) : BitSet := xs.foldl (fun s x => (s.insert x).2) empty

/-- Combines the words of `s` with those of `t` as far as both rows go; the words beyond stay. -/
def combine (f : UInt64 → UInt64 → UInt64) (s t : BitSet) : BitSet :=
  ⟨s.words.mapIdx fun i w => t.words[i]?.elim w (f w)⟩

/-- The bits that a combination changes, those of all words in one. -/
def changes (f : UInt64 → UInt64 → UInt64) (s t : BitSet) : UInt64 :=
  (s.words.zip t.words).foldl (fun bits p => bits ||| (p.1 ^^^ f p.1 p.2)) 0

/-- Combines in place; the flag tells whether some bit changed. -/
def update (f : UInt64 → UInt64 → UInt64) (s t : BitSet) : Bool × BitSet :=
  (changes f s t != 0, combine f s t)

/-- Clears the words from the `n`-th on; the flag tells whether one of them had a bit set. -/
def clearFrom (s : BitSet) (n : Nat) : Bool × BitSet :=
  ((s.words.toList.drop n).any (· != 0), ⟨s.words.mapIdx fun i w => if i < n then w else 0⟩)

/-- Adds every element of `t`. -/
def union (s t : BitSet) : Bool × BitSet := update (· ||| ·) (s.grow t.words.size) t

/-- Removes every element of `t`. -/
def subtract (s t : BitSet) : Bool × BitSet := update (fun a b => a &&& ~~~ b) s t

/-- Removes every element that is not in `t`; words without a counterpart have none that is. -/
def intersect (s t : BitSet) : Bool × BitSet :=
  let both := update (· &&& ·) s t
  let rest := both.2.clearFrom t.words.size
  (both.1 || rest.1, rest.2)

/-- Is every element of `t` in `s`? -/
def superset (s t : BitSet) : Bool :=
  t.words.toList.zipIdx.all fun (b, i) => s.word i &&& b == b

/-- Do the sets share an element? -/
def intersects (s t : BitSet) : Bool := (s.words.zip t.words).any fun p => p.1 &&& p.2 != 0

/-! ### Machine words

    Capacities and indices are machine words: the bits of a row are counted in one, rounding a
    capacity up to whole words must stay one, and a word is read only at a place of the row. -/

/-- The number of bits of the row. -/
def capacity (s : BitSet) : Except Fault Nat := checkedMul s.words.size 64

/-- The word at a place of the row. -/
def wordAt (s : BitSet) (i : Nat) : Except Fault UInt64 :=
  match s.words[i]? with
  | some w => .ok w
  | none => .error (.indexOutOfBounds s.words.size i)

/-- Changes the word at a place of the row; the flag tells whether it became another one. -/
def rewriteAt (s : BitSet) (i : Nat) (f : UInt64 → UInt64) : Except Fault (Bool × BitSet) := do
  let old ← s.wordAt i
  return (f old != old, s.setWord i (f old))

/-- Refuses capacities that cannot be rounded up. -/
def checkCapacity (capacity : Nat) : Except Fault Unit := do
  let _ ← checkedAdd capacity 64

/-- The empty set with room for `capacity` bits. -/
def withCapacity (capacity : Nat) : Except Fault BitSet := do
  checkCapacity capacity
  return empty.grow (wordsFor capacity)

/-- Makes room for `capacity` bits. -/
def reserve (s : BitSet) (capacity : Nat) : Except Fault BitSet := do
  checkCapacity capacity
  return s.grow (wordsFor capacity)

/-- Looks `x` up in the row, if it has room for `x`. -/
def tryContains (s : BitSet) (x : Nat) : Except Fault Bool := do
  if (← s.capacity) ≤ x then return false
  return (← s.wordAt (x / 64)) &&& mask x != 0

/-- Adds `x` if room for it can be made. -/
def tryInsert (s : BitSet) (x : Nat) : Except Fault (Bool × BitSet) := do
  let roomy ← s.reserve (← checkedAdd x 1)
  roomy.rewriteAt (x / 64) (· ||| mask x)

/-- Removes `x` from the row, if it has room for `x`. -/
def tryErase (s : BitSet) (x : Nat) : Except Fault (Bool × BitSet) := do
  if (← s.capacity) ≤ x then return (false, s)
  s.rewriteAt (x / 64) (· &&& ~~~ mask x)

/-- Adds every element of `t` if room for them can be made. -/
def tryUnion (s t : BitSet) : Except Fault (Bool × BitSet) := do
  let roomy ← s.reserve (← t.capacity)
  return update (· ||| ·) roomy t

/-- Counts the elements. -/
def tryCount (s : BitSet) : Except Fault Nat :=
  s.words.toList.foldlM (fun total w => checkedAdd total (popCount w)) 0

end BitSet

end PointsTo
