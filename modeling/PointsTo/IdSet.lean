import PointsTo.BitSet

/-! Sets of ids in two shapes.

    A small set keeps at most 32 ids in the order of their insertion; beyond that a set becomes a
    row of bits, and it stays one until it is cleared or cut down by a small set. Both shapes denote
    finite sets of naturals, and every operation that changes a set tells whether a member came or
    went. The order of `toList` is the one in which an analysis visits a set: insertion order for a
    small set, ascending for a large one. -/

namespace PointsTo

/-- The number of ids up to which a set keeps insertion order. -/
def smallCapacity : Nat := 32

/-- Takes `x` out of a list by moving the last element into its place. -/
def swapErase (x : Nat) (l : List Nat) : List Nat :=
  match l.getLast? with
  | none => []
  | some z => if z = x then l.dropLast else l.dropLast.replace x z

theorem replace_perm_cons_erase {x z : Nat} : ∀ {l : List Nat}, x ∈ l →
    (l.replace x z).Perm (z :: l.erase x)
  | a :: l, h => by
    by_cases hax : a = x
    · subst hax; simp
    · have hx : x ∈ l := by
        rcases List.mem_cons.mp h with h | h
        · exact absurd h.symm hax
        · exact h
      have hxa : (x == a) = false := by simpa using Ne.symm hax
      simp only [List.replace_cons, hxa, List.erase_cons, beq_iff_eq, if_neg hax]
      exact ((replace_perm_cons_erase hx).cons a).trans (List.Perm.swap z a _)

theorem swapErase_perm_erase {x : Nat} {l : List Nat} (h : x ∈ l) :
    (swapErase x l).Perm (l.erase x) := by
  have hne : l ≠ [] := List.ne_nil_of_mem h
  have hl := List.dropLast_concat_getLast hne
  rw [swapErase, List.getLast?_eq_some_getLast hne]
  by_cases hz : l.getLast hne = x
  · simp only [if_pos hz]
    by_cases hd : x ∈ l.dropLast
    · conv => rhs; rw [← hl, List.erase_append_left _ hd, hz]
      refine (List.perm_cons_erase hd).trans ?_
      exact (List.perm_append_singleton x _).symm
    · conv => rhs; rw [← hl, List.erase_append_right _ hd, hz]
      simp
  · simp only [if_neg hz]
    have hd : x ∈ l.dropLast := by
      rw [← hl] at h
      rcases List.mem_append.mp h with h | h
      · exact h
      · exact absurd (List.mem_singleton.mp h).symm hz
    conv => rhs; rw [← hl, List.erase_append_left _ hd]
    exact (replace_perm_cons_erase hd).trans (List.perm_append_singleton _ _).symm

/-- At most 32 distinct ids in the order of their insertion. -/
structure SmallSet where
  elems : List Nat
  nodup : elems.Nodup
  length_le : elems.length ≤ smallCapacity
  deriving DecidableEq, Repr

namespace SmallSet

/-- The small set without elements. -/
def empty : SmallSet := ⟨[], List.nodup_nil, Nat.zero_le _⟩

/-- Appends an id that is not yet there. -/
def push (s : SmallSet) (x : Nat) (h : x ∉ s.elems) (hs : s.elems.length < smallCapacity) :
    SmallSet :=
  ⟨s.elems ++ [x],
    List.nodup_append.mpr ⟨s.nodup, by simp, by
      intro a ha b hb; rw [List.mem_singleton] at hb; subst hb; exact fun e => h (e ▸ ha)⟩,
    by simpa [List.length_append] using Nat.succ_le_of_lt hs⟩

/-- Takes out an id that is there, moving the last one into its place. -/
def erase (s : SmallSet) (x : Nat) (h : x ∈ s.elems) : SmallSet :=
  ⟨swapErase x s.elems,
    (swapErase_perm_erase h).nodup_iff.mpr (s.nodup.erase x),
    by rw [(swapErase_perm_erase h).length_eq]; exact Nat.le_trans (List.length_erase_le) s.length_le⟩

/-- Keeps the ids that pass a test, in their order. -/
def filter (s : SmallSet) (p : Nat → Bool) : SmallSet :=
  ⟨s.elems.filter p, s.nodup.filter p, Nat.le_trans (List.length_filter_le _ _) s.length_le⟩

end SmallSet

/-- A set of ids, small in insertion order or large as bits. -/
inductive IdSet where
  | small (s : SmallSet)
  | large (b : BitSet)
  deriving DecidableEq, Repr

namespace IdSet

/-- The set without elements, small. -/
def empty : IdSet := .small .empty

instance : EmptyCollection IdSet := ⟨empty⟩
instance : Inhabited IdSet := ⟨empty⟩

/-- Is `x` in the set? -/
def contains : IdSet → Nat → Bool
  | .small s, x => s.elems.contains x
  | .large b, x => b.contains x

instance : Membership Nat IdSet := ⟨fun s x => s.contains x = true⟩

instance (x : Nat) (s : IdSet) : Decidable (x ∈ s) := inferInstanceAs (Decidable (_ = true))

/-- The elements in visiting order. -/
def toList : IdSet → List Nat
  | .small s => s.elems
  | .large b => b.toList

/-- The number of elements. -/
def count : IdSet → Nat
  | .small s => s.elems.length
  | .large b => b.count

/-- Has the set no element? -/
def isEmpty : IdSet → Bool
  | .small s => s.elems.isEmpty
  | .large b => b.isEmpty

/-- Adds `x`; the flag tells whether it was absent. A full small set becomes large. -/
def insert : IdSet → Nat → Bool × IdSet
  | .small s, x =>
    if h : x ∈ s.elems then (false, .small s)
    else if hs : s.elems.length < smallCapacity then (true, .small (s.push x h hs))
    else
      let r := (BitSet.ofList s.elems).insert x
      (r.1, .large r.2)
  | .large b, x =>
    let r := b.insert x
    (r.1, .large r.2)

/-- Removes `x`; the flag tells whether it was present. -/
def erase : IdSet → Nat → Bool × IdSet
  | .small s, x => if h : x ∈ s.elems then (true, .small (s.erase x h)) else (false, .small s)
  | .large b, x =>
    let r := b.erase x
    (r.1, .large r.2)

/-- Adds the elements of a list from left to right; the flag tells whether one was absent. -/
def insertAll (s : IdSet) (xs : List Nat) : Bool × IdSet :=
  xs.foldl (fun (changed, s) x => let r := s.insert x; (changed || r.1, r.2)) (false, s)

/-- Removes the elements of a list from left to right; the flag tells whether one was present. -/
def eraseAll (s : IdSet) (xs : List Nat) : Bool × IdSet :=
  xs.foldl (fun (changed, s) x => let r := s.erase x; (changed || r.1, r.2)) (false, s)

/-- The set of a list's elements. -/
def ofList (xs : List Nat) : IdSet := (empty.insertAll xs).2

/-- Keeps the ids of a small set that pass a test; the flag tells whether one went. -/
def filterSmall (s : SmallSet) (p : Nat → Bool) : Bool × IdSet :=
  let r := s.filter p
  (r.elems.length != s.elems.length, .small r)

/-- Adds every element of the second set; the result is large as soon as one of the two is. -/
def union : IdSet → IdSet → Bool × IdSet
  | .large a, .large b => let r := a.union b; (r.1, .large r.2)
  | .small a, .large b => let r := (BitSet.ofList a.elems).union b; (r.1, .large r.2)
  | s, .small b => s.insertAll b.elems

/-- Removes every element of the second set. -/
def subtract : IdSet → IdSet → Bool × IdSet
  | .large a, .large b => let r := a.subtract b; (r.1, .large r.2)
  | s@(.large _), .small b => s.eraseAll b.elems
  | .small a, t => filterSmall a fun x => !t.contains x

/-- Removes every element that is not in the second set. A large set cut down by a small one
    becomes small and takes over the order of the latter. -/
def intersect : IdSet → IdSet → Bool × IdSet
  | .large a, .large b => let r := a.intersect b; (r.1, .large r.2)
  | .large a, .small b =>
    let kept := b.filter a.contains
    (kept.elems.length != a.count, .small kept)
  | .small a, t => filterSmall a t.contains

/-- Is every element of `t` in `s`? -/
def superset : IdSet → IdSet → Bool
  | .large a, .large b => a.superset b
  | s, t => t.toList.all s.contains

/-- Do the sets share an element? -/
def intersects : IdSet → IdSet → Bool
  | .large a, .large b => a.intersects b
  | .small a, t => a.elems.any t.contains
  | s, .small b => b.elems.any s.contains

/-- Have the two sets the same elements, whatever their shapes? -/
def sameElems (s t : IdSet) : Bool := s.count == t.count && s.superset t

/-- The elements in ascending order. -/
def sorted (s : IdSet) : List Nat := s.toList.mergeSort (· ≤ ·)

end IdSet

end PointsTo
