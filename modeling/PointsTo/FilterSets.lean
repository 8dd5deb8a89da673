import PointsTo.IdTable

/-! Objects hidden from single statements.

    An object filtered at a statement stays in the points-to sets the statement reads; only the
    statement does not see it. Filter sets only grow. -/

namespace PointsTo

/-- The filtered objects of each statement. -/
structure FilterSets where
  sets : IdTable := ∅

namespace FilterSets

/-- Nothing is filtered. -/
def empty : FilterSets := {}

instance : EmptyCollection FilterSets := ⟨empty⟩
instance : Inhabited FilterSets := ⟨empty⟩

/-- The objects filtered at a statement. -/
def setAt (f : FilterSets) (loc : Nat) : IdSet := f.sets.setAt loc

/-- Is `obj` filtered at `loc`? -/
def isFiltered (f : FilterSets) (loc obj : Nat) : Bool := (f.setAt loc).contains obj

/-- Filters `obj` at `loc`; the flag tells whether it was not filtered before. -/
def filter (f : FilterSets) (loc obj : Nat) : Bool × FilterSets :=
  let r := f.sets.addTo loc obj
  (r.1, ⟨r.2⟩)

/-- The number of filtered pairs of a statement and an object. -/
def total (f : FilterSets) : Nat := (f.sets.values.map IdSet.count).foldr (· + ·) 0

end FilterSets

end PointsTo
