import Std.Data.TreeMap
import PointsTo.IdSet

/-! Tables of id sets, with one key or two.

    A key without an entry stands for the empty set, though an entry may also hold an empty set:
    `get?` tells the two apart and `setAt` does not. -/

namespace PointsTo

/-- A finite map from ids to sets of ids. -/
abbrev IdTable := Std.TreeMap Nat IdSet

namespace IdTable

/-- The set of a key, empty without an entry. -/
def setAt (t : IdTable) (k : Nat) : IdSet := t.getD k ∅

/-- Adds one element to a key's set; the flag tells whether it was absent. -/
def addTo (t : IdTable) (k x : Nat) : Bool × IdTable :=
  let r := (t.setAt k).insert x
  (r.1, t.insert k r.2)

/-- Adds a set to a key's set, which gets an entry even if both are empty. -/
def unionInto (t : IdTable) (k : Nat) (s : IdSet) : Bool × IdTable :=
  let r := (t.setAt k).union s
  (r.1, t.insert k r.2)

end IdTable

/-- A finite map from pairs of ids to sets of ids, row by row. -/
abbrev IdGrid := Std.TreeMap Nat IdTable

namespace IdGrid

/-- The row of a first key. -/
def rowAt (g : IdGrid) (i : Nat) : IdTable := g.getD i ∅

/-- The entry of a pair of keys. -/
def cell? (g : IdGrid) (i j : Nat) : Option IdSet := (g.rowAt i)[j]?

/-- The set of a pair of keys, empty without an entry. -/
def setAt (g : IdGrid) (i j : Nat) : IdSet := (g.rowAt i).setAt j

/-- Adds one element to the set of a pair of keys. -/
def addTo (g : IdGrid) (i j x : Nat) : Bool × IdGrid :=
  let r := (g.rowAt i).addTo j x
  (r.1, g.insert i r.2)

/-- Adds a set to the set of a pair of keys; an empty one leaves no trace. -/
def unionInto (g : IdGrid) (i j : Nat) (s : IdSet) : Bool × IdGrid :=
  if s.isEmpty then (false, g)
  else
    let r := (g.rowAt i).unionInto j s
    (r.1, g.insert i r.2)

end IdGrid

end PointsTo
