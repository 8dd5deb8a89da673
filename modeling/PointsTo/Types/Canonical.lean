import PointsTo.Types.Equiv

/-! Canonical types.

    Going through a table in order, every type is stripped of its qualifiers and compared with the
    representatives found so far; the first equivalent one is its canonical type, and a type without
    one becomes a representative itself. Types that strip to `void` have no canonical type. -/

namespace PointsTo

/-- The canonical types of the places seen so far, and their representatives in order. -/
structure Canonicals where
  types : Array (Option TypeId)
  reps : List TypeId
  deriving DecidableEq, Repr

namespace Canonicals

/-- No place was seen. -/
def empty : Canonicals := ⟨#[], []⟩

instance : Inhabited Canonicals := ⟨empty⟩

/-- The first representative that is equivalent to a stripped type. -/
def findRep (table : TypeTable) (stripped : TypeId) : List TypeId → Except Fault (Option TypeId)
  | [] => .ok none
  | rep :: reps => do
    if ← table.equiv (some rep) (some stripped) then return some rep
    findRep table stripped reps

/-- Sees the next place of the table. -/
def see (table : TypeTable) (c : Canonicals) (id : TypeId) : Except Fault Canonicals := do
  match ← table.strip (some id) with
  | none => return { c with types := c.types.push none }
  | some stripped =>
    match ← findRep table stripped c.reps with
    | some rep => return { c with types := c.types.push (some rep) }
    | none => return ⟨c.types.push (some stripped), c.reps ++ [stripped]⟩

/-- Sees every place of the table. -/
def ofTable (table : TypeTable) : Except Fault Canonicals :=
  table.ids.foldlM (see table) empty

/-- The canonical type of an optional type; places outside the table have none. -/
def canonical (c : Canonicals) (ty : Option TypeId) : Option TypeId :=
  ty.bind fun id => c.types[id]?.join

end Canonicals

end PointsTo
