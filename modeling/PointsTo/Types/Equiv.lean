import PointsTo.Types.Table

/-! Equivalence of types.

    Qualifiers are transparent: a chain of them leads to the type it qualifies, to `void`, or
    nowhere. Basic types are equivalent if size and sign-agnostic encoding agree, pointers and
    references if their targets are, arrays if their elements are; structs and classes are told apart
    by name and place of declaration only, and so are unions among themselves. -/

namespace PointsTo.TypeTable

/-- Follows a chain of qualifiers for at most `fuel` descriptors. -/
def stripFrom (t : TypeTable) : Nat → Option TypeId → Except Fault (Option TypeId)
  | 0, _ => .ok none
  | _ + 1, none => .ok none
  | fuel + 1, some id => do
    match (← t.get id).kind with
    | .qualified _ base => t.stripFrom fuel base
    | _ => return some id

/-- The type at the end of a chain of qualifiers; none if the chain ends in `void` or never ends.
    A chain that ends visits no descriptor twice. -/
def strip (t : TypeTable) (ty : Option TypeId) : Except Fault (Option TypeId) :=
  t.stripFrom (t.size + 1) ty

/-- Are there `fuel` qualifiers in a row? -/
def qualifiesFor (t : TypeTable) : Nat → Option TypeId → Except Fault Bool
  | 0, _ => .ok true
  | _ + 1, none => .ok false
  | fuel + 1, some id => do
    match (← t.get id).kind with
    | .qualified _ base => t.qualifiesFor fuel base
    | _ => return false

/-- Does the chain of qualifiers from `id` never end? -/
def hasEndlessQualifiers (t : TypeTable) (id : TypeId) : Except Fault Bool :=
  t.qualifiesFor (t.size + 1) (some id)

/-- Were the two descriptors declared under one name at one place? -/
def sameDeclaration (a b : TypeDesc) : Bool :=
  a.name == b.name && a.file == b.file && a.line == b.line

/-- Equivalence up to `fuel` links from a pointer or array to its target. -/
def equivUpTo (t : TypeTable) : Nat → Option TypeId → Option TypeId → Except Fault Bool
  | 0, _, _ => .ok false
  | fuel + 1, a, b => do
    match ← t.strip a, ← t.strip b with
    | none, none => return true
    | some a, some b =>
      if a = b then return true
      let da ← t.get a
      let db ← t.get b
      match da.kind, db.kind with
      | .basic ea, .basic eb =>
        return da.sizeBits == db.sizeBits && ea.signAgnostic == eb.signAgnostic
      | .array ea _, .array eb _ => t.equivUpTo fuel (some ea) (some eb)
      | .address _ pa, .address _ pb => t.equivUpTo fuel pa pb
      | .record _ _, .record _ _ | .union _, .union _ => return sameDeclaration da db
      | .subroutine, .subroutine => return true
      | _, _ => return false
    | _, _ => return false

/-- Are the two types equivalent? Two walks that have not told them apart after as many links as
    there are pairs of types go round in a circle. -/
def equiv (t : TypeTable) (a b : Option TypeId) : Except Fault Bool :=
  t.equivUpTo (t.size * t.size + 1) a b

end PointsTo.TypeTable
