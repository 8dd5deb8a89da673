import PointsTo.IdTable
import PointsTo.Types.Canonical

/-! The parts of aggregate types.

    Flattening lists the types of a type's fields in place: records and arrays are opened, a union
    counts as one field, an array as one element. The nested aggregates of a type are the records,
    unions and arrays it holds by value, at any depth. Both are computed for one type after the
    other and remember what they found; a type that is met again while it is being opened is cut
    off there, so that types that hold each other by value come to an end. -/

namespace PointsTo

/-- The flattened fields of the types done so far. -/
abbrev FieldTable := Std.TreeMap TypeId (List TypeId)

namespace Layout

variable (table : TypeTable) (c : Canonicals)

/-- Is the type opened when it is a member? -/
def isOpened (ty : TypeId) : Bool :=
  match table.get? ty with
  | some d => d.isRecord || d.isArray
  | none => false

/-- Is the type an aggregate? -/
def isAggregate (ty : TypeId) : Bool :=
  match table.get? ty with
  | some d => d.isAggregate
  | none => false

/-- The canonical types of the members that have one. -/
def memberTypes (members : List Member) : List TypeId :=
  members.filterMap fun m => c.canonical (some m.ty)

/-- The flattened fields of a canonical type. `busy` are the types being opened, and `fuel` bounds
    their number. -/
def flatten (done : FieldTable) : Nat → List TypeId → TypeId → List TypeId
  | 0, _, ty => [ty]
  | fuel + 1, busy, ty =>
    match done[ty]? with
    | some fields => fields
    | none =>
      if busy.contains ty then [ty]
      else match (table.get? ty).map TypeDesc.kind with
        | some (.record _ members) =>
          (memberTypes c members).flatMap fun m =>
            if isOpened table m then flatten done fuel (ty :: busy) m else [m]
        | some (.array element _) =>
          match c.canonical (some element) with
          | some e => flatten done fuel (ty :: busy) e
          | none => []
        | _ => [ty]

/-- Flattens the types of a list, each with what is known of those before it. -/
def flattenAll (order : List TypeId) : FieldTable :=
  order.foldl (fun done ty => done.insert ty (flatten table c done (table.size + 1) [] ty)) ∅

/-- The canonical types that a type holds by value, in order. -/
def parts (ty : TypeId) : List TypeId :=
  match (table.get? ty).map TypeDesc.kind with
  | some (.record _ members) | some (.union members) => memberTypes c members
  | some (.array element _) => (c.canonical (some element)).toList
  | _ => []

/-- The aggregates nested in a canonical type, and what is known afterwards. A type being opened
    contributes nothing when it is met again. -/
def nested : Nat → List TypeId → IdTable → TypeId → IdSet × IdTable
  | 0, _, done, _ => (∅, done)
  | fuel + 1, busy, done, ty =>
    match done[ty]? with
    | some s => (s, done)
    | none =>
      if busy.contains ty then (∅, done)
      else
        let r := (parts table c ty).foldl
          (fun (s, done) m =>
            if isAggregate table m then
              let inner := nested fuel (ty :: busy) done m
              (((s.insert m).2.union inner.1).2, inner.2)
            else (s, done))
          ((∅ : IdSet), done)
        (r.1, r.2.insert ty r.1)

/-- The nested aggregates of the types of a list. -/
def nestedAll (order : List TypeId) : IdTable :=
  order.foldl (fun done ty => (nested table c (table.size + 1) [] done ty).2) ∅

end Layout

end PointsTo
