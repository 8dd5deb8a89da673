import PointsTo.IdTable

/-! The points-to sets of variables, with the reverse map from elements to the variables that hold
    them. The two maps stay inverse to each other under every operation. -/

namespace PointsTo

/-- Points-to sets by variable, and holders by element. -/
structure PointerSets where
  sets : IdTable := ∅
  holders : IdTable := ∅

namespace PointerSets

/-- No variable points anywhere. -/
def empty : PointerSets := {}

instance : EmptyCollection PointerSets := ⟨empty⟩
instance : Inhabited PointerSets := ⟨empty⟩

/-- The entry of a variable. -/
def get? (p : PointerSets) (var : Nat) : Option IdSet := p.sets[var]?

/-- The points-to set of a variable, empty without an entry. -/
def pts (p : PointerSets) (var : Nat) : IdSet := p.sets.setAt var

/-- The variables that hold an element, if it was ever held. -/
def holders? (p : PointerSets) (elem : Nat) : Option IdSet := p.holders[elem]?

/-- Records that `var` holds each of the elements. -/
def hold (holders : IdTable) (var : Nat) (elems : List Nat) : IdTable :=
  elems.foldl (fun h x => (IdTable.addTo h x var).2) holders

/-- Adds one element; the flag tells whether it was absent. -/
def add (p : PointerSets) (var elem : Nat) : Bool × PointerSets :=
  let r := p.sets.addTo var elem
  (r.1, ⟨r.2, hold p.holders var [elem]⟩)

/-- Adds a set of elements; the flag tells whether one was absent. -/
def addAll (p : PointerSets) (var : Nat) (elems : IdSet) : Bool × PointerSets :=
  let r := p.sets.unionInto var elems
  (r.1, ⟨r.2, hold p.holders var elems.toList⟩)

/-- Adds what `src` points to to `dst`; nothing happens if `src` has no entry. -/
def copy (p : PointerSets) (dst src : Nat) : Bool × PointerSets :=
  if dst = src then (false, p)
  else match p.get? src with
    | some s => p.addAll dst s
    | none => (false, p)

/-- Takes `var` out of the holders of an element that has any. -/
def release (holders : IdTable) (var elem : Nat) : IdTable :=
  match holders[elem]? with
  | some s => holders.insert elem (s.erase var).2
  | none => holders

/-- Empties the set of a variable, which keeps its entry. -/
def clearVar (p : PointerSets) (var : Nat) : PointerSets :=
  match p.get? var with
  | some s => ⟨p.sets.insert var ∅, s.toList.foldl (release · var) p.holders⟩
  | none => p

end PointerSets

end PointsTo
