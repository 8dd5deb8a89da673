import PointsTo.IdTable

/-! What objects hold before and after each statement.

    Every statement has an IN and an OUT row from objects to the sets stored in them. The rows only
    grow, and no entry is ever an empty set. -/

namespace PointsTo

/-- The contents of objects before and after statements. -/
structure FlowFacts where
  ins : IdGrid := ∅
  outs : IdGrid := ∅

namespace FlowFacts

/-- No object holds anything anywhere. -/
def empty : FlowFacts := {}

instance : EmptyCollection FlowFacts := ⟨empty⟩
instance : Inhabited FlowFacts := ⟨empty⟩

/-- The objects that hold something before a statement. -/
def inObjects (f : FlowFacts) (loc : Nat) : List Nat := (f.ins.rowAt loc).keys

/-- Adds to what `obj` holds after `loc`. -/
def addOut (f : FlowFacts) (loc obj : Nat) (s : IdSet) : Bool × FlowFacts :=
  let r := f.outs.unionInto loc obj s
  (r.1, { f with outs := r.2 })

/-- Carries what `obj` holds before `src` to before `dst`. -/
def inFromIn (f : FlowFacts) (src obj dst : Nat) : Bool × FlowFacts :=
  let r := f.ins.unionInto dst obj (f.ins.setAt src obj)
  (r.1, { f with ins := r.2 })

/-- Carries what `obj` holds after `src` to before `dst`. -/
def inFromOut (f : FlowFacts) (src obj dst : Nat) : Bool × FlowFacts :=
  let r := f.ins.unionInto dst obj (f.outs.setAt src obj)
  (r.1, { f with ins := r.2 })

/-- Adds an object's set to a row, unless the object is `killed`; the flag tells whether some set of
    the row has changed so far. -/
def takeIn (killed : Option Nat) (acc : Bool × IdTable) (entry : Nat × IdSet) : Bool × IdTable :=
  if some entry.1 = killed then acc
  else
    let r := acc.2.unionInto entry.1 entry.2
    (acc.1 || r.1, r.2)

/-- Carries a row of contents to after `loc`, one object after the other. -/
def carryOut (f : FlowFacts) (loc : Nat) (killed : Option Nat) (row : List (Nat × IdSet)) :
    Bool × FlowFacts :=
  let r := row.foldl (takeIn killed) (false, f.outs.rowAt loc)
  (r.1, { f with outs := f.outs.insert loc r.2 })

/-- Carries what every object other than `killed` holds before `loc` to after it. -/
def outFromIn (f : FlowFacts) (loc : Nat) (killed : Option Nat) : Bool × FlowFacts :=
  match f.ins[loc]? with
  | none => (false, f)
  | some row => f.carryOut loc killed row.toList

end FlowFacts

end PointsTo
