import PointsTo.Solver.Run

/-! Alias queries.

    A pointer used at a type views those objects of its points-to set that the type is a base of.
    Two pointers cannot alias if they view no common object; they must alias if they view one object
    only, the same, which stands for a single piece of memory. -/

namespace PointsTo

/-- The answer to an alias query. -/
inductive AliasResult where | noAlias | mayAlias | mustAlias
  deriving DecidableEq, Repr

/-- The name of an answer. -/
def AliasResult.text : AliasResult → String
  | .noAlias => "NoAlias"
  | .mayAlias => "MayAlias"
  | .mustAlias => "MustAlias"

namespace Solver

variable (s : Solver)

/-- May a pointer to a type view an object? -/
def views (ty : Option TypeId) (obj : NodeId) : Except Fault Bool := do
  if (← s.graph.obj obj).isSpecial then return true
  return s.types.isBase ty (← s.heap.typeOf obj) s.options.firstField

/-- The objects that a value points to and a pointer to a type may view; all of them if the type is
    unknown or types are not used. -/
def typedPts (v : NodeId) (ty : Option TypeId) : Except Fault IdSet := do
  if ty.isNone || !s.options.typed then return s.pts v
  return .ofList (← (s.pts v).toList.filterM (s.views ty))

/-- How two sets of viewed objects meet. -/
def aliasOfSets (p q : IdSet) : Except Fault AliasResult := do
  if !p.intersects q then return .noAlias
  match p.toList.head? with
  | some obj =>
    if p.count = 1 && p.sameElems q then
      if ← s.isStrong obj then return .mustAlias
    return .mayAlias
  | none => return .mayAlias

/-- May two values, each used at a type, point to the same memory? -/
def aliasOf (p : NodeId) (pTy : Option TypeId) (q : NodeId) (qTy : Option TypeId) :
    Except Fault AliasResult := do
  s.aliasOfSets (← s.typedPts p pTy) (← s.typedPts q qTy)

end Solver

end PointsTo
