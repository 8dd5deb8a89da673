import Mathlib.Logic.Equiv.Defs
import PointsTo.Proofs.Naming
import PointsTo.Proofs.Start

/-! The rules of the flow-sensitive analysis.

    `Derives` is the least set of facts that is closed under the rules of a described program. It
    speaks of names and places only: there are no nodes, and fields exist without being made. So it
    says what an analysis without types should find out, whatever it visits when. -/

namespace PointsTo

/-! ### Places -/

/-- A place in memory: a whole object, or the field of one at a flattened offset. -/
structure Place where
  root : ObjRef
  field : Option Nat
  deriving DecidableEq

/-- The whole object that a name refers to. -/
def Place.whole (name : String) : Place := ⟨.ofName name, none⟩

namespace Memory

/-- Is the whole of the allocation an array, by its declaration or by its type? -/
def isArrayAt (m : Memory) (types : Hierarchy) : Bool := m.isArray || types.isArray (m.firstType types)

/-- Does a store to just one place of the allocation overwrite what it holds? -/
def overwritable (m : Memory) : Bool :=
  !(m.alloc == .heap || m.isArray || m.inRecursion || m.fieldInsensitive || m.alloc == .special)

/-- Where a projection of a place of the allocation leads: to the place itself, or to a field, unless
    that is beyond the fields that are told apart. -/
def project? (m : Memory) (types : Hierarchy) (limit : Nat) (o : Place) (k : Nat) : Option Place :=
  if m.fieldInsensitive || (o.field.isNone && k == 0 && !m.isArrayAt types) then some o
  else
    let slot := o.field.getD 0 + k
    if slot < limit then some ⟨o.root, some slot⟩ else none

end Memory

/-! ### Facts -/

/-- What can be known of a described program; a statement is given by its position. -/
inductive ProgramFact where
  | pts (v : String) (x : Place)
  | before (i : Nat) (o x : Place)
  | after (i : Nat) (o x : Place)
  deriving DecidableEq

namespace ProgramFact

/-- A place holds another one on the flows that leave a statement. -/
def leaving : StmtKindDesc → Nat → Place → Place → ProgramFact
  | .store _ _ _ => .after
  | .addr _ _ | .copy _ _ _ | .gep _ _ _ _ | .load _ _ _ | .phi _ _ _ => .before

/-- The fact about a program with its statements at other positions. -/
def reindex (σ : Nat → Nat) : ProgramFact → ProgramFact
  | .pts v x => .pts v x
  | .before i o x => .before (σ i) o x
  | .after i o x => .after (σ i) o x

theorem reindex_leaving (σ : Nat → Nat) (kind : StmtKindDesc) (i : Nat) (o x : Place) :
    (leaving kind i o x).reindex σ = leaving kind (σ i) o x := by
  cases kind <;> rfl

end ProgramFact

/-! ### Rules -/

namespace ProgramDesc

/-- What the statement at a position does. -/
def kindAt? (d : ProgramDesc) (i : Nat) : Option StmtKindDesc := d.statements[i]?.map StmtDesc.kind

/-- The id of the statement at a position, if it has one. -/
def idAt? (d : ProgramDesc) (i : Nat) : Option String := d.statements[i]?.bind StmtDesc.id

/-- What follows from the seeds of a program by the rules of its statements and flows. -/
inductive Derives (d : ProgramDesc) (types : Hierarchy) (limit : Nat) : ProgramFact → Prop where
  | seed {sd : SeedDesc} {name : String} : sd ∈ d.seeds → name ∈ sd.objs →
      Derives d types limit (.pts sd.value (.whole name))
  | addr {i : Nat} {obj dst : String} : d.kindAt? i = some (.addr obj dst) →
      Derives d types limit (.pts dst (.whole obj))
  | copy {i : Nat} {src dst : String} {vtableInit : Bool} {x : Place} :
      d.kindAt? i = some (.copy src dst vtableInit) → Derives d types limit (.pts src x) →
      Derives d types limit (.pts dst x)
  | phi {i : Nat} {dst : String} {operands : List String} {receiver : Option TypeId} {u : String}
      {x : Place} : d.kindAt? i = some (.phi dst operands receiver) → u ∈ operands →
      Derives d types limit (.pts u x) → Derives d types limit (.pts dst x)
  | gep {i : Nat} {base dst : String} {k : Nat} {ty : Option TypeId} {o x : Place} {m : Memory} :
      d.kindAt? i = some (.gep base dst (some k) ty) → Derives d types limit (.pts base o) →
      IsMemory d.objects o.root m → m.project? types limit o k = some x →
      Derives d types limit (.pts dst x)
  /-- A projection to an unknown place gives the whole object. -/
  | variant {i : Nat} {base dst : String} {ty : Option TypeId} {o : Place} :
      d.kindAt? i = some (.gep base dst none ty) → Derives d types limit (.pts base o) →
      Derives d types limit (.pts dst ⟨o.root, none⟩)
  | load {i : Nat} {ptr dst : String} {ty : Option TypeId} {o x : Place} :
      d.kindAt? i = some (.load ptr dst ty) → Derives d types limit (.pts ptr o) →
      o.root ≠ .special .constant → Derives d types limit (.before i o x) →
      Derives d types limit (.pts dst x)
  | store {i : Nat} {src ptr : String} {ty : Option TypeId} {o x : Place} :
      d.kindAt? i = some (.store src ptr ty) → Derives d types limit (.pts src x) →
      Derives d types limit (.pts ptr o) → (∀ which, o.root ≠ .special which) →
      Derives d types limit (.after i o x)
  /-- A place keeps what it holds, unless the store is known to overwrite just this place. -/
  | through {i : Nat} {src ptr : String} {ty : Option TypeId} {o x e : Place} {m : Memory} :
      d.kindAt? i = some (.store src ptr ty) → Derives d types limit (.before i o x) →
      Derives d types limit (.pts ptr e) → IsMemory d.objects e.root m →
      (e ≠ o ∨ m.overwritable = false) → Derives d types limit (.after i o x)
  | flow {f : FlowDesc} {i j : Nat} {kind : StmtKindDesc} {name : String} {x : Place} : f ∈ d.flows →
      d.idAt? i = some f.src → d.idAt? j = some f.dst → name ∈ f.objs → d.kindAt? i = some kind →
      Derives d types limit (.leaving kind i (.whole name) x) →
      Derives d types limit (.before j (.whole name) x)

/-- A projection leads from a place of an allocation with fields to an unknown place, or beyond the
    fields that are told apart. -/
def Overreaches (d : ProgramDesc) (types : Hierarchy) (limit : Nat) : Prop :=
  ∃ i base dst offset ty o m, d.kindAt? i = some (.gep base dst offset ty) ∧
    Derives d types limit (.pts base o) ∧ IsMemory d.objects o.root m ∧ m.fieldInsensitive = false ∧
    ∀ k, offset = some k → m.project? types limit o k = none

/-! ### The order of the statements -/

variable {d : ProgramDesc} {types : Hierarchy} {limit : Nat} {l : List StmtDesc} {σ : Equiv.Perm Nat}

theorem kindAt?_reorder (hl : ∀ i, l[σ i]? = d.statements[i]?) (i : Nat) :
    kindAt? { d with statements := l } (σ i) = d.kindAt? i :=
  congrArg (Option.map StmtDesc.kind) (hl i)

theorem idAt?_reorder (hl : ∀ i, l[σ i]? = d.statements[i]?) (i : Nat) :
    idAt? { d with statements := l } (σ i) = d.idAt? i :=
  congrArg (Option.bind · StmtDesc.id) (hl i)

theorem Derives.reorder (hl : ∀ i, l[σ i]? = d.statements[i]?) {f : ProgramFact}
    (hf : Derives d types limit f) : Derives { d with statements := l } types limit (f.reindex σ) := by
  have hkind := kindAt?_reorder hl
  have hid := idAt?_reorder hl
  induction hf with
  | seed hsd hname => exact .seed hsd hname
  | addr hk => exact .addr ((hkind _).trans hk)
  | copy hk _ ih => exact .copy ((hkind _).trans hk) ih
  | phi hk hu _ ih => exact .phi ((hkind _).trans hk) hu ih
  | gep hk _ hm hp ih => exact .gep ((hkind _).trans hk) ih hm hp
  | variant hk _ ih => exact .variant ((hkind _).trans hk) ih
  | load hk _ hne _ ih ih' => exact .load ((hkind _).trans hk) ih hne ih'
  | store hk _ _ hne ih ih' => exact .store ((hkind _).trans hk) ih ih' hne
  | through hk _ _ hm hwhy ih ih' => exact .through ((hkind _).trans hk) ih ih' hm hwhy
  | flow hf hi hj hname hk _ ih =>
    rw [ProgramFact.reindex_leaving] at ih
    exact .flow hf ((hid _).trans hi) ((hid _).trans hj) hname ((hkind _).trans hk) ih

/-- The order of the statements does not matter. -/
theorem derives_reorder (hl : ∀ i, l[σ i]? = d.statements[i]?) {f : ProgramFact} :
    Derives { d with statements := l } types limit (f.reindex σ) ↔ Derives d types limit f := by
  refine ⟨fun hf => ?_, Derives.reorder hl⟩
  have hback : ∀ i, d.statements[σ.symm i]? = l[i]? := fun i => by
    rw [← hl, Equiv.apply_symm_apply]
  have := hf.reorder hback
  cases f <;> simpa [ProgramFact.reindex] using this

theorem overreaches_reorder (hl : ∀ i, l[σ i]? = d.statements[i]?) :
    Overreaches { d with statements := l } types limit ↔ Overreaches d types limit := by
  constructor
  · rintro ⟨i, base, dst, offset, ty, o, m, hk, ho, hm⟩
    refine ⟨σ.symm i, base, dst, offset, ty, o, m, ?_, (derives_reorder hl).mp ho, hm⟩
    rw [← kindAt?_reorder hl, Equiv.apply_symm_apply, hk]
  · rintro ⟨i, base, dst, offset, ty, o, m, hk, ho, hm⟩
    exact ⟨σ i, base, dst, offset, ty, o, m, (kindAt?_reorder hl i).trans hk, ho.reorder hl, hm⟩

end ProgramDesc

end PointsTo
