import PointsTo.Proofs.CloneRegistry
import PointsTo.Proofs.HeapHistory

/-! The types of fields.

    A field object of a record gets its type from the projection that makes it. Asked for through the
    record itself or through one of its fields, it has the type that the record declares for its slot,
    unless that field is itself a pointer, a reference or an array: then it has the type of what is
    pointed to, or of an element. Nothing changes the type later on. -/

namespace PointsTo

namespace Hierarchy

variable {types : Hierarchy} {ty : Option TypeId}

/-- Is the type a struct or a class? -/
def isRecord (types : Hierarchy) (ty : Option TypeId) : Bool := (types.desc? ty).any TypeDesc.isRecord

theorem isRecord_spec (hty : types.isRecord ty = true) :
    types.isArray ty = false ∧ types.isAddress ty = false ∧ ty.isSome = true := by
  unfold isRecord at hty
  unfold isArray isAddress
  cases hdesc : types.desc? ty with
  | none =>
    rw [hdesc] at hty
    cases hty
  | some d =>
    rw [hdesc] at hty
    simp only [Option.any_some, TypeDesc.isRecord] at hty
    refine ⟨?_, ?_, ?_⟩
    · cases hk : d.kind <;> simp_all [TypeDesc.isArray]
    · cases hk : d.kind <;> simp_all [TypeDesc.isAddress]
    · cases ty with
      | none => cases hdesc
      | some t => rfl

/-- The type of a field of a record that is asked for through an object of another type. -/
def reachedType (types : Hierarchy) (record via : Option TypeId) (slot : Nat) : Option TypeId :=
  if types.isArray via then types.elementType via
  else if types.isAddress via then types.targetType via
  else types.fieldType record slot

theorem reachedType_of_plain {via : Option TypeId} (harray : types.isArray via = false)
    (haddress : types.isAddress via = false) (slot : Nat) :
    types.reachedType ty via slot = types.fieldType ty slot := by
  simp [reachedType, harray, haddress]

end Hierarchy

namespace Heap

variable {g₀ : Graph} {tys : TypeId → Prop} {types : Hierarchy} {h h' : Heap}
  {base b f r root : NodeId} {o : ObjNode} {k offset slot : Nat} {ty via : Option TypeId}

/-- Is the object of a struct or class type, in an allocation that is no array? -/
def RecordAt (h : Heap) (types : Hierarchy) (r : NodeId) (ty : Option TypeId) : Prop :=
  h.typeOf r = .ok ty ∧ types.isRecord ty = true ∧
    ∃ w, h.graph.obj r = .ok w ∧ (h.graph.mem w.mem).isArray = false

/-- Is the object the whole one itself, or a field of it before the slot? -/
def Precedes (h : Heap) (b r : NodeId) (k : Nat) : Prop :=
  b = r ∨ ∃ o j, h.graph.obj b = .ok o ∧ o.kind = .field r j ∧ j < k

/-- The field object has the type that it gets when it is asked for through an object that precedes
    its slot. -/
def TypedThrough (h : Heap) (types : Hierarchy) (f r : NodeId) (ty : Option TypeId) (k : Nat) : Prop :=
  ∃ b via, h.Precedes b r k ∧ h.typeOf b = .ok via ∧ h.typeOf f = .ok (types.reachedType ty via k)

/-- All fields of records that are no clones got their types through objects before them. -/
def FieldsTyped (types : Hierarchy) (h : Heap) : Prop :=
  ∀ f o r k ty, h.graph.obj f = .ok o → o.kind = .field r k → h.isClone f = false →
    h.RecordAt types r ty → h.TypedThrough types f r ty k

/-! ### What a new field object gets -/

/-- The type of a slot of a record. -/
theorem Valid.slotType_eq (hv : h.Valid g₀ tys) (ho : h.graph.obj base = .ok o)
    (hvia : h.types[base]? = some via) (hslot : slotOf base o.kind offset = .ok (root, slot))
    (hrec : h.RecordAt types root ty) :
    h.slotType types base via (h.isArrayAt types base o) offset root slot =
      .ok (types.reachedType ty via slot) := by
  obtain ⟨hty, hrecord, w, hw, hmem⟩ := hrec
  obtain ⟨harray, haddress, hsome⟩ := Hierarchy.isRecord_spec hrecord
  cases hfield : o.isField with
  | false =>
    -- The object is the record itself, and has its type.
    rw [slotOf_of_whole hfield] at hslot
    cases hslot
    obtain rfl := ok_unique ho hw
    rw [typeOf_eq_ok, hvia] at hty
    cases hty
    simp [slotType, isArrayAt, hmem, hvia, harray, haddress, Hierarchy.reachedType, pure_eq_ok]
  | true =>
    obtain ⟨r, j, hk⟩ : ∃ r j, o.kind = .field r j := by
      cases hk : o.kind <;> simp_all [ObjNode.isField]
    rw [hk, slotOf_field_eq_ok] at hslot
    obtain ⟨rfl, -, -⟩ := hslot
    obtain ⟨-, w', hw', hwhole, hm⟩ := hv.fieldOf ho hk
    obtain rfl := ok_unique hw hw'
    have hne : root ≠ base := by
      rintro rfl
      rw [ok_unique ho hw, hwhole] at hfield
      cases hfield
    have hisArray : h.isArrayAt types base o = types.isArray via := by
      simp [isArrayAt, ← hm, hmem, hvia]
    rw [hisArray]
    cases harr : types.isArray via with
    | true => simp [slotType, Hierarchy.reachedType, harr, pure_eq_ok]
    | false =>
      cases hadd : types.isAddress via with
      | true => simp [slotType, Hierarchy.reachedType, harr, hadd, pure_eq_ok]
      | false =>
        simp [slotType, Hierarchy.reachedType, harr, hadd, hne, hty, hsome, ok_bind, pure_eq_ok]

/-- An object that leads to a slot without objects precedes it. -/
theorem Valid.precedes_of_empty (hv : h.Valid g₀ tys) (ho : h.graph.obj base = .ok o)
    (hslot : slotOf base o.kind offset = .ok (root, slot)) (hcell : h.fields.cell? root slot = none) :
    h.Precedes base root slot := by
  cases hk : o.kind with
  | field r j =>
    rw [hk, slotOf_field_eq_ok] at hslot
    obtain ⟨rfl, rfl, -⟩ := hslot
    refine Or.inr ⟨o, j, ho, hk, Nat.lt_of_le_of_ne (Nat.le_add_right j offset) fun heq => ?_⟩
    -- The object itself is in its own slot.
    have hmem := hv.fields.mpr ⟨o, ho, hk⟩
    rw [heq, IdGrid.setAt_of_cell?_none hcell] at hmem
    exact IdSet.not_mem_empty base hmem
  | base | dummy | special s =>
    rw [slotOf_of_whole (by simp [ObjNode.isField, hk])] at hslot
    cases hslot
    exact Or.inl rfl

/-! ### What later edits keep -/

theorem typeOf_eq (hext : h.Extends h') (hx : h.graph.HasObj b) : h'.typeOf b = h.typeOf b := by
  rw [typeOf, typeOf, hext.types hx]

theorem RecordAt.restrict (hext : h.Extends h') (hr : h.graph.HasObj r)
    (hrec : h'.RecordAt types r ty) : h.RecordAt types r ty := by
  obtain ⟨hty, hrecord, w, hw, hmem⟩ := hrec
  obtain ⟨w₀, hw₀⟩ := hr
  obtain rfl := ok_unique hw (hext.graph.obj hw₀)
  refine ⟨typeOf_eq hext ⟨w, hw₀⟩ ▸ hty, hrecord, w, hw₀, ?_⟩
  rw [← hext.graph.isArray, hmem]

theorem TypedThrough.extend (hext : h.Extends h') (hf : h.graph.HasObj f) (hr : h.graph.HasObj r)
    (ht : h.TypedThrough types f r ty k) : h'.TypedThrough types f r ty k := by
  obtain ⟨b, via, hb, hvia, hty⟩ := ht
  rw [← typeOf_eq hext hf] at hty
  rcases hb with rfl | ⟨o, j, ho, hk, hj⟩
  · exact ⟨b, via, Or.inl rfl, typeOf_eq hext hr ▸ hvia, hty⟩
  · exact ⟨b, via, Or.inr ⟨o, j, hext.graph.obj ho, hk, hj⟩, typeOf_eq hext ⟨o, ho⟩ ▸ hvia, hty⟩

/-- A field object that was there keeps its type, and so does what it was reached through. -/
theorem FieldsTyped.old (hv : h.Valid g₀ tys) (hf : h.FieldsTyped types) (hext : h.Extends h')
    (ho : h.graph.obj f = .ok o) (hk : o.kind = .field r k) (hclone : h'.isClone f = false)
    (hrec : h'.RecordAt types r ty) : h'.TypedThrough types f r ty k := by
  obtain ⟨-, w, hw, -⟩ := hv.fieldOf ho hk
  rw [isClone_eq_false, hext.prototypes ⟨o, ho⟩, ← isClone_eq_false] at hclone
  exact (hf _ _ _ _ _ ho hk hclone (hrec.restrict hext ⟨w, hw⟩)).extend hext ⟨o, ho⟩ ⟨w, hw⟩

/-- Edits that bring in no field object but clones. -/
theorem FieldsTyped.keep (hv : h.Valid g₀ tys) (hf : h.FieldsTyped types) (hext : h.Extends h')
    (hold : ∀ f o, h'.graph.obj f = .ok o → h'.isClone f = false → h.graph.obj f = .ok o) :
    h'.FieldsTyped types :=
  fun _ _ _ _ _ ho hk hclone hrec => hf.old hv hext (hold _ _ ho hclone) hk hclone hrec

/-- A new object in a slot gets the type of the slot. -/
theorem FieldsTyped.made (hv : h.Valid g₀ tys) (hf : h.FieldsTyped types)
    (ho : h.graph.obj base = .ok o) (hvia : h.types[base]? = some via)
    (hslot : slotOf base o.kind offset = .ok (root, slot)) (hcell : h.fields.cell? root slot = none)
    (hty : h.slotType types base via (h.isArrayAt types base o) offset root slot = .ok ty)
    {n : ObjNode} (hadds : Adds h h' n ty none) (hkind : n.kind = .field root slot) :
    h'.FieldsTyped types := by
  intro f o' r k rty ho' hk hclone hrec
  rcases hadds.obj_iff.mp ho' with ⟨rfl, rfl⟩ | hold
  · rw [hkind] at hk
    cases hk
    obtain ⟨w, hw, -⟩ := (slotOf_spec hv ho offset).result hslot
    have hrec₀ := hrec.restrict hadds.extend ⟨w, hw⟩
    cases ok_unique hty (hv.slotType_eq ho hvia hslot hrec₀)
    refine ⟨base, via, ?_, ?_, typeOf_eq_ok.mpr hadds.types_new⟩
    · rcases hv.precedes_of_empty ho hslot hcell with rfl | ⟨ob, j, hob, hkb, hj⟩
      · exact Or.inl rfl
      · exact Or.inr ⟨ob, j, hadds.extend.graph.obj hob, hkb, hj⟩
    · rw [typeOf_eq hadds.extend ⟨o, ho⟩]
      exact typeOf_eq_ok.mpr hvia
  · exact hf.old hv hadds.extend hold hk hclone hrec

/-- Every edit keeps the types of fields. -/
theorem FieldsTyped.edit (hv : h.Valid g₀ fun _ => True) (hf : h.FieldsTyped types)
    (he : Edits g₀ types h h') : h'.FieldsTyped types := by
  cases he with
  | clone hx hs hclone =>
    obtain ⟨c, woken, h₁, hclone', -, hcloned⟩ := cloneAs_spec hv hx hs trivial
    cases ok_unique hclone hclone'
    rcases hcloned.made with ⟨rfl, -⟩ | ⟨hadds, -, -⟩
    · exact hf
    · refine hf.keep hv hadds.extend fun f o' ho' hnot => ?_
      rcases hadds.obj_iff.mp ho' with ⟨rfl, -⟩ | hold
      · rw [isClone_eq_false, hadds.prototypes_new hv] at hnot
        cases hnot
      · exact hold
  | project hx hproj =>
    obtain ⟨-, hp⟩ := (project_spec hv hx).result hproj
    dsimp only at hp
    cases hp with
    | itself => exact hf
    | found => exact hf
    | collapsed => exact hf.keep hv (extends_collapse h _) fun f o' ho' _ => ho'
    | made hopen hslot hlt hcell =>
      obtain ⟨via, ty, n, h₁, hvia, hty, hproj', -, hadds, hkind, -⟩ :=
        project_of_empty hv hx hopen hslot hlt hcell
      obtain ⟨-, rfl⟩ := Prod.mk.inj (ok_unique hproj hproj')
      exact hf.made hv hx hvia hslot hcell hty hadds hkind
  | collapse m => exact hf.keep hv (extends_collapse h m) fun f o' ho' _ => ho'
  | retrieve x hst => exact hf

/-- The first projection to reach a slot of a record decides on the type of its object. -/
theorem Valid.project_types_slot (hv : h.Valid g₀ tys) (ho : h.graph.obj b = .ok o)
    (hopen : h.opens types b o offset = true) (hslot : slotOf b o.kind offset = .ok (r, k))
    (hlt : k < h.fieldLimit) (hempty : ∀ f n, h.graph.obj f = .ok n → n.kind ≠ .field r k)
    (hrec : h.RecordAt types r ty) (hvia : h.typeOf b = .ok via) :
    ∃ objs h' f n, h.project types b offset = .ok (objs, h') ∧ (∀ x, x ∈ objs ↔ x = f) ∧
      h'.graph.obj f = .ok n ∧ n.kind = .field r k ∧ h'.isClone f = false ∧
      h'.typeOf f = .ok (types.reachedType ty via k) := by
  have hcell : h.fields.cell? r k = none := by
    cases hcell : h.fields.cell? r k with
    | none => rfl
    | some objs =>
      obtain ⟨f, hf⟩ := hv.slot hcell
      obtain ⟨n, hn, hk⟩ := hv.fields.mp (IdGrid.setAt_of_cell? hcell ▸ hf)
      exact absurd hk (hempty f n hn)
  obtain ⟨via', ty', n, h', hvia', hty, hproj, hv', hadds, hkind, -⟩ :=
    project_of_empty hv ho hopen hslot hlt hcell
  rw [typeOf_eq_ok, hvia'] at hvia
  cases hvia
  cases ok_unique hty (hv.slotType_eq ho hvia' hslot hrec)
  refine ⟨_, h', h.graph.nodes.size, n, hproj, fun x => ?_, hadds.obj_iff.mpr (Or.inl ⟨rfl, rfl⟩), hkind,
    isClone_eq_false.mpr (hadds.prototypes_new hv), typeOf_eq_ok.mpr hadds.types_new⟩
  rw [hadds.fields, IdGrid.setAt_of_cell?_none hcell]
  simp [hkind]

end Heap

namespace Solver

variable {g₀ : Graph} {s t : Solver} {types : Hierarchy}

/-- A program has no field objects before its analysis. -/
theorem Started.fieldsTyped {options : Options} (hwf : g₀.WellFormed)
    (hs : Started g₀ types options s) : s.heap.FieldsTyped types := by
  intro f o r k ty ho hk
  rw [hs.graph] at ho
  have hwhole := hwf.whole ho
  simp [ObjNode.isField, hk] at hwhole

theorem Run.fieldsTyped {options : Options} (hwf : g₀.WellFormed) (hs : Started g₀ types options s)
    {n : Nat} (hrun : Run s n t) : t.heap.FieldsTyped types := by
  have hedits := (hrun.reworks hwf hs.valid).heap
  rw [hs.types] at hedits
  exact Heap.keeps_of_edits (fun hv hf he => hf.edit hv he) hedits hs.valid.heap.anyTypes
    (hs.fieldsTyped hwf)

/-- In every state of an analysis, a field object of a record that is no clone has the type that it
    got through the record itself or through a field in front of it. It is the type that the record
    declares for its slot, if no object in front of it is of a pointer, reference or array type. The
    first projection to reach the slot decides, and the type stays what it is. -/
theorem first_projection_types_field {d : ProgramDesc} {p : Program} (hbuild : Program.build d = .ok p)
    (types : Hierarchy) (options : Options) {s t : Solver} {n : Nat}
    (hstart : (Solver.new types p.graph options).start = .ok s) (hrun : Run s n t) :
    (∀ f o r k ty, t.graph.obj f = .ok o → o.kind = .field r k → t.heap.isClone f = false →
      t.heap.RecordAt types r ty → t.heap.TypedThrough types f r ty k ∧
      ((∀ b via, t.heap.Precedes b r k → t.heap.typeOf b = .ok via →
          types.isArray via = false ∧ types.isAddress via = false) →
        t.heap.typeOf f = .ok (types.fieldType ty k))) ∧
    (∀ b o offset r k ty via, t.graph.obj b = .ok o → t.heap.opens types b o offset = true →
      Heap.slotOf b o.kind offset = .ok (r, k) → k < options.maxFieldLimit →
      (∀ f n, t.graph.obj f = .ok n → n.kind ≠ .field r k) → t.heap.RecordAt types r ty →
      t.heap.typeOf b = .ok via →
      ∃ objs h' f n, t.heap.project types b offset = .ok (objs, h') ∧ (∀ x, x ∈ objs ↔ x = f) ∧
        h'.graph.obj f = .ok n ∧ n.kind = .field r k ∧ h'.isClone f = false ∧
        h'.typeOf f = .ok (types.reachedType ty via k)) ∧
    ∀ j u, Run t j u → ∀ f, t.graph.HasObj f → u.heap.typeOf f = t.heap.typeOf f := by
  have hwf := Program.wellFormed_of_build hbuild
  have hs := started_of_start hwf hstart
  obtain ⟨hv, hext⟩ := hrun.extends hwf hs.valid
  have hlimit : t.heap.fieldLimit = options.maxFieldLimit := hext.fieldLimit.trans hs.fieldLimit
  refine ⟨fun f o r k ty hf hk hclone hrec => ?_, ?_, fun j u hrun' f hf => ?_⟩
  · have htyped := hrun.fieldsTyped hwf hs f o r k ty hf hk hclone hrec
    refine ⟨htyped, fun hplain => ?_⟩
    obtain ⟨b, via, hb, hvia, hty⟩ := htyped
    obtain ⟨harray, haddress⟩ := hplain b via hb hvia
    rw [hty, Hierarchy.reachedType_of_plain harray haddress]
  · intro b o offset r k ty via ho hopen hslot hlt hempty hrec hvia
    exact hv.heap.project_types_slot ho hopen hslot (hlimit ▸ hlt) hempty hrec hvia
  · exact Heap.typeOf_eq (hrun'.extends hwf hv).2 hf

/-- A record of an `int`, a pointer to an array and two words of type `long`, with a pointer to it
    that is moved. -/
def pointerInRecord (walk : List StmtDesc) : ProgramDesc where
  types := [{ name := some "int", sizeBits := 32, kind := .basic .signed },
    { sizeBits := 128, kind := .array 0 (some 4) },
    { sizeBits := 64, kind := .address .pointer (some 1) },
    { name := some "long", sizeBits := 64, kind := .basic .signed },
    { name := some "S", sizeBits := 256,
      kind := .record .structWord [.field "a" 0, .field "p" 2, .field "b" 3, .field "c" 3] }]
  objects := [{ name := "o", alloc := .stack, ty := some 4 }]
  values := ["p", "q", "r", "u"]
  statements := { kind := .addr "o" "p" } :: walk

/-- From one word to the next. -/
def walkOverWords : List StmtDesc :=
  [{ kind := .gep "p" "q" (some 2) none }, { kind := .gep "q" "r" (some 1) none }]

/-- From the pointer to the words behind it. -/
def walkFromPointer : List StmtDesc :=
  [{ kind := .gep "p" "q" (some 1) none }, { kind := .gep "q" "r" (some 1) none },
    { kind := .gep "r" "u" (some 1) none }]

/-- The last word has its declared type, though it was reached through the one in front of it. -/
theorem walkOverWords_types_field : ∃ p s n t o, Program.build (pointerInRecord walkOverWords) = .ok p ∧
    (Solver.new (declaredTypes (pointerInRecord [])) p.graph {}).start = .ok s ∧ Run s n t ∧
    t.graph.obj 9 = .ok o ∧ o.kind = .field 4 3 ∧
    t.heap.RecordAt (declaredTypes (pointerInRecord [])) 4 (some 4) ∧
    t.heap.typeOf 9 = .ok ((declaredTypes (pointerInRecord [])).fieldType (some 4) 3) ∧
    (declaredTypes (pointerInRecord [])).fieldType (some 4) 3 = some 3 := by
  obtain ⟨p, s, n, t, hbuild, hstart, -, hrun, -, hcheck⟩ :=
    exists_end (pointerInRecord walkOverWords) (declaredTypes (pointerInRecord [])) {} (fun _ t => decide (
      t.graph.objects.toList = [4, 8, 9] ∧
      (t.graph.obj 4).map (fun w => (w.kind, (t.graph.mem w.mem).isArray)) = .ok (.base, false) ∧
      (t.graph.obj 9).map (·.kind) = .ok (.field 4 3) ∧ t.heap.isClone 9 = false ∧
      t.heap.typeOf 4 = .ok (some 4) ∧ t.heap.typeOf 8 = .ok (some 3))) (by decide +kernel)
  obtain ⟨hobjects, hwhole, hfield, hclone, hty, hword⟩ := of_decide_eq_true hcheck
  obtain ⟨w, hw, hpair⟩ := map_eq_ok.mp hwhole
  obtain ⟨hbase, harray⟩ := Prod.mk.inj hpair
  obtain ⟨o, ho, hk⟩ := map_eq_ok.mp hfield
  have hrec : t.heap.RecordAt (declaredTypes (pointerInRecord [])) 4 (some 4) :=
    ⟨hty, by decide +kernel, w, hw, harray⟩
  have hwf := Program.wellFormed_of_build hbuild
  have hv := (hrun.extends hwf (started_of_start hwf hstart).valid).1
  refine ⟨p, s, n, t, o, hbuild, hstart, hrun, ho, hk, hrec, ?_, by decide +kernel⟩
  refine ((first_projection_types_field hbuild (declaredTypes (pointerInRecord [])) {} hstart hrun).1
    9 o 4 3 (some 4) ho hk hclone hrec).2 fun b via hb hvia => ?_
  rcases hb with rfl | ⟨ob, j, hob, hkb, hj⟩
  · obtain rfl := ok_unique hty hvia
    decide +kernel
  · have hmem : b ∈ t.graph.objects.toList := hv.heap.objects.mpr ⟨ob, hob⟩
    rw [hobjects] at hmem
    simp only [List.mem_cons, List.not_mem_nil, or_false] at hmem
    rcases hmem with rfl | rfl | rfl
    · rw [ok_unique hob hw, hbase] at hkb
      cases hkb
    · obtain rfl := ok_unique hword hvia
      decide +kernel
    · rw [ok_unique hob ho, hk] at hkb
      cases hkb
      exact absurd hj (Nat.lt_irrefl 3)

/-- Behind the pointer, the third word has the type of the array that it points to and the fourth one
    the type of an element; the record declares both as `long`. -/
theorem walkFromPointer_types_differ : ∃ p s n t,
    Program.build (pointerInRecord walkFromPointer) = .ok p ∧
    (Solver.new (declaredTypes (pointerInRecord [])) p.graph {}).start = .ok s ∧ Run s n t ∧
    t.heap.RecordAt (declaredTypes (pointerInRecord [])) 4 (some 4) ∧
    (t.graph.obj 10).map (·.kind) = .ok (.field 4 2) ∧ t.heap.isClone 10 = false ∧
    t.heap.typeOf 10 = .ok (some 1) ∧
    (declaredTypes (pointerInRecord [])).fieldType (some 4) 2 = some 3 ∧
    (t.graph.obj 11).map (·.kind) = .ok (.field 4 3) ∧ t.heap.isClone 11 = false ∧
    t.heap.typeOf 11 = .ok (some 0) ∧
    (declaredTypes (pointerInRecord [])).fieldType (some 4) 3 = some 3 := by
  obtain ⟨p, s, n, t, hbuild, hstart, -, hrun, -, hcheck⟩ :=
    exists_end (pointerInRecord walkFromPointer) (declaredTypes (pointerInRecord [])) {} (fun _ t => decide (
      (t.graph.obj 4).map (fun w => (t.graph.mem w.mem).isArray) = .ok false ∧
      t.heap.typeOf 4 = .ok (some 4) ∧
      (t.graph.obj 10).map (·.kind) = .ok (.field 4 2) ∧ t.heap.isClone 10 = false ∧
      t.heap.typeOf 10 = .ok (some 1) ∧
      (t.graph.obj 11).map (·.kind) = .ok (.field 4 3) ∧ t.heap.isClone 11 = false ∧
      t.heap.typeOf 11 = .ok (some 0))) (by decide +kernel)
  obtain ⟨hwhole, hty, hk, hclone, hthird, hk', hclone', hfourth⟩ := of_decide_eq_true hcheck
  obtain ⟨w, hw, harray⟩ := map_eq_ok.mp hwhole
  exact ⟨p, s, n, t, hbuild, hstart, hrun, ⟨hty, by decide +kernel, w, hw, harray⟩, hk, hclone, hthird,
    by decide +kernel, hk', hclone', hfourth, by decide +kernel⟩

end Solver

end PointsTo
