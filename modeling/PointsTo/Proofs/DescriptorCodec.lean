import PointsTo.Proofs.Decoding
import PointsTo.Types.Codec

/-! Type descriptors as JSON and back.

    The shape of a descriptor lies in one object with the fields that every descriptor has, and the
    tag says which keys belong to it. The decoder walks the common fields and keeps all others for the
    shape, so that the keys of another shape count as unknown. `WrittenAs` gives the forms of members,
    descriptors and tables: their fields in any order and among others. The main result is that every
    form is read back, whatever the shape, unless one of the others cannot be read. -/

namespace PointsTo

/-! ### Forms of descriptors -/

/-- The fields of a member. -/
def Member.jsonFields (m : Member) : List (String × Json) :=
  [("name", .ofString? m.name), ("ty", .num m.ty), ("inheritance", .bool m.inheritance)]

/-- A member is written with its fields in any order, among others. -/
def Member.WrittenAs (m : Member) (j : Json) : Prop :=
  ∃ fields, j = .obj fields ∧ Among m.jsonFields fields

/-- The fields of a shape are written as they are, the members of a record or union in any of
    their forms. -/
def TypeKind.WrittenAs (k : TypeKind) (own : List (String × Json)) : Prop :=
  match k with
  | .record _ members | .union members =>
    ∃ items, own = [("members", .arr items)] ∧ List.Forall₂ Member.WrittenAs members items
  | k => own = k.jsonFields

/-- The fields that every descriptor has. -/
def TypeDesc.commonFields (d : TypeDesc) : List (String × Json) :=
  [("name", .ofString? d.name), ("file", .ofString? d.file), ("line", .num d.line),
    ("size_bits", .num d.sizeBits), ("tag", .str d.kind.tag.word)]

/-- A descriptor is written with its fields in any order, among others. -/
def TypeDesc.WrittenAs (d : TypeDesc) (j : Json) : Prop :=
  ∃ own fields, d.kind.WrittenAs own ∧ j = .obj fields ∧ Among (d.commonFields ++ own) fields

/-- A table is written as the array of its descriptors, each in any of its forms. -/
def TypeTable.WrittenAs (t : TypeTable) (j : Json) : Prop :=
  ∃ items, j = .arr items ∧ List.Forall₂ TypeDesc.WrittenAs t.types.toList items

/-- The numbers of a descriptor are machine words, its line and the places in it of half the size. -/
structure TypeDesc.InRange (d : TypeDesc) : Prop where
  line : d.line < idLimit
  sizeBits : d.sizeBits < wordLimit
  references : ∀ id ∈ d.references, id < idLimit
  count : ∀ element n, d.kind = .array element (some n) → n < wordLimit

theorem Member.writtenAs_toJson (m : Member) : m.WrittenAs m.toJson :=
  ⟨m.jsonFields, rfl, Among.refl _⟩

theorem TypeKind.writtenAs_jsonFields (k : TypeKind) : k.WrittenAs k.jsonFields := by
  have hmembers : ∀ members : List Member,
      List.Forall₂ Member.WrittenAs members (members.map Member.toJson) := fun members => by
    rw [List.forall₂_map_right_iff, List.forall₂_same]
    exact fun m _ => m.writtenAs_toJson
  cases k with
  | record _ members => exact ⟨_, rfl, hmembers members⟩
  | union members => exact ⟨_, rfl, hmembers members⟩
  | basic _ => rfl
  | address _ _ => rfl
  | array _ _ => rfl
  | qualified _ _ => rfl
  | subroutine => rfl

theorem TypeDesc.writtenAs_toJson (d : TypeDesc) : d.WrittenAs d.toJson :=
  ⟨d.kind.jsonFields, _, d.kind.writtenAs_jsonFields, rfl, Among.refl _⟩

theorem TypeTable.writtenAs_toJson (t : TypeTable) : t.WrittenAs t.toJson := by
  refine ⟨_, rfl, ?_⟩
  rw [List.forall₂_map_right_iff, List.forall₂_same]
  exact fun d _ => d.writtenAs_toJson

/-! ### Decoding fields -/

namespace Decoder

variable {α : Type} {fields : List (String × Json)} {key : String} {j : Json} {d : Decoder α} {a : α}

theorem field_eq (hj : fields.lookup key = some j) (hd : d j = .ok a) : field fields key d = .ok a := by
  rw [field, hj]
  exact hd

theorem fieldD_eq (hj : fields.lookup key = some j) (hd : d j = .ok a) (default : α) :
    fieldD fields key d default = .ok a := by
  rw [fieldD, hj]
  exact hd

theorem check_eq (hd : d j = .ok a) : check d j = .ok () := by
  rw [check, hd]
  rfl

theorem natBelow_eq {limit n : Nat} (hn : n < limit) : natBelow limit (.num n) = .ok n := if_pos hn

theorem optional_string_eq (o : Option String) : optional string (.ofString? o) = .ok o := by
  cases o <;> rfl

theorem optional_natBelow_eq {limit : Nat} {o : Option Nat} (ho : ∀ n ∈ o, n < limit) :
    optional (natBelow limit) (.ofNat? o) = .ok o := by
  cases o with
  | none => rfl
  | some n => exact congrArg (Except.map some) (natBelow_eq (ho n rfl))

theorem typeId_eq {id : TypeId} (hid : id < idLimit) : typeId (.num id) = .ok id := natBelow_eq hid

theorem optional_typeId_eq {o : Option TypeId} (ho : ∀ id ∈ o, id < idLimit) :
    optional typeId (.ofNat? o) = .ok o :=
  optional_natBelow_eq ho

theorem optional_machineWord_eq {o : Option Nat} (ho : ∀ n ∈ o, n < wordLimit) :
    optional machineWord (.ofNat? o) = .ok o :=
  optional_natBelow_eq ho

/-! ### Members -/

theorem wellFormed_ofString? (o : Option String) : (Json.ofString? o).wellFormed = true := by
  cases o <;> rfl

theorem meaningful_ofString? (depth : Nat) (o : Option String) :
    (Json.ofString? o).meaningful depth = true := by
  cases o <;> rfl

theorem member_eq {m : Member} (hm : m.WrittenAs j) (hty : m.ty < idLimit)
    (hj : j.wellFormed = true) : member j = .ok m := by
  obtain ⟨fields, rfl, hfields⟩ := hm
  have hnodup : (m.jsonFields.map Prod.fst).Nodup := by simp [Member.jsonFields]
  have hname : fields.lookup "name" = some (.ofString? m.name) :=
    hfields.lookup_eq hnodup (by simp [Member.jsonFields])
  have hplace : fields.lookup "ty" = some (.num m.ty) :=
    hfields.lookup_eq hnodup (by simp [Member.jsonFields])
  have hinheritance : fields.lookup "inheritance" = some (.bool m.inheritance) :=
    hfields.lookup_eq hnodup (by simp [Member.jsonFields])
  have hrecord : record memberLayout (.obj fields) = .ok fields := by
    have hall : fields.all (·.2.wellFormed) = true := (Json.wellFormedFields_eq_all fields).symm.trans hj
    have hscan : scan memberLayout.fields skip [] fields = .ok () := by
      refine (scan_among (p := Json.wellFormed) hfields hnodup fun e he => ?_).trans (if_pos hall)
      simp only [memberLayout, List.mem_cons, List.not_mem_nil, or_false] at he
      rcases he with rfl | rfl | rfl
      · exact ⟨.ofString? m.name, by simp [Member.jsonFields], check_eq (optional_string_eq _),
          wellFormed_ofString? _⟩
      · exact ⟨.num m.ty, by simp [Member.jsonFields], check_eq (typeId_eq hty), rfl⟩
      · exact ⟨.bool m.inheritance, by simp [Member.jsonFields], rfl, rfl⟩
    rw [record, hscan]
    rfl
  rw [member, hrecord, ok_bind, fieldD_eq hname (optional_string_eq m.name), ok_bind,
    field_eq hplace (typeId_eq hty), ok_bind, fieldD_eq (d := bool) hinheritance rfl, ok_bind]
  rfl

theorem list_member_eq {members : List Member} {items : List Json}
    (h : List.Forall₂ Member.WrittenAs members items) (hty : ∀ m ∈ members, m.ty < idLimit)
    (hitems : (Json.arr items).wellFormed = true) : list member (.arr items) = .ok members := by
  rw [list]
  rw [Json.wellFormed] at hitems
  induction h with
  | nil => rfl
  | @cons m j members items hm _ ih =>
    rw [Json.wellFormedItems, Bool.and_eq_true] at hitems
    rw [List.mapM_cons, member_eq hm (hty m List.mem_cons_self) hitems.1, ok_bind,
      ih (fun m' hm' => hty m' (List.mem_cons_of_mem _ hm')) hitems.2, ok_bind]
    rfl

/-! ### Shapes -/

theorem bufferedWord_encoding (e : Encoding) : bufferedWord Encoding.ofWord? (.str e.word) = .ok e := by
  cases e <;> rfl

theorem tag_word (t : TypeTag) : tag TypeTag.ofWord? TypeTag.all (.str t.word) = .ok t := by
  cases t <;> rfl

theorem keys_of_writtenAs {k : TypeKind} {own : List (String × Json)} (h : k.WrittenAs own) :
    own.map Prod.fst = kindKeys k.tag := by
  cases k with
  | record w _ =>
    obtain ⟨items, rfl, -⟩ := h
    cases w <;> rfl
  | union _ =>
    obtain ⟨items, rfl, -⟩ := h
    rfl
  | address i _ => subst h; cases i <;> rfl
  | qualified q _ => subst h; cases q <;> rfl
  | basic _ => subst h; rfl
  | array _ _ => subst h; rfl
  | subroutine => subst h; rfl

theorem nodup_keys (t : TypeDesc) {own : List (String × Json)} (hown : t.kind.WrittenAs own) :
    ((t.commonFields ++ own).map Prod.fst).Nodup := by
  rw [List.map_append, keys_of_writtenAs hown]
  have hkeys : t.commonFields.map Prod.fst = ["name", "file", "line", "size_bits", "tag"] := rfl
  rw [hkeys]
  cases t.kind.tag <;> decide

/-- The fields of a shape give the shape back. -/
theorem kindOf_eq {t : TypeDesc} (ht : t.InRange) {own : List (String × Json)}
    (hown : t.kind.WrittenAs own)
    (hlookup : ∀ key j, (key, j) ∈ own → fields.lookup key = some j ∧ j.wellFormed = true) :
    kindOf fields t.kind.tag = .ok t.kind := by
  obtain ⟨name, file, line, sizeBits, kind⟩ := t
  have hids := ht.references
  -- Both kinds of records and unions have their members in one field.
  have hmembers : ∀ members items, own = [("members", .arr items)] →
      List.Forall₂ Member.WrittenAs members items → (∀ m ∈ members, m.ty < idLimit) →
      field fields "members" (list member) = .ok members := by
    rintro members items rfl hitems hty
    obtain ⟨hj, hwf⟩ := hlookup _ _ List.mem_cons_self
    exact field_eq hj (list_member_eq hitems hty hwf)
  cases kind with
  | basic e =>
    subst hown
    rw [TypeKind.tag, kindOf, field_eq (hlookup _ _ List.mem_cons_self).1 (bufferedWord_encoding e)]
    rfl
  | address i target =>
    subst hown
    have htarget : fieldD fields "pointee" (optional typeId) none = .ok target :=
      fieldD_eq (hlookup _ _ List.mem_cons_self).1
        (optional_typeId_eq fun id hid => hids id (Option.mem_toList.mpr hid)) none
    cases i <;> (rw [TypeKind.tag, kindOf, htarget]; rfl)
  | array element count =>
    subst hown
    have helement : field fields "element" typeId = .ok element :=
      field_eq (hlookup _ _ List.mem_cons_self).1 (typeId_eq (hids element List.mem_cons_self))
    have hcount : fieldD fields "count" (optional machineWord) none = .ok count :=
      fieldD_eq (hlookup _ _ (List.mem_cons_of_mem _ List.mem_cons_self)).1
        (optional_machineWord_eq fun n hn => ht.count element n (congrArg _ hn)) none
    rw [TypeKind.tag, kindOf, helement, ok_bind, hcount]
    rfl
  | record w members =>
    obtain ⟨items, heq, hitems⟩ := hown
    have hlist := hmembers members items heq hitems fun m hm => hids m.ty (List.mem_map_of_mem hm)
    cases w <;> (rw [TypeKind.tag, kindOf, hlist]; rfl)
  | union members =>
    obtain ⟨items, heq, hitems⟩ := hown
    rw [TypeKind.tag, kindOf, hmembers members items heq hitems fun m hm =>
      hids m.ty (List.mem_map_of_mem hm)]
    rfl
  | qualified q base =>
    subst hown
    have hbase : fieldD fields "base" (optional typeId) none = .ok base :=
      fieldD_eq (hlookup _ _ List.mem_cons_self).1
        (optional_typeId_eq fun id hid => hids id (Option.mem_toList.mpr hid)) none
    cases q <;> (rw [TypeKind.tag, kindOf, hbase]; rfl)
  | subroutine => rfl

/-! ### Descriptors -/

theorem typeKind_eq {t : TypeDesc} (ht : t.InRange) {own : List (String × Json)}
    (hown : t.kind.WrittenAs own) (hfields : Among (t.commonFields ++ own) fields)
    (hwf : ∀ e ∈ fields, e.2.wellFormed = true) : typeKind fields = .ok t.kind := by
  have hnodup := nodup_keys t hown
  have htag : fields.lookup "tag" = some (.str t.kind.tag.word) :=
    hfields.lookup_eq hnodup (by simp [TypeDesc.commonFields])
  have hown' : ∀ key j, (key, j) ∈ own → fields.lookup key = some j ∧ j.wellFormed = true := by
    intro key j hj
    have hmem : (key, j) ∈ t.commonFields ++ own := List.mem_append_right _ hj
    exact ⟨hfields.lookup_eq hnodup hmem,
      hwf (key, j) ((hfields.mem_iff (List.mem_map_of_mem hmem)).mpr hmem)⟩
  have hkeys : ∀ k ∈ kindKeys t.kind.tag, k ∈ (t.commonFields ++ own).map Prod.fst := by
    intro k hk
    rw [List.map_append, keys_of_writtenAs hown]
    exact List.mem_append_right _ hk
  rw [typeKind, distinct_among hfields hnodup (by simp [TypeDesc.commonFields]), ok_bind,
    field_eq htag (tag_word _), ok_bind, distinct_among hfields hnodup hkeys, ok_bind]
  exact kindOf_eq ht hown hown'

/-- A descriptor is decoded from any of its forms that is read whole. -/
theorem typeDesc_eq {t : TypeDesc} (ht : t.InRange) (h : t.WrittenAs j) (depth : Nat) :
    typeDesc depth j = if j.meaningful (depth + 1) then .ok t else .error .notJson := by
  obtain ⟨own, fields, hown, rfl, hfields⟩ := h
  have hnodup := nodup_keys t hown
  have hname : fields.lookup "name" = some (.ofString? t.name) :=
    hfields.lookup_eq hnodup (by simp [TypeDesc.commonFields])
  have hfile : fields.lookup "file" = some (.ofString? t.file) :=
    hfields.lookup_eq hnodup (by simp [TypeDesc.commonFields])
  have hline : fields.lookup "line" = some (.num t.line) :=
    hfields.lookup_eq hnodup (by simp [TypeDesc.commonFields])
  have hsize : fields.lookup "size_bits" = some (.num t.sizeBits) :=
    hfields.lookup_eq hnodup (by simp [TypeDesc.commonFields])
  have hscan : scan descFields (buffer depth) [] fields =
      if fields.all (·.2.meaningful depth) then .ok () else .error .notJson := by
    refine scan_among (p := Json.meaningful depth) hfields hnodup fun e he => ?_
    simp only [descFields, List.mem_cons, List.not_mem_nil, or_false] at he
    rcases he with rfl | rfl | rfl | rfl
    · exact ⟨.ofString? t.name, by simp [TypeDesc.commonFields], check_eq (optional_string_eq _),
        meaningful_ofString? _ _⟩
    · exact ⟨.ofString? t.file, by simp [TypeDesc.commonFields], check_eq (optional_string_eq _),
        meaningful_ofString? _ _⟩
    · exact ⟨.num t.line, by simp [TypeDesc.commonFields], check_eq (natBelow_eq ht.line), rfl⟩
    · exact ⟨.num t.sizeBits, by simp [TypeDesc.commonFields], check_eq (natBelow_eq ht.sizeBits), rfl⟩
  rw [Json.meaningful, Json.meaningfulFields_eq_all, typeDesc, hscan]
  cases hall : fields.all (·.2.meaningful depth) with
  | false => rfl
  | true =>
    -- Members are decoded only now, and they skip what they do not know: that it keeps the grammar
    -- was seen when the shape was kept.
    have hwf : ∀ e ∈ fields, e.2.wellFormed = true := fun e he =>
      Json.wellFormed_of_meaningful depth e.2 (List.all_eq_true.mp hall e he)
    rw [if_pos rfl, if_pos rfl, ok_bind, fieldD_eq hname (optional_string_eq _), ok_bind,
      fieldD_eq hfile (optional_string_eq _), ok_bind, fieldD_eq hline (natBelow_eq ht.line), ok_bind,
      fieldD_eq (d := machineWord) hsize (natBelow_eq ht.sizeBits), ok_bind,
      typeKind_eq ht hown hfields hwf, ok_bind]
    rfl

theorem typeTable_eq {t : TypeTable} (ht : ∀ d ∈ t.types, d.InRange) (h : t.WrittenAs j)
    (depth : Nat) :
    typeTable depth j = if j.meaningful (depth + 2) then .ok t else .error .notJson := by
  obtain ⟨items, rfl, hitems⟩ := h
  have hdecoded : List.Forall₂ (fun d j => typeDesc depth j =
      if j.meaningful (depth + 1) then .ok d else .error .notJson) t.types.toList items := by
    have hrange : ∀ d ∈ t.types.toList, d.InRange := fun d hd => ht d (Array.mem_toList_iff.mp hd)
    exact ((List.forall₂_and_left _ _).mpr ⟨hrange, hitems⟩).imp fun d j h =>
      typeDesc_eq h.1 h.2 depth
  rw [Json.meaningful, Json.meaningfulItems_eq_all, typeTable, list,
    mapM_of_forall₂ (p := Json.meaningful (depth + 1)) hdecoded]
  cases items.all (Json.meaningful (depth + 1)) <;> rfl

end Decoder

/-! ### Written descriptors -/

theorem Json.meaningful_ofNat? (depth : Nat) (o : Option Nat) : (Json.ofNat? o).meaningful depth = true := by
  cases o <;> rfl

theorem TypeKind.meaningful_jsonFields (k : TypeKind) (depth : Nat) :
    ∀ e ∈ k.jsonFields, e.2.meaningful (depth + 2) = true := by
  have hmembers : ∀ members : List Member,
      Json.meaningfulItems (depth + 1) (members.map Member.toJson) = true := by
    intro members
    rw [Json.meaningfulItems_eq_all, List.all_map, List.all_eq_true]
    intro m _
    simp [Member.toJson, Json.meaningful, Json.meaningfulFields, Decoder.meaningful_ofString?]
  cases k <;> simp [TypeKind.jsonFields, hmembers, Json.meaningful_ofNat?, Json.meaningful]

theorem TypeDesc.meaningful_toJson (d : TypeDesc) (depth : Nat) :
    d.toJson.meaningful (depth + 3) = true := by
  rw [TypeDesc.toJson, Json.meaningful, Json.meaningfulFields_eq_all, List.all_append, Bool.and_eq_true]
  refine ⟨?_, List.all_eq_true.mpr (d.kind.meaningful_jsonFields depth)⟩
  simp [Decoder.meaningful_ofString?, Json.meaningful]

theorem TypeTable.meaningful_toJson (t : TypeTable) (depth : Nat) :
    t.toJson.meaningful (depth + 4) = true := by
  rw [TypeTable.toJson, Json.meaningful, Json.meaningfulItems_eq_all, List.all_map, List.all_eq_true]
  exact fun d _ => d.meaningful_toJson depth

/-- Descriptors and tables are read back from what is written, and from the same fields in any order
    and beside others, down to the members. Only a form that is not read whole is refused: one that
    breaks off, denotes nothing somewhere, or nests too deep. -/
theorem TypeTable.descriptors_survive_json :
    (∀ d : TypeDesc, d.InRange →
      TypeDesc.ofJson d.toJson = .ok d ∧ d.WrittenAs d.toJson ∧
      ∀ j, d.WrittenAs j →
        TypeDesc.ofJson j = if j.meaningful maxNesting then .ok d else .error .notJson) ∧
    ∀ t : TypeTable, (∀ d ∈ t.types, d.InRange) →
      TypeTable.ofJson t.toJson = .ok t ∧ t.WrittenAs t.toJson ∧
      ∀ j, t.WrittenAs j →
        TypeTable.ofJson j = if j.meaningful maxNesting then .ok t else .error .notJson := by
  refine ⟨fun d hd => ?_, fun t ht => ?_⟩
  · have hforms : ∀ j, d.WrittenAs j →
        TypeDesc.ofJson j = if j.meaningful maxNesting then .ok d else .error .notJson :=
      fun j hj => Decoder.typeDesc_eq hd hj (maxNesting - 1)
    exact ⟨(hforms _ d.writtenAs_toJson).trans (if_pos (d.meaningful_toJson (maxNesting - 3))),
      d.writtenAs_toJson, hforms⟩
  · have hforms : ∀ j, t.WrittenAs j →
        TypeTable.ofJson j = if j.meaningful maxNesting then .ok t else .error .notJson :=
      fun j hj => Decoder.typeTable_eq ht hj (maxNesting - 2)
    exact ⟨(hforms _ t.writtenAs_toJson).trans (if_pos (t.meaningful_toJson (maxNesting - 4))),
      t.writtenAs_toJson, hforms⟩

/-- A class with a base, every field in reverse order and one more in front of each object. -/
theorem TypeTable.descriptors_survive_json_reversed :
    TypeDesc.ofJson (.obj [("pointee", .arr [.real "-1"]),
      ("members", .arr [.obj [("offset", .num 0), ("inheritance", .bool true), ("ty", .num 3),
        ("name", .null)]]),
      ("tag", .str "class"), ("size_bits", .num 128), ("line", .num 7), ("file", .str "shape.h"),
      ("name", .str "Circle")]) =
      .ok ⟨some "Circle", some "shape.h", 7, 128, .record .classWord [.base 3]⟩ := by
  have hd : TypeDesc.InRange ⟨some "Circle", some "shape.h", 7, 128, .record .classWord [.base 3]⟩ := by
    refine ⟨by decide, by decide, by decide, fun _ _ h => by cases h⟩
  have hbase : (Member.base 3).WrittenAs (.obj [("offset", .num 0), ("inheritance", .bool true),
      ("ty", .num 3), ("name", .null)]) :=
    ⟨_, rfl, [("offset", .num 0)], (List.reverse_perm _).symm, by decide +kernel⟩
  refine ((TypeTable.descriptors_survive_json.1 _ hd).2.2 _ ?_).trans (if_pos (by decide +kernel))
  exact ⟨_, _, ⟨_, rfl, .cons hbase .nil⟩, rfl, [("pointee", .arr [.real "-1"])],
    (List.reverse_perm _).symm, by decide +kernel⟩

/-- Arrays in arrays, a number of levels deep. -/
def nestedArrays : Nat → Json
  | 0 => .null
  | n + 1 => .arr [nestedArrays n]

/-- A function type as it is written, with one more field behind the others. -/
def subroutineBeside (extra : Json) : Json :=
  .obj [("name", .null), ("file", .null), ("line", .num 0), ("size_bits", .num 0),
    ("tag", .str "subroutine"), ("note", extra)]

/-- A number that is too large to be read is in the way of the descriptor beside it, and so are arrays
    that nest one level too deep; with one level less they are not. -/
theorem TypeDesc.not_read_beside_unreadable_field :
    TypeDesc.InRange { kind := .subroutine } ∧
    TypeDesc.ofJson (TypeDesc.toJson { kind := .subroutine }) = .ok { kind := .subroutine } ∧
    (∀ extra, TypeDesc.WrittenAs { kind := .subroutine } (subroutineBeside extra)) ∧
    Json.readNumber "1e400".toList = some (.noValue, []) ∧
    TypeDesc.ofJson (subroutineBeside .noValue) = .error .notJson ∧
    TypeDesc.ofJson (subroutineBeside (nestedArrays 127)) = .error .notJson ∧
    TypeDesc.ofJson (subroutineBeside (nestedArrays 126)) = .ok { kind := .subroutine } := by
  have hrange : TypeDesc.InRange { kind := .subroutine } :=
    ⟨by decide, by decide, by decide, fun _ _ h => by cases h⟩
  have hforms : ∀ extra, TypeDesc.WrittenAs { kind := .subroutine } (subroutineBeside extra) :=
    fun extra => ⟨[], _, rfl, rfl, [("note", extra)], .refl _, by simp [TypeDesc.commonFields]⟩
  have hdecoded := fun extra => Decoder.typeDesc_eq hrange (hforms extra) (maxNesting - 1)
  refine ⟨hrange, rfl, hforms, rfl, ?_, ?_, ?_⟩
  · exact (hdecoded _).trans (if_neg (by decide +kernel))
  · exact (hdecoded _).trans (if_neg (by decide +kernel))
  · exact (hdecoded _).trans (if_pos (by decide +kernel))

end PointsTo
