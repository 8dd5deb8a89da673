import PointsTo.Proofs.BaseTypes
import PointsTo.Proofs.Flattening

/-! The first field as a base.

    The first field of a struct or class is the first field of its first member that has any; that goes
    on until a type is met that is not opened, or one that is being opened already. The hierarchy knows
    of two kinds of members that stand at the start, base classes and the first proper field. Where on
    the way down each member is one of these, and no array is met, the first field is a base of the type
    in the wider sense. -/

namespace PointsTo

open Relation

namespace Layout

variable {t : TypeTable} {c : Canonicals} {done : FieldTable} {busy : List TypeId} {ty x : TypeId}
  {fs : List TypeId}

/-! ### Types without fields -/

/-- A struct, class or array that has no fields, since none of its parts has any. -/
inductive Hollow (t : TypeTable) (c : Canonicals) : TypeId → Prop where
  | opened {ty : TypeId} : isOpened t ty = true → (∀ m ∈ parts t c ty, Hollow t c m) → Hollow t c ty

theorem hollow_iff (ho : isOpened t ty = true) : Hollow t c ty ↔ ∀ m ∈ parts t c ty, Hollow t c m := by
  constructor
  · rintro ⟨-, hparts⟩
    exact hparts
  · exact .opened ho

theorem Hollow.isOpened (h : Hollow t c ty) : isOpened t ty = true := by
  cases h
  assumption

theorem not_hollow (h : isOpened t ty = false) : ¬ Hollow t c ty := by
  intro hhollow
  rw [hhollow.isOpened] at h
  cases h

/-- A type that comes to hold itself is not without fields. -/
theorem Hollow.not_loop (h : Hollow t c ty) : ¬ TransGen (Holds t c) ty ty := by
  induction h with
  | opened _ _ ih =>
    intro hloop
    obtain ⟨m, hm, hback⟩ := TransGen.head'_iff.mp hloop
    exact ih m hm.2 (.tail' hback hm)

theorem parts_record {d : TypeDesc} {word : RecordWord} {members : List Member}
    (hd : t.get? ty = some d) (hk : d.kind = .record word members) :
    parts t c ty = memberTypes c members := by
  simp [parts, hd, hk]

theorem parts_array {d : TypeDesc} {element : TypeId} {count : Option Nat}
    (hd : t.get? ty = some d) (hk : d.kind = .array element count) :
    parts t c ty = (c.canonical (some element)).toList := by
  simp [parts, hd, hk]

/-! ### Where the first field is found -/

/-- The first field of a struct, class or array is that of its first part that is not hollow. -/
def Fronts (t : TypeTable) (c : Canonicals) (whole part : TypeId) : Prop :=
  isOpened t whole = true ∧ ¬ Hollow t c part ∧
    ∃ before after, parts t c whole = before ++ part :: after ∧ ∀ b ∈ before, Hollow t c b

/-- The fields of a type, as far as the first of them goes. -/
structure Shows (t : TypeTable) (c : Canonicals) (ty : TypeId) (fs : List TypeId) : Prop where
  empty : fs = [] ↔ Hollow t c ty
  head : ∀ {x}, fs.head? = some x → ReflTransGen (Fronts t c) ty x

theorem shows_self (h : ¬ Hollow t c ty) : Shows t c ty [ty] where
  empty := by simp [h]
  head hx := by
    obtain rfl := Option.some.inj hx
    exact .refl

/-- The fields of the parts in order are the fields of the whole. -/
theorem shows_flatMap (fields : TypeId → List TypeId) (ho : isOpened t ty = true)
    (h : ∀ m ∈ parts t c ty, Shows t c m (fields m)) : Shows t c ty ((parts t c ty).flatMap fields) where
  empty := by
    rw [List.flatMap_eq_nil_iff, hollow_iff ho]
    exact forall₂_congr fun m hm => (h m hm).empty
  head hx := by
    rw [List.head?_flatMap, List.findSome?_eq_some_iff] at hx
    obtain ⟨before, m, after, hparts, hm, hbefore⟩ := hx
    have hshows := h m (by simp [hparts])
    have hfront : Fronts t c ty m := by
      refine ⟨ho, fun hhollow => ?_, before, after, hparts, fun b hb => ?_⟩
      · rw [hshows.empty.mpr hhollow] at hm
        cases hm
      · exact (h b (by simp [hparts, hb])).empty.mp (List.head?_eq_none_iff.mp (hbefore b hb))
    exact .head hfront (hshows.head hm)

/-- What the recursion finds is empty only for types without fields, also where it is cut off, and it
    starts at the end of a way down. -/
theorem Opens.shows (hdone : ∀ {x : TypeId} {gs}, done[x]? = some gs → Shows t c x gs)
    (h : Opens t c done busy ty fs) (hbusy : ∀ b ∈ busy, TransGen (Holds t c) b ty) : Shows t c ty fs := by
  induction h with
  | known hknown => exact hdone hknown
  | again _ hmem => exact shows_self fun hhollow => hhollow.not_loop (hbusy _ hmem)
  | record fields _ _ hd hk _ hplain ih =>
    have hparts := parts_record (c := c) hd hk
    rw [← hparts]
    refine shows_flatMap _ (isOpened_record hd hk) fun m hpart => ?_
    have hm := hparts ▸ hpart
    have hholds := holds_member hd hk hm
    cases ho : isOpened t m with
    | true =>
      exact ih m hm ho (List.forall_mem_cons.mpr ⟨.single hholds, fun b hb => (hbusy b hb).tail hholds⟩)
    | false =>
      rw [hplain m hm ho]
      exact shows_self (not_hollow ho)
  | @array busy ty d element e count fs _ _ hd hk he _ ih =>
    have hholds := holds_element hd hk he
    have hshows := ih (List.forall_mem_cons.mpr ⟨.single hholds, fun b hb => (hbusy b hb).tail hholds⟩)
    have hparts : parts t c ty = [e] := by rw [parts_array hd hk, he, Option.toList_some]
    have hflat := shows_flatMap (fun _ => fs) (isOpened_array hd hk)
      (by rw [hparts]; simpa using hshows)
    rwa [hparts, List.flatMap_singleton] at hflat
  | @voidArray busy ty d element count _ _ hd hk he =>
    have hparts : parts t c ty = [] := by rw [parts_array hd hk, he, Option.toList_none]
    have hflat := shows_flatMap (c := c) (fun _ => []) (isOpened_array hd hk) (by simp [hparts])
    rwa [hparts, List.flatMap_nil] at hflat
  | single _ _ hs => exact shows_self (not_hollow hs)

theorem shows_flattenAll {order : List TypeId} (h : (flattenAll t c order)[ty]? = some fs) :
    Shows t c ty fs :=
  flattenAll_induction (P := Shows t c)
    (fun hdone ho => ho.shows hdone fun _ hb => absurd hb List.not_mem_nil) order h

end Layout

/-! ### The first field in a hierarchy -/

namespace Hierarchy

open Layout

/-- The members of a struct or class. -/
def recordMembers (h : Hierarchy) (ty : TypeId) : List Member :=
  match (h.table.get? ty).map TypeDesc.kind with
  | some (.record _ members) => members
  | _ => []

/-- The first member of a struct or class that has a field. -/
def front? (h : Hierarchy) (ty : TypeId) : Option Member :=
  (h.recordMembers ty).find? fun m => 0 < h.numFields (some m.ty)

/-- The first field of a struct or class is that of a canonical type, which is the type of its first
    member that has a field. -/
def Enters (h : Hierarchy) (whole part : TypeId) : Prop :=
  (h.front? whole).bind (fun m => h.canonical (some m.ty)) = some part

/-- Is the type no array and, if it is a struct or class, is its first member that has a field a base
    class or the first proper field? -/
def startsPlainly (h : Hierarchy) (ty : TypeId) : Bool :=
  !h.isArray (some ty) &&
    (h.front? ty).all fun m => m.inheritance || (h.recordMembers ty).find? (!·.inheritance) == some m

variable {h : Hierarchy} {t : TypeTable} {order : List TypeId} {a : Option TypeId} {ty x y : TypeId}
  {m : Member}

theorem kind_of_recordMembers (h : Hierarchy) (hm : m ∈ h.recordMembers ty) :
    ∃ d word, h.table.get? ty = some d ∧ d.kind = .record word (h.recordMembers ty) := by
  unfold recordMembers at hm ⊢
  split at hm
  case h_1 word members hk =>
    obtain ⟨d, hd, hk⟩ := Option.map_eq_some_iff.mp hk
    exact ⟨d, word, hd, by simp [hk]⟩
  case h_2 => cases hm

theorem isHead_of_startsPlainly (hplain : h.startsPlainly ty = true) (hm : h.front? ty = some m) :
    IsHead true (h.recordMembers ty) m := by
  simp only [startsPlainly, hm, Option.all_some, Bool.and_eq_true, Bool.or_eq_true, beq_iff_eq] at hplain
  rcases hplain.2 with hinh | hfirst
  · exact Or.inl ⟨List.mem_of_find?_eq_some hm, hinh⟩
  · obtain ⟨hinh, before, after, hsplit, hbefore⟩ := List.find?_eq_some_iff_append.mp hfirst
    exact Or.inr ⟨rfl, by simpa using hinh, before, after, hsplit, by simpa using hbefore⟩

/-- A struct or class starts plainly if all its members have fields: the first member is a base class or
    a proper field. -/
theorem startsPlainly_of_full (hself : h.canonical (some ty) = some ty) (hm : m ∈ h.recordMembers ty)
    (hfull : ∀ m ∈ h.recordMembers ty, 0 < h.numFields (some m.ty)) : h.startsPlainly ty = true := by
  obtain ⟨d, word, hd, hk⟩ := kind_of_recordMembers h hm
  have harray : h.isArray (some ty) = false := by
    simp [isArray, desc?, hself, hd, TypeDesc.isArray, hk]
  rw [startsPlainly, front?, harray]
  cases hmembers : h.recordMembers ty with
  | nil => simp [hmembers] at hm
  | cons first rest =>
    have hfirst : 0 < h.numFields (some first.ty) := hfull first (by simp [hmembers])
    cases hinh : first.inheritance <;> simp [hfirst, hinh]

theorem numFields_eq_zero (hshows : ∀ {a ty}, h.canonical a = some ty →
    Shows t h.canonicals ty (h.fieldTypes a)) : h.numFields a = 0 ↔
      ∀ ty, h.canonical a = some ty → Hollow t h.canonicals ty := by
  rw [numFields, List.length_eq_zero_iff]
  cases ha : h.canonical a with
  | none => simp [fieldTypes, ha]
  | some ty => simp [(hshows ha).empty]

/-- The way down goes through the first members that have fields, as long as no array is met. -/
theorem front_of_fronts (hr : h.Represents t)
    (hshows : ∀ {a ty}, h.canonical a = some ty → Shows t h.canonicals ty (h.fieldTypes a))
    (hself : h.canonical (some x) = some x) (harray : h.isArray (some x) = false)
    (hfront : Fronts t h.canonicals x y) : ∃ m, h.front? x = some m ∧ h.canonical (some m.ty) = some y := by
  obtain ⟨ho, hfull, before, after, hparts, hbefore⟩ := hfront
  have hmembers : parts t h.canonicals x = memberTypes h.canonicals (h.recordMembers x) := by
    rw [recordMembers, hr.table]
    unfold isOpened at ho
    cases hd : t.get? x with
    | none => simp [hd] at ho
    | some d =>
      cases hk : d.kind <;>
        simp_all [parts, TypeDesc.isRecord, TypeDesc.isArray, isArray, desc?, hr.table]
  have hfields : ∀ m, (0 < h.numFields (some m)) ↔
      ∃ z, h.canonical (some m) = some z ∧ ¬ Hollow t h.canonicals z := by
    intro m
    rw [Nat.pos_iff_ne_zero, Ne, numFields_eq_zero hshows]
    simp
  -- The members before the first part that is not hollow have no types, or hollow ones.
  rw [hmembers, memberTypes, List.filterMap_eq_append_iff] at hparts
  obtain ⟨ms, rest, hsplit, rfl, hrest⟩ := hparts
  obtain ⟨ms', m, after', rfl, hvoid, hm, -⟩ := List.filterMap_eq_cons_iff.mp hrest
  refine ⟨m, ?_, hm⟩
  rw [front?, List.find?_eq_some_iff_append]
  refine ⟨by simpa [hfields] using ⟨y, hm, hfull⟩, ms ++ ms', after', by simp [hsplit], fun b hb => ?_⟩
  simp only [Bool.not_eq_true', decide_eq_false_iff_not, hfields]
  rintro ⟨z, hz, hnot⟩
  rcases List.mem_append.mp hb with hb | hb
  · exact hnot (hbefore z (List.mem_filterMap.mpr ⟨b, hb, hz⟩))
  · have hnone : h.canonical (some b.ty) = none := hvoid b hb
    simp [hnone] at hz

/-- A way down on which all types start plainly is a path of the hierarchy. -/
theorem starts_of_fronts (hr : h.Represents t)
    (hshows : ∀ {a ty}, h.canonical a = some ty → Shows t h.canonicals ty (h.fieldTypes a))
    (hway : ReflTransGen (Fronts t h.canonicals) ty x) (hself : h.canonical (some ty) = some ty)
    (hplain : ∀ y, ReflTransGen h.Enters ty y → h.startsPlainly y = true) :
    ReflTransGen (h.StartsWith true) x ty := by
  induction hway using ReflTransGen.head_induction_on with
  | refl => exact .refl
  | @head whole part hfront _ ih =>
    have hstart := hplain whole .refl
    have harray : h.isArray (some whole) = false := by
      simp only [startsPlainly, Bool.and_eq_true, Bool.not_eq_true'] at hstart
      exact hstart.1
    obtain ⟨m, hm, hcanon⟩ := front_of_fronts hr hshows hself harray hfront
    obtain ⟨d, word, hd, hk⟩ := kind_of_recordMembers h (List.mem_of_find?_eq_some hm)
    have henters : h.Enters whole part := by rw [Enters, hm, Option.bind_some, hcanon]
    exact (ih (hr.canonical hcanon) fun y hy => hplain y (.head henters hy)).tail
      ⟨hself, d, word, _, m, hd, hk, isHead_of_startsPlainly hstart hm, hcanon⟩

theorem canonical_of_starts (hr : h.Represents t) {ext : Bool} (hpath : ReflTransGen (h.StartsWith ext) x y)
    (hy : h.canonical (some y) = some y) : h.canonical (some x) = some x := by
  rcases hpath.cases_head with rfl | ⟨z, ⟨-, d, word, members, m, -, -, -, hm⟩, -⟩
  · exact hy
  · exact hr.canonical hm

theorem Represents.flattened (hr : h.Represents t) (order : List TypeId) :
    (h.flattened order).Represents t :=
  ⟨hr.table, hr.nodes, hr.canonical, hr.outside, hr.congr⟩

/-- In whatever order the types are flattened, the first field of a type is a base of it in the wider
    sense, provided that all types start plainly to which one comes from it by going to the first member
    that has a field, again and again. A struct or class starts plainly if all its members have
    fields. -/
theorem first_field_is_base (ht : t.Admitted) : ∃ h, ofTable t = .ok h ∧
    h.flattened h.canonicals.reps = h ∧ ∀ order, order.Perm h.canonicals.reps →
      (∀ a ty, h.canonical a = some ty → 0 < (h.flattened order).numFields a →
        (∀ x, ReflTransGen (h.flattened order).Enters ty x → (h.flattened order).startsPlainly x = true) →
        ∃ x, (h.flattened order).fieldType a 0 = some x ∧
          (h.flattened order).isBase (some x) a true = true) ∧
      ∀ ty, h.canonical (some ty) = some ty → (h.flattened order).recordMembers ty ≠ [] →
        (∀ m ∈ (h.flattened order).recordMembers ty, 0 < (h.flattened order).numFields (some m.ty)) →
        (h.flattened order).startsPlainly ty = true := by
  obtain ⟨h, hof, hr⟩ := ofTable_represents ht
  refine ⟨h, hof, flattened_self hof, fun order hp => ⟨fun a ty ha hfull hplain => ?_,
    fun ty hself hmembers hfull => ?_⟩⟩
  · have hshows : ∀ {a ty}, (h.flattened order).canonical a = some ty →
        Shows t h.canonicals ty ((h.flattened order).fieldTypes a) := fun ha =>
      shows_flattenAll (flattenAll_fieldTypes hr (hr.nodes.perm hp) ha)
    obtain ⟨x, hx⟩ : ∃ x, ((h.flattened order).fieldTypes a).head? = some x :=
      ⟨_, List.head?_eq_some_head (List.ne_nil_of_length_pos hfull)⟩
    have hpath := starts_of_fronts (hr.flattened order) hshows ((hshows ha).head hx) (hr.canonical ha) hplain
    refine ⟨x, by rw [fieldType, ← List.head?_eq_getElem?, hx], ?_⟩
    show h.isBase (some x) a true = true
    exact (hr.isBase_iff hof).mpr (Or.inr ⟨x, ty, canonical_of_starts hr hpath (hr.canonical ha), ha, hpath⟩)
  · obtain ⟨m, hm⟩ := List.exists_mem_of_ne_nil _ hmembers
    exact startsPlainly_of_full hself hm hfull

end Hierarchy

/-- A class that starts with an empty base, and one that starts with that class; a struct that starts
    with an array, and one that starts with a struct whose first field is empty. -/
def TypeTable.boxes : TypeTable where
  types := #[{ kind := .basic .signed, name := some "int", sizeBits := 32 },
    { kind := .record .structWord [.field "n" 0], name := some "Tag" },
    { kind := .record .structWord [], name := some "Empty" },
    { kind := .record .classWord [.base 2, .field "tag" 1], name := some "Root" },
    { kind := .record .classWord [.base 3, .field "x" 0], name := some "Box" },
    { kind := .array 0 (some 4) },
    { kind := .record .structWord [.field "cells" 5], name := some "Row" },
    { kind := .record .structWord [.field "e" 2, .field "x" 0], name := some "Pad" },
    { kind := .record .structWord [.field "pad" 7], name := some "Frame" }]

theorem TypeTable.boxes_admitted : boxes.Admitted :=
  admitted_of_rank (fun id => id) (by decide)

namespace Hierarchy

open Layout

/-- The number at the start of the box is a base of it: it is found in the box's base, there in the first
    proper field, and there in the only one. -/
theorem boxes_first_field : TypeTable.boxes.Admitted ∧ ∃ h, ofTable TypeTable.boxes = .ok h ∧
    h.canonical (some 4) = some 4 ∧ 0 < h.numFields (some 4) ∧
    (∀ x, ReflTransGen h.Enters 4 x → h.startsPlainly x = true) ∧
    h.fieldType (some 4) 0 = some 0 ∧ h.isBase (some 0) (some 4) true = true := by
  obtain ⟨h, hof, hself, hfirst⟩ := first_field_is_base TypeTable.boxes_admitted
  have hcheck : (ofTable TypeTable.boxes).map (fun h => (h.canonical (some 4), [4, 3, 1, 0].map (fun x =>
      (h.front? x).bind fun m => h.canonical (some m.ty)), [4, 3, 1, 0].all h.startsPlainly,
      h.numFields (some 4), h.fieldType (some 4) 0)) =
      .ok (some 4, [some 3, some 1, some 0, none], true, 2, some 0) := by decide +kernel
  simp only [hof, Except.map, Except.ok.injEq, Prod.mk.injEq, List.map_cons, List.map_nil, List.cons.injEq,
    and_true, List.all_eq_true] at hcheck
  obtain ⟨h4, ⟨he4, he3, he1, he0⟩, hplain, hnum, hfield⟩ := hcheck
  have hway : ∀ x, ReflTransGen h.Enters 4 x → x ∈ [4, 3, 1, 0] := by
    intro x hx
    induction hx with
    | refl => decide
    | tail _ hstep ih =>
      simp only [List.mem_cons, List.not_mem_nil, or_false] at ih ⊢
      rcases ih with rfl | rfl | rfl | rfl
      · exact Or.inr (Or.inl (Option.some.inj (hstep.symm.trans he4)))
      · exact Or.inr (Or.inr (Or.inl (Option.some.inj (hstep.symm.trans he3))))
      · exact Or.inr (Or.inr (Or.inr (Option.some.inj (hstep.symm.trans he1))))
      · cases hstep.symm.trans he0
  obtain ⟨x, hx, hbase⟩ := (hfirst _ (.refl _)).1 (some 4) 4 h4 (by rw [hself, hnum]; decide)
    (by rw [hself]; exact fun x hx => hplain x (hway x hx))
  rw [hself] at hx hbase
  obtain rfl := Option.some.inj (hfield.symm.trans hx)
  exact ⟨TypeTable.boxes_admitted, h, hof, h4, by rw [hnum]; decide, fun x hx => hplain x (hway x hx), hfield,
    hbase⟩

/-- The number at the start of a row is no base of it, nor is the one at the start of a frame, though all
    members of both have fields. -/
theorem boxes_hide_first_field : TypeTable.boxes.Admitted ∧ ∃ h, ofTable TypeTable.boxes = .ok h ∧
    ∀ s ∈ [6, 8], h.canonical (some s) = some s ∧ h.recordMembers s ≠ [] ∧
      (∀ m ∈ h.recordMembers s, h.canonical (some m.ty) ≠ none ∧ 0 < h.numFields (some m.ty)) ∧
      h.fieldType (some s) 0 = some 0 ∧ h.isBase (some 0) (some s) true = false := by
  obtain ⟨h, hof, -⟩ := ofTable_represents TypeTable.boxes_admitted
  refine ⟨TypeTable.boxes_admitted, h, hof, ?_⟩
  have hcheck : (ofTable TypeTable.boxes).map (fun h => [6, 8].all fun s => decide (
      h.canonical (some s) = some s ∧ h.recordMembers s ≠ [] ∧
      (∀ m ∈ h.recordMembers s, h.canonical (some m.ty) ≠ none ∧ 0 < h.numFields (some m.ty)) ∧
      h.fieldType (some s) 0 = some 0 ∧ h.isBase (some 0) (some s) true = false)) = .ok true := by
    decide +kernel
  simpa only [hof, Except.map, Except.ok.injEq, List.all_eq_true, decide_eq_true_eq] using hcheck

end Hierarchy

end PointsTo
