import Mathlib.Logic.Relation
import PointsTo.Proofs.TypeLookups

/-! Flattening with a memory is plain flattening.

    Flattening remembers the fields of the types that are done, and cuts off a type that it meets while
    it is being opened. No type is opened inside itself, so the types being opened are all different
    and the recursion comes to an end. Below a type that does not come to hold itself by value nothing
    is ever cut off; and since only whole results are remembered, what is remembered of such types is
    right, in whatever order the types are done. -/

namespace PointsTo

open Relation

namespace Layout

/-! ### The recursion -/

/-- Opening a type, as the recursion goes on without a bound: a type that is done has the fields that
    are remembered, and one that is being opened is cut off. -/
inductive Opens (t : TypeTable) (c : Canonicals) (done : FieldTable) :
    List TypeId → TypeId → List TypeId → Prop where
  | known {busy : List TypeId} {ty : TypeId} {fs : List TypeId} : done[ty]? = some fs →
      Opens t c done busy ty fs
  | again {busy : List TypeId} {ty : TypeId} : done[ty]? = none → ty ∈ busy →
      Opens t c done busy ty [ty]
  | record {busy : List TypeId} {ty : TypeId} {d : TypeDesc} {word : RecordWord} {members : List Member}
      (fields : TypeId → List TypeId) : done[ty]? = none → ty ∉ busy →
      t.get? ty = some d → d.kind = .record word members →
      (∀ m ∈ memberTypes c members, isOpened t m = true → Opens t c done (ty :: busy) m (fields m)) →
      (∀ m ∈ memberTypes c members, isOpened t m = false → fields m = [m]) →
      Opens t c done busy ty ((memberTypes c members).flatMap fields)
  | array {busy : List TypeId} {ty : TypeId} {d : TypeDesc} {element e : TypeId} {count : Option Nat}
      {fs : List TypeId} : done[ty]? = none → ty ∉ busy → t.get? ty = some d →
      d.kind = .array element count → c.canonical (some element) = some e →
      Opens t c done (ty :: busy) e fs → Opens t c done busy ty fs
  | voidArray {busy : List TypeId} {ty : TypeId} {d : TypeDesc} {element : TypeId}
      {count : Option Nat} : done[ty]? = none → ty ∉ busy → t.get? ty = some d →
      d.kind = .array element count → c.canonical (some element) = none → Opens t c done busy ty []
  | single {busy : List TypeId} {ty : TypeId} : done[ty]? = none → ty ∉ busy →
      isOpened t ty = false → Opens t c done busy ty [ty]

variable {t : TypeTable} {c : Canonicals} {done : FieldTable} {busy : List TypeId} {ty : TypeId}
  {fs : List TypeId}

/-- With a bound above the number of types that can still be opened, the recursion comes to its end. -/
theorem opens_flatten {fuel : Nat} (hnodup : busy.Nodup) (hbusy : ∀ x ∈ busy, x < t.size)
    (hfuel : t.size < fuel + busy.length) : Opens t c done busy ty (flatten t c done fuel busy ty) := by
  induction fuel generalizing busy ty with
  | zero =>
    -- The types being opened are different places of the table.
    have hle := TypeTable.length_le_size hnodup hbusy
    omega
  | succ fuel ih =>
    rw [flatten]
    cases hdone : done[ty]? with
    | some fs => exact .known hdone
    | none =>
      by_cases hmem : ty ∈ busy
      · simp only [List.contains_iff_mem, hmem, if_true]
        exact .again hdone hmem
      · simp only [List.contains_iff_mem, hmem, if_false]
        cases hd : t.get? ty with
        | none => exact .single hdone hmem (by simp [isOpened, hd])
        | some d =>
          have hnext : ∀ x, Opens t c done (ty :: busy) x (flatten t c done fuel (ty :: busy) x) :=
            fun x => ih (List.nodup_cons.mpr ⟨hmem, hnodup⟩)
              (List.forall_mem_cons.mpr ⟨TypeTable.lt_size_of_get? hd, hbusy⟩)
              (by rw [List.length_cons]; omega)
          rw [Option.map_some]
          cases hk : d.kind with
          | record word members =>
            refine .record _ hdone hmem hd hk (fun m _ hm => ?_) fun m _ hm => ?_
            · rw [if_pos hm]
              exact hnext m
            · rw [if_neg (by simp [hm])]
          | array element count =>
            cases he : c.canonical (some element) with
            | none =>
              simp only [he]
              exact .voidArray hdone hmem hd hk he
            | some e =>
              simp only [he]
              exact .array hdone hmem hd hk he (hnext e)
          | basic | address | union | qualified | subroutine =>
            exact .single hdone hmem (by simp [isOpened, hd, TypeDesc.isRecord, TypeDesc.isArray, hk])

/-! ### The reference -/

/-- The flattened fields of a type: those of all members of a struct or class in order, those of an
    array's element, and the type itself if it is neither. -/
inductive HasFields (t : TypeTable) (c : Canonicals) : TypeId → List TypeId → Prop where
  | record {ty : TypeId} {d : TypeDesc} {word : RecordWord} {members : List Member}
      (fields : TypeId → List TypeId) : t.get? ty = some d → d.kind = .record word members →
      (∀ m ∈ memberTypes c members, HasFields t c m (fields m)) →
      HasFields t c ty ((memberTypes c members).flatMap fields)
  | array {ty : TypeId} {d : TypeDesc} {element e : TypeId} {count : Option Nat} {fs : List TypeId} :
      t.get? ty = some d → d.kind = .array element count → c.canonical (some element) = some e →
      HasFields t c e fs → HasFields t c ty fs
  | voidArray {ty : TypeId} {d : TypeDesc} {element : TypeId} {count : Option Nat} :
      t.get? ty = some d → d.kind = .array element count → c.canonical (some element) = none →
      HasFields t c ty []
  | single {ty : TypeId} : isOpened t ty = false → HasFields t c ty [ty]

theorem isOpened_record {d : TypeDesc} {word : RecordWord} {members : List Member}
    (hd : t.get? ty = some d) (hk : d.kind = .record word members) : isOpened t ty = true := by
  simp [isOpened, hd, TypeDesc.isRecord, hk]

theorem isOpened_array {d : TypeDesc} {element : TypeId} {count : Option Nat}
    (hd : t.get? ty = some d) (hk : d.kind = .array element count) : isOpened t ty = true := by
  simp [isOpened, hd, TypeDesc.isArray, hk]

/-- A type has no more than one list of fields. -/
theorem HasFields.unique {fs' : List TypeId} (h : HasFields t c ty fs) (h' : HasFields t c ty fs') :
    fs = fs' := by
  induction h generalizing fs' with
  | record fields hd hk _ ih =>
    cases h' with
    | record fields' hd' hk' hm' =>
      obtain rfl := Option.some.inj (hd.symm.trans hd')
      obtain ⟨-, rfl⟩ : _ ∧ _ := by simpa [hk] using hk'
      exact List.flatMap_congr fun m hm => ih m hm (hm' m hm)
    | array hd' hk' => grind
    | voidArray hd' hk' => grind
    | single hs => simp [isOpened_record hd hk] at hs
  | array hd hk he _ ih =>
    cases h' with
    | array hd' hk' he' h' => grind
    | record fields' hd' hk' => grind
    | voidArray hd' hk' he' => grind
    | single hs => simp [isOpened_array hd hk] at hs
  | voidArray hd hk he =>
    cases h' with
    | voidArray => rfl
    | array hd' hk' he' => grind
    | record fields' hd' hk' => grind
    | single hs => simp [isOpened_array hd hk] at hs
  | single hs =>
    cases h' with
    | single => rfl
    | record fields' hd' hk' => simp [isOpened_record hd' hk'] at hs
    | array hd' hk' => simp [isOpened_array hd' hk'] at hs
    | voidArray hd' hk' => simp [isOpened_array hd' hk'] at hs

/-- No field is a struct, a class or an array. -/
theorem HasFields.not_opened (h : HasFields t c ty fs) : ∀ x ∈ fs, isOpened t x = false := by
  induction h with
  | record fields _ _ _ ih =>
    intro x hx
    obtain ⟨m, hm, hx⟩ := List.mem_flatMap.mp hx
    exact ih m hm x hx
  | array _ _ _ _ ih => exact ih
  | voidArray => simp
  | single hs => simpa using hs

/-! ### Types that do not come to hold themselves -/

/-- A struct, class or array holds a canonical type by value. -/
def Holds (t : TypeTable) (c : Canonicals) (whole part : TypeId) : Prop :=
  isOpened t whole = true ∧ part ∈ parts t c whole

theorem holds_member {d : TypeDesc} {word : RecordWord} {members : List Member} {m : TypeId}
    (hd : t.get? ty = some d) (hk : d.kind = .record word members) (hm : m ∈ memberTypes c members) :
    Holds t c ty m :=
  ⟨isOpened_record hd hk, by simpa [parts, hd, hk] using hm⟩

theorem holds_element {d : TypeDesc} {element e : TypeId} {count : Option Nat}
    (hd : t.get? ty = some d) (hk : d.kind = .array element count)
    (he : c.canonical (some element) = some e) : Holds t c ty e :=
  ⟨isOpened_array hd hk, by simp [parts, hd, hk, he]⟩

/-- No type that holds itself is held by the type, at any depth. -/
def Grounded (t : TypeTable) (c : Canonicals) (ty : TypeId) : Prop :=
  ∀ x, ReflTransGen (Holds t c) ty x → ¬ TransGen (Holds t c) x x

theorem Grounded.part {m : TypeId} (hg : Grounded t c ty) (hm : Holds t c ty m) : Grounded t c m :=
  fun x hx => hg x (.head hm hx)

/-- A type does not come to hold itself if types up to it hold only types that stand before them. -/
theorem grounded_of_earlier (h : ∀ x ≤ ty, isOpened t x = true → ∀ y ∈ parts t c x, y < x) :
    Grounded t c ty :=
  fun _ => not_transGen_self_of_lt fun x hx y hxy => h x hx hxy.1 y hxy.2

/-- What is remembered of types that do not come to hold themselves is right. -/
def Remembers (t : TypeTable) (c : Canonicals) (done : FieldTable) : Prop :=
  ∀ {ty : TypeId} {fs}, Grounded t c ty → done[ty]? = some fs → HasFields t c ty fs

/-- A type that does not come to hold itself is not cut off below types that hold it. -/
theorem Opens.hasFields (hdone : Remembers t c done) (h : Opens t c done busy ty fs)
    (hg : Grounded t c ty) (hbusy : ∀ b ∈ busy, TransGen (Holds t c) b ty) : HasFields t c ty fs := by
  -- Everything that is being opened holds the type, so to cut it off it would have to hold itself.
  induction h with
  | known hknown => exact hdone hg hknown
  | again _ hmem => exact absurd (hbusy _ hmem) (hg _ .refl)
  | record fields _ _ hd hk _ hplain ih =>
    refine .record fields hd hk fun m hm => ?_
    have hholds := holds_member hd hk hm
    cases ho : isOpened t m with
    | true =>
      exact ih m hm ho (hg.part hholds)
        (List.forall_mem_cons.mpr ⟨.single hholds, fun b hb => (hbusy b hb).tail hholds⟩)
    | false => exact hplain m hm ho ▸ .single ho
  | array _ _ hd hk he _ ih =>
    have hholds := holds_element hd hk he
    exact .array hd hk he (ih (hg.part hholds)
      (List.forall_mem_cons.mpr ⟨.single hholds, fun b hb => (hbusy b hb).tail hholds⟩))
  | voidArray _ _ hd hk he => exact .voidArray hd hk he
  | single _ _ hs => exact .single hs

/-! ### All types one after the other -/

/-- Does one more type. -/
def flattenNext (t : TypeTable) (c : Canonicals) (done : FieldTable) (ty : TypeId) : FieldTable :=
  done.insert ty (flatten t c done (t.size + 1) [] ty)

theorem opens_next (t : TypeTable) (c : Canonicals) (done : FieldTable) (ty : TypeId) :
    Opens t c done [] ty (flatten t c done (t.size + 1) [] ty) :=
  opens_flatten List.nodup_nil (by simp) (by simp)

/-- What is remembered is never replaced by something else. -/
theorem flattenNext_known (h : done[ty]? = some fs) (x : TypeId) :
    (flattenNext t c done x)[ty]? = some fs := by
  rw [flattenNext, Std.TreeMap.getElem?_insert]
  split
  case isTrue heq =>
    obtain rfl : x = ty := by simpa using heq
    rw [flatten, h]
  case isFalse => exact h

theorem foldl_flattenNext_known (h : done[ty]? = some fs) (order : List TypeId) :
    (order.foldl (flattenNext t c) done)[ty]? = some fs := by
  induction order generalizing done with
  | nil => exact h
  | cons x order ih => exact ih (flattenNext_known h x)

/-- What the recursion carries over from the types that are done to the one it opens is true of all types
    in the end. -/
theorem flattenAll_induction {P : TypeId → List TypeId → Prop}
    (hopens : ∀ {done : FieldTable} {ty fs}, (∀ {x : TypeId} {gs}, done[x]? = some gs → P x gs) →
      Opens t c done [] ty fs → P ty fs)
    (order : List TypeId) (h : (flattenAll t c order)[ty]? = some fs) : P ty fs := by
  refine foldl_keeps (I := fun _ (done : FieldTable) => ∀ {x : TypeId} {gs}, done[x]? = some gs → P x gs)
    (fun h => by simp at h) (fun _ ty _ done _ hdone x gs hgs => ?_) h
  rw [Std.TreeMap.getElem?_insert] at hgs
  split at hgs
  case isTrue heq =>
    obtain rfl : ty = x := by simpa using heq
    exact Option.some.inj hgs ▸ hopens hdone (opens_next t c done ty)
  case isFalse => exact hdone hgs

theorem remembers_flattenAll (t : TypeTable) (c : Canonicals) (order : List TypeId) :
    Remembers t c (flattenAll t c order) := fun hg hfs =>
  flattenAll_induction (P := fun ty fs => Grounded t c ty → HasFields t c ty fs)
    (fun hdone ho hg => ho.hasFields (fun hg' hfs' => hdone hfs' hg') hg (by simp)) order hfs hg

/-- Each type gets the fields that the recursion finds when its turn comes. -/
theorem opens_flattenAll (t : TypeTable) (c : Canonicals) (before : List TypeId) (ty : TypeId)
    (after : List TypeId) : ∃ fs, Opens t c (flattenAll t c before) [] ty fs ∧
      (flattenAll t c (before ++ ty :: after))[ty]? = some fs := by
  refine ⟨_, opens_next t c (flattenAll t c before) ty, ?_⟩
  have hall : flattenAll t c (before ++ ty :: after) =
      after.foldl (flattenNext t c) (flattenNext t c (flattenAll t c before) ty) := by
    rw [flattenAll, List.foldl_append, List.foldl_cons]
    rfl
  rw [hall]
  exact foldl_flattenNext_known (by rw [flattenNext, Std.TreeMap.getElem?_insert_self]) after

end Layout

/-! ### Fields of a hierarchy -/

namespace Hierarchy

open Layout

variable {h : Hierarchy} {t : TypeTable} {order : List TypeId} {a : Option TypeId} {ty : TypeId}

/-- The hierarchy whose types were flattened in another order. -/
def flattened (h : Hierarchy) (order : List TypeId) : Hierarchy :=
  { h with fields := flattenAll h.table h.canonicals order }

theorem flattened_self (hof : ofTable t = .ok h) : h.flattened h.canonicals.reps = h := by
  obtain ⟨c, -, heq⟩ := bind_eq_ok.mp hof
  cases heq
  rfl

/-- In whatever order types are flattened, something is remembered of each, and this is what is given. -/
theorem flattenAll_fieldTypes (hr : h.Represents t) (horder : h.Enumerates order)
    (ha : h.canonical a = some ty) :
    (flattenAll t h.canonicals order)[ty]? = some ((h.flattened order).fieldTypes a) := by
  obtain ⟨before, after, rfl⟩ := List.append_of_mem ((horder ty).mpr (hr.canonical ha))
  obtain ⟨fs, -, hfs⟩ := opens_flattenAll t h.canonicals before ty after
  have ha' : (h.flattened (before ++ ty :: after)).canonical a = some ty := ha
  have hfields : (h.flattened (before ++ ty :: after)).fieldTypes a = fs := by
    rw [fieldTypes, ha']
    show (flattenAll h.table h.canonicals (before ++ ty :: after)).getD ty [] = fs
    rw [hr.table, Std.TreeMap.getD_eq_getD_getElem?, hfs]
    rfl
  rw [hfields, hfs]

/-- In whatever order types are flattened, one that does not come to hold itself gets its fields. -/
theorem hasFields_flattened (hr : h.Represents t) (horder : h.Enumerates order)
    (ha : h.canonical a = some ty) (hg : Grounded t h.canonicals ty) :
    HasFields t h.canonicals ty ((h.flattened order).fieldTypes a) :=
  remembers_flattenAll t h.canonicals _ hg (flattenAll_fieldTypes hr horder ha)

theorem flatMap_memberTypes (hr : h.Represents t) (members : List Member) :
    ((memberTypes h.canonicals members).flatMap fun x => h.fieldTypes (some x)) =
      members.flatMap fun m => h.fieldTypes (some m.ty) := by
  rw [memberTypes, List.filterMap_eq_flatMap_toList, List.flatMap_assoc]
  refine List.flatMap_congr fun m _ => ?_
  show ((h.canonical (some m.ty)).toList.flatMap fun x => h.fieldTypes (some x)) = _
  cases hm : h.canonical (some m.ty) with
  | none => simp [fieldTypes, hm]
  | some x => simp [fieldTypes, hm, hr.canonical hm]

/-- The fields of a struct or class are those of its members in order. -/
theorem fieldTypes_record (hr : h.Represents t)
    (hfields : ∀ {a ty}, h.canonical a = some ty → Grounded t h.canonicals ty →
      HasFields t h.canonicals ty (h.fieldTypes a))
    (ha : h.canonical a = some ty) (hg : Grounded t h.canonicals ty) {d : TypeDesc} {word : RecordWord}
    {members : List Member} (hd : t.get? ty = some d) (hk : d.kind = .record word members) :
    h.fieldTypes a = members.flatMap fun m => h.fieldTypes (some m.ty) := by
  rw [← flatMap_memberTypes hr]
  refine (hfields ha hg).unique (.record _ hd hk fun x hx => ?_)
  obtain ⟨m, -, hm⟩ := List.mem_filterMap.mp hx
  exact hfields (hr.canonical hm) (hg.part (holds_member hd hk hx))

/-- The fields of a member stand behind those of the members before it. -/
theorem fieldType_member {before after : List Member} {m : Member} {k : Nat}
    (hfields : h.fieldTypes a = (before ++ m :: after).flatMap fun m => h.fieldTypes (some m.ty))
    (hk : k < h.numFields (some m.ty)) :
    h.fieldType a ((before.map fun b => h.numFields (some b.ty)).foldr (· + ·) 0 + k) =
      h.fieldType (some m.ty) k := by
  have hlen : (before.map fun b => h.numFields (some b.ty)).foldr (· + ·) 0 =
      (before.flatMap fun m => h.fieldTypes (some m.ty)).length := by
    rw [List.length_flatMap]
    rfl
  rw [fieldType, hfields, hlen, List.flatMap_append, List.getElem?_append_right (Nat.le_add_right _ _),
    Nat.add_sub_cancel_left, List.flatMap_cons, List.getElem?_append_left hk, fieldType]

/-- Flattening comes to an end for every table, in whatever order the types are done. The fields of a
    type that does not come to hold itself by value are those of plain flattening, whatever the order;
    none of them is a struct, a class or an array, and the fields of a member stand at its own offsets
    behind those of the members before it. -/
theorem flattening_is_plain (ht : t.Admitted) : ∃ h, ofTable t = .ok h ∧
    (∀ order, order.Perm h.canonicals.reps → ∀ before ty after, order = before ++ ty :: after →
      ∃ fs, Opens t h.canonicals (flattenAll t h.canonicals before) [] ty fs ∧
        (flattenAll t h.canonicals order)[ty]? = some fs) ∧
    ∀ a ty, h.canonical a = some ty → Grounded t h.canonicals ty →
      (∀ fs, HasFields t h.canonicals ty fs ↔ h.fieldTypes a = fs) ∧
      (∀ order, order.Perm h.canonicals.reps → (h.flattened order).fieldTypes a = h.fieldTypes a) ∧
      (∀ x ∈ h.fieldTypes a, ∀ d, t.get? x = some d → d.isRecord = false ∧ d.isArray = false) ∧
      ∀ d word before m after, t.get? ty = some d → d.kind = .record word (before ++ m :: after) →
        ∀ k < h.numFields (some m.ty),
          h.fieldType a ((before.map fun b => h.numFields (some b.ty)).foldr (· + ·) 0 + k) =
            h.fieldType (some m.ty) k := by
  obtain ⟨h, hof, hr⟩ := ofTable_represents ht
  have hfields : ∀ {a ty}, h.canonical a = some ty → Grounded t h.canonicals ty →
      HasFields t h.canonicals ty (h.fieldTypes a) := by
    intro a ty ha hg
    have hself := hasFields_flattened hr hr.nodes ha hg
    rwa [flattened_self hof] at hself
  refine ⟨h, hof, ?_, fun a ty ha hg => ⟨fun fs => ?_, fun order hp => ?_, fun x hx d hd => ?_, ?_⟩⟩
  · rintro _ - before ty after rfl
    exact opens_flattenAll t h.canonicals before ty after
  · exact ⟨(hfields ha hg).unique, fun hfs => hfs ▸ hfields ha hg⟩
  · exact (hasFields_flattened hr (hr.nodes.perm hp) ha hg).unique (hfields ha hg)
  · simpa [isOpened, hd] using (hfields ha hg).not_opened x hx
  · intro d word before m after hd hk k hlt
    exact fieldType_member (fieldTypes_record hr hfields ha hg hd hk) hlt

end Hierarchy

/-- A struct of a pair, of nothing, of an array of pairs and of a union that holds the struct, and two
    structs that hold each other. -/
def TypeTable.crates : TypeTable where
  types := #[{ kind := .basic .signed, name := some "int", sizeBits := 32 },
    { kind := .record .structWord [.field "a" 0, .field "b" 0], name := some "Pair" },
    { kind := .array 1 (some 3) },
    { kind := .union [.field "p" 1, .field "c" 5], name := some "Either" },
    { kind := .qualified .typedef none, name := some "Nothing" },
    { kind := .record .structWord [.field "first" 1, .field "none" 4, .field "rest" 2, .field "last" 3],
      name := some "Crate" },
    { kind := .record .classWord [.field "p" 1, .field "e" 7], name := some "Hen" },
    { kind := .record .classWord [.field "h" 6], name := some "Egg" }]

theorem TypeTable.crates_admitted : crates.Admitted :=
  admitted_of_rank (fun id => id) (by decide)

namespace Hierarchy

open Layout

/-- The crate has the numbers of its pairs and the union as its fields, those of the array behind those
    of the first pair; and opening the structs that hold each other comes to an end. -/
theorem crates_flattened : TypeTable.crates.Admitted ∧ ∃ h, ofTable TypeTable.crates = .ok h ∧
    Grounded TypeTable.crates h.canonicals 5 ∧
    HasFields TypeTable.crates h.canonicals 5 [0, 0, 0, 0, 3] ∧
    h.fieldType (some 5) (2 + 1) = h.fieldType (some 2) 1 ∧
    ∃ done fs, Opens TypeTable.crates h.canonicals done [] 6 fs ∧
      (flattenAll TypeTable.crates h.canonicals h.canonicals.reps)[6]? = some fs := by
  obtain ⟨h, hof, hterm, hplain⟩ := flattening_is_plain TypeTable.crates_admitted
  have hcheck : (ofTable TypeTable.crates).map (fun h => ((List.range 6).all (fun x =>
      !isOpened TypeTable.crates x || (parts TypeTable.crates h.canonicals x).all (· < x)),
      h.canonical (some 5), h.fieldTypes (some 5), [1, 2, 4].map (fun x => h.numFields (some x)),
      h.canonicals.reps.contains 6)) =
      .ok (true, some 5, [0, 0, 0, 0, 3], [2, 2, 0], true) := by decide +kernel
  simp only [hof, Except.map, Except.ok.injEq, Prod.mk.injEq, List.all_eq_true, List.mem_range,
    Bool.or_eq_true, Bool.not_eq_true', decide_eq_true_eq, List.contains_iff_mem, List.map_cons,
    List.map_nil, List.cons.injEq, and_true] at hcheck
  obtain ⟨hearlier, h5, hfields, ⟨hn1, hn2, hn4⟩, h6⟩ := hcheck
  have hg : Grounded TypeTable.crates h.canonicals 5 := grounded_of_earlier fun x hx ho =>
    (hearlier x (Nat.lt_succ_iff.mpr hx)).resolve_left (by simp [ho])
  obtain ⟨hiff, -, -, hmember⟩ := hplain (some 5) 5 h5 hg
  obtain ⟨before, after, hsplit⟩ := List.append_of_mem h6
  obtain ⟨fs, hopens, hfs⟩ := hterm _ (.refl _) before 6 after hsplit
  have hoffset := hmember _ _ [.field "first" 1, .field "none" 4] (.field "rest" 2) [.field "last" 3]
    rfl rfl 1 (by simp [Member.field, hn2])
  exact ⟨TypeTable.crates_admitted, h, hof, hg, (hiff _).mpr hfields,
    by simpa [Member.field, hn1, hn4] using hoffset, _, fs, hopens, hfs⟩

end Hierarchy

end PointsTo
