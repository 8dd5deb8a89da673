import Mathlib.Logic.Relation
import PointsTo.Proofs.IdSet
import PointsTo.Proofs.TypeLookups

/-! Nested aggregates are those that a type contains.

    The aggregates nested in a type are collected part by part. What was found for a type is remembered,
    and a type that is met while it is being opened contributes nothing; so the recursion comes to an
    end, and never finds more than there is. Where containment does not lead back to a type nothing is
    left out below it either, in whatever order the types are done. -/

namespace PointsTo

open Relation

namespace Layout

/-! ### The recursion -/

/-- Going through the parts of a type, as the recursion goes on without a bound. A part that is an
    aggregate is added with what is nested in it: that is remembered if the part is done, nothing is
    added for a part that is being opened, and any other part is opened and then remembered. -/
inductive Collects (t : TypeTable) (c : Canonicals) :
    List TypeId → List TypeId → IdSet × IdTable → IdSet × IdTable → Prop where
  | nil {busy : List TypeId} {r : IdSet × IdTable} : Collects t c busy [] r r
  | plain {busy ms : List TypeId} {m : TypeId} {r r' : IdSet × IdTable} : isAggregate t m = false →
      Collects t c busy ms r r' → Collects t c busy (m :: ms) r r'
  | known {busy ms : List TypeId} {m : TypeId} {s inner : IdSet} {done : IdTable} {r : IdSet × IdTable} :
      isAggregate t m = true → done[m]? = some inner →
      Collects t c busy ms (((s.insert m).2.union inner).2, done) r →
      Collects t c busy (m :: ms) (s, done) r
  | again {busy ms : List TypeId} {m : TypeId} {s : IdSet} {done : IdTable} {r : IdSet × IdTable} :
      isAggregate t m = true → done[m]? = none → m ∈ busy →
      Collects t c busy ms (((s.insert m).2.union ∅).2, done) r →
      Collects t c busy (m :: ms) (s, done) r
  | opened {busy ms : List TypeId} {m : TypeId} {s inner : IdSet} {done done' : IdTable}
      {r : IdSet × IdTable} : isAggregate t m = true → done[m]? = none → m ∉ busy →
      Collects t c (m :: busy) (parts t c m) (∅, done) (inner, done') →
      Collects t c busy ms (((s.insert m).2.union inner).2, done'.insert m inner) r →
      Collects t c busy (m :: ms) (s, done) r

/-- Opening a type when no other is being opened. -/
inductive Gathers (t : TypeTable) (c : Canonicals) (done : IdTable) (ty : TypeId) :
    IdSet → IdTable → Prop where
  | known {s : IdSet} : done[ty]? = some s → Gathers t c done ty s done
  | opened {s : IdSet} {done' : IdTable} : done[ty]? = none →
      Collects t c [ty] (parts t c ty) (∅, done) (s, done') → Gathers t c done ty s (done'.insert ty s)

variable {t : TypeTable} {c : Canonicals} {done done' : IdTable} {busy ms : List TypeId} {ty m x : TypeId}
  {s s' inner : IdSet} {r r' : IdSet × IdTable} {fuel : Nat}

/-- Adds a part with what is nested in it. -/
def collect (t : TypeTable) (c : Canonicals) (fuel : Nat) (busy : List TypeId) (r : IdSet × IdTable)
    (m : TypeId) : IdSet × IdTable :=
  if isAggregate t m then
    let inner := nested t c fuel busy r.2 m
    (((r.1.insert m).2.union inner.1).2, inner.2)
  else r

theorem nested_opened (hnone : done[ty]? = none) (hnot : ty ∉ busy) :
    nested t c (fuel + 1) busy done ty =
      let r := (parts t c ty).foldl (collect t c fuel (ty :: busy)) (∅, done)
      (r.1, r.2.insert ty r.1) := by
  rw [nested, hnone]
  simp only [List.contains_iff_mem, hnot, if_false]
  rfl

theorem lt_size_of_isAggregate (h : isAggregate t ty = true) : ty < t.size := by
  unfold isAggregate at h
  split at h
  case h_1 hd => exact TypeTable.lt_size_of_get? hd
  case h_2 => cases h

/-- With a bound above the number of types that can still be opened, the recursion comes to its end. -/
theorem collects_foldl (hnodup : busy.Nodup) (hbusy : ∀ x ∈ busy, x < t.size)
    (hfuel : t.size < fuel + busy.length) (ms : List TypeId) (r : IdSet × IdTable) :
    Collects t c busy ms r (ms.foldl (collect t c fuel busy) r) := by
  induction fuel generalizing busy ms r with
  | zero =>
    -- The types being opened are different places of the table.
    have hle := TypeTable.length_le_size hnodup hbusy
    omega
  | succ fuel ih =>
    induction ms generalizing r with
    | nil => exact .nil
    | cons m ms ihms =>
      obtain ⟨s, done⟩ := r
      rw [List.foldl_cons]
      cases hagg : isAggregate t m with
      | false =>
        rw [collect, if_neg (by simp [hagg])]
        exact .plain hagg (ihms _)
      | true =>
        rw [collect, if_pos hagg]
        cases hdone : done[m]? with
        | some inner =>
          simp only [nested, hdone]
          exact .known hagg hdone (ihms _)
        | none =>
          by_cases hmem : m ∈ busy
          · simp only [nested, hdone, List.contains_iff_mem, hmem, if_true]
            exact .again hagg hdone hmem (ihms _)
          · rw [nested_opened hdone hmem]
            refine .opened hagg hdone hmem (ih (List.nodup_cons.mpr ⟨hmem, hnodup⟩)
              (List.forall_mem_cons.mpr ⟨lt_size_of_isAggregate hagg, hbusy⟩) ?_ _ _) (ihms _)
            rw [List.length_cons]
            omega

/-- The recursion from a type of the table comes to its end. -/
theorem gathers_nested (done : IdTable) (hty : ty < t.size) :
    Gathers t c done ty (nested t c (t.size + 1) [] done ty).1 (nested t c (t.size + 1) [] done ty).2 := by
  cases hdone : done[ty]? with
  | some s =>
    simp only [nested, hdone]
    exact .known hdone
  | none =>
    rw [nested_opened hdone List.not_mem_nil]
    exact .opened hdone (collects_foldl (List.nodup_singleton ty) (by simpa using hty) (by simp) _ _)

/-! ### What is remembered -/

theorem insert_keeps {k : TypeId} {v : IdSet} (hnone : done[k]? = none) (hx : done[x]? = some s)
    (hx' : done'[x]? = some s) : (done'.insert k v)[x]? = some s := by
  rw [Std.TreeMap.getElem?_insert]
  split
  case isTrue heq =>
    obtain rfl : k = x := by simpa using heq
    rw [hnone] at hx
    cases hx
  case isFalse => exact hx'

/-- What is remembered is never replaced by something else. -/
theorem Collects.keeps (h : Collects t c busy ms r r') (hx : r.2[x]? = some s) : r'.2[x]? = some s := by
  induction h with
  | nil => exact hx
  | plain _ _ ih => exact ih hx
  | known _ _ _ ih => exact ih hx
  | again _ _ _ _ ih => exact ih hx
  | opened _ hnone _ _ _ ihparts ih => exact ih (insert_keeps hnone hx (ihparts hx))

theorem Gathers.keeps {v : IdSet} (h : Gathers t c done ty s done') (hx : done[x]? = some v) :
    done'[x]? = some v := by
  cases h with
  | known => exact hx
  | opened hnone hall => exact insert_keeps hnone hx (hall.keeps hx)

theorem Gathers.remembered (h : Gathers t c done ty s done') : done'[ty]? = some s := by
  cases h with
  | known hdone => exact hdone
  | opened => exact Std.TreeMap.getElem?_insert_self

/-! ### Containment -/

/-- A struct, class or union contains the canonical types of its members, an array that of its
    element. -/
def Contains (t : TypeTable) (c : Canonicals) (whole part : TypeId) : Prop :=
  ∃ d, t.get? whole = some d ∧
    ((∃ members m, d.members? = some members ∧ m ∈ members ∧ c.canonical (some m.ty) = some part) ∨
      ∃ element count, d.kind = .array element count ∧ c.canonical (some element) = some part)

theorem mem_parts : m ∈ parts t c ty ↔ Contains t c ty m := by
  cases hd : t.get? ty with
  | none => simp [parts, Contains, hd]
  | some d =>
    cases hk : d.kind <;> simp [parts, Contains, hd, hk, memberTypes, TypeDesc.members?]

theorem isAggregate_of_contains (h : Contains t c ty m) : isAggregate t ty = true := by
  obtain ⟨d, hd, hparts⟩ := h
  simp only [isAggregate, hd]
  cases hk : d.kind <;>
    simp_all [TypeDesc.members?, TypeDesc.isAggregate, TypeDesc.isRecord, TypeDesc.isUnion, TypeDesc.isArray]

/-- An aggregate that is contained in a type, at any depth. -/
def NestedIn (t : TypeTable) (c : Canonicals) (ty x : TypeId) : Prop :=
  TransGen (Contains t c) ty x ∧ isAggregate t x = true

/-- Only through aggregates a type contains others. -/
theorem nestedIn_iff : NestedIn t c ty x ↔
    ∃ m, Contains t c ty m ∧ isAggregate t m = true ∧ (x = m ∨ NestedIn t c m x) := by
  constructor
  · rintro ⟨hpath, hagg⟩
    obtain ⟨m, hm, hrest⟩ := TransGen.head'_iff.mp hpath
    rcases reflTransGen_iff_eq_or_transGen.mp hrest with rfl | hrest
    · exact ⟨x, hm, hagg, Or.inl rfl⟩
    · obtain ⟨m', hm', -⟩ := TransGen.head'_iff.mp hrest
      exact ⟨m, hm, isAggregate_of_contains hm', Or.inr ⟨hrest, hagg⟩⟩
  · rintro ⟨m, hm, hagg, rfl | ⟨hrest, hx⟩⟩
    · exact ⟨.single hm, hagg⟩
    · exact ⟨.head hm hrest, hx⟩

/-- Containment leads from the type to no type that contains itself. -/
def Loopless (t : TypeTable) (c : Canonicals) (ty : TypeId) : Prop :=
  ∀ x, ReflTransGen (Contains t c) ty x → ¬ TransGen (Contains t c) x x

theorem Loopless.part (hl : Loopless t c ty) (hm : Contains t c ty m) : Loopless t c m :=
  fun x hx => hl x (.head hm hx)

/-- Containment does not lead back if types up to the type contain only types that stand before them. -/
theorem loopless_of_earlier (h : ∀ x ≤ ty, ∀ y ∈ parts t c x, y < x) : Loopless t c ty :=
  fun _ => not_transGen_self_of_lt fun x hx y hxy => h x hx y (mem_parts.mpr hxy)

/-- Aggregates nested in a type, and all of them unless containment leads back. -/
structure IsNest (t : TypeTable) (c : Canonicals) (ty : TypeId) (s : IdSet) : Prop where
  sound : ∀ {x}, x ∈ s → NestedIn t c ty x
  complete : Loopless t c ty → ∀ {x}, NestedIn t c ty x → x ∈ s

/-- What is remembered of types are aggregates nested in them. -/
def Recalls (t : TypeTable) (c : Canonicals) (done : IdTable) : Prop :=
  ∀ {ty : TypeId} {s}, done[ty]? = some s → IsNest t c ty s

theorem Recalls.insert (h : Recalls t c done) (hs : IsNest t c ty s) : Recalls t c (done.insert ty s) := by
  intro x v hx
  rw [Std.TreeMap.getElem?_insert] at hx
  split at hx
  case isTrue heq =>
    obtain rfl : ty = x := by simpa using heq
    exact Option.some.inj hx ▸ hs
  case isFalse => exact h hx

/-- The set `s'` was made from `s` by adding the aggregates among some parts, with those nested in
    them. -/
structure Adds (t : TypeTable) (c : Canonicals) (ms : List TypeId) (s s' : IdSet) : Prop where
  keeps : ∀ {x}, x ∈ s → x ∈ s'
  sound : ∀ {x}, x ∈ s' → x ∈ s ∨ ∃ m ∈ ms, isAggregate t m = true ∧ (x = m ∨ NestedIn t c m x)
  part : ∀ {m}, m ∈ ms → isAggregate t m = true → m ∈ s'
  complete : ∀ {m}, m ∈ ms → Loopless t c m → ∀ {x}, NestedIn t c m x → x ∈ s'

theorem Adds.plain (hagg : isAggregate t m = false) (h : Adds t c ms s s') : Adds t c (m :: ms) s s' where
  keeps := h.keeps
  sound hx := (h.sound hx).imp_right fun ⟨p, hp, hrest⟩ => ⟨p, List.mem_cons_of_mem _ hp, hrest⟩
  part hp hagg' := by
    rcases List.mem_cons.mp hp with rfl | hp
    · simp [hagg] at hagg'
    · exact h.part hp hagg'
  complete hp hl x hx := by
    rcases List.mem_cons.mp hp with rfl | hp
    · obtain ⟨_, hcontains, -⟩ := nestedIn_iff.mp hx
      simp [isAggregate_of_contains hcontains] at hagg
    · exact h.complete hp hl hx

theorem Adds.cons (hagg : isAggregate t m = true) (hinner : IsNest t c m inner)
    (h : Adds t c ms ((s.insert m).2.union inner).2 s') : Adds t c (m :: ms) s s' where
  keeps hx := h.keeps (by simp [hx])
  sound hx := by
    rcases h.sound hx with hx | ⟨p, hp, hrest⟩
    · simp only [IdSet.mem_union, IdSet.mem_insert] at hx
      rcases hx with (rfl | hx) | hx
      · exact Or.inr ⟨_, List.mem_cons_self, hagg, Or.inl rfl⟩
      · exact Or.inl hx
      · exact Or.inr ⟨_, List.mem_cons_self, hagg, Or.inr (hinner.sound hx)⟩
    · exact Or.inr ⟨p, List.mem_cons_of_mem _ hp, hrest⟩
  part hp hagg' := by
    rcases List.mem_cons.mp hp with rfl | hp
    · exact h.keeps (by simp)
    · exact h.part hp hagg'
  complete hp hl x hx := by
    rcases List.mem_cons.mp hp with rfl | hp
    · exact h.keeps (by simp [hinner.complete hl hx])
    · exact h.complete hp hl hx

/-- The parts of a type with what is nested in them are what is nested in the type. -/
theorem Adds.isNest (h : Adds t c (parts t c ty) ∅ s) : IsNest t c ty s where
  sound hx := by
    rcases h.sound hx with hx | ⟨m, hm, hrest⟩
    · exact absurd hx (IdSet.not_mem_empty _)
    · exact nestedIn_iff.mpr ⟨m, mem_parts.mp hm, hrest⟩
  complete hl x hx := by
    obtain ⟨m, hm, hagg, rfl | hx⟩ := nestedIn_iff.mp hx
    · exact h.part (mem_parts.mpr hm) hagg
    · exact h.complete (mem_parts.mpr hm) (hl.part hm) hx

/-- What is collected for parts of the types being opened is nested in them, and is remembered as such.
    Everything that is being opened contains the parts, so one that is met again contains itself. -/
theorem Collects.adds (h : Collects t c busy ms r r') (hknown : Recalls t c r.2)
    (hbusy : ∀ b ∈ busy, ∀ m ∈ ms, TransGen (Contains t c) b m) :
    Adds t c ms r.1 r'.1 ∧ Recalls t c r'.2 := by
  induction h with
  | nil => exact ⟨⟨fun hx => hx, Or.inl, by simp, by simp⟩, hknown⟩
  | plain hagg _ ih =>
    obtain ⟨hadds, hdone⟩ := ih hknown fun b hb m hm => hbusy b hb m (List.mem_cons_of_mem _ hm)
    exact ⟨hadds.plain hagg, hdone⟩
  | known hagg hinner _ ih =>
    obtain ⟨hadds, hdone⟩ := ih hknown fun b hb m hm => hbusy b hb m (List.mem_cons_of_mem _ hm)
    exact ⟨hadds.cons hagg (hknown hinner), hdone⟩
  | again hagg _ hmem _ ih =>
    obtain ⟨hadds, hdone⟩ := ih hknown fun b hb m hm => hbusy b hb m (List.mem_cons_of_mem _ hm)
    have hloop := hbusy _ hmem _ List.mem_cons_self
    exact ⟨hadds.cons hagg ⟨fun hx => absurd hx (IdSet.not_mem_empty _), fun hl => absurd hloop (hl _ .refl)⟩,
      hdone⟩
  | opened hagg _ _ _ _ ihparts ih =>
    obtain ⟨hinner, hdone'⟩ := ihparts hknown fun b hb p hp => by
      have hp := mem_parts.mp hp
      rcases List.mem_cons.mp hb with rfl | hb
      · exact .single hp
      · exact (hbusy b hb _ List.mem_cons_self).tail hp
    obtain ⟨hadds, hdone⟩ := ih (hdone'.insert hinner.isNest) fun b hb m hm =>
      hbusy b hb m (List.mem_cons_of_mem _ hm)
    exact ⟨hadds.cons hagg hinner.isNest, hdone⟩

theorem Gathers.recalls (h : Gathers t c done ty s done') (hknown : Recalls t c done) :
    Recalls t c done' := by
  cases h with
  | known => exact hknown
  | opened _ hall =>
    obtain ⟨hadds, hdone⟩ := hall.adds hknown fun b hb m hm => by
      obtain rfl := List.mem_singleton.mp hb
      exact .single (mem_parts.mp hm)
    exact hdone.insert hadds.isNest

/-! ### All types one after the other -/

theorem gathers_nestedAll (t : TypeTable) (c : Canonicals) (before : List TypeId) (hty : ty < t.size) :
    ∃ s, Gathers t c (nestedAll t c before) ty s (nestedAll t c (before ++ [ty])) := by
  rw [nestedAll, nestedAll, List.foldl_append]
  exact ⟨_, gathers_nested _ hty⟩

theorem nestedAll_keeps {before after : List TypeId} (hafter : ∀ ty ∈ after, ty < t.size)
    (h : (nestedAll t c before)[x]? = some s) : (nestedAll t c (before ++ after))[x]? = some s := by
  rw [nestedAll, List.foldl_append]
  exact foldl_keeps (I := fun _ (done : IdTable) => done[x]? = some s) h fun _ ty _ done heq hx =>
    (gathers_nested (c := c) done (hafter ty (by simp [heq]))).keeps hx

theorem recalls_nestedAll {order : List TypeId} (horder : ∀ ty ∈ order, ty < t.size) :
    Recalls t c (nestedAll t c order) :=
  foldl_keeps (I := fun _ done => Recalls t c done) (fun h => by simp at h) fun _ ty _ done heq hknown =>
    (gathers_nested done (horder ty (by simp [heq]))).recalls hknown

end Layout

/-! ### Nested aggregates of a hierarchy -/

namespace Hierarchy

open Layout

variable {h : Hierarchy} {t : TypeTable} {order : List TypeId} {a : Option TypeId} {ty : TypeId}

/-- The hierarchy whose nested aggregates were collected in another order. -/
def gathered (h : Hierarchy) (order : List TypeId) : Hierarchy :=
  { h with aggregates := nestedAll h.table h.canonicals order }

theorem gathered_self (hof : ofTable t = .ok h) : h.gathered h.canonicals.reps = h := by
  obtain ⟨c, -, heq⟩ := bind_eq_ok.mp hof
  cases heq
  rfl

theorem Represents.lt_size (hr : h.Represents t) (ha : h.canonical a = some ty) : ty < t.size := by
  by_contra hge
  have hnone := hr.outside (Nat.le_of_not_lt hge)
  rw [hr.canonical ha] at hnone
  cases hnone

/-- Each type is done when its turn comes, and what was found then stays. -/
theorem gathers_gathered (hr : h.Represents t) (horder : h.Enumerates order) {before after : List TypeId}
    (hsplit : order = before ++ ty :: after) : ∃ s, Gathers t h.canonicals (nestedAll t h.canonicals before)
      ty s (nestedAll t h.canonicals (before ++ [ty])) ∧ (nestedAll t h.canonicals order)[ty]? = some s := by
  have hlt : ∀ x ∈ order, x < t.size := fun x hx => hr.lt_size ((horder x).mp hx)
  obtain ⟨s, hgathers⟩ := gathers_nestedAll t h.canonicals before (hlt ty (by simp [hsplit]))
  refine ⟨s, hgathers, ?_⟩
  rw [hsplit, List.append_cons]
  exact nestedAll_keeps (fun x hx => hlt x (by simp [hsplit, hx])) hgathers.remembered

theorem isNest_gathered (hr : h.Represents t) (horder : h.Enumerates order) (ha : h.canonical a = some ty) :
    ∃ s, (h.gathered order).nested? a = some s ∧ IsNest t h.canonicals ty s := by
  obtain ⟨before, after, hsplit⟩ := List.append_of_mem ((horder ty).mpr (hr.canonical ha))
  obtain ⟨s, -, hs⟩ := gathers_gathered hr horder hsplit
  have hnested : (h.gathered order).nested? a = (nestedAll t h.canonicals order)[ty]? := by
    have ha' : (h.gathered order).canonical a = some ty := ha
    rw [nested?, ha', Option.bind_some, gathered, hr.table]
  exact ⟨s, hnested.trans hs, recalls_nestedAll (fun x hx => hr.lt_size ((horder x).mp hx)) hs⟩

/-- Collecting nested aggregates comes to an end for every table, in whatever order the types are done.
    What is found for a type are structs, classes, unions and arrays that it contains at some depth; and
    where containment does not lead back to a type it is all of them, without the type itself. -/
theorem nesting_is_containment (ht : t.Admitted) : ∃ h, ofTable t = .ok h ∧
    h.gathered h.canonicals.reps = h ∧ ∀ order, order.Perm h.canonicals.reps →
      (∀ before ty after, order = before ++ ty :: after → ∃ s,
        Gathers t h.canonicals (nestedAll t h.canonicals before) ty s
          (nestedAll t h.canonicals (before ++ [ty])) ∧
        (nestedAll t h.canonicals order)[ty]? = some s) ∧
      ∀ a ty, h.canonical a = some ty → ∃ s, (h.gathered order).nested? a = some s ∧
        (∀ x ∈ s, NestedIn t h.canonicals ty x) ∧
        (Loopless t h.canonicals ty → ty ∉ s ∧ ∀ x, x ∈ s ↔ NestedIn t h.canonicals ty x) := by
  obtain ⟨h, hof, hr⟩ := ofTable_represents ht
  refine ⟨h, hof, gathered_self hof, fun order hp => ⟨fun before ty after hsplit => ?_, fun a ty ha => ?_⟩⟩
  · exact gathers_gathered hr (hr.nodes.perm hp) hsplit
  · obtain ⟨s, hs, hnest⟩ := isNest_gathered hr (hr.nodes.perm hp) ha
    refine ⟨s, hs, fun x => hnest.sound, fun hl => ⟨fun hself => ?_, fun x => ⟨hnest.sound, hnest.complete hl⟩⟩⟩
    exact hl ty .refl (hnest.sound hself).1

end Hierarchy

/-- A struct with an array of pairs and a union that may be a pair, and two structs that hold each
    other. -/
def TypeTable.drawers : TypeTable where
  types := #[{ kind := .basic .signed, name := some "int", sizeBits := 32 },
    { kind := .record .structWord [.field "a" 0, .field "b" 0], name := some "Pair" },
    { kind := .array 1 (some 3) },
    { kind := .union [.field "p" 1, .field "n" 0], name := some "Either" },
    { kind := .qualified .const (some 3) },
    { kind := .record .structWord [.field "rest" 2, .field "last" 4], name := some "Drawer" },
    { kind := .record .classWord [.field "e" 7], name := some "Hen" },
    { kind := .record .classWord [.field "h" 6, .field "d" 5], name := some "Egg" }]

theorem TypeTable.drawers_admitted : drawers.Admitted :=
  admitted_of_rank (fun id => id) (by decide)

namespace Hierarchy

open Layout

/-- The drawer contains its array, the pairs in it and the union, and these are found also when the
    types are done from the last to the first; of the structs that hold each other one is found in
    itself. -/
theorem drawers_nested : TypeTable.drawers.Admitted ∧ ∃ h, ofTable TypeTable.drawers = .ok h ∧
    Loopless TypeTable.drawers h.canonicals 5 ∧
    (∀ x, NestedIn TypeTable.drawers h.canonicals 5 x ↔ x ∈ [2, 1, 3]) ∧
    (∃ s, (h.gathered h.canonicals.reps.reverse).nested? (some 5) = some s ∧ ∀ x, x ∈ s ↔ x ∈ [2, 1, 3]) ∧
    NestedIn TypeTable.drawers h.canonicals 6 6 := by
  obtain ⟨h, hof, hself, hnest⟩ := nesting_is_containment TypeTable.drawers_admitted
  have hcheck : (ofTable TypeTable.drawers).map (fun h => ((List.range 6).all (fun x =>
      (parts TypeTable.drawers h.canonicals x).all (· < x)),
      [h.canonical (some 5), h.canonical (some 6)],
      [h.nested? (some 5), h.nested? (some 6)].map (Option.map IdSet.toList))) =
      .ok (true, [some 5, some 6], [some [2, 1, 3], some [7, 6, 5, 2, 1, 3]]) := by decide +kernel
  simp only [hof, Except.map, Except.ok.injEq, Prod.mk.injEq, List.all_eq_true, List.mem_range,
    decide_eq_true_eq, List.map_cons, List.map_nil, List.cons.injEq, and_true, Option.map_eq_some_iff] at hcheck
  obtain ⟨hearlier, ⟨h5, h6⟩, ⟨s₅, hs₅, hl₅⟩, s₆, hs₆, hl₆⟩ := hcheck
  have hl : Loopless TypeTable.drawers h.canonicals 5 :=
    loopless_of_earlier fun x hx => hearlier x (Nat.lt_succ_iff.mpr hx)
  obtain ⟨-, hreps⟩ := hnest _ (.refl _)
  rw [hself] at hreps
  have hfive : ∀ x, NestedIn TypeTable.drawers h.canonicals 5 x ↔ x ∈ [2, 1, 3] := by
    obtain ⟨s, hs, -, hexact⟩ := hreps _ 5 h5
    obtain rfl := Option.some.inj (hs.symm.trans hs₅)
    intro x
    rw [← (hexact hl).2 x, ← hl₅, IdSet.mem_toList]
  have hsix : NestedIn TypeTable.drawers h.canonicals 6 6 := by
    obtain ⟨s, hs, hsound, -⟩ := hreps _ 6 h6
    obtain rfl := Option.some.inj (hs.symm.trans hs₆)
    exact hsound 6 (IdSet.mem_toList.mp (by simp [hl₆]))
  obtain ⟨s, hs, -, hexact⟩ := (hnest _ h.canonicals.reps.reverse_perm).2 _ 5 h5
  exact ⟨TypeTable.drawers_admitted, h, hof, hl, hfive, ⟨s, hs, fun x => ((hexact hl).2 x).trans (hfive x)⟩,
    hsix⟩

end Hierarchy

end PointsTo
