import Mathlib.Data.Finset.Option
import Mathlib.Data.Finset.Prod
import Mathlib.Data.List.Dedup
import PointsTo.Proofs.Evolution

/-! How many objects there can be.

    An object is known from where it came from: the object of the program it belongs to, the type at
    which that was cloned if it was, and for a field its offset and the type at which it was cloned.
    There are finitely many such origins, and no two objects have the same one. -/

namespace PointsTo

namespace Heap

/-- The type at which the object was cloned, if it is a clone. -/
def cloneType (h : Heap) (x : NodeId) : Option TypeId :=
  (h.prototypes[x]?).bind fun _ => (h.types[x]?).join

/-- Where an object came from. -/
def origin (h : Heap) (x : NodeId) : (NodeId × Option TypeId) × Option (Nat × Option TypeId) :=
  match h.graph.obj x with
  | .ok ⟨.field base k, _, _⟩ => ((h.prototype base, h.cloneType base), some (k, h.cloneType x))
  | _ => ((h.prototype x, h.cloneType x), none)

variable {g₀ : Graph} {tys : TypeId → Prop} {h : Heap}

theorem origin_of_whole {x : NodeId} {o : ObjNode} (hx : h.graph.obj x = .ok o)
    (hw : o.isField = false) : h.origin x = ((h.prototype x, h.cloneType x), none) := by
  obtain ⟨kind, m, name⟩ := o
  cases kind with
  | field base k => cases hw
  | base | dummy | special w => simp only [origin, hx]

theorem origin_of_field {x base : NodeId} {k : Nat} {o : ObjNode} (hx : h.graph.obj x = .ok o)
    (hk : o.kind = .field base k) :
    h.origin x = ((h.prototype base, h.cloneType base), some (k, h.cloneType x)) := by
  obtain ⟨kind, m, name⟩ := o
  cases hk
  simp only [origin, hx]

theorem cloneType_of_clone (hv : h.Valid g₀ tys) {x p : NodeId} (hp : h.prototypes[x]? = some p) :
    ∃ t, tys t ∧ h.cloneType x = some t ∧ h.types[x]? = some (some t) := by
  obtain ⟨t, ht, hty⟩ := hv.cloneType hp
  exact ⟨t, ht, by simp [cloneType, hp, hty], hty⟩

theorem cloneType_of_none {x : NodeId} (hp : h.prototypes[x]? = none) : h.cloneType x = none := by
  simp [cloneType, hp]

/-- An object is known from its prototype and the type at which it was cloned. -/
theorem eq_of_prototype_eq (hv : h.Valid g₀ tys) {x y : NodeId}
    (hproto : h.prototype x = h.prototype y) (hty : h.cloneType x = h.cloneType y) : x = y := by
  cases hx : h.prototypes[x]? with
  | none =>
    cases hy : h.prototypes[y]? with
    | none => rwa [prototype_of_none hx, prototype_of_none hy] at hproto
    | some q =>
      obtain ⟨t, -, ht, -⟩ := cloneType_of_clone hv hy
      rw [cloneType_of_none hx, ht] at hty
      cases hty
  | some p =>
    obtain ⟨t, -, ht, htx⟩ := cloneType_of_clone hv hx
    cases hy : h.prototypes[y]? with
    | none =>
      rw [cloneType_of_none hy, ht] at hty
      cases hty
    | some q =>
      obtain ⟨t', -, ht', hty'⟩ := cloneType_of_clone hv hy
      rw [ht, ht', Option.some.injEq] at hty
      rw [prototype_of_some hx, prototype_of_some hy] at hproto
      exact hv.cloneInj hx (hproto ▸ hy) (by rw [htx, hty', hty])

/-- No two objects have the same origin. -/
theorem origin_inj (hv : h.Valid g₀ tys) {x y : NodeId} (hx : h.graph.HasObj x)
    (hy : h.graph.HasObj y) (heq : h.origin x = h.origin y) : x = y := by
  obtain ⟨ox, hox⟩ := hx
  obtain ⟨oy, hoy⟩ := hy
  cases hkx : ox.kind with
  | field bx kx =>
    rw [origin_of_field hox hkx] at heq
    cases hky : oy.kind with
    | field b' ky =>
      simp only [origin_of_field hoy hky, Prod.mk.injEq, Option.some.injEq] at heq
      obtain ⟨⟨hproto, hty⟩, rfl, htyx⟩ := heq
      obtain rfl := eq_of_prototype_eq hv hproto hty
      exact eq_of_prototype_eq hv (hv.prototype_eq_of_slot hox hoy hkx hky) htyx
    | base | dummy | special w =>
      rw [origin_of_whole hoy (by simp [ObjNode.isField, hky])] at heq
      simp at heq
  | base | dummy | special w =>
    rw [origin_of_whole hox (by simp [ObjNode.isField, hkx])] at heq
    cases hky : oy.kind with
    | field b' ky =>
      rw [origin_of_field hoy hky] at heq
      simp at heq
    | base | dummy | special w' =>
      simp only [origin_of_whole hoy (show oy.isField = false by simp [ObjNode.isField, hky]),
        Prod.mk.injEq, and_true] at heq
      exact eq_of_prototype_eq hv heq.1 heq.2

/-- The origins that objects can have. -/
def origins (g : Graph) (tys : List TypeId) (limit : Nat) :
    Finset ((NodeId × Option TypeId) × Option (Nat × Option TypeId)) :=
  let clones := tys.toFinset.insertNone
  (g.objects.toList.toFinset ×ˢ clones) ×ˢ (Finset.range limit ×ˢ clones).insertNone

theorem cloneType_mem (hv : h.Valid g₀ tys) {T : List TypeId} (hT : ∀ t, tys t → t ∈ T) (x : NodeId) :
    h.cloneType x ∈ T.toFinset.insertNone := by
  cases hx : h.prototypes[x]? with
  | none => rw [cloneType_of_none hx]; exact Finset.none_mem_insertNone
  | some p =>
    obtain ⟨t, ht, hty, -⟩ := cloneType_of_clone hv hx
    rw [hty, Finset.some_mem_insertNone, List.mem_toFinset]
    exact hT t ht

/-- The prototype of a whole object is an object of the program. -/
theorem prototype_mem_objects (hwf : g₀.WellFormed) (hv : h.Valid g₀ tys) {x : NodeId} {o : ObjNode}
    (hx : h.graph.obj x = .ok o) (hw : o.isField = false) :
    h.prototype x ∈ g₀.objects.toList.toFinset := by
  obtain ⟨hp, hnone⟩ := hv.prototype hx
  have hlt := hv.root hp hw hnone
  rcases hv.grows.obj_cases hp with hobj | hge
  · exact List.mem_toFinset.mpr (hwf.objects.mpr ⟨o, hobj⟩)
  · exact absurd hlt (Nat.not_lt.mpr hge)

theorem origin_mem_origins (hwf : g₀.WellFormed) (hv : h.Valid g₀ tys) {T : List TypeId}
    (hT : ∀ t, tys t → t ∈ T) {x : NodeId} (hx : h.graph.HasObj x) :
    h.origin x ∈ origins g₀ T h.fieldLimit := by
  obtain ⟨o, ho⟩ := hx
  cases hk : o.kind with
  | field base k =>
    obtain ⟨hlt, w, hw, hwhole, -⟩ := hv.fieldOf ho hk
    rw [origin_of_field ho hk, origins]
    simp only [Finset.mem_product, Finset.some_mem_insertNone, Finset.mem_range]
    exact ⟨⟨prototype_mem_objects hwf hv hw hwhole, cloneType_mem hv hT base⟩, hlt, cloneType_mem hv hT x⟩
  | base | dummy | special w =>
    have hwhole : o.isField = false := by simp [ObjNode.isField, hk]
    rw [origin_of_whole ho hwhole, origins]
    simp only [Finset.mem_product]
    exact ⟨⟨prototype_mem_objects hwf hv ho hwhole, cloneType_mem hv hT x⟩, Finset.none_mem_insertNone⟩

/-- The objects are no more than their possible origins. -/
theorem objects_size_le (hwf : g₀.WellFormed) (hv : h.Valid g₀ tys) {T : List TypeId}
    (hdistinct : T.Nodup) (hT : ∀ t, tys t → t ∈ T) :
    h.graph.objects.size ≤ g₀.objects.size * (1 + T.length) * (1 + h.fieldLimit * (1 + T.length)) := by
  have hcard : (origins g₀ T h.fieldLimit).card =
      g₀.objects.size * (1 + T.length) * (1 + h.fieldLimit * (1 + T.length)) := by
    simp only [origins, Finset.card_product, Finset.card_insertNone, Finset.card_range,
      List.toFinset_card_of_nodup hdistinct, List.toFinset_card_of_nodup hwf.objects_nodup,
      Array.length_toList, Nat.add_comm 1]
  rw [← hcard, ← Array.length_toList, ← List.toFinset_card_of_nodup hv.objects_nodup]
  refine Finset.card_le_card_of_injOn h.origin ?_ ?_
  · intro x hx
    exact origin_mem_origins hwf hv hT (hv.objects.mp (List.mem_toFinset.mp hx))
  · intro x hx y hy heq
    exact origin_inj hv (hv.objects.mp (List.mem_toFinset.mp hx))
      (hv.objects.mp (List.mem_toFinset.mp hy)) heq

end Heap

/-- The distinct types at which the statements of a graph access memory. -/
def Graph.accessedTypes (g : Graph) (types : Hierarchy) : List TypeId :=
  (g.stmts.toList.filterMap fun st =>
    match g.stmt st with
    | .ok n => types.canonical n.ty
    | .error _ => none).dedup

theorem Solver.mem_accessedTypes {g : Graph} {types : Hierarchy} {t : TypeId} :
    t ∈ g.accessedTypes types ↔ Accessed types g t := by
  simp only [Graph.accessedTypes, List.mem_dedup, List.mem_filterMap, Accessed]
  refine exists_congr fun st => and_congr_right fun _ => ?_
  cases g.stmt st with
  | ok n => simp
  | error e => simp

theorem Graph.length_accessedTypes_le (g : Graph) (types : Hierarchy) :
    (g.accessedTypes types).length ≤ g.stmts.size :=
  calc (g.accessedTypes types).length
      ≤ _ := (List.dedup_sublist _).length_le
    _ ≤ g.stmts.toList.length := List.length_filterMap_le _ _
    _ = g.stmts.size := Array.length_toList

end PointsTo
