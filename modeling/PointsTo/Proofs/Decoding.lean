import Mathlib.Data.List.Forall2
import Mathlib.Data.List.Nodup
import Mathlib.Data.List.Perm.Basic
import PointsTo.Json.Decode
import PointsTo.Proofs.Delivers

/-! Decoding records of which the fields come in any order and beside others.

    A decoder walks the fields of an object once, for their errors, and then looks up those it knows.
    Fields with other keys go through a test on the way. `Among` says that the known fields are there
    once each; then the walk fails only where a value does not pass the test, and every known field is
    found. -/

namespace PointsTo

namespace Json

variable {depth : Nat}

mutual

/-- What denotes something keeps the grammar. -/
theorem wellFormed_of_meaningful : ∀ (depth : Nat) (j : Json), j.meaningful depth = true →
    j.wellFormed = true
  | _, .null, _ | _, .bool _, _ | _, .num _, _ | _, .real _, _ | _, .str _, _ => rfl
  | _ + 1, .arr items, h => wellFormedItems_of_meaningful _ items h
  | _ + 1, .obj fields, h => wellFormedFields_of_meaningful _ fields h

theorem wellFormedItems_of_meaningful : ∀ (depth : Nat) (items : List Json),
    meaningfulItems depth items = true → wellFormedItems items = true
  | _, [], _ => rfl
  | depth, j :: rest, h => by
    rw [meaningfulItems, Bool.and_eq_true] at h
    rw [wellFormedItems, wellFormed_of_meaningful depth j h.1,
      wellFormedItems_of_meaningful depth rest h.2]
    rfl

theorem wellFormedFields_of_meaningful : ∀ (depth : Nat) (fields : List (String × Json)),
    meaningfulFields depth fields = true → wellFormedFields fields = true
  | _, [], _ => rfl
  | depth, (k, j) :: rest, h => by
    rw [meaningfulFields, Bool.and_eq_true] at h
    rw [wellFormedFields, wellFormed_of_meaningful depth j h.1,
      wellFormedFields_of_meaningful depth rest h.2]
    rfl

end

theorem meaningfulItems_eq_all (depth : Nat) (items : List Json) :
    meaningfulItems depth items = items.all (·.meaningful depth) := by
  induction items with
  | nil => rfl
  | cons j rest ih => rw [meaningfulItems, List.all_cons, ih]

theorem meaningfulFields_eq_all (depth : Nat) (fields : List (String × Json)) :
    meaningfulFields depth fields = fields.all (·.2.meaningful depth) := by
  induction fields with
  | nil => rfl
  | cons e rest ih => rw [meaningfulFields, List.all_cons, ih]

theorem wellFormedFields_eq_all (fields : List (String × Json)) :
    wellFormedFields fields = fields.all (·.2.wellFormed) := by
  induction fields with
  | nil => rfl
  | cons e rest ih => rw [wellFormedFields, List.all_cons, ih]

end Json

/-! ### Fields among others -/

/-- The fields are the given ones in any order, among others that have none of their keys. -/
def Among (known fields : List (String × Json)) : Prop :=
  ∃ others, fields.Perm (known ++ others) ∧ ∀ e ∈ others, e.1 ∉ known.map Prod.fst

namespace Among

variable {known fields : List (String × Json)} {k : String} {j : Json}

theorem refl (known : List (String × Json)) : Among known known :=
  ⟨[], by simp, by simp⟩

theorem mem_iff (h : Among known fields) (hk : k ∈ known.map Prod.fst) :
    (k, j) ∈ fields ↔ (k, j) ∈ known := by
  obtain ⟨others, hperm, hothers⟩ := h
  rw [hperm.mem_iff, List.mem_append, or_iff_left]
  exact fun hmem => hothers _ hmem hk

theorem countP_le (h : Among known fields) (hnodup : (known.map Prod.fst).Nodup)
    (hk : k ∈ known.map Prod.fst) : fields.countP (·.1 == k) ≤ 1 := by
  obtain ⟨others, hperm, hothers⟩ := h
  have hnone : others.countP (·.1 == k) = 0 := by
    rw [List.countP_eq_zero]
    intro e he heq
    exact hothers e he (by simpa [beq_iff_eq.mp heq] using hk)
  have honce : known.countP (·.1 == k) = (known.map Prod.fst).count k := by
    rw [List.count, List.countP_map]
    rfl
  rw [hperm.countP_eq, List.countP_append, hnone, honce]
  exact List.nodup_iff_count_le_one.mp hnodup k

end Among

theorem lookup_eq_some_of_unique {α : Type} {k : String} {a : α} {l : List (String × α)}
    (hmem : (k, a) ∈ l) (hunique : ∀ b, (k, b) ∈ l → b = a) : l.lookup k = some a := by
  induction l with
  | nil => cases hmem
  | cons e l ih =>
    obtain ⟨k', b⟩ := e
    by_cases hk : k = k'
    · subst hk
      rw [List.lookup_cons_self, hunique b List.mem_cons_self]
    · have hmem' : (k, a) ∈ l := by
        rcases List.mem_cons.mp hmem with heq | hmem
        · exact absurd (congrArg Prod.fst heq) hk
        · exact hmem
      rw [List.lookup_cons, beq_eq_false_iff_ne.mpr hk]
      exact ih hmem' fun b hb => hunique b (List.mem_cons_of_mem _ hb)

/-- A known field is found by its key. -/
theorem Among.lookup_eq {known fields : List (String × Json)} {k : String} {j : Json}
    (h : Among known fields) (hnodup : (known.map Prod.fst).Nodup) (hj : (k, j) ∈ known) :
    fields.lookup k = some j := by
  have hk : k ∈ known.map Prod.fst := List.mem_map_of_mem hj
  refine lookup_eq_some_of_unique ((h.mem_iff hk).mpr hj) fun j' hj' => ?_
  have hinj := List.inj_on_of_nodup_map hnodup
  exact congrArg Prod.snd (hinj ((h.mem_iff hk).mp hj') hj rfl)

namespace Decoder

/-- A scan of fields of which the known ones decode and come once fails only at an unknown one. -/
theorem scan_eq {known : List (String × Decoder Unit)} {p : Json → Bool} {seen : List String}
    {fields : List (String × Json)}
    (hknown : ∀ k j d, (k, j) ∈ fields → known.lookup k = some d → d j = .ok ())
    (honce : ∀ k, (known.lookup k).isSome = true → fields.countP (·.1 == k) ≤ 1)
    (hseen : ∀ k ∈ seen, fields.countP (·.1 == k) = 0) :
    scan known (fun j => if p j then .ok () else .error .notJson) seen fields =
      if fields.all fun e => (known.lookup e.1).isSome || p e.2 then .ok ()
      else .error .notJson := by
  induction fields generalizing seen with
  | nil => rfl
  | cons e rest ih =>
    obtain ⟨k, j⟩ := e
    have hle : ∀ k', rest.countP (·.1 == k') ≤ ((k, j) :: rest).countP (·.1 == k') := fun k' => by
      rw [List.countP_cons]
      exact Nat.le_add_right _ _
    have hrest : ∀ k' j' d, (k', j') ∈ rest → known.lookup k' = some d → d j' = .ok () :=
      fun k' j' d hmem => hknown k' j' d (List.mem_cons_of_mem _ hmem)
    have honce' : ∀ k', (known.lookup k').isSome = true → rest.countP (·.1 == k') ≤ 1 :=
      fun k' hk' => Nat.le_trans (hle k') (honce k' hk')
    have hseen' : ∀ k' ∈ seen, rest.countP (·.1 == k') = 0 := fun k' hk' =>
      Nat.le_zero.mp (Nat.le_trans (hle k') (Nat.le_of_eq (hseen k' hk')))
    rw [scan, List.all_cons]
    cases hlookup : known.lookup k with
    | none =>
      cases hp : p j with
      | false => rfl
      | true =>
        simp only [if_true, Option.isSome_none, Bool.false_or, Bool.true_and]
        exact ih hrest honce' hseen'
    | some d =>
      have hhead : ((k, j) :: rest).countP (·.1 == k) = rest.countP (·.1 == k) + 1 := by
        simp
      -- A known key is new here and does not come again, so the rest starts with one more key seen.
      have hnew : k ∉ seen := fun hk => by
        have := hseen k hk
        omega
      have hdone : rest.countP (·.1 == k) = 0 := by
        have := honce k (by simp [hlookup])
        omega
      simp only [List.contains_eq_mem, hnew, decide_false, Bool.false_eq_true, if_false,
        hknown k j d List.mem_cons_self hlookup, Option.isSome_some, Bool.true_or, Bool.true_and]
      refine ih hrest honce' fun k' hk' => ?_
      rcases List.mem_cons.mp hk' with rfl | hk'
      · exact hdone
      · exact hseen' k' hk'

/-- A scan of known fields among others accepts them if all of them pass the test for others. -/
theorem scan_among {lay : List (String × Decoder Unit)} {p : Json → Bool}
    {known fields : List (String × Json)} (h : Among known fields)
    (hnodup : (known.map Prod.fst).Nodup)
    (hlay : ∀ e ∈ lay, ∃ j, (e.1, j) ∈ known ∧ e.2 j = .ok () ∧ p j = true) :
    scan lay (fun j => if p j then .ok () else .error .notJson) [] fields =
      if fields.all (p ·.2) then .ok () else .error .notJson := by
  -- A field with the key of a known one is that field.
  have hvalue : ∀ k j d, (k, j) ∈ fields → (k, d) ∈ lay → d j = .ok () ∧ p j = true := by
    intro k j d hj hd
    obtain ⟨j', hj', hdec, hp⟩ := hlay (k, d) hd
    have hk : k ∈ known.map Prod.fst := List.mem_map_of_mem hj'
    have hinj := List.inj_on_of_nodup_map hnodup
    obtain rfl : j = j' := congrArg Prod.snd (hinj ((h.mem_iff hk).mp hj) hj' rfl)
    exact ⟨hdec, hp⟩
  have hmem : ∀ k d, lay.lookup k = some d → (k, d) ∈ lay := by
    intro k d hd
    obtain ⟨l₁, l₂, rfl, -⟩ := List.lookup_eq_some_iff.mp hd
    simp
  rw [scan_eq (fun k j d hj hd => (hvalue k j d hj (hmem k d hd)).1) ?_ (by simp)]
  · congr 1
    rw [eq_iff_iff, List.all_eq_true, List.all_eq_true]
    refine forall₂_congr fun e he => ?_
    rw [Bool.or_eq_true, or_iff_right_of_imp]
    intro hsome
    obtain ⟨d, hd⟩ := Option.isSome_iff_exists.mp hsome
    exact (hvalue e.1 e.2 d he (hmem e.1 d hd)).2
  · intro k hk
    obtain ⟨d, hd⟩ := Option.isSome_iff_exists.mp hk
    obtain ⟨j, hj, -⟩ := hlay (k, d) (hmem k d hd)
    exact h.countP_le hnodup (List.mem_map_of_mem hj)

theorem distinct_among {known fields : List (String × Json)} (h : Among known fields)
    (hnodup : (known.map Prod.fst).Nodup) {keys : List String}
    (hkeys : ∀ k ∈ keys, k ∈ known.map Prod.fst) : distinct keys fields = .ok () := by
  rw [distinct, if_pos]
  rw [List.all_eq_true]
  exact fun k hk => decide_eq_true (h.countP_le hnodup (hkeys k hk))

/-- Decoding the items of a list one by one. -/
theorem mapM_of_forall₂ {α : Type} {d : Decoder α} {p : Json → Bool} {as : List α} {items : List Json}
    (h : List.Forall₂ (fun a j => d j = if p j then .ok a else .error .notJson) as items) :
    items.mapM d = if items.all p then .ok as else .error .notJson := by
  induction h with
  | nil => rfl
  | @cons a j as items hj _ ih =>
    rw [List.mapM_cons, hj, ih, List.all_cons]
    cases p j with
    | false => rfl
    | true => cases items.all p <;> rfl

end Decoder

end PointsTo
