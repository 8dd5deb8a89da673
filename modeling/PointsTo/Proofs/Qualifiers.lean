import Mathlib.Data.List.Nodup
import PointsTo.Proofs.Delivers
import PointsTo.Types.Equiv

/-! Chains of qualifiers.

    A chain of qualifiers ends in a type or in `void`, or it goes round in a circle. A chain that ends
    visits no type twice, so it is no longer than the table; following it for that long finds its end,
    and what has not ended by then never does. -/

namespace PointsTo

/-- Does a qualifier stand in front of the type? -/
def TypeDesc.isQualified (d : TypeDesc) : Bool :=
  match d.kind with
  | .qualified _ _ => true
  | _ => false

namespace TypeTable

variable {t : TypeTable} {id : TypeId} {d : TypeDesc} {a r : Option TypeId} {n : Nat}

theorem get_eq_ok : t.get id = .ok d ↔ t.get? id = some d := by
  unfold get
  cases t.get? id with
  | none => simp
  | some d' => simp

theorem lt_size_of_get? (h : t.get? id = some d) : id < t.size :=
  (Array.getElem?_eq_some_iff.mp h).1

theorem exists_get? (h : id < t.size) : ∃ d, t.get? id = some d :=
  ⟨t.types[id], Array.getElem?_eq_getElem h⟩

/-- Different places of the table are no more than it has. -/
theorem length_le_size {l : List TypeId} (hnodup : l.Nodup) (hlt : ∀ x ∈ l, x < t.size) :
    l.length ≤ t.size := by
  have hsub : l ⊆ List.range t.size := fun x hx => List.mem_range.mpr (hlt x hx)
  simpa using hnodup.length_le_of_subset hsub

/-- The type, unless it is `void`, has a place in the table. -/
def InRange (t : TypeTable) (a : Option TypeId) : Prop := ∀ id, a = some id → id < t.size

instance : DecidablePred t.InRange := fun a =>
  match a with
  | none => .isTrue nofun
  | some id => decidable_of_iff (id < t.size) (by simp [InRange])

theorem inRange_some : t.InRange (some id) ↔ id < t.size := by simp [InRange]

/-- All types that are referred to have a place in the table. -/
def Closed (t : TypeTable) : Prop := ∀ {id d}, t.get? id = some d → ∀ r ∈ d.references, r < t.size

theorem Closed.inRange_base (hc : t.Closed) (hd : t.get? id = some d) {q : Qualifier}
    (hk : d.kind = .qualified q a) : t.InRange a := by
  rintro b rfl
  exact hc hd b (by simp [TypeDesc.references, hk])

/-- The chain of qualifiers from a type ends after `n` of them, in a type or in `void`. -/
inductive EndsIn (t : TypeTable) : Nat → Option TypeId → Option TypeId → Prop where
  | void : EndsIn t 0 none none
  | here {id : TypeId} {d : TypeDesc} : t.get? id = some d → d.isQualified = false →
      EndsIn t 0 (some id) (some id)
  | next {n : Nat} {id : TypeId} {d : TypeDesc} {q : Qualifier} {base r : Option TypeId} :
      t.get? id = some d → d.kind = .qualified q base → EndsIn t n base r → EndsIn t (n + 1) (some id) r

/-- The chain of qualifiers from a type never ends. -/
def Endless (t : TypeTable) (a : Option TypeId) : Prop := ∀ n r, ¬ t.EndsIn n a r

/-- What is left of a type without its qualifiers: the end of the chain, or `void` if there is none. -/
def Strips (t : TypeTable) (a r : Option TypeId) : Prop :=
  (∃ n, t.EndsIn n a r) ∨ (r = none ∧ t.Endless a)

/-! ### Chains that end -/

theorem EndsIn.unique {m : Nat} {r' : Option TypeId} (h : t.EndsIn n a r) (h' : t.EndsIn m a r') :
    n = m ∧ r = r' := by
  induction h generalizing m with
  | void =>
    cases h'
    exact ⟨rfl, rfl⟩
  | here hd hq =>
    cases h' with
    | here => exact ⟨rfl, rfl⟩
    | next hd' hk =>
      obtain rfl := Option.some.inj (hd.symm.trans hd')
      simp [TypeDesc.isQualified, hk] at hq
  | next hd hk _ ih =>
    cases h' with
    | here hd' hq =>
      obtain rfl := Option.some.inj (hd.symm.trans hd')
      simp [TypeDesc.isQualified, hk] at hq
    | next hd' hk' h' =>
      obtain rfl := Option.some.inj (hd.symm.trans hd')
      obtain ⟨-, rfl⟩ : _ ∧ _ := by simpa [hk] using hk'
      obtain ⟨rfl, rfl⟩ := ih h'
      exact ⟨rfl, rfl⟩

/-- The qualifiers of a chain that ends: from no two of them is it equally far to the end. -/
theorem EndsIn.visited (h : t.EndsIn n a r) : ∃ l : List TypeId, l.length = n ∧ l.Nodup ∧
    ∀ x ∈ l, x < t.size ∧ ∃ m ≤ n, t.EndsIn m (some x) r := by
  induction h with
  | void | here => exact ⟨[], rfl, List.nodup_nil, nofun⟩
  | @next n id d q base r hd hk h ih =>
    obtain ⟨l, hlen, hnodup, hmem⟩ := ih
    have hchain : t.EndsIn (n + 1) (some id) r := .next hd hk h
    refine ⟨id :: l, by rw [List.length_cons, hlen], List.nodup_cons.mpr ⟨fun hid => ?_, hnodup⟩, ?_⟩
    · obtain ⟨-, m, hm, hend⟩ := hmem id hid
      have := (hchain.unique hend).1
      omega
    · rintro x hx
      rcases List.mem_cons.mp hx with rfl | hx
      · exact ⟨lt_size_of_get? hd, n + 1, Nat.le_refl _, hchain⟩
      · obtain ⟨hlt, m, hm, hend⟩ := hmem x hx
        exact ⟨hlt, m, by omega, hend⟩

theorem EndsIn.le_size (h : t.EndsIn n a r) : n ≤ t.size := by
  obtain ⟨l, rfl, hnodup, hmem⟩ := h.visited
  exact length_le_size hnodup fun x hx => (hmem x hx).1

theorem EndsIn.stripFrom (h : t.EndsIn n a r) {fuel : Nat} (hfuel : n < fuel) :
    t.stripFrom fuel a = .ok r := by
  obtain ⟨fuel, rfl⟩ : ∃ k, fuel = k + 1 := ⟨fuel - 1, by omega⟩
  induction h generalizing fuel with
  | void => rfl
  | here hd hq =>
    simp only [TypeTable.stripFrom, get_eq_ok.mpr hd, ok_bind]
    split
    case h_1 q base hk => simp [TypeDesc.isQualified, hk] at hq
    case h_2 => rfl
  | next hd hk _ ih =>
    simp only [TypeTable.stripFrom, get_eq_ok.mpr hd, ok_bind, hk]
    obtain ⟨fuel, rfl⟩ : ∃ k, fuel = k + 1 := ⟨fuel - 1, by omega⟩
    exact ih fuel (by omega)

theorem EndsIn.qualifiesFor (h : t.EndsIn n a r) {fuel : Nat} (hfuel : n < fuel) :
    t.qualifiesFor fuel a = .ok false := by
  obtain ⟨fuel, rfl⟩ : ∃ k, fuel = k + 1 := ⟨fuel - 1, by omega⟩
  induction h generalizing fuel with
  | void => rfl
  | here hd hq =>
    simp only [TypeTable.qualifiesFor, get_eq_ok.mpr hd, ok_bind]
    split
    case h_1 q base hk => simp [TypeDesc.isQualified, hk] at hq
    case h_2 => rfl
  | next hd hk _ ih =>
    simp only [TypeTable.qualifiesFor, get_eq_ok.mpr hd, ok_bind, hk]
    obtain ⟨fuel, rfl⟩ : ∃ k, fuel = k + 1 := ⟨fuel - 1, by omega⟩
    exact ih fuel (by omega)

/-! ### Chains that do not end -/

/-- The next link of a chain that does not end. -/
theorem Endless.next (ha : t.InRange a) (h : t.Endless a) : ∃ id d q base, a = some id ∧
    t.get? id = some d ∧ d.kind = .qualified q base ∧ t.Endless base := by
  cases a with
  | none => exact absurd .void (h 0 none)
  | some id =>
    obtain ⟨d, hd⟩ := exists_get? (inRange_some.mp ha)
    cases hk : d.kind with
    | qualified q base => exact ⟨id, d, q, base, rfl, hd, hk, fun n r hr => h (n + 1) r (.next hd hk hr)⟩
    | basic | address | array | record | union | subroutine =>
      exact absurd (.here hd (by simp [TypeDesc.isQualified, hk])) (h 0 (some id))

theorem Endless.stripFrom (hc : t.Closed) (ha : t.InRange a) (h : t.Endless a) (fuel : Nat) :
    t.stripFrom fuel a = .ok none := by
  induction fuel generalizing a with
  | zero => rfl
  | succ fuel ih =>
    obtain ⟨id, d, q, base, rfl, hd, hk, hbase⟩ := h.next ha
    simp only [TypeTable.stripFrom, get_eq_ok.mpr hd, ok_bind, hk]
    exact ih (hc.inRange_base hd hk) hbase

theorem Endless.qualifiesFor (hc : t.Closed) (ha : t.InRange a) (h : t.Endless a) (fuel : Nat) :
    t.qualifiesFor fuel a = .ok true := by
  induction fuel generalizing a with
  | zero => rfl
  | succ fuel ih =>
    obtain ⟨id, d, q, base, rfl, hd, hk, hbase⟩ := h.next ha
    simp only [TypeTable.qualifiesFor, get_eq_ok.mpr hd, ok_bind, hk]
    exact ih (hc.inRange_base hd hk) hbase

/-- Following a chain for longer than the table decides whether it ends. -/
theorem hasEndlessQualifiers_spec (hc : t.Closed) (hid : id < t.size) :
    ∃ b, t.hasEndlessQualifiers id = .ok b ∧ (b = true ↔ t.Endless (some id)) := by
  by_cases h : t.Endless (some id)
  · exact ⟨true, h.qualifiesFor hc (inRange_some.mpr hid) _, iff_of_true rfl h⟩
  · have hends := h
    simp only [Endless, not_forall, not_not] at hends
    obtain ⟨n, r, hends⟩ := hends
    exact ⟨false, hends.qualifiesFor (Nat.lt_succ_of_le hends.le_size), iff_of_false (by simp) h⟩

/-! ### Stripping -/

theorem Strips.unique {r' : Option TypeId} (h : t.Strips a r) (h' : t.Strips a r') : r = r' := by
  rcases h with ⟨n, h⟩ | ⟨rfl, hend⟩ <;> rcases h' with ⟨m, h'⟩ | ⟨rfl, hend'⟩
  · exact (h.unique h').2
  · exact absurd h (hend' n r)
  · exact absurd h' (hend m r')
  · rfl

theorem Strips.strip (hc : t.Closed) (ha : t.InRange a) (h : t.Strips a r) : t.strip a = .ok r := by
  rcases h with ⟨n, h⟩ | ⟨rfl, hend⟩
  · exact h.stripFrom (Nat.lt_succ_of_le h.le_size)
  · exact hend.stripFrom hc ha _

theorem exists_strips (t : TypeTable) (a : Option TypeId) : ∃ r, t.Strips a r := by
  by_cases h : t.Endless a
  · exact ⟨none, Or.inr ⟨rfl, h⟩⟩
  · simp only [Endless, not_forall, not_not] at h
    obtain ⟨n, r, h⟩ := h
    exact ⟨r, Or.inl ⟨n, h⟩⟩

theorem strips_none : t.Strips none none := Or.inl ⟨0, .void⟩

theorem strips_self (hd : t.get? id = some d) (hq : d.isQualified = false) :
    t.Strips (some id) (some id) := Or.inl ⟨0, .here hd hq⟩

theorem EndsIn.end_unqualified (h : t.EndsIn n a r) (hr : r = some id) :
    ∃ d, t.get? id = some d ∧ d.isQualified = false := by
  induction h with
  | void => cases hr
  | here hd hq =>
    cases hr
    exact ⟨_, hd, hq⟩
  | next _ _ _ ih => exact ih hr

/-- What is left of a type has no qualifiers. -/
theorem Strips.unqualified (h : t.Strips a (some id)) : ∃ d, t.get? id = some d ∧ d.isQualified = false := by
  rcases h with ⟨n, h⟩ | ⟨hnone, -⟩
  · exact h.end_unqualified rfl
  · cases hnone

theorem Strips.lt_size (h : t.Strips a (some id)) : id < t.size := by
  obtain ⟨d, hd, -⟩ := h.unqualified
  exact lt_size_of_get? hd

theorem Strips.again (h : t.Strips a (some id)) : t.Strips (some id) (some id) := by
  obtain ⟨d, hd, hq⟩ := h.unqualified
  exact strips_self hd hq

end TypeTable

end PointsTo
