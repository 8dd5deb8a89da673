import Mathlib.Logic.Function.Iterate
import Mathlib.Tactic.Choose
import PointsTo.Proofs.Qualifiers

/-! How far chains of qualifiers are followed.

    A chain that does not end is an endless walk from qualifier to qualifier. Such walks are told from
    chains that end by counting: `n` qualifiers in front of an end are seen as such by exactly the
    searches that look at more than `n` types, and `n` is at most the size of the table. A table may
    consist of one such chain only (`ladder`), so that a search one step shorter would go wrong. -/

namespace PointsTo.TypeTable

variable {t : TypeTable} {id : TypeId} {a r : Option TypeId} {n : Nat}

/-! ### Endless walks -/

/-- The type is `base` with a qualifier in front of it. -/
def Qualifies (t : TypeTable) (id : TypeId) (base : Option TypeId) : Prop :=
  ∃ d q, t.get? id = some d ∧ d.kind = .qualified q base

theorem Qualifies.unique {b c : Option TypeId} (hb : t.Qualifies id b) (hc : t.Qualifies id c) :
    b = c := by
  obtain ⟨d, q, hd, hk⟩ := hb
  obtain ⟨d', q', hd', hk'⟩ := hc
  obtain rfl := Option.some.inj (hd.symm.trans hd')
  exact (TypeKind.qualified.inj (hk.symm.trans hk')).2

/-- The chain of qualifiers from the type goes on forever. -/
def GoesOn (t : TypeTable) (id : TypeId) : Prop :=
  ∃ walk : Nat → TypeId, walk 0 = id ∧ ∀ n, t.Qualifies (walk n) (some (walk (n + 1)))

/-- A chain that does not end begins with a qualifier, and neither does the rest of it end. -/
theorem Endless.step (hc : t.Closed) (hid : id < t.size) (h : t.Endless (some id)) :
    ∃ b, t.Qualifies id (some b) ∧ b < t.size ∧ t.Endless (some b) := by
  obtain ⟨id', d, q, base, heq, hd, hk, hbase⟩ := h.next (inRange_some.mpr hid)
  obtain rfl := Option.some.inj heq
  cases base with
  | none => exact absurd .void (hbase 0 none)
  | some b => exact ⟨b, ⟨d, q, hd, hk⟩, inRange_some.mp (hc.inRange_base hd hk), hbase⟩

theorem Endless.goesOn (hc : t.Closed) (hid : id < t.size) (h : t.Endless (some id)) : t.GoesOn id := by
  have hstep : ∀ x : { x : TypeId // x < t.size ∧ t.Endless (some x) },
      ∃ y : { y : TypeId // y < t.size ∧ t.Endless (some y) }, t.Qualifies x (some y) := by
    rintro ⟨x, hx, hend⟩
    obtain ⟨y, hxy, hy, hend'⟩ := hend.step hc hx
    exact ⟨⟨y, hy, hend'⟩, hxy⟩
  choose next hnext using hstep
  refine ⟨fun n => next^[n] ⟨id, hid, h⟩, rfl, fun n => ?_⟩
  simp only [Function.iterate_succ_apply']
  exact hnext _

theorem GoesOn.endless (h : t.GoesOn id) : t.Endless (some id) := by
  obtain ⟨walk, rfl, hwalk⟩ := h
  -- The walk passes the end of a chain one step later for each qualifier in front of it.
  have hnot : ∀ n k r, ¬ t.EndsIn n (some (walk k)) r := by
    intro n
    induction n with
    | zero =>
      intro k r hend
      obtain ⟨d, q, hd, hk⟩ := hwalk k
      cases hend with
      | here hd' hq =>
        obtain rfl := Option.some.inj (hd.symm.trans hd')
        simp [TypeDesc.isQualified, hk] at hq
    | succ n ih =>
      intro k r hend
      cases hend with
      | next hd hk hend =>
        obtain rfl := (hwalk k).unique ⟨_, _, hd, hk⟩
        exact ih (k + 1) r hend
  exact fun n r => hnot n 0 r

theorem endless_iff_goesOn (hc : t.Closed) (hid : id < t.size) : t.Endless (some id) ↔ t.GoesOn id :=
  ⟨Endless.goesOn hc hid, GoesOn.endless⟩

/-! ### Chains of every length -/

theorem EndsIn.qualifiesFor_of_le (h : t.EndsIn n a r) {fuel : Nat} (hfuel : fuel ≤ n) :
    t.qualifiesFor fuel a = .ok true := by
  induction h generalizing fuel with
  | void | here =>
    obtain rfl := Nat.le_zero.mp hfuel
    rfl
  | next hd hk _ ih =>
    cases fuel with
    | zero => rfl
    | succ fuel =>
      simp only [TypeTable.qualifiesFor, get_eq_ok.mpr hd, ok_bind, hk]
      exact ih (Nat.le_of_succ_le_succ hfuel)

/-- Too short a search takes a chain that ends for an endless one, and no other search does. -/
theorem EndsIn.qualifiesFor_eq (h : t.EndsIn n a r) (fuel : Nat) :
    t.qualifiesFor fuel a = .ok (decide (fuel ≤ n)) := by
  by_cases hfuel : fuel ≤ n
  · rw [h.qualifiesFor_of_le hfuel, decide_eq_true hfuel]
  · rw [h.qualifiesFor (Nat.lt_of_not_le hfuel), decide_eq_false hfuel]

/-- What is left of a type is its chain's end, or `void` if the chain goes on forever. -/
theorem Strips.cases_goesOn (hc : t.Closed) (hid : id < t.size) (h : t.Strips (some id) r) :
    (∀ s, r = some s ↔ ∃ n, t.EndsIn n (some id) (some s)) ∧
      (r = none ↔ (∃ n, t.EndsIn n (some id) none) ∨ t.GoesOn id) := by
  rw [← endless_iff_goesOn hc hid]
  refine ⟨fun s => ⟨?_, ?_⟩, ⟨?_, ?_⟩⟩
  · rintro rfl
    rcases h with hend | ⟨hnone, -⟩
    · exact hend
    · cases hnone
  · exact fun hend => h.unique (Or.inl hend)
  · rintro rfl
    exact h.imp_right And.right
  · rintro (hend | hendless)
    · exact h.unique (Or.inl hend)
    · exact h.unique (Or.inr ⟨rfl, hendless⟩)

/-- In a table whose references are in range, every chain of qualifiers is followed to its end. The
    search for endless chains finds those that go on forever and no others; stripping gives the type
    at the end of the chain, and none if that end is `void` or does not exist. The searches look at
    one type more than there are: a chain that ends has at most as many qualifiers as the table has
    types, and a search finds its end just if it looks at more types than the chain has qualifiers. -/
theorem qualifiers_are_followed_to_the_end (hc : t.Closed) (hid : id < t.size) :
    (∃ b, t.hasEndlessQualifiers id = .ok b ∧ (b = true ↔ t.GoesOn id)) ∧
    (∃ r, t.strip (some id) = .ok r ∧
      (∀ s, r = some s ↔ ∃ n, t.EndsIn n (some id) (some s)) ∧
      (r = none ↔ (∃ n, t.EndsIn n (some id) none) ∨ t.GoesOn id)) ∧
    ∀ n r, t.EndsIn n (some id) r → n ≤ t.size ∧ t.strip (some id) = .ok r ∧
      t.hasEndlessQualifiers id = .ok false ∧
      ∀ fuel, t.qualifiesFor fuel (some id) = .ok (decide (fuel ≤ n)) ∧
        (n < fuel → t.stripFrom fuel (some id) = .ok r) := by
  refine ⟨?_, ?_, fun n r hend => ⟨hend.le_size, ?_, ?_, fun fuel => ⟨?_, ?_⟩⟩⟩
  · obtain ⟨b, hb, hiff⟩ := hasEndlessQualifiers_spec hc hid
    exact ⟨b, hb, hiff.trans (endless_iff_goesOn hc hid)⟩
  · obtain ⟨r, hr⟩ := exists_strips t (some id)
    exact ⟨r, hr.strip hc (inRange_some.mpr hid), hr.cases_goesOn hc hid⟩
  · exact hend.stripFrom (Nat.lt_succ_of_le hend.le_size)
  · exact hend.qualifiesFor (Nat.lt_succ_of_le hend.le_size)
  · exact hend.qualifiesFor_eq fuel
  · exact fun hfuel => hend.stripFrom hfuel

/-! ### Tables that are one chain -/

/-- Type definitions in a row, each one of the next and the last one of `void`. -/
def ladder (n : Nat) : TypeTable where
  types := Array.ofFn (n := n) fun i =>
    { kind := .qualified .typedef (if i + 1 < n then some (i + 1) else none) }

theorem size_ladder (n : Nat) : (ladder n).size = n := Array.size_ofFn

theorem qualifies_ladder {i : Nat} (h : i < n) :
    (ladder n).Qualifies i (if i + 1 < n then some (i + 1) else none) := by
  refine ⟨{ kind := .qualified .typedef (if i + 1 < n then some (i + 1) else none) }, .typedef, ?_, rfl⟩
  simp only [TypeTable.get?, ladder, Array.getElem?_ofFn, h, dite_true]

theorem ladder_closed (n : Nat) : (ladder n).Closed := by
  intro i d hd b hb
  obtain ⟨d', q, hd', hk⟩ := qualifies_ladder (size_ladder n ▸ lt_size_of_get? hd)
  obtain rfl := Option.some.inj (hd.symm.trans hd')
  simp only [TypeDesc.references, hk, Option.mem_toList] at hb
  split at hb
  case isTrue h =>
    obtain rfl := Option.some.inj hb
    exact (size_ladder n).symm ▸ h
  case isFalse => cases hb

/-- The chain of a ladder has as many qualifiers as the table has types. -/
theorem ladder_endsIn {k : Nat} (h : k < n) : (ladder n).EndsIn (k + 1) (some (n - 1 - k)) none := by
  induction k with
  | zero =>
    obtain ⟨d, q, hd, hk⟩ := qualifies_ladder (Nat.sub_lt h Nat.one_pos)
    rw [if_neg (by omega)] at hk
    exact .next hd hk .void
  | succ k ih =>
    obtain ⟨d, q, hd, hk⟩ := qualifies_ladder (n := n) (i := n - 1 - (k + 1)) (by omega)
    have hnext : n - 1 - (k + 1) + 1 = n - 1 - k := by omega
    rw [if_pos (by omega), hnext] at hk
    exact .next hd hk (ih (by omega))

/-- A chain through all of a hundred types is followed to `void`. With a search that looks only at as
    many types as there are it would pass for an endless one. -/
theorem ladder_hundred : (ladder 100).Closed ∧ 0 < (ladder 100).size ∧
    (ladder 100).EndsIn (ladder 100).size (some 0) none ∧ ¬ (ladder 100).GoesOn 0 ∧
    (ladder 100).strip (some 0) = .ok none ∧ (ladder 100).hasEndlessQualifiers 0 = .ok false ∧
    (ladder 100).qualifiesFor (ladder 100).size (some 0) = .ok true := by
  have hpos : 0 < (ladder 100).size := by rw [size_ladder]; decide
  have hend : (ladder 100).EndsIn (ladder 100).size (some 0) none := by
    rw [size_ladder]
    exact ladder_endsIn (n := 100) (k := 99) (by decide)
  obtain ⟨⟨b, hb, hiff⟩, -, hchains⟩ := qualifiers_are_followed_to_the_end (ladder_closed 100) hpos
  obtain ⟨-, hstrip, hfalse, hfuel⟩ := hchains _ _ hend
  have hnot : ¬ (ladder 100).GoesOn 0 := fun h => by
    have := ok_unique hfalse (hiff.mpr h ▸ hb)
    cases this
  refine ⟨ladder_closed 100, hpos, hend, hnot, hstrip, hfalse, ?_⟩
  rw [(hfuel _).1, decide_eq_true (Nat.le_refl _)]

end PointsTo.TypeTable
