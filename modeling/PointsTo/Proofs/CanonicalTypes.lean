import PointsTo.Proofs.TypeForms
import PointsTo.Types.Hierarchy

/-! Canonical types stand for the forms of types.

    Going through the table, the representative of a form is found when the first type of that form is
    seen, and it is what is left of this type without qualifiers. So no form has two representatives,
    and two types have one canonical type just if they are equivalent. -/

namespace PointsTo

namespace TypeTable

variable {t : TypeTable} {a b : Option TypeId} {first : TypeId}

/-- The first type of the table that has the form of a type. -/
structure IsFirst (t : TypeTable) (a : Option TypeId) (first : TypeId) : Prop where
  inRange : first < t.size
  same : t.SameForm (some first) a
  least : ∀ {j}, j < first → ¬ t.SameForm (some j) a

theorem IsFirst.congr (h : t.IsFirst a first) (hab : t.SameForm a b) : t.IsFirst b first :=
  ⟨h.inRange, h.same.trans hab, fun hj hsame => h.least hj (hsame.trans hab.symm)⟩

theorem IsFirst.unique {first' : TypeId} (h : t.IsFirst a first) (h' : t.IsFirst a first') :
    first = first' := by
  rcases Nat.lt_trichotomy first first' with hlt | heq | hlt
  · exact absurd h.same (h'.least hlt)
  · exact heq
  · exact absurd h'.same (h.least hlt)

/-- What the canonical type of a type is. -/
def IsCanonical (t : TypeTable) (a : Option TypeId) : Option TypeId → Prop
  | none => t.Strips a none
  | some c => ∃ first, t.IsFirst a first ∧ t.Strips (some first) (some c)

theorem Admitted.sameForm_strips (ht : t.Admitted) (ha : t.InRange a) {id : TypeId}
    (hs : t.Strips a (some id)) : t.SameForm a (some id) := by
  obtain ⟨f, hf, -⟩ := ht.exists_form ha
  exact ⟨f, hf, hf.of_strips hs hs.again⟩

theorem SameForm.strips_none (h : t.SameForm a b) (ha : t.Strips a none) : t.Strips b none := by
  obtain ⟨f, hf, hg⟩ := h
  exact hg.eq_void_iff.mp (hf.eq_void_iff.mpr ha)

theorem Admitted.equiv_eq_false (ht : t.Admitted) (ha : t.InRange a) (hb : t.InRange b)
    (h : ¬ t.SameForm a b) : t.equiv a b = .ok false := by
  obtain ⟨f, hf, -⟩ := ht.exists_form ha
  obtain ⟨g, hg, -⟩ := ht.exists_form hb
  rw [ht.equiv_eq ha hb hf hg, decide_eq_false]
  rintro rfl
  exact h ⟨f, hf, hg⟩

/-! ### Laws of canonical types -/

namespace IsCanonical

variable {r r' : Option TypeId}

theorem eq_none_iff (h : t.IsCanonical a r) : r = none ↔ t.Strips a none := by
  cases r with
  | none => exact ⟨fun _ => h, fun _ => rfl⟩
  | some c =>
    obtain ⟨first, hfirst, hs⟩ := h
    refine ⟨nofun, fun hnone => ?_⟩
    cases (hfirst.same.symm.strips_none hnone).unique hs

theorem sameForm (ht : t.Admitted) {c : TypeId} (h : t.IsCanonical a (some c)) :
    t.SameForm (some c) a := by
  obtain ⟨first, hfirst, hs⟩ := h
  exact (ht.sameForm_strips (inRange_some.mpr hfirst.inRange) hs).symm.trans hfirst.same

theorem lt_size {c : TypeId} (h : t.IsCanonical a (some c)) : c < t.size := by
  obtain ⟨first, -, hs⟩ := h
  exact hs.lt_size

/-- Types have one canonical type just if they have one form. -/
theorem eq_iff (ht : t.Admitted) (h : t.IsCanonical a r) (h' : t.IsCanonical b r') :
    r = r' ↔ t.SameForm a b := by
  constructor
  · rintro rfl
    cases r with
    | none => exact ⟨.void, .void h, .void h'⟩
    | some c => exact (h.sameForm ht).symm.trans (h'.sameForm ht)
  · intro hab
    cases r with
    | none => exact (h'.eq_none_iff.mpr (hab.strips_none h)).symm
    | some c =>
      cases r' with
      | none => exact h.eq_none_iff.mpr (hab.symm.strips_none h')
      | some c' =>
        obtain ⟨first, hfirst, hs⟩ := h
        obtain ⟨first', hfirst', hs'⟩ := h'
        obtain rfl := (hfirst.congr hab).unique hfirst'
        exact hs.unique hs'

end IsCanonical

end TypeTable

/-! ### Going through the table -/

namespace Canonicals

variable {t : TypeTable} {c : Canonicals} {n : Nat}

/-- What is known when the first `n` types were seen. -/
structure Seen (t : TypeTable) (n : Nat) (c : Canonicals) : Prop where
  size : c.types.size = n
  types : ∀ {id r}, c.types[id]? = some r → t.IsCanonical (some id) r
  /-- A representative is what is left of the first type of its form. -/
  reps : ∀ {rep}, rep ∈ c.reps → ∃ first, t.IsFirst (some rep) first ∧ t.Strips (some first) (some rep)
  /-- The forms of all types that were seen have representatives. -/
  represented : ∀ {id}, id < n → ¬ t.Strips (some id) none →
    ∃ rep ∈ c.reps, t.SameForm (some rep) (some id)

theorem seen_empty : Seen t 0 empty := ⟨rfl, by simp [empty], by simp [empty], by simp⟩

/-- The types that were seen, with what is known of one more. -/
theorem Seen.types_push (h : Seen t n c) {r : Option TypeId} (hr : t.IsCanonical (some n) r) {id : TypeId}
    {r' : Option TypeId} (hid : (c.types.push r)[id]? = some r') : t.IsCanonical (some id) r' := by
  rw [Array.getElem?_push, h.size] at hid
  split at hid
  · rename_i heq
    cases hid
    exact heq ▸ hr
  · exact h.types hid

theorem findRep_spec (ht : t.Admitted) {stripped : TypeId} (hst : stripped < t.size)
    {reps : List TypeId} (hreps : ∀ rep ∈ reps, rep < t.size) :
    ∃ r, findRep t stripped reps = .ok r ∧ match r with
      | some rep => rep ∈ reps ∧ t.SameForm (some rep) (some stripped)
      | none => ∀ rep ∈ reps, ¬ t.SameForm (some rep) (some stripped) := by
  induction reps with
  | nil => exact ⟨none, rfl, nofun⟩
  | cons rep reps ih =>
    have hrep := TypeTable.inRange_some.mpr (hreps rep List.mem_cons_self)
    have hst' := TypeTable.inRange_some.mpr hst
    by_cases hsame : t.SameForm (some rep) (some stripped)
    · refine ⟨some rep, ?_, List.mem_cons_self, hsame⟩
      rw [findRep, (ht.equiv_iff hrep hst').mpr hsame]
      rfl
    · obtain ⟨r, heq, hr⟩ := ih fun x hx => hreps x (List.mem_cons_of_mem _ hx)
      refine ⟨r, ?_, ?_⟩
      · rw [findRep, ht.equiv_eq_false hrep hst' hsame]
        exact heq
      · cases r with
        | none => exact List.forall_mem_cons.mpr ⟨hsame, hr⟩
        | some x => exact ⟨List.mem_cons_of_mem _ hr.1, hr.2⟩

/-- Seeing one more type. -/
theorem see_spec (ht : t.Admitted) (hn : n < t.size) (h : Seen t n c) :
    ∃ c', see t c n = .ok c' ∧ Seen t (n + 1) c' := by
  have hrange := TypeTable.inRange_some.mpr hn
  obtain ⟨r, hs⟩ := TypeTable.exists_strips t (some n)
  cases r with
  | none =>
    refine ⟨{ c with types := c.types.push none }, by simp only [see, hs.strip ht.closed hrange]; rfl, ?_⟩
    refine ⟨by simp [h.size], h.types_push (r := none) hs, h.reps, fun hid hnot => ?_⟩
    rcases Nat.lt_succ_iff_lt_or_eq.mp hid with hid | rfl
    · exact h.represented hid hnot
    · exact absurd hs hnot
  | some stripped =>
    have hsame := ht.sameForm_strips hrange hs
    have hreps : ∀ rep ∈ c.reps, rep < t.size := fun rep hrep => by
      obtain ⟨first, -, hs'⟩ := h.reps hrep
      exact hs'.lt_size
    obtain ⟨r, hfind, hr⟩ := findRep_spec ht hs.lt_size hreps
    cases r with
    | some rep =>
      obtain ⟨hmem, hform⟩ := hr
      have hrep := hform.trans hsame.symm
      obtain ⟨first, hfirst, hs'⟩ := h.reps hmem
      refine ⟨{ c with types := c.types.push (some rep) }, by
        simp only [see, hs.strip ht.closed hrange, ok_bind, hfind]; rfl, by simp [h.size],
        h.types_push (r := some rep) ⟨first, hfirst.congr hrep, hs'⟩, h.reps, fun hid hnot => ?_⟩
      rcases Nat.lt_succ_iff_lt_or_eq.mp hid with hid | rfl
      · exact h.represented hid hnot
      · exact ⟨rep, hmem, hrep⟩
    | none =>
      -- An earlier type of this form would have a representative, and that was not found.
      have hfirst : t.IsFirst (some n) n := by
        refine ⟨hn, ht.sameForm_refl hrange, fun {j} hj hform => ?_⟩
        obtain ⟨rep, hmem, hrep⟩ := h.represented hj fun hnone => by
          cases (hform.strips_none hnone).unique hs
        exact hr rep hmem (hrep.trans (hform.trans hsame))
      refine ⟨⟨c.types.push (some stripped), c.reps ++ [stripped]⟩, by
        simp only [see, hs.strip ht.closed hrange, ok_bind, hfind]; rfl, by simp [h.size],
        h.types_push (r := some stripped) ⟨n, hfirst, hs⟩, fun hrep => ?_, fun hid hnot => ?_⟩
      · rcases List.mem_append.mp hrep with hrep | hrep
        · exact h.reps hrep
        · obtain rfl := List.mem_singleton.mp hrep
          exact ⟨n, hfirst.congr hsame, hs⟩
      · rcases Nat.lt_succ_iff_lt_or_eq.mp hid with hid | rfl
        · obtain ⟨rep, hmem, hrep⟩ := h.represented hid hnot
          exact ⟨rep, List.mem_append_left _ hmem, hrep⟩
        · exact ⟨stripped, by simp, hsame.symm⟩

theorem ofTable_spec (ht : t.Admitted) : ∃ c, ofTable t = .ok c ∧ Seen t t.size c := by
  have hfold : ∃ c, ofTable t = .ok c ∧ Seen t t.ids.length c := by
    refine foldlM_succeeds (I := fun done c => Seen t done.length c) seen_empty ?_
    intro done x rest c hxs h
    have hx : t.ids[done.length]? = some x := by simp [hxs]
    obtain ⟨hlt, rfl⟩ : done.length < t.size ∧ done.length = x := by
      rw [TypeTable.ids, List.getElem?_eq_some_iff] at hx
      simpa using hx
    rw [List.length_append, List.length_singleton]
    exact see_spec ht hlt h
  rwa [TypeTable.ids, List.length_range] at hfold

theorem Seen.canonical (h : Seen t t.size c) {a : Option TypeId} (ha : t.InRange a) :
    t.IsCanonical a (c.canonical a) := by
  cases a with
  | none => exact TypeTable.strips_none
  | some id =>
    have hlt : id < c.types.size := by
      rw [h.size]
      exact TypeTable.inRange_some.mp ha
    have hid := Array.getElem?_eq_getElem hlt
    simp only [Canonicals.canonical, Option.bind_some, hid, Option.join_some]
    exact h.types hid

/-- A representative is its own canonical type. -/
theorem Seen.canonical_rep (ht : t.Admitted) (h : Seen t t.size c) {rep : TypeId} (hrep : rep ∈ c.reps) :
    c.canonical (some rep) = some rep := by
  obtain ⟨first, hfirst, hs⟩ := h.reps hrep
  have hrange := TypeTable.inRange_some.mpr hs.lt_size
  have hself : t.IsCanonical (some rep) (some rep) := ⟨first, hfirst, hs⟩
  exact ((h.canonical hrange).eq_iff ht hself).mpr (ht.sameForm_refl hrange)

/-- Equivalent types have one canonical type. -/
theorem Seen.canonical_congr (ht : t.Admitted) (h : Seen t t.size c) {a b : Option TypeId}
    (hab : t.equiv a b = .ok true) : c.canonical a = c.canonical b := by
  obtain ⟨ha, hb⟩ : t.InRange a ∧ t.InRange b := by
    by_contra hout
    obtain ⟨e, he⟩ := TypeTable.equiv_error ht.closed hout
    rw [hab] at he
    cases he
  exact ((h.canonical ha).eq_iff ht (h.canonical hb)).mpr ((ht.equiv_iff ha hb).mp hab)

end Canonicals

/-! ### Canonical types of a hierarchy -/

/-- Where no type is made of itself, canonical types stand for classes of equivalent types: two types
    have one canonical type just if they are equivalent, and that is its own canonical type. Only types
    that come to `void` have none; any other type has what is left of the first equivalent type of the
    table without its qualifiers, which is not a qualified type. -/
theorem canonical_stands_for_equivalent {t : TypeTable} (ht : t.Admitted) :
    ∃ h, Hierarchy.ofTable t = .ok h ∧
      (∀ a b, t.InRange a → t.InRange b → (h.canonical a = h.canonical b ↔ t.equiv a b = .ok true)) ∧
      (∀ a, t.InRange a → h.canonical (h.canonical a) = h.canonical a) ∧
      (∀ a, t.InRange a → (h.canonical a = none ↔ (∃ n, t.EndsIn n a none) ∨ t.Endless a)) ∧
      ∀ a c, t.InRange a → h.canonical a = some c →
        (∃ first < t.size, t.equiv (some first) a = .ok true ∧
          (∀ j < first, t.equiv (some j) a = .ok false) ∧ t.strip (some first) = .ok (some c)) ∧
        ∃ d, t.get? c = some d ∧ d.isQualified = false := by
  obtain ⟨c, hc, hseen⟩ := Canonicals.ofTable_spec ht
  have hcanon : ∀ {a}, t.InRange a → t.IsCanonical a (c.canonical a) := hseen.canonical
  have heq : ∀ {a b}, t.InRange a → t.InRange b →
      (c.canonical a = c.canonical b ↔ t.equiv a b = .ok true) := fun ha hb =>
    ((hcanon ha).eq_iff ht (hcanon hb)).trans (ht.equiv_iff ha hb).symm
  refine ⟨_, by rw [Hierarchy.ofTable, hc]; rfl, fun a b => heq, fun a ha => ?_, fun a ha => ?_,
    fun a r ha hr => ?_⟩
  · show c.canonical (c.canonical a) = c.canonical a
    cases hr : c.canonical a with
    | none => rfl
    | some r =>
      have hcan : t.IsCanonical a (some r) := hr ▸ hcanon ha
      have hrange := TypeTable.inRange_some.mpr hcan.lt_size
      exact ((heq hrange ha).mpr ((ht.equiv_iff hrange ha).mpr (hcan.sameForm ht))).trans hr
  · refine (hcanon ha).eq_none_iff.trans (or_congr_right ?_)
    exact and_iff_right rfl
  · obtain ⟨first, hfirst, hs⟩ : t.IsCanonical a (some r) := hr ▸ hcanon ha
    have hrange := TypeTable.inRange_some.mpr hfirst.inRange
    refine ⟨⟨first, hfirst.inRange, (ht.equiv_iff hrange ha).mpr hfirst.same, fun j hj => ?_,
      hs.strip ht.closed hrange⟩, hs.unqualified⟩
    exact ht.equiv_eq_false (TypeTable.inRange_some.mpr (hj.trans hfirst.inRange)) ha (hfirst.least hj)

/-- Canonical types of types that differ in what equivalence forgets: pointers and references to
    numbers of either sign, and definitions that never end. -/
theorem lookalikes_canonical : TypeTable.lookalikes.Admitted ∧
    ∃ h, Hierarchy.ofTable TypeTable.lookalikes = .ok h ∧
      h.canonical (some 4) = h.canonical (some 2) ∧ h.canonical (some 7) ≠ h.canonical (some 2) ∧
      h.canonical (some 5) = none ∧ h.canonical (h.canonical (some 3)) = h.canonical (some 3) := by
  obtain ⟨h, hof, heq, hidem, hnone, -⟩ := canonical_stands_for_equivalent TypeTable.lookalikes_admitted
  refine ⟨TypeTable.lookalikes_admitted, h, hof, (heq _ _ (by decide) (by decide)).mpr (by decide),
    mt (heq _ _ (by decide) (by decide)).mp (by decide), ?_, hidem _ (by decide)⟩
  exact ((heq (some 5) none (by decide) (by decide)).mpr (by decide)).trans
    ((hnone none (by decide)).mpr (Or.inl ⟨0, .void⟩))

end PointsTo
