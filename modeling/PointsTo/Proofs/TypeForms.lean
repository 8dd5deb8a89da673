import Mathlib.Data.Finset.Card
import Mathlib.Logic.Relation
import PointsTo.Proofs.Qualifiers

/-! Equivalence of types is equality of forms.

    The form of a type is what is left of its declaration when qualifiers, lengths, signs and the kind
    of an indirection are forgotten. Where no type is made of itself, every type has one form, and
    comparing two types comes to an answer that says whether their forms are equal; so equivalence of
    types is an equivalence relation. -/

namespace PointsTo

namespace TypeDesc

/-- The type that a pointer, a reference or an array leads to. -/
def targets (d : TypeDesc) : List TypeId :=
  match d.kind with
  | .address _ pointee => pointee.toList
  | .array element _ => [element]
  | _ => []

/-- The type behind a qualifier. -/
def qualifies (d : TypeDesc) : List TypeId :=
  match d.kind with
  | .qualified _ base => base.toList
  | _ => []

end TypeDesc

/-- What equivalent types have in common. -/
inductive Form where
  | void
  | basic (sizeBits : Nat) (encoding : Encoding)
  | address (target : Form)
  | array (element : Form)
  | record (name file : Option String) (line : Nat)
  | union (name file : Option String) (line : Nat)
  | subroutine
  deriving DecidableEq

/-- The number of links from a form to what it is made of. -/
def Form.depth : Form → Nat
  | .address target => target.depth + 1
  | .array element => element.depth + 1
  | .void | .basic _ _ | .record _ _ _ | .union _ _ _ | .subroutine => 0

namespace TypeTable

/-! ### Links between types -/

/-- A pointer, a reference or an array leads to a type. -/
def Targets (t : TypeTable) (a b : TypeId) : Prop := ∃ d, t.get? a = some d ∧ b ∈ d.targets

/-- A type leads to another one, as its target or behind a qualifier. -/
def Links (t : TypeTable) (a b : TypeId) : Prop :=
  ∃ d, t.get? a = some d ∧ (b ∈ d.targets ∨ b ∈ d.qualifies)

/-- Links lead from a type to another one or nowhere. -/
def Reaches (t : TypeTable) : TypeId → TypeId → Prop := Relation.ReflTransGen t.Links

/-- All references are to types of the table, and no type is made of itself: links that lead from a
    type to itself are qualifiers only. -/
structure Admitted (t : TypeTable) : Prop where
  closed : t.Closed
  grounded : ∀ {x a b}, t.Reaches x a → t.Targets a b → ¬ t.Reaches b x

/-- The form of a type. -/
inductive HasForm (t : TypeTable) : Option TypeId → Form → Prop where
  | void {a : Option TypeId} : t.Strips a none → HasForm t a .void
  | basic {a : Option TypeId} {id : TypeId} {d : TypeDesc} {e : Encoding} : t.Strips a (some id) →
      t.get? id = some d → d.kind = .basic e → HasForm t a (.basic d.sizeBits e.signAgnostic)
  | address {a : Option TypeId} {id : TypeId} {d : TypeDesc} {how : Indirection}
      {target : Option TypeId} {f : Form} : t.Strips a (some id) → t.get? id = some d →
      d.kind = .address how target → HasForm t target f → HasForm t a (.address f)
  | array {a : Option TypeId} {id : TypeId} {d : TypeDesc} {element : TypeId} {count : Option Nat}
      {f : Form} : t.Strips a (some id) → t.get? id = some d → d.kind = .array element count →
      HasForm t (some element) f → HasForm t a (.array f)
  | record {a : Option TypeId} {id : TypeId} {d : TypeDesc} {word : RecordWord}
      {members : List Member} : t.Strips a (some id) → t.get? id = some d →
      d.kind = .record word members → HasForm t a (.record d.name d.file d.line)
  | union {a : Option TypeId} {id : TypeId} {d : TypeDesc} {members : List Member} :
      t.Strips a (some id) → t.get? id = some d → d.kind = .union members →
      HasForm t a (.union d.name d.file d.line)
  | subroutine {a : Option TypeId} {id : TypeId} {d : TypeDesc} : t.Strips a (some id) →
      t.get? id = some d → d.kind = .subroutine → HasForm t a .subroutine

variable {t : TypeTable} {a b : Option TypeId} {f g : Form}

/-- A type has no more than one form. -/
theorem HasForm.unique (h : t.HasForm a f) (h' : t.HasForm a g) : f = g := by
  induction h generalizing g with
  | void | basic | address | array | record | union | subroutine =>
    cases h' <;> grind [Strips.unique]

/-- The form of a type is the form of what is left of it without qualifiers. -/
theorem HasForm.of_strips {r : Option TypeId} (hs : t.Strips a r) (hs' : t.Strips b r)
    (hf : t.HasForm a f) : t.HasForm b f := by
  cases hf with
  | void h => exact .void (h.unique hs ▸ hs')
  | basic h hd hk => exact .basic (h.unique hs ▸ hs') hd hk
  | address h hd hk hf => exact .address (h.unique hs ▸ hs') hd hk hf
  | array h hd hk hf => exact .array (h.unique hs ▸ hs') hd hk hf
  | record h hd hk => exact .record (h.unique hs ▸ hs') hd hk
  | union h hd hk => exact .union (h.unique hs ▸ hs') hd hk
  | subroutine h hd hk => exact .subroutine (h.unique hs ▸ hs') hd hk

/-- The two types have one form. -/
def SameForm (t : TypeTable) (a b : Option TypeId) : Prop := ∃ f, t.HasForm a f ∧ t.HasForm b f

theorem SameForm.symm (h : t.SameForm a b) : t.SameForm b a := by
  obtain ⟨f, ha, hb⟩ := h
  exact ⟨f, hb, ha⟩

theorem SameForm.trans {c : Option TypeId} (h : t.SameForm a b) (h' : t.SameForm b c) :
    t.SameForm a c := by
  obtain ⟨f, ha, hb⟩ := h
  obtain ⟨g, hb', hc⟩ := h'
  obtain rfl := hb.unique hb'
  exact ⟨f, ha, hc⟩

theorem HasForm.eq_void_iff (hf : t.HasForm a f) : f = .void ↔ t.Strips a none := by
  refine ⟨?_, fun h => hf.unique (.void h)⟩
  rintro rfl
  cases hf
  assumption

/-- The form of a type that is declared like this. -/
def FormOf (t : TypeTable) (d : TypeDesc) (f : Form) : Prop :=
  match d.kind with
  | .basic e => f = .basic d.sizeBits e.signAgnostic
  | .address _ target => ∃ g, t.HasForm target g ∧ f = .address g
  | .array element _ => ∃ g, t.HasForm (some element) g ∧ f = .array g
  | .record _ _ => f = .record d.name d.file d.line
  | .union _ => f = .union d.name d.file d.line
  | .subroutine => f = .subroutine
  | .qualified _ _ => False

theorem HasForm.formOf {id : TypeId} {d : TypeDesc} (hf : t.HasForm a f) (hs : t.Strips a (some id))
    (hd : t.get? id = some d) : t.FormOf d f := by
  cases hf <;> grind [FormOf, Strips.unique]

/-! ### Every type has a form -/

theorem EndsIn.reaches {n : Nat} {r : Option TypeId} {id : TypeId} (h : t.EndsIn n a r)
    (hr : r = some id) : ∃ x, a = some x ∧ t.Reaches x id := by
  induction h with
  | void => cases hr
  | here =>
    cases hr
    exact ⟨id, rfl, .refl⟩
  | next hd hk _ ih =>
    obtain ⟨x, rfl, hx⟩ := ih hr
    exact ⟨_, rfl, .head ⟨_, hd, Or.inr (by simp [TypeDesc.qualifies, hk])⟩ hx⟩

theorem Strips.reaches {id : TypeId} (h : t.Strips a (some id)) : ∃ x, a = some x ∧ t.Reaches x id := by
  rcases h with ⟨n, h⟩ | ⟨hnone, -⟩
  · exact h.reaches rfl
  · cases hnone

open scoped Classical in
/-- The types that links lead to. -/
noncomputable def reach (t : TypeTable) (a : Option TypeId) : Finset TypeId :=
  (Finset.range t.size).filter fun id => ∃ x, a = some x ∧ t.Reaches x id

theorem mem_reach {id : TypeId} :
    id ∈ t.reach a ↔ id < t.size ∧ ∃ x, a = some x ∧ t.Reaches x id := by
  simp [reach]

theorem card_reach_le : (t.reach a).card ≤ t.size := by
  have hsub : t.reach a ⊆ Finset.range t.size := fun _ h => Finset.mem_range.mpr (mem_reach.mp h).1
  simpa using Finset.card_le_card hsub

/-- Fewer types are reached from the target of a type than from the type. -/
theorem Admitted.card_reach_lt (ht : t.Admitted) {id : TypeId} {d : TypeDesc}
    (hs : t.Strips a (some id)) (hd : t.get? id = some d)
    (hb : ∀ x, b = some x → x ∈ d.targets) : (t.reach b).card < (t.reach a).card := by
  obtain ⟨y, rfl, hy⟩ := hs.reaches
  refine Finset.card_lt_card ⟨fun z hz => ?_, fun hsub => ?_⟩
  · obtain ⟨hlt, x, rfl, hx⟩ := mem_reach.mp hz
    exact mem_reach.mpr ⟨hlt, y, rfl, hy.trans (.head ⟨d, hd, Or.inl (hb x rfl)⟩ hx)⟩
  · have hid : id ∈ t.reach (some y) := mem_reach.mpr ⟨lt_size_of_get? hd, y, rfl, hy⟩
    obtain ⟨-, x, rfl, hx⟩ := mem_reach.mp (hsub hid)
    exact ht.grounded .refl ⟨d, hd, hb x rfl⟩ hx

/-- A type has a form, which is no deeper than the number of types that it reaches. -/
theorem Admitted.exists_form (ht : t.Admitted) (ha : t.InRange a) :
    ∃ f, t.HasForm a f ∧ f.depth ≤ (t.reach a).card := by
  obtain ⟨n, hn⟩ : ∃ n, (t.reach a).card = n := ⟨_, rfl⟩
  induction n using Nat.strongRecOn generalizing a with
  | ind n ih =>
    have hpart : ∀ {b id d}, t.Strips a (some id) → t.get? id = some d →
        (∀ x, b = some x → x ∈ d.targets) → (∀ x, b = some x → x ∈ d.references) →
        ∃ f, t.HasForm b f ∧ f.depth + 1 ≤ (t.reach a).card := by
      intro b id d hs hd htarget href
      have hlt := ht.card_reach_lt hs hd htarget
      obtain ⟨f, hf, hdepth⟩ := ih _ (hn ▸ hlt) (fun x hx => ht.closed hd x (href x hx)) rfl
      exact ⟨f, hf, by omega⟩
    obtain ⟨_ | id, hs⟩ := exists_strips t a
    · exact ⟨.void, .void hs, Nat.zero_le _⟩
    · obtain ⟨d, hd, hq⟩ := hs.unqualified
      cases hk : d.kind with
      | basic e => exact ⟨_, .basic hs hd hk, Nat.zero_le _⟩
      | address how target =>
        obtain ⟨f, hf, hdepth⟩ := hpart (b := target) hs hd (by simp [TypeDesc.targets, hk])
          (by simp [TypeDesc.references, hk])
        exact ⟨_, .address hs hd hk hf, hdepth⟩
      | array element count =>
        obtain ⟨f, hf, hdepth⟩ := hpart (b := some element) hs hd (by simp [TypeDesc.targets, hk])
          (by simp [TypeDesc.references, hk])
        exact ⟨_, .array hs hd hk hf, hdepth⟩
      | record word members => exact ⟨_, .record hs hd hk, Nat.zero_le _⟩
      | union members => exact ⟨_, .union hs hd hk, Nat.zero_le _⟩
      | qualified q base => simp [TypeDesc.isQualified, hk] at hq
      | subroutine => exact ⟨_, .subroutine hs hd hk, Nat.zero_le _⟩

theorem Admitted.sameForm_refl (ht : t.Admitted) (ha : t.InRange a) : t.SameForm a a := by
  obtain ⟨f, hf, -⟩ := ht.exists_form ha
  exact ⟨f, hf, hf⟩

/-! ### Comparisons -/

/-- What a look at two types gives: an answer, or two other types to look at. -/
inductive Comparison where
  | answer (r : Bool)
  | ask (a b : Option TypeId)

/-- A look at two types without qualifiers. -/
def compareDescs (d e : TypeDesc) : Comparison :=
  match d.kind, e.kind with
  | .basic c, .basic c' => .answer (d.sizeBits == e.sizeBits && c.signAgnostic == c'.signAgnostic)
  | .array x _, .array y _ => .ask (some x) (some y)
  | .address _ x, .address _ y => .ask x y
  | .record _ _, .record _ _ | .union _, .union _ => .answer (sameDeclaration d e)
  | .subroutine, .subroutine => .answer true
  | _, _ => .answer false

/-- A look at two types. -/
def compare (t : TypeTable) (a b : Option TypeId) : Except Fault Comparison := do
  match ← t.strip a, ← t.strip b with
  | none, none => return .answer true
  | some a, some b =>
    if a = b then return .answer true
    return compareDescs (← t.get a) (← t.get b)
  | _, _ => return .answer false

/-- Looking at two types, and at those to which that leads, comes to an answer after `n` links. -/
inductive Answers (t : TypeTable) : Nat → Option TypeId → Option TypeId → Bool → Prop where
  | now {a b : Option TypeId} {r : Bool} : t.compare a b = .ok (.answer r) → Answers t 0 a b r
  | later {n : Nat} {a b a' b' : Option TypeId} {r : Bool} : t.compare a b = .ok (.ask a' b') →
      Answers t n a' b' r → Answers t (n + 1) a b r

theorem equivUpTo_succ (fuel : Nat) : t.equivUpTo (fuel + 1) a b =
    (t.compare a b >>= fun c => match c with
      | .answer r => .ok r
      | .ask a' b' => t.equivUpTo fuel a' b') := by
  conv_lhs => unfold equivUpTo
  unfold compare
  cases t.strip a with
  | error e => rfl
  | ok a' =>
    cases t.strip b with
    | error e => rfl
    | ok b' =>
      rcases a' with _ | a' <;> rcases b' with _ | b' <;> try rfl
      simp only [ok_bind]
      split
      · rfl
      · cases t.get a' with
        | error e => rfl
        | ok d =>
          cases t.get b' with
          | error e => rfl
          | ok e =>
            simp only [ok_bind, pure_eq_ok, compareDescs]
            cases d.kind <;> cases e.kind <;> rfl

theorem Answers.equivUpTo {n : Nat} {r : Bool} (h : t.Answers n a b r) {fuel : Nat}
    (hfuel : n < fuel) : t.equivUpTo fuel a b = .ok r := by
  induction h generalizing fuel with
  | now h =>
    obtain ⟨fuel, rfl⟩ : ∃ k, fuel = k + 1 := ⟨fuel - 1, by omega⟩
    rw [equivUpTo_succ, h]
    rfl
  | later h _ ih =>
    obtain ⟨fuel, rfl⟩ : ∃ k, fuel = k + 1 := ⟨fuel - 1, by omega⟩
    rw [equivUpTo_succ, h]
    exact ih (by omega)

theorem compare_stripped (hc : t.Closed) (ha : t.InRange a) (hb : t.InRange b) {x y : TypeId}
    {d e : TypeDesc} (hs : t.Strips a (some x)) (hs' : t.Strips b (some y)) (hd : t.get? x = some d)
    (he : t.get? y = some e) :
    t.compare a b = .ok (if x = y then .answer true else compareDescs d e) := by
  unfold compare
  simp only [hs.strip hc ha, hs'.strip hc hb, ok_bind, get_eq_ok.mpr hd, get_eq_ok.mpr he]
  split <;> rfl

theorem compare_void (hc : t.Closed) (ha : t.InRange a) (hb : t.InRange b) {r r' : Option TypeId}
    (hs : t.Strips a r) (hs' : t.Strips b r') (hvoid : r = none ∨ r' = none) :
    t.compare a b = .ok (.answer (r == r')) := by
  unfold compare
  simp only [hs.strip hc ha, hs'.strip hc hb, ok_bind]
  rcases r with _ | x <;> rcases r' with _ | y <;> simp_all <;> rfl

/-- A look at two types without qualifiers decides whether their forms are equal, or leads to parts of
    theirs that are equal just if the forms are. -/
theorem compareDescs_spec (hc : t.Closed) {x y : TypeId} {d e : TypeDesc} (hd : t.get? x = some d)
    (he : t.get? y = some e) (hf : t.FormOf d f) (hg : t.FormOf e g) :
    compareDescs d e = .answer (decide (f = g)) ∨
      ∃ a' b' f' g', compareDescs d e = .ask a' b' ∧ t.InRange a' ∧ t.InRange b' ∧
        t.HasForm a' f' ∧ t.HasForm b' g' ∧ (f = g ↔ f' = g') ∧ f'.depth < f.depth := by
  have htarget : ∀ {id d how x}, t.get? id = some d → d.kind = .address how x → t.InRange x := by
    rintro id d how x hd hk b rfl
    exact hc hd b (by simp [TypeDesc.references, hk])
  have helement : ∀ {id d x count}, t.get? id = some d → d.kind = .array x count → t.InRange (some x) :=
    fun hd hk => inRange_some.mpr (hc hd _ (by simp [TypeDesc.references, hk]))
  unfold FormOf at hf hg
  unfold compareDescs
  cases hk : d.kind <;> cases hk' : e.kind <;> simp only [hk, hk'] at hf hg ⊢
  case basic.basic =>
    refine Or.inl (congrArg Comparison.answer (Bool.eq_iff_iff.mpr ?_))
    simp [hf, hg]
  case address.address =>
    obtain ⟨f', hf', rfl⟩ := hf
    obtain ⟨g', hg', rfl⟩ := hg
    exact Or.inr ⟨_, _, f', g', rfl, htarget hd hk, htarget he hk', hf', hg', by simp,
      Nat.lt_succ_self _⟩
  case array.array =>
    obtain ⟨f', hf', rfl⟩ := hf
    obtain ⟨g', hg', rfl⟩ := hg
    exact Or.inr ⟨_, _, f', g', rfl, helement hd hk, helement he hk', hf', hg', by simp,
      Nat.lt_succ_self _⟩
  case record.record | union.union =>
    refine Or.inl (congrArg Comparison.answer (Bool.eq_iff_iff.mpr ?_))
    simp [hf, hg, sameDeclaration, and_assoc]
  all_goals exact Or.inl (by grind)

theorem compare_spec (hc : t.Closed) (ha : t.InRange a) (hb : t.InRange b) (hf : t.HasForm a f)
    (hg : t.HasForm b g) : t.compare a b = .ok (.answer (decide (f = g))) ∨
      ∃ a' b' f' g', t.compare a b = .ok (.ask a' b') ∧ t.InRange a' ∧ t.InRange b' ∧
        t.HasForm a' f' ∧ t.HasForm b' g' ∧ (f = g ↔ f' = g') ∧ f'.depth < f.depth := by
  obtain ⟨r, hs⟩ := exists_strips t a
  obtain ⟨r', hs'⟩ := exists_strips t b
  by_cases hvoid : r = none ∨ r' = none
  · left
    rw [compare_void hc ha hb hs hs' hvoid]
    have hsame : r = r' ↔ f = g := by
      constructor
      · rintro rfl
        exact (hf.of_strips hs hs').unique hg
      · rintro rfl
        rcases hvoid with rfl | rfl
        · exact (hs'.unique (hg.eq_void_iff.mp (hf.eq_void_iff.mpr hs))).symm
        · exact hs.unique (hf.eq_void_iff.mp (hg.eq_void_iff.mpr hs'))
    exact congrArg _ (congrArg Comparison.answer (Bool.eq_iff_iff.mpr (by simp [hsame])))
  · obtain ⟨x, rfl⟩ := Option.ne_none_iff_exists'.mp fun h => hvoid (Or.inl h)
    obtain ⟨y, rfl⟩ := Option.ne_none_iff_exists'.mp fun h => hvoid (Or.inr h)
    obtain ⟨d, hd, -⟩ := hs.unqualified
    obtain ⟨e, he, -⟩ := hs'.unqualified
    rw [compare_stripped hc ha hb hs hs' hd he]
    split
    · rename_i hxy
      subst hxy
      simp [(hf.of_strips hs hs').unique hg]
    · simp only [Except.ok.injEq]
      exact compareDescs_spec hc hd he (hf.formOf hs hd) (hg.formOf hs' he)

/-- Looking at two types comes to an answer, and that says whether their forms are equal. -/
theorem HasForm.answers (hc : t.Closed) (ha : t.InRange a) (hb : t.InRange b) (hf : t.HasForm a f)
    (hg : t.HasForm b g) : ∃ n ≤ f.depth, t.Answers n a b (decide (f = g)) := by
  obtain ⟨k, hk⟩ : ∃ k, f.depth = k := ⟨_, rfl⟩
  induction k using Nat.strongRecOn generalizing a b f g with
  | ind k ih =>
    rcases compare_spec hc ha hb hf hg with hnow | ⟨a', b', f', g', hask, ha', hb', hf', hg', hiff, hlt⟩
    · exact ⟨0, Nat.zero_le _, .now hnow⟩
    · obtain ⟨n, hn, hans⟩ := ih _ (hk ▸ hlt) ha' hb' hf' hg' rfl
      refine ⟨n + 1, by omega, .later hask ?_⟩
      simpa [hiff] using hans

theorem Answers.unique {n m : Nat} {r r' : Bool} (h : t.Answers n a b r) (h' : t.Answers m a b r') :
    r = r' := by
  induction h generalizing m with
  | now h =>
    cases h' with
    | now h' => simpa using ok_unique h h'
    | later h' => cases ok_unique h h'
  | later h _ ih =>
    cases h' with
    | now h' => cases ok_unique h h'
    | later h' hrest =>
      cases ok_unique h h'
      exact ih hrest

/-- Two types are equivalent if they have the same form. -/
theorem Admitted.equiv_eq (ht : t.Admitted) (ha : t.InRange a) (hb : t.InRange b) (hf : t.HasForm a f)
    (hg : t.HasForm b g) : t.equiv a b = .ok (decide (f = g)) := by
  obtain ⟨n, hn, hans⟩ := hf.answers ht.closed ha hb hg
  obtain ⟨f', hf', hdepth⟩ := ht.exists_form ha
  obtain rfl := hf.unique hf'
  have hsize : t.size ≤ t.size * t.size := Nat.le_mul_self _
  have hcard : (t.reach a).card ≤ t.size := card_reach_le
  exact hans.equivUpTo (by omega)

theorem Admitted.equiv_iff (ht : t.Admitted) (ha : t.InRange a) (hb : t.InRange b) :
    t.equiv a b = .ok true ↔ t.SameForm a b := by
  obtain ⟨f, hf, -⟩ := ht.exists_form ha
  obtain ⟨g, hg, -⟩ := ht.exists_form hb
  rw [ht.equiv_eq ha hb hf hg, Except.ok.injEq, decide_eq_true_iff]
  constructor
  · rintro rfl
    exact ⟨f, hf, hg⟩
  · rintro ⟨f', hf', hg'⟩
    rw [hf.unique hf', hg.unique hg']

theorem strip_error {id : TypeId} (h : t.size ≤ id) :
    t.strip (some id) = .error (.indexOutOfBounds t.size id) := by
  have hnone : t.get? id = none := Array.getElem?_eq_none h
  simp only [strip, stripFrom, TypeTable.get, hnone]
  rfl

/-- Places outside the table cannot be compared. -/
theorem equiv_error (hc : t.Closed) (h : ¬ (t.InRange a ∧ t.InRange b)) : ∃ e, t.equiv a b = .error e := by
  have hout : ∀ {c}, ¬ t.InRange c → ∃ e, t.strip c = .error e := by
    intro c hc
    cases c with
    | none => exact absurd (by simp [InRange]) hc
    | some id => exact ⟨_, strip_error (by simpa [InRange] using hc)⟩
  rw [equiv, equivUpTo_succ, compare]
  by_cases ha : t.InRange a
  · obtain ⟨r, hr⟩ := exists_strips t a
    obtain ⟨e, he⟩ := hout fun hb => h ⟨ha, hb⟩
    exact ⟨e, by rw [hr.strip hc ha, ok_bind, he]; rfl⟩
  · obtain ⟨e, he⟩ := hout ha
    exact ⟨e, by rw [he]; rfl⟩

/-! ### Equivalence -/

/-- Where no type is made of itself, comparing any two types of a table comes to an answer, which says
    whether their forms are equal; and every type has just one form. So equivalence of types is
    reflexive, symmetric and transitive. -/
theorem equiv_is_equality_of_forms (ht : t.Admitted) :
    (∀ a, t.InRange a → ∃! f, t.HasForm a f) ∧
    (∀ a b, t.InRange a → t.InRange b → ∃ r, t.equiv a b = .ok r ∧
      (∀ r', (∃ n, t.Answers n a b r') ↔ r' = r) ∧ (r = true ↔ t.SameForm a b)) ∧
    Equivalence (fun a b : { a // t.InRange a } => t.equiv a b = .ok true) ∧
    ∀ a b, ¬ (t.InRange a ∧ t.InRange b) → ∃ e, t.equiv a b = .error e := by
  refine ⟨fun a ha => ?_, fun a b ha hb => ?_, ⟨?_, ?_, ?_⟩, fun a b => equiv_error ht.closed⟩
  · obtain ⟨f, hf, -⟩ := ht.exists_form ha
    exact ⟨f, hf, fun g hg => hg.unique hf⟩
  · obtain ⟨f, hf, -⟩ := ht.exists_form ha
    obtain ⟨g, hg, -⟩ := ht.exists_form hb
    obtain ⟨n, -, hans⟩ := hf.answers ht.closed ha hb hg
    have heq := ht.equiv_eq ha hb hf hg
    refine ⟨_, heq, fun r' => ⟨fun ⟨m, hm⟩ => hm.unique hans, ?_⟩, ?_⟩
    · rintro rfl
      exact ⟨n, hans⟩
    · rw [← ht.equiv_iff ha hb, heq, Except.ok.injEq]
  · rintro ⟨a, ha⟩
    exact (ht.equiv_iff ha ha).mpr (ht.sameForm_refl ha)
  · rintro ⟨a, ha⟩ ⟨b, hb⟩ hab
    exact (ht.equiv_iff hb ha).mpr ((ht.equiv_iff ha hb).mp hab).symm
  · rintro ⟨a, ha⟩ ⟨b, hb⟩ ⟨c, hc⟩ hab hbc
    exact (ht.equiv_iff ha hc).mpr (((ht.equiv_iff ha hb).mp hab).trans ((ht.equiv_iff hb hc).mp hbc))

/-! ### Tables whose types can be ranked -/

/-- A table is admitted if qualifiers do not lead to higher types, and targets only to lower ones. -/
theorem admitted_of_rank (rank : TypeId → Nat)
    (h : ∀ id : Fin t.types.size, (∀ r ∈ t.types[id].references, r < t.types.size) ∧
      (∀ b ∈ t.types[id].targets, rank b < rank id) ∧
      ∀ b ∈ t.types[id].qualifies, rank b ≤ rank id) : t.Admitted := by
  have hrow : ∀ {id d}, t.get? id = some d → (∀ r ∈ d.references, r < t.types.size) ∧
      (∀ b ∈ d.targets, rank b < rank id) ∧ ∀ b ∈ d.qualifies, rank b ≤ rank id := by
    intro id d hd
    obtain ⟨hlt, rfl⟩ := Array.getElem?_eq_some_iff.mp hd
    exact h ⟨id, hlt⟩
  have hreach : ∀ {a b}, t.Reaches a b → rank b ≤ rank a := by
    intro a b hab
    induction hab with
    | refl => exact le_rfl
    | tail _ hlink ih =>
      obtain ⟨d, hd, htarget | hqual⟩ := hlink
      · exact ((hrow hd).2.1 _ htarget).le.trans ih
      · exact ((hrow hd).2.2 _ hqual).trans ih
  refine ⟨fun hd => (hrow hd).1, ?_⟩
  rintro x a b hxa ⟨d, hd, hb⟩ hbx
  have hlt := (hrow hd).2.1 b hb
  have hle := hreach hxa
  have hle' := hreach hbx
  omega

/-- Two type definitions of each other, and types that differ in what equivalence forgets. -/
def lookalikes : TypeTable where
  types := #[{ kind := .basic .signed, name := some "int", sizeBits := 32 },
    { kind := .basic .unsigned, name := some "unsigned", sizeBits := 32 },
    { kind := .address .pointer (some 0), sizeBits := 64 },
    { kind := .qualified .const (some 1) },
    { kind := .address .reference (some 3), sizeBits := 64 },
    { kind := .qualified .typedef (some 6), name := some "A" },
    { kind := .qualified .typedef (some 5), name := some "B" },
    { kind := .address .rvalueReference (some 5), sizeBits := 64 },
    { kind := .address .pointer none, sizeBits := 64 },
    { kind := .record .structWord [.field "next" 2], name := some "S", line := 3 },
    { kind := .record .classWord [], name := some "S", line := 3 }]

/-- A level for each of the types, above those of their targets. -/
def lookalikesRank (id : TypeId) : Nat := if id ∈ [2, 4, 7, 8] then 1 else 0

theorem lookalikes_admitted : lookalikes.Admitted :=
  admitted_of_rank lookalikesRank (by decide)

/-- A pointer and a reference to numbers of either sign have one form, and so have two ways to refer to
    `void`. -/
theorem lookalikes_equiv : lookalikes.Admitted ∧ lookalikes.SameForm (some 2) (some 4) ∧
    lookalikes.SameForm (some 7) (some 8) ∧ lookalikes.SameForm (some 9) (some 10) ∧
    lookalikes.SameForm (some 5) none ∧ ¬ lookalikes.SameForm (some 2) (some 8) := by
  have hforms : ∀ a b r, lookalikes.InRange a → lookalikes.InRange b →
      lookalikes.equiv a b = .ok r → (r = true ↔ lookalikes.SameForm a b) := by
    intro a b r ha hb heq
    obtain ⟨r', heq', -, hiff⟩ := (equiv_is_equality_of_forms lookalikes_admitted).2.1 a b ha hb
    rwa [ok_unique heq heq']
  exact ⟨lookalikes_admitted, (hforms _ _ true (by decide) (by decide) (by decide)).mp rfl,
    (hforms _ _ true (by decide) (by decide) (by decide)).mp rfl,
    (hforms _ _ true (by decide) (by decide) (by decide)).mp rfl,
    (hforms _ _ true (by decide) (by decide) (by decide)).mp rfl,
    mt (hforms _ _ false (by decide) (by decide) (by decide)).mpr (by decide)⟩

end TypeTable

end PointsTo
