import PointsTo.Proofs.BaseTypes

/-! Base classes that are declared.

    Structs and classes that are declared under one name at one place are one type, and the first of
    them in the table stands for it. The hierarchy takes the base classes from that declaration alone.
    A base class that it lists is a base of the type, whichever declaration is asked for; one that only
    a later declaration lists is not, and a type whose first declaration lists none has no bases. -/

namespace PointsTo

open Relation

namespace TypeTable

variable {t : TypeTable} {id : TypeId} {d : TypeDesc} {word : RecordWord} {members : List Member}

/-- The canonical type of a struct or class is one that is declared under the same name at the same
    place. -/
theorem IsCanonical.record {r : Option TypeId} (ht : t.Admitted) (h : t.IsCanonical (some id) r)
    (hd : t.get? id = some d) (hk : d.kind = .record word members) : ∃ rep d' word' members',
      r = some rep ∧ t.get? rep = some d' ∧ d'.kind = .record word' members' ∧
      sameDeclaration d d' = true := by
  have hself := strips_self hd (by simp [TypeDesc.isQualified, hk])
  cases r with
  | none => cases (h.eq_none_iff.mp rfl).unique hself
  | some rep =>
    obtain ⟨f, hrep, hf⟩ := h.sameForm ht
    obtain ⟨first, -, hfirst⟩ := h
    obtain rfl := hf.unique (.record hself hd hk)
    generalize hform : Form.record d.name d.file d.line = f at hrep
    cases hrep with
    | record hs hd' hk' =>
      obtain rfl := Option.some.inj (hs.unique hfirst.again)
      obtain ⟨hname, hfile, hline⟩ := Form.record.inj hform
      exact ⟨_, _, _, _, rfl, hd', hk', by simp [sameDeclaration, hname, hfile, hline]⟩
    | void | basic | address | array | union | subroutine => cases hform

end TypeTable

namespace Hierarchy

variable {h : Hierarchy} {t : TypeTable}

theorem ofTable_isCanonical (ht : t.Admitted) (hof : ofTable t = .ok h) {a : Option TypeId}
    (ha : t.InRange a) : t.IsCanonical a (h.canonical a) := by
  obtain ⟨c, hc, hseen⟩ := Canonicals.ofTable_spec ht
  rw [ofTable, hc] at hof
  cases hof
  exact hseen.canonical ha

/-- Without base classes no type leads to a struct or class but itself. -/
theorem eq_of_reaches {x y : TypeId} {d : TypeDesc} {word : RecordWord} {members : List Member}
    (hd : h.table.get? y = some d) (hk : d.kind = .record word members)
    (hnone : ∀ m ∈ members, m.inheritance = false) (hpath : ReflTransGen (h.StartsWith false) x y) :
    x = y := by
  rcases ReflTransGen.cases_tail hpath with rfl | ⟨z, -, -, d', word', members', m, hd', hk', hhead, -⟩
  · rfl
  · obtain rfl := Option.some.inj (hd.symm.trans hd')
    obtain ⟨-, rfl⟩ : _ ∧ _ := by simpa [hk] using hk'
    rcases hhead with ⟨hm, hinh⟩ | ⟨hfalse, -⟩
    · simp [hnone m hm] at hinh
    · cases hfalse

/-- A struct or class is represented by one that is declared under the same name at the same place. A
    base class of it is a base if it represents itself, or if its representative lists an equivalent
    base class; and if the representative lists none, nothing but the type itself is a base. -/
theorem represented_bases_are_bases (ht : t.Admitted) : ∃ h, ofTable t = .ok h ∧
    ∀ id d word members, t.get? id = some d → d.kind = .record word members →
      ∃ rep d' word' members', h.canonical (some id) = some rep ∧ t.get? rep = some d' ∧
        d'.kind = .record word' members' ∧ TypeTable.sameDeclaration d d' = true ∧
        (∀ m ∈ members, m.inheritance = true → h.canonical (some m.ty) ≠ none →
          (rep = id ∨ ∃ m' ∈ members', m'.inheritance = true ∧
            t.equiv (some m'.ty) (some m.ty) = .ok true) →
          ∀ ext, h.isBase (some m.ty) (some id) ext = true) ∧
        ((∀ m' ∈ members', m'.inheritance = false) →
          ∀ a, h.isBase a (some id) false = true ↔ h.canonical a = some rep) := by
  obtain ⟨h, hof, hr⟩ := ofTable_represents ht
  refine ⟨h, hof, fun id d word members hd hk => ?_⟩
  have hrange := TypeTable.inRange_some.mpr (TypeTable.lt_size_of_get? hd)
  obtain ⟨rep, d', word', members', hrep, hd', hk', hsame⟩ := (ofTable_isCanonical ht hof hrange).record ht hd hk
  refine ⟨rep, d', word', members', hrep, hd', hk', hsame, fun m hm hinh hdef hlisted ext => ?_,
    fun hnone a => ?_⟩
  · obtain ⟨base, hbaseTy⟩ := Option.ne_none_iff_exists'.mp hdef
    obtain ⟨m', hm', hinh', hcanon⟩ : ∃ m' ∈ members', m'.inheritance = true ∧
        h.canonical (some m'.ty) = some base := by
      rcases hlisted with rfl | ⟨m', hm', hinh', hequiv⟩
      · obtain rfl := Option.some.inj (hd.symm.trans hd')
        obtain ⟨-, rfl⟩ : _ ∧ _ := by simpa [hk] using hk'
        exact ⟨m, hm, hinh, hbaseTy⟩
      · exact ⟨m', hm', hinh', (hr.congr hequiv).trans hbaseTy⟩
    have hstarts : h.StartsWith ext base rep :=
      ⟨hr.canonical hrep, d', word', members', m', hr.table ▸ hd', hk', Or.inl ⟨hm', hinh'⟩, hcanon⟩
    exact (hr.isBase_iff hof).mpr (Or.inr ⟨base, rep, hbaseTy, hrep, .single hstarts⟩)
  · rw [hr.isBase_iff hof, Views, hrep]
    constructor
    · rintro (hsame | ⟨x, y, hx, hy, hpath⟩)
      · exact hsame
      · obtain rfl := Option.some.inj hy
        rw [hx, eq_of_reaches (hr.table ▸ hd') hk' hnone hpath]
    · exact Or.inl

end Hierarchy

/-- A class that is declared twice with its base, and one that is declared before it is defined. -/
def TypeTable.redeclared : TypeTable where
  types := #[{ kind := .basic .signed, name := some "int", sizeBits := 32 },
    { kind := .record .classWord [.field "n" 0], name := some "Base" },
    { kind := .qualified .const (some 1) },
    { kind := .record .classWord [.base 1], name := some "Left", file := some "a.h", line := 5 },
    { kind := .record .structWord [.base 2], name := some "Left", file := some "a.h", line := 5 },
    { kind := .record .classWord [], name := some "Right", file := some "a.h", line := 9 },
    { kind := .record .classWord [.base 1], name := some "Right", file := some "a.h", line := 9 }]

theorem TypeTable.redeclared_admitted : redeclared.Admitted :=
  admitted_of_rank (fun _ => 0) (by decide)

namespace Hierarchy

/-- The base of the class that is declared twice is a base of either declaration. -/
theorem redeclared_bases : TypeTable.redeclared.Admitted ∧ ∃ h, ofTable TypeTable.redeclared = .ok h ∧
    h.canonical (some 4) = some 3 ∧ h.isBase (some 1) (some 3) false = true ∧
    h.isBase (some 2) (some 4) false = true ∧ h.isBase (some 2) (some 4) true = true := by
  obtain ⟨h, hof, hbases⟩ := represented_bases_are_bases TypeTable.redeclared_admitted
  have hcheck : (ofTable TypeTable.redeclared).map (fun h => [1, 2, 3, 4].map fun x => h.canonical (some x)) =
      .ok ([1, 1, 3, 3].map some) := by decide +kernel
  simp only [hof, Except.map, Except.ok.injEq, List.map_cons, List.map_nil, List.cons.injEq, and_true] at hcheck
  obtain ⟨h1, h2, h3, h4⟩ := hcheck
  obtain ⟨rep, d, word, members, hrep, -, -, -, hthree, -⟩ := hbases 3 _ _ _ rfl rfl
  obtain ⟨rep', d', word', members', hrep', hd', hk', -, hfour, -⟩ := hbases 4 _ _ _ rfl rfl
  obtain rfl := Option.some.inj (hrep.symm.trans h3)
  obtain rfl := Option.some.inj (hrep'.symm.trans h4)
  obtain rfl := Option.some.inj hd'
  obtain ⟨-, rfl⟩ : _ ∧ _ := TypeKind.record.inj hk'
  have hleft := hfour (.base 2) (by decide) rfl (by simp [Member.base, h2])
    (Or.inr ⟨.base 1, by decide, rfl, by decide⟩)
  exact ⟨TypeTable.redeclared_admitted, h, hof, h4,
    hthree (.base 1) (by decide) rfl (by simp [Member.base, h1]) (Or.inl rfl) false, hleft false, hleft true⟩

/-- The class that is declared before it is defined lists a base class that is not a base of it. -/
theorem redeclared_hides_base : TypeTable.redeclared.Admitted ∧
    (∃ d word members, TypeTable.redeclared.get? 6 = some d ∧ d.kind = .record word members ∧
      Member.base 1 ∈ members) ∧
    ∃ h, ofTable TypeTable.redeclared = .ok h ∧ h.canonical (some 1) = some 1 ∧
      h.isBase (some 1) (some 6) false = false ∧ h.isBase (some 1) (some 6) true = false := by
  obtain ⟨h, hof, -⟩ := ofTable_represents TypeTable.redeclared_admitted
  have hcheck : (ofTable TypeTable.redeclared).map (fun h => (h.canonical (some 1),
      h.isBase (some 1) (some 6) false, h.isBase (some 1) (some 6) true)) = .ok (some 1, false, false) := by
    decide +kernel
  simp only [hof, Except.map, Except.ok.injEq, Prod.mk.injEq] at hcheck
  exact ⟨TypeTable.redeclared_admitted, ⟨_, _, _, rfl, rfl, by decide⟩, h, hof, hcheck⟩

end Hierarchy

end PointsTo
