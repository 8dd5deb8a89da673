import Mathlib.Logic.Relation
import PointsTo.Proofs.IdSet
import PointsTo.Proofs.Tables
import PointsTo.Proofs.TypeLookups

/-! Bases are what is reached.

    A type is a base of another one if records that start with each other lead from the first to the
    second. The hierarchy finds what is reached in rounds: a round follows every edge once, so as long
    as something is missing a round uses up an edge, and after as many rounds as there are edges
    nothing is. That holds for edges in any order, and for edges that go round in a circle. -/

namespace PointsTo

open Relation

namespace Hierarchy

/-! ### Reaching in rounds -/

/-- An edge leads from one type to another. -/
def Leads (edges : List HierarchyEdge) (x y : TypeId) : Prop := ∃ e ∈ edges, e.src = x ∧ e.dst = y

variable {edges : List HierarchyEdge} {s : IdSet} {x y : TypeId} {n : Nat}

/-- The set `r` was made from `s` by following edges, among them those of `done` that start in `s`. -/
structure Widens (edges done : List HierarchyEdge) (s r : IdSet) : Prop where
  keeps : ∀ x ∈ s, x ∈ r
  follows : ∀ e ∈ done, e.src ∈ s → e.dst ∈ r
  reached : ∀ x ∈ r, ∃ y ∈ s, ReflTransGen (Leads edges) y x

/-- Going on to the next edge. -/
theorem Widens.next {done : List HierarchyEdge} {r : IdSet} {e : HierarchyEdge} (he : e ∈ edges)
    (h : Widens edges done s r) :
    Widens edges (done ++ [e]) s (if r.contains e.src then (r.insert e.dst).2 else r) := by
  have hdone : ∀ {e'}, e' ∈ done ++ [e] → e' ∈ done ∨ e' = e := fun he' => by
    simpa using he'
  by_cases hsrc : r.contains e.src = true
  · rw [if_pos hsrc]
    refine ⟨fun x hx => IdSet.mem_insert.mpr (Or.inr (h.keeps x hx)), fun e' he' hs => ?_, fun x hx => ?_⟩
    · rcases hdone he' with he' | rfl
      · exact IdSet.mem_insert.mpr (Or.inr (h.follows e' he' hs))
      · exact IdSet.mem_insert.mpr (Or.inl rfl)
    · rcases IdSet.mem_insert.mp hx with rfl | hx
      · obtain ⟨y, hy, hpath⟩ := h.reached _ hsrc
        exact ⟨y, hy, hpath.tail ⟨e, he, rfl, rfl⟩⟩
      · exact h.reached x hx
  · rw [if_neg hsrc]
    refine ⟨h.keeps, fun e' he' hs => ?_, h.reached⟩
    rcases hdone he' with he' | rfl
    · exact h.follows e' he' hs
    · exact absurd (h.keeps _ hs) hsrc

theorem widens_reachStep (edges : List HierarchyEdge) (s : IdSet) :
    Widens edges edges s (reachStep edges s) := by
  refine foldl_keeps (I := fun done r => Widens edges done s r)
    ⟨fun _ hx => hx, by simp, fun x hx => ⟨x, hx, .refl⟩⟩ ?_
  intro done e rest r hedges h
  exact h.next (by simp [hedges])

theorem subset_reachRounds (n : Nat) (s : IdSet) : ∀ x ∈ s, x ∈ reachRounds edges n s := by
  induction n generalizing s with
  | zero => exact fun x hx => hx
  | succ n ih => exact fun x hx => ih _ x ((widens_reachStep edges s).keeps x hx)

theorem reachRounds_sound (hx : x ∈ reachRounds edges n s) :
    ∃ y ∈ s, ReflTransGen (Leads edges) y x := by
  induction n generalizing s with
  | zero => exact ⟨x, hx, .refl⟩
  | succ n ih =>
    obtain ⟨y, hy, hyx⟩ := ih hx
    obtain ⟨z, hz, hzy⟩ := (widens_reachStep edges s).reached y hy
    exact ⟨z, hz, hzy.trans hyx⟩

/-- Edges do not lead out of the set. -/
def IsClosed (edges : List HierarchyEdge) (s : IdSet) : Prop := ∀ e ∈ edges, e.src ∈ s → e.dst ∈ s

theorem IsClosed.mem (hs : IsClosed edges s) (hx : x ∈ s) (hpath : ReflTransGen (Leads edges) x y) :
    y ∈ s := by
  induction hpath with
  | refl => exact hx
  | tail _ hstep ih =>
    obtain ⟨e, he, rfl, rfl⟩ := hstep
    exact hs e he ih

/-- The edges whose ends are not in the set. -/
def missing (edges : List HierarchyEdge) (s : IdSet) : List HierarchyEdge :=
  edges.filter fun e => !s.contains e.dst

theorem mem_missing {e : HierarchyEdge} : e ∈ missing edges s ↔ e ∈ edges ∧ e.dst ∉ s := by
  simp [missing, IdSet.mem_iff]

theorem length_missing_lt {r : IdSet} {e : HierarchyEdge} (hsr : ∀ x ∈ s, x ∈ r) (he : e ∈ edges)
    (hs : e.dst ∉ s) (hr : e.dst ∈ r) : (missing edges r).length < (missing edges s).length := by
  have hsub : missing edges r = missing (missing edges s) r := by
    rw [missing, missing, missing, List.filter_filter]
    refine List.filter_congr fun e' _ => ?_
    have hmono := hsr e'.dst
    simp only [IdSet.mem_iff] at hmono
    cases hs' : s.contains e'.dst <;> simp_all
  rw [hsub]
  refine List.length_filter_lt_length_iff_exists.mpr ⟨e, mem_missing.mpr ⟨he, hs⟩, ?_⟩
  simpa [IdSet.mem_iff] using hr

/-- After as many rounds as there are missing ends, edges do not lead out of the set. -/
theorem isClosed_reachRounds (hn : (missing edges s).length ≤ n) :
    IsClosed edges (reachRounds edges n s) := by
  induction n generalizing s with
  | zero =>
    intro e he _
    by_contra hdst
    exact List.ne_nil_of_mem (mem_missing.mpr ⟨he, hdst⟩) (List.length_eq_zero_iff.mp (Nat.le_zero.mp hn))
  | succ n ih =>
    by_cases hclosed : IsClosed edges s
    · intro e he hsrc
      obtain ⟨y, hy, hpath⟩ := reachRounds_sound hsrc
      exact subset_reachRounds (n + 1) s _ (hclosed e he (hclosed.mem hy hpath))
    · obtain ⟨e, he, hsrc, hdst⟩ : ∃ e ∈ edges, e.src ∈ s ∧ e.dst ∉ s := by
        simpa [IsClosed] using hclosed
      have hw := widens_reachStep edges s
      have hlt := length_missing_lt hw.keeps he hdst (hw.follows e he hsrc)
      exact ih (Nat.lt_succ_iff.mp (hlt.trans_le hn))

theorem mem_reach : y ∈ reach edges x ↔ ReflTransGen (Leads edges) x y := by
  constructor
  · intro hy
    obtain ⟨z, hz, hpath⟩ := reachRounds_sound hy
    obtain rfl : z = x := by simpa using hz
    exact hpath
  · exact (isClosed_reachRounds (List.length_filter_le _ _)).mem
      (subset_reachRounds _ _ x (by simp))

theorem setAt_reachAll (edges : List HierarchyEdge) {tys : List TypeId} (hx : x ∈ tys) :
    (reachAll edges tys).setAt x = reach edges x := by
  refine foldl_keeps (I := fun done t => ∀ x ∈ done, IdTable.setAt t x = reach edges x) (by simp) ?_ x hx
  intro done ty rest t _ h x hx
  rw [IdTable.setAt_insert]
  split
  case isTrue heq => rw [heq]
  case isFalse hne => exact h x (by simpa [Ne.symm hne] using hx)

/-! ### Edges of a hierarchy -/

/-- A member with which a record starts: a base class or, if `ext` is set, the first proper field. -/
def IsHead (ext : Bool) (members : List Member) (m : Member) : Prop :=
  (m ∈ members ∧ m.inheritance = true) ∨ (ext = true ∧ m.inheritance = false ∧
    ∃ before after, members = before ++ m :: after ∧ ∀ b ∈ before, b.inheritance = true)

/-- A canonical struct or class starts with a canonical type, which is that of one of its heads. -/
def StartsWith (h : Hierarchy) (ext : Bool) (part whole : TypeId) : Prop :=
  h.canonical (some whole) = some whole ∧ ∃ d word members m, h.table.get? whole = some d ∧
    d.kind = .record word members ∧ IsHead ext members m ∧ h.canonical (some m.ty) = some part

/-- The edges that are followed: those of inheritance, or all of them. -/
def followed (edges : List HierarchyEdge) (ext : Bool) : List HierarchyEdge :=
  if ext then edges else edges.filter (·.kind = .inheritance)

theorem mem_followed {ext : Bool} {e : HierarchyEdge} :
    e ∈ followed edges ext ↔ e ∈ edges ∧ (ext = true ∨ e.kind = .inheritance) := by
  cases ext <;> simp [followed]

theorem mem_edgesInto {t : TypeTable} {c : Canonicals} {ty : TypeId} {e : HierarchyEdge} :
    e ∈ edgesInto t c ty ↔ e.dst = ty ∧ e.src ≠ ty ∧ ∃ d word members m, t.get? ty = some d ∧
      d.kind = .record word members ∧ c.canonical (some m.ty) = some e.src ∧
      ((e.kind = .inheritance ∧ m ∈ members ∧ m.inheritance = true) ∨
        (e.kind = .firstField ∧ members.find? (!·.inheritance) = some m)) := by
  obtain ⟨src, dst, kind⟩ := e
  cases hd : t.get? ty with
  | none => simp [edgesInto, hd]
  | some d =>
    cases hk : d.kind with
    | record word members =>
      simp only [edgesInto, hd, hk, Option.map_some, Layout.memberTypes, List.mem_filter, List.mem_append,
        List.mem_map, List.mem_filterMap, Option.mem_toList, HierarchyEdge.mk.injEq, decide_eq_true_eq]
      constructor
      · rintro ⟨⟨x, ⟨m, hm, hx⟩, rfl, rfl, rfl⟩ | ⟨x, ⟨m, hm, hx⟩, rfl, rfl, rfl⟩, hne⟩
        · exact ⟨rfl, hne, d, word, members, m, rfl, hk, hx, Or.inl ⟨rfl, hm⟩⟩
        · exact ⟨rfl, hne, d, word, members, m, rfl, hk, hx, Or.inr ⟨rfl, hm⟩⟩
      · rintro ⟨rfl, hne, d', word', members', m, hd', hk', hx, hm⟩
        obtain rfl := Option.some.inj hd'
        obtain ⟨rfl, rfl⟩ : word = word' ∧ members = members' := by simpa [hk] using hk'
        rcases hm with ⟨rfl, hm⟩ | ⟨rfl, hm⟩
        · exact ⟨Or.inl ⟨src, ⟨m, hm, hx⟩, rfl, rfl, rfl⟩, hne⟩
        · exact ⟨Or.inr ⟨src, ⟨m, hm, hx⟩, rfl, rfl, rfl⟩, hne⟩
    | basic | address | array | union | qualified | subroutine => simp [edgesInto, hd, hk]

variable {h : Hierarchy} {records nodes : List TypeId} {ext : Bool} {a b c : Option TypeId}

/-- The hierarchy that is found when its nodes are gone through in other orders. -/
def traversed (h : Hierarchy) (records nodes : List TypeId) : Hierarchy :=
  let edges := records.flatMap (edgesInto h.table h.canonicals)
  { h with
    edges
    derived := reachAll (followed edges false) nodes
    extended := reachAll (followed edges true) nodes }

/-- Edges connect a record with the types it starts with, except with itself. -/
theorem leads_iff (hrecords : h.Enumerates records) :
    Leads (followed (h.traversed records nodes).edges ext) x y ↔ x ≠ y ∧ h.StartsWith ext x y := by
  have hhead : ∀ {members : List Member} {m}, (members.find? (!·.inheritance) = some m) ↔
      m.inheritance = false ∧ ∃ before after, members = before ++ m :: after ∧
        ∀ b ∈ before, b.inheritance = true := by
    intro members m
    simp [List.find?_eq_some_iff_append]
  constructor
  · rintro ⟨e, he, rfl, rfl⟩
    obtain ⟨he, hkind⟩ := mem_followed.mp he
    obtain ⟨ty, hty, hin⟩ := List.mem_flatMap.mp he
    obtain ⟨rfl, hne, d, word, members, m, hd, hk, hx, hm⟩ := mem_edgesInto.mp hin
    refine ⟨hne, (hrecords _).mp hty, d, word, members, m, hd, hk, ?_, hx⟩
    rcases hm with ⟨-, hm⟩ | ⟨hfirst, hm⟩
    · exact Or.inl hm
    · exact Or.inr ⟨hkind.resolve_right (by rw [hfirst]; decide), hhead.mp hm⟩
  · rintro ⟨hne, hself, d, word, members, m, hd, hk, hm, hx⟩
    have hedge : ∀ kind, (ext = true ∨ kind = EdgeKind.inheritance) →
        ((kind = .inheritance ∧ m ∈ members ∧ m.inheritance = true) ∨
          (kind = .firstField ∧ members.find? (!·.inheritance) = some m)) →
        Leads (followed (h.traversed records nodes).edges ext) x y := fun kind hkind hm =>
      ⟨⟨x, y, kind⟩, mem_followed.mpr ⟨List.mem_flatMap.mpr ⟨y, (hrecords y).mpr hself,
        mem_edgesInto.mpr ⟨rfl, hne, d, word, members, m, hd, hk, hx, hm⟩⟩, hkind⟩, rfl, rfl⟩
    rcases hm with hm | ⟨rfl, hm⟩
    · exact hedge .inheritance (Or.inr rfl) (Or.inl ⟨rfl, hm⟩)
    · exact hedge .firstField (Or.inl rfl) (Or.inr ⟨rfl, hhead.mpr hm⟩)

/-- A path over edges is a path over records that start with each other: steps from a record to itself
    lead nowhere. -/
theorem mem_reach_traversed (hrecords : h.Enumerates records) :
    y ∈ reach (followed (h.traversed records nodes).edges ext) x ↔
      ReflTransGen (h.StartsWith ext) x y := by
  rw [mem_reach]
  constructor
  · exact fun hpath => ReflTransGen.mono (fun a b hab => ((leads_iff hrecords).mp hab).2) x y hpath
  · refine fun hpath => reflTransGen_closed (fun a b hab => ?_) x y hpath
    by_cases heq : a = b
    · exact heq ▸ .refl
    · exact .single ((leads_iff hrecords).mpr ⟨heq, hab⟩)

/-! ### Bases -/

/-- Pointers to the first type may view objects of the second one: both have one canonical type, or
    records that start with each other lead from the one to the other. -/
def Views (h : Hierarchy) (ext : Bool) (a b : Option TypeId) : Prop :=
  h.canonical a = h.canonical b ∨ ∃ x y, h.canonical a = some x ∧ h.canonical b = some y ∧
    ReflTransGen (h.StartsWith ext) x y

theorem Views.trans (hab : h.Views ext a b) (hbc : h.Views ext b c) : h.Views ext a c := by
  rcases hab with hab | ⟨x, y, hx, hy, hxy⟩
  · rwa [Views, hab]
  · rcases hbc with hbc | ⟨y', z, hy', hz, hyz⟩
    · exact Or.inr ⟨x, y, hx, hbc ▸ hy, hxy⟩
    · obtain rfl := Option.some.inj (hy.symm.trans hy')
      exact Or.inr ⟨x, z, hx, hz, hxy.trans hyz⟩

theorem StartsWith.extend (hxy : h.StartsWith false x y) : h.StartsWith true x y := by
  obtain ⟨hself, d, word, members, m, hd, hk, hm | ⟨hfalse, -⟩, hx⟩ := hxy
  · exact ⟨hself, d, word, members, m, hd, hk, Or.inl hm, hx⟩
  · cases hfalse

theorem Views.extend (hab : h.Views false a b) : h.Views true a b :=
  hab.imp_right fun ⟨x, y, hx, hy, hxy⟩ =>
    ⟨x, y, hx, hy, ReflTransGen.mono (fun _ _ => StartsWith.extend) x y hxy⟩

/-- In whatever orders the nodes are gone through, bases are found by the paths that there are. -/
theorem isBase_traversed (hrecords : h.Enumerates records) (hnodes : h.Enumerates nodes)
    (hcanon : ∀ {a x}, h.canonical a = some x → h.canonical (some x) = some x) :
    (h.traversed records nodes).isBase a b ext = true ↔ h.Views ext a b := by
  have hcan : ∀ a, (h.traversed records nodes).canonical a = h.canonical a := fun _ => rfl
  rw [isBase, hcan, hcan, Views]
  cases hx : h.canonical a with
  | none => cases h.canonical b <;> simp
  | some x =>
    cases hy : h.canonical b with
    | none => simp
    | some y =>
      have htable : (if ext then (h.traversed records nodes).extended
          else (h.traversed records nodes).derived) =
          reachAll (followed (h.traversed records nodes).edges ext) nodes := by
        cases ext <;> rfl
      have hreach := setAt_reachAll (followed (h.traversed records nodes).edges ext)
        ((hnodes x).mpr (hcanon hx))
      simp only [htable, hreach, Bool.or_eq_true, beq_iff_eq, ← IdSet.mem_iff,
        mem_reach_traversed hrecords, Option.some.injEq, exists_and_left, exists_eq_left']

theorem traversed_self {t : TypeTable} (hof : ofTable t = .ok h) :
    h.traversed h.canonicals.reps h.canonicals.reps = h := by
  obtain ⟨c, -, heq⟩ := bind_eq_ok.mp hof
  cases heq
  rfl

/-- The bases in the hierarchy of a table are those that the paths in it give. -/
theorem Represents.isBase_iff {t : TypeTable} (hr : h.Represents t) (hof : ofTable t = .ok h) :
    h.isBase a b ext = true ↔ h.Views ext a b := by
  rw [← isBase_traversed hr.nodes hr.nodes hr.canonical, traversed_self hof]

/-- A type is a base of another one just if both have one canonical type, or there is a path between
    their canonical types whose steps lead from a type to a struct or class that starts with it: with a
    base class of that type or, in the wider sense, with a first field of that type. So each of the two
    relations is reflexive and transitive, the first is part of the second, neither tells equivalent
    types apart, and none of this depends on the orders in which the types are gone through. -/
theorem bases_are_reached {t : TypeTable} (ht : t.Admitted) :
    ∃ h, ofTable t = .ok h ∧ h.table = t ∧ (∀ id, t.size ≤ id → h.canonical (some id) = none) ∧
      (∀ a b ext, h.isBase a b ext = true ↔ h.canonical a = h.canonical b ∨
        ∃ x y, h.canonical a = some x ∧ h.canonical b = some y ∧
          ReflTransGen (h.StartsWith ext) x y) ∧
      (∀ a ext, h.isBase a a ext = true) ∧
      (∀ a b c ext, h.isBase a b ext = true → h.isBase b c ext = true → h.isBase a c ext = true) ∧
      (∀ a b, h.isBase a b false = true → h.isBase a b true = true) ∧
      (∀ a a', t.equiv a a' = .ok true → ∀ b ext,
        h.isBase a b ext = h.isBase a' b ext ∧ h.isBase b a ext = h.isBase b a' ext) ∧
      ∀ records nodes, records.Perm h.canonicals.reps → nodes.Perm h.canonicals.reps →
        ∀ a b ext, (h.traversed records nodes).isBase a b ext = h.isBase a b ext := by
  obtain ⟨h, hof, hr⟩ := ofTable_represents ht
  have hbase : ∀ a b ext, h.isBase a b ext = true ↔ h.Views ext a b := fun a b ext => hr.isBase_iff hof
  refine ⟨h, hof, hr.table, fun id => hr.outside, hbase, fun a ext => (hbase a a ext).mpr (Or.inl rfl),
    fun a b c ext hab hbc => ?_, fun a b hab => ?_, fun a a' haa' b ext => ?_,
    fun records nodes hrecords hnodes a b ext => ?_⟩
  · exact (hbase a c ext).mpr (((hbase a b ext).mp hab).trans ((hbase b c ext).mp hbc))
  · exact (hbase a b true).mpr ((hbase a b false).mp hab).extend
  · simp only [isBase, hr.congr haa', and_self]
  · rw [Bool.eq_iff_iff, hbase]
    exact isBase_traversed (hr.nodes.perm hrecords) (hr.nodes.perm hnodes) hr.canonical

end Hierarchy

/-- A class with two bases that share a base, two structs that inherit from each other, and a union. -/
def TypeTable.kinship : TypeTable where
  types := #[{ kind := .basic .signed, name := some "int", sizeBits := 32 },
    { kind := .record .classWord [.field "n" 0], name := some "Top" },
    { kind := .record .classWord [.base 1], name := some "Left" },
    { kind := .record .classWord [.base 8], name := some "Right" },
    { kind := .record .classWord [.base 2, .base 3, .field "k" 0], name := some "Bottom" },
    { kind := .union [.field "b" 4], name := some "Either" },
    { kind := .record .structWord [.base 7], name := some "Chicken" },
    { kind := .record .structWord [.base 6, .field "e" 5], name := some "Egg" },
    { kind := .qualified .const (some 1) }]

theorem TypeTable.kinship_admitted : kinship.Admitted :=
  admitted_of_rank (fun _ => 0) (by decide)

namespace Hierarchy

/-- The class at the bottom is reached from the top over either side, from its number only over the
    first field; a union does not start with its members; and the circle is gone round both ways. -/
theorem kinship_bases : TypeTable.kinship.Admitted ∧ ∃ h, ofTable TypeTable.kinship = .ok h ∧
    ReflTransGen (h.StartsWith false) 1 4 ∧ ¬ ReflTransGen (h.StartsWith false) 0 4 ∧
    ReflTransGen (h.StartsWith true) 0 4 ∧ ¬ ReflTransGen (h.StartsWith true) 4 5 ∧
    ReflTransGen (h.StartsWith false) 6 7 ∧ ReflTransGen (h.StartsWith false) 7 6 ∧
    h.isBase (some 8) (some 4) false = h.isBase (some 1) (some 4) false := by
  obtain ⟨h, hof, -, -, hiff, -, -, -, hequiv, -⟩ := bases_are_reached TypeTable.kinship_admitted
  have hpath : ∀ x y ext, h.canonical (some x) = some x → h.canonical (some y) = some y →
      (h.isBase (some x) (some y) ext = true ↔ ReflTransGen (h.StartsWith ext) x y) := by
    intro x y ext hx hy
    rw [hiff, hx, hy]
    simp only [Option.some.injEq, exists_and_left, exists_eq_left', or_iff_right_iff_imp]
    rintro rfl
    exact .refl
  have hcheck : (ofTable TypeTable.kinship).map (fun h => ([0, 1, 4, 5, 6, 7].map fun x =>
      h.canonical (some x), [h.isBase (some 1) (some 4) false, h.isBase (some 0) (some 4) false,
      h.isBase (some 0) (some 4) true, h.isBase (some 4) (some 5) true,
      h.isBase (some 6) (some 7) false, h.isBase (some 7) (some 6) false])) =
      .ok ([0, 1, 4, 5, 6, 7].map some, [true, false, true, false, true, true]) := by decide +kernel
  simp only [hof, Except.map, Except.ok.injEq, Prod.mk.injEq, List.map_cons, List.map_nil,
    List.cons.injEq, and_true] at hcheck
  obtain ⟨⟨h0, h1, h4, h5, h6, h7⟩, hb14, hb04, hb04', hb45, hb67, hb76⟩ := hcheck
  exact ⟨TypeTable.kinship_admitted, h, hof, (hpath 1 4 false h1 h4).mp hb14,
    mt (hpath 0 4 false h0 h4).mpr (by simp [hb04]), (hpath 0 4 true h0 h4).mp hb04',
    mt (hpath 4 5 true h4 h5).mpr (by simp [hb45]), (hpath 6 7 false h6 h7).mp hb67,
    (hpath 7 6 false h7 h6).mp hb76, (hequiv (some 8) (some 1) (by decide) (some 4) false).1⟩

end Hierarchy

end PointsTo
