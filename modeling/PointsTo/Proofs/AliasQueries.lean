import PointsTo.Proofs.FixedPoint
import PointsTo.Proofs.Safety
import PointsTo.Proofs.SetRegisters

/-! The laws of alias queries.

    The answer to a query depends on which objects the two pointers view, and not on the shapes or the
    order of the two sets: nothing in common, one object that both view and nothing else, or any other
    overlap. So queries are symmetric, and pointers that must alias can stand for each other in every
    other query. What a pointer views depends on the canonical type it is used at, except that a
    missing type is never looked up: it stands for no restriction, while a type that comes to `void`
    restricts the view to memory of no type. -/

namespace PointsTo

/-- A choice keeps the elements for which it is made with yes. -/
theorem mem_filterAuxM {ε α : Type} {f : α → Except ε Bool} {xs acc ys : List α}
    (h : xs.filterAuxM f acc = .ok ys) {y : α} : y ∈ ys ↔ y ∈ acc ∨ (y ∈ xs ∧ f y = .ok true) := by
  induction xs generalizing acc with
  | nil =>
    cases h
    simp
  | cons x xs ih =>
    obtain ⟨b, hb, hrest⟩ := bind_eq_ok.mp h
    rw [ih hrest]
    cases b with
    | true => grind
    | false => grind

theorem mem_filterM {ε α : Type} {f : α → Except ε Bool} {xs ys : List α}
    (h : xs.filterM f = .ok ys) {y : α} : y ∈ ys ↔ y ∈ xs ∧ f y = .ok true := by
  obtain ⟨kept, hkept, hrev⟩ := bind_eq_ok.mp h
  cases hrev
  rw [List.mem_reverse, mem_filterAuxM hkept]
  simp

namespace Solver

variable {s : Solver} {p q p' q' : IdSet} {o : NodeId}

/-! ### Sets of viewed objects -/

theorem aliasOfSets_of_disjoint (h : Disjoint p.toFinset q.toFinset) :
    s.aliasOfSets p q = .ok .noAlias := by
  have hmeet : p.intersects q = false := by simpa [IdSet.intersects_eq_decide] using h
  simp only [aliasOfSets, hmeet]
  rfl

/-- Sets of one object, the same in both. -/
theorem aliasOfSets_of_single (hp : p.toFinset = {o}) (hq : q.toFinset = {o}) :
    s.aliasOfSets p q = (s.isStrong o).map fun strong => if strong then .mustAlias else .mayAlias := by
  have hmeet : p.intersects q = true := by simp [IdSet.intersects_eq_decide, hp, hq]
  have hcount : p.count = 1 := by rw [IdSet.count_eq_card, hp, Finset.card_singleton]
  have hsame : p.sameElems q = true := by simp [IdSet.sameElems_eq_decide, hp, hq]
  have hhead : p.toList.head? = some o := by
    obtain ⟨x, hx⟩ := List.length_eq_one_iff.mp ((IdSet.count_eq_length p).symm.trans hcount)
    have ho : o ∈ p.toList := by rw [IdSet.mem_toList, ← IdSet.mem_toFinset, hp, Finset.mem_singleton]
    rw [hx, List.mem_singleton] at ho
    rw [hx, ho, List.head?_cons]
  simp only [aliasOfSets, hmeet, hhead, hcount, hsame]
  cases hstrong : s.isStrong o with
  | error e => rfl
  | ok strong => cases strong <;> rfl

/-- Sets that overlap without being one object. -/
theorem aliasOfSets_of_overlap (hmeet : ¬ Disjoint p.toFinset q.toFinset)
    (hmany : ∀ o, ¬ (p.toFinset = {o} ∧ q.toFinset = {o})) : s.aliasOfSets p q = .ok .mayAlias := by
  have hmeet' : p.intersects q = true := by simpa [IdSet.intersects_eq_decide] using hmeet
  have hnot : (p.count = 1 && p.sameElems q) = false := by
    rw [Bool.eq_false_iff, Ne, Bool.and_eq_true, decide_eq_true_iff, IdSet.sameElems_eq_decide,
      decide_eq_true_iff, IdSet.count_eq_card, Finset.card_eq_one]
    rintro ⟨⟨o, ho⟩, hsame⟩
    exact hmany o ⟨ho, hsame ▸ ho⟩
  simp only [aliasOfSets, hmeet', hnot]
  cases p.toList.head? with
  | none => rfl
  | some o => rfl

/-- How two sets of objects lie to each other, as far as alias queries are concerned. -/
theorem overlap_cases (p q : IdSet) : Disjoint p.toFinset q.toFinset ∨
    (∃ o, p.toFinset = {o} ∧ q.toFinset = {o}) ∨
    (¬ Disjoint p.toFinset q.toFinset ∧ ∀ o, ¬ (p.toFinset = {o} ∧ q.toFinset = {o})) := by
  by_cases hmeet : Disjoint p.toFinset q.toFinset
  · exact Or.inl hmeet
  · by_cases hone : ∃ o, p.toFinset = {o} ∧ q.toFinset = {o}
    · exact Or.inr (Or.inl hone)
    · exact Or.inr (Or.inr ⟨hmeet, not_exists.mp hone⟩)

/-- Shapes and orders of the sets do not matter. -/
theorem aliasOfSets_congr (hp : p.toFinset = p'.toFinset) (hq : q.toFinset = q'.toFinset) :
    s.aliasOfSets p q = s.aliasOfSets p' q' := by
  rcases overlap_cases p q with hdisj | ⟨o, hpo, hqo⟩ | ⟨hmeet, hmany⟩
  · rw [aliasOfSets_of_disjoint hdisj, aliasOfSets_of_disjoint (hp ▸ hq ▸ hdisj)]
  · rw [aliasOfSets_of_single hpo hqo, aliasOfSets_of_single (hp ▸ hpo) (hq ▸ hqo)]
  · rw [aliasOfSets_of_overlap hmeet hmany]
    rw [hp, hq] at hmeet
    simp only [hp, hq] at hmany
    rw [aliasOfSets_of_overlap hmeet hmany]

theorem aliasOfSets_comm (p q : IdSet) : s.aliasOfSets p q = s.aliasOfSets q p := by
  rcases overlap_cases p q with hdisj | ⟨o, hpo, hqo⟩ | ⟨hmeet, hmany⟩
  · rw [aliasOfSets_of_disjoint hdisj, aliasOfSets_of_disjoint hdisj.symm]
  · rw [aliasOfSets_of_single hpo hqo, aliasOfSets_of_single hqo hpo]
  · rw [aliasOfSets_of_overlap hmeet hmany,
      aliasOfSets_of_overlap (fun h => hmeet h.symm) fun o h => hmany o h.symm]

theorem aliasOfSets_eq_noAlias_iff :
    s.aliasOfSets p q = .ok .noAlias ↔ Disjoint p.toFinset q.toFinset := by
  refine ⟨fun h => ?_, aliasOfSets_of_disjoint⟩
  rcases overlap_cases p q with hdisj | ⟨o, hpo, hqo⟩ | ⟨hmeet, hmany⟩
  · exact hdisj
  · rw [aliasOfSets_of_single hpo hqo] at h
    obtain ⟨strong, -, h⟩ := map_eq_ok.mp h
    cases strong <;> cases h
  · rw [aliasOfSets_of_overlap hmeet hmany] at h
    cases h

theorem aliasOfSets_eq_mustAlias_iff : s.aliasOfSets p q = .ok .mustAlias ↔
    ∃ o, p.toFinset = {o} ∧ q.toFinset = {o} ∧ s.isStrong o = .ok true := by
  constructor
  · intro h
    rcases overlap_cases p q with hdisj | ⟨o, hpo, hqo⟩ | ⟨hmeet, hmany⟩
    · rw [aliasOfSets_of_disjoint hdisj] at h
      cases h
    · rw [aliasOfSets_of_single hpo hqo] at h
      obtain ⟨strong, hstrong, h⟩ := map_eq_ok.mp h
      cases strong with
      | true => exact ⟨o, hpo, hqo, hstrong⟩
      | false => cases h
    · rw [aliasOfSets_of_overlap hmeet hmany] at h
      cases h
  · rintro ⟨o, hpo, hqo, hstrong⟩
    rw [aliasOfSets_of_single hpo hqo, hstrong]
    rfl

/-! ### Laws -/

variable {v w : NodeId} {a b : Option TypeId} {r : AliasResult}

theorem aliasOf_eq_ok : s.aliasOf v a w b = .ok r ↔ ∃ vs ws, s.typedPts v a = .ok vs ∧
    s.typedPts w b = .ok ws ∧ s.aliasOfSets vs ws = .ok r := by
  simp only [aliasOf, bind_eq_ok]
  constructor
  · rintro ⟨vs, hvs, ws, hws, h⟩
    exact ⟨vs, ws, hvs, hws, h⟩
  · rintro ⟨vs, ws, hvs, hws, h⟩
    exact ⟨vs, hvs, ws, hws, h⟩

theorem aliasOf_symm (h : s.aliasOf v a w b = .ok r) : s.aliasOf w b v a = .ok r := by
  obtain ⟨vs, ws, hvs, hws, h⟩ := aliasOf_eq_ok.mp h
  exact aliasOf_eq_ok.mpr ⟨ws, vs, hws, hvs, (aliasOfSets_comm ws vs).trans h⟩

/-- Pointers that view the same objects can stand for each other. -/
theorem aliasOf_congr {vs ws : IdSet} (hvs : s.typedPts v a = .ok vs) (hws : s.typedPts w b = .ok ws)
    (hsame : vs.toFinset = ws.toFinset) (u : NodeId) (c : Option TypeId) :
    s.aliasOf v a u c = s.aliasOf w b u c ∧ s.aliasOf u c v a = s.aliasOf u c w b := by
  simp only [aliasOf, hvs, hws, ok_bind]
  constructor
  · exact congrArg (s.typedPts u c >>= ·) (funext fun us => aliasOfSets_congr hsame rfl)
  · exact congrArg (s.typedPts u c >>= ·) (funext fun us => aliasOfSets_congr rfl hsame)

/-- Alias queries in any state. They are symmetric; pointers do not alias just if they view no common
    object; and pointers that must alias are each certain to alias themselves and can stand for each
    other in every other query. Where the state is one that an analysis of a built program comes
    through, every query is answered, and both ways round alike. -/
theorem alias_laws (s : Solver) :
    (∀ v a w b r, s.aliasOf v a w b = .ok r ↔ s.aliasOf w b v a = .ok r) ∧
    (∀ v a w b, s.aliasOf v a w b = .ok .noAlias ↔ ∃ vs ws, s.typedPts v a = .ok vs ∧
      s.typedPts w b = .ok ws ∧ ∀ x ∈ vs, x ∉ ws) ∧
    (∀ v a w b, s.aliasOf v a w b = .ok .mustAlias →
      s.aliasOf v a v a = .ok .mustAlias ∧
      ∀ u c, s.aliasOf v a u c = s.aliasOf w b u c ∧ s.aliasOf u c v a = s.aliasOf u c w b) ∧
    ∀ (d : ProgramDesc) (p : Program) (types : Hierarchy) (options : Options) (s₀ : Solver) (k : Nat),
      Program.build d = .ok p → (Solver.new types p.graph options).start = .ok s₀ → Run s₀ k s →
      ∀ v a w b, (∃ r, s.aliasOf v a w b = .ok r) ∧ s.aliasOf v a w b = s.aliasOf w b v a := by
  refine ⟨fun v a w b r => ⟨aliasOf_symm, aliasOf_symm⟩, fun v a w b => ?_, fun v a w b hmust => ?_, ?_⟩
  · rw [aliasOf_eq_ok]
    simp only [aliasOfSets_eq_noAlias_iff, Finset.disjoint_left, IdSet.mem_toFinset]
  · obtain ⟨vs, ws, hvs, hws, h⟩ := aliasOf_eq_ok.mp hmust
    obtain ⟨o, hvo, hwo, hstrong⟩ := aliasOfSets_eq_mustAlias_iff.mp h
    exact ⟨aliasOf_eq_ok.mpr ⟨vs, vs, hvs, hvs, aliasOfSets_eq_mustAlias_iff.mpr ⟨o, hvo, hvo, hstrong⟩⟩,
      aliasOf_congr hvs hws (hvo.trans hwo.symm)⟩
  · intro d p types options s₀ k hbuild hstart hrun v a w b
    have hwf := Program.wellFormed_of_build hbuild
    have hv := (hrun.reached hwf (started_of_start hwf hstart).reached).valid
    obtain ⟨r, hr⟩ := hv.aliasOf v a w b
    exact ⟨⟨r, hr⟩, hr.trans (aliasOf_symm hr).symm⟩

/-- Two names for one object, and two pointers to memory of no type, one of them to an `int` too. -/
def sharedMemory : ProgramDesc where
  types := [{ kind := .qualified .const none },
    { kind := .basic .signed, name := some "int", sizeBits := 32 },
    { kind := .qualified .volatile (some 1) }]
  objects := [{ name := "x", alloc := .global, ty := some 1 }, { name := "h", alloc := .heap }]
  values := ["p", "q", "r", "s"]
  statements := [{ kind := .addr "x" "p" }, { kind := .copy "p" "q" false }, { kind := .addr "h" "r" },
    { kind := .copy "r" "s" false }, { kind := .copy "p" "s" false }]

/-- At the end the two names must alias, so the fourth pointer may alias either of them. -/
theorem sharedMemory_alias_laws : ∃ p s k t, Program.build sharedMemory = .ok p ∧
    (Solver.new (declaredTypes sharedMemory) p.graph {}).start = .ok s ∧ Run s k t ∧
    t.aliasOf 0 none 1 (some 1) = .ok .mustAlias ∧ t.aliasOf 0 none 0 none = .ok .mustAlias ∧
    t.aliasOf 0 none 3 none = .ok .mayAlias ∧ t.aliasOf 1 (some 1) 3 none = .ok .mayAlias ∧
    t.aliasOf 2 none 1 (some 1) = .ok .noAlias ∧ t.aliasOf 1 (some 1) 2 none = .ok .noAlias := by
  obtain ⟨p, s, k, t, hbuild, hstart, -, hrun, -, hcheck⟩ :=
    exists_end sharedMemory (declaredTypes sharedMemory) {} (fun _ t =>
      t.aliasOf 0 none 1 (some 1) = .ok .mustAlias && t.aliasOf 0 none 3 none = .ok .mayAlias &&
      t.aliasOf 2 none 1 (some 1) = .ok .noAlias) (by decide +kernel)
  simp only [Bool.and_eq_true, decide_eq_true_eq] at hcheck
  obtain ⟨⟨hmust, hmay⟩, hno⟩ := hcheck
  obtain ⟨hsymm, -, hlaws, -⟩ := alias_laws t
  obtain ⟨hself, hsubst⟩ := hlaws 0 none 1 (some 1) hmust
  exact ⟨p, s, k, t, hbuild, hstart, hrun, hmust, hself, hmay, ((hsubst 3 none).1).symm.trans hmay, hno,
    (hsymm _ _ _ _ _).mp hno⟩

/-! ### Equivalent types -/

theorem views_congr (h : s.types.canonical a = s.types.canonical b) : s.views a = s.views b := by
  funext x
  simp only [views, Hierarchy.isBase, h]

/-- Types with one canonical type give one view, unless one of them is missing and types are used. -/
theorem typedPts_congr (h : s.types.canonical a = s.types.canonical b)
    (hboth : a.isNone = b.isNone ∨ s.options.typed = false) : s.typedPts v a = s.typedPts v b := by
  rcases hboth with hboth | huntyped
  · simp only [typedPts, hboth, views_congr h]
  · simp only [typedPts, huntyped, Bool.not_false, Bool.or_true]
    rfl

theorem typedPts_none : s.typedPts v none = .ok (s.pts v) := rfl

/-- A pointer to an undefined type views special objects and memory of no type. -/
theorem views_undefined {x : NodeId} {obj : ObjNode} {ty : Option TypeId} (ha : s.types.canonical a = none)
    (hobj : s.graph.obj x = .ok obj) (hty : s.heap.typeOf x = .ok ty) :
    s.views a x = .ok true ↔ obj.isSpecial = true ∨ s.types.canonical ty = none := by
  simp only [views, hobj, hty, ok_bind, Hierarchy.isBase, ha]
  cases obj.isSpecial with
  | true => simp [pure_eq_ok]
  | false => cases s.types.canonical ty <;> simp [pure_eq_ok]

theorem mem_typedPts_undefined {g₀ : Graph} (hv : s.Valid g₀) (htyped : s.options.typed = true)
    {id : TypeId} (ha : s.types.canonical (some id) = none) :
    ∃ objs, s.typedPts v (some id) = .ok objs ∧ ∀ x, x ∈ objs ↔ x ∈ s.pts v ∧
      ∃ obj ty, s.graph.obj x = .ok obj ∧ s.heap.typeOf x = .ok ty ∧
        (obj.isSpecial = true ∨ s.types.canonical ty = none) := by
  obtain ⟨objs, hobjs, -⟩ := hv.typedPts v (some id)
  refine ⟨objs, hobjs, fun x => ?_⟩
  simp only [typedPts, Option.isNone_some, htyped, Bool.not_true, Bool.or_self, Bool.false_eq_true,
    if_false, bind_eq_ok, pure_eq_ok, Except.ok.injEq] at hobjs
  obtain ⟨kept, hkept, rfl⟩ := hobjs
  rw [IdSet.mem_ofList, mem_filterM hkept, IdSet.mem_toList]
  refine and_congr_right fun hx => ?_
  obtain ⟨obj, hobj⟩ := (hv.pts hx).2
  obtain ⟨ty, hty⟩ := hv.typeOf ⟨obj, hobj⟩
  rw [views_undefined ha hobj hty]
  constructor
  · exact fun h => ⟨obj, ty, hobj, hty, h⟩
  · rintro ⟨obj', ty', hobj', hty', h⟩
    obtain rfl := ok_unique hobj hobj'
    obtain rfl := ok_unique hty hty'
    exact h

/-- Equivalent types in the queries of an analysis. If both are given or both are missing, or if types
    are not used, they give the same views and the same answers. A type that comes to `void` is
    equivalent to a missing one, but it is looked up: it restricts a view to special objects and memory
    of no type, while a missing type does not restrict it. -/
theorem equivalent_types_give_one_view {d : ProgramDesc} {p : Program} (hbuild : Program.build d = .ok p)
    (hadmitted : p.types.Admitted) {types : Hierarchy} (hof : Hierarchy.ofTable p.types = .ok types)
    {options : Options} {s t : Solver} {k : Nat}
    (hstart : (Solver.new types p.graph options).start = .ok s) (hrun : Run s k t) :
    (∀ a b, p.types.equiv a b = .ok true → (a.isNone = b.isNone ∨ options.typed = false) →
      ∀ v, t.typedPts v a = t.typedPts v b ∧
        ∀ w c, t.aliasOf v a w c = t.aliasOf v b w c ∧ t.aliasOf w c v a = t.aliasOf w c v b) ∧
    ∀ id, p.types.equiv (some id) none = .ok true → options.typed = true → ∀ v,
      t.typedPts v none = .ok (t.pts v) ∧
      ∃ objs, t.typedPts v (some id) = .ok objs ∧ ∀ x, x ∈ objs ↔ x ∈ t.pts v ∧
        ∃ obj ty, t.graph.obj x = .ok obj ∧ t.heap.typeOf x = .ok ty ∧
          (obj.isSpecial = true ∨ types.canonical ty = none) := by
  have hwf := Program.wellFormed_of_build hbuild
  have hs := started_of_start hwf hstart
  have hr := hrun.reached hwf hs.reached
  have htypes : t.types = types := hr.types.trans hs.types
  have hoptions : t.options = options := hr.options.trans hs.options
  obtain ⟨types', hof', hrep⟩ := Hierarchy.ofTable_represents hadmitted
  obtain rfl := ok_unique hof hof'
  rw [← htypes] at hrep ⊢
  rw [← hoptions]
  constructor
  · intro a b hab hboth v
    have hviews : ∀ v, t.typedPts v a = t.typedPts v b := fun v => typedPts_congr (hrep.congr hab) hboth
    exact ⟨hviews v, fun w c => ⟨by rw [aliasOf, aliasOf, hviews v], by rw [aliasOf, aliasOf, hviews v]⟩⟩
  · intro id hvoid htyped v
    exact ⟨typedPts_none, mem_typedPts_undefined hr.valid htyped (hrep.congr hvoid)⟩

theorem sharedMemory_types {p : Program} (hbuild : Program.build sharedMemory = .ok p) :
    p.types.Admitted ∧ Hierarchy.ofTable p.types = .ok (declaredTypes sharedMemory) ∧
      p.types.equiv (some 1) (some 2) = .ok true ∧ p.types.equiv (some 0) none = .ok true := by
  obtain ⟨b, rfl, he⟩ := Program.build_spec hbuild
  have hadmitted : b.types.Admitted := he.types ▸ TypeTable.admitted_of_rank (fun _ => 0) (by decide)
  obtain ⟨types, hof, -⟩ := Hierarchy.ofTable_represents hadmitted
  refine ⟨hadmitted, ?_, ?_, ?_⟩
  · rw [he.types] at hof ⊢
    rw [declaredTypes, hof]
    rfl
  · rw [he.types]
    decide
  · rw [he.types]
    decide

/-- A volatile `int` is viewed like an `int`; of the memory behind the fourth pointer, a constant `void`
    views the part without a type. -/
theorem sharedMemory_views : ∃ p s k t, Program.build sharedMemory = .ok p ∧ p.types.Admitted ∧
    Hierarchy.ofTable p.types = .ok (declaredTypes sharedMemory) ∧
    (Solver.new (declaredTypes sharedMemory) p.graph {}).start = .ok s ∧ Run s k t ∧
    p.types.equiv (some 1) (some 2) = .ok true ∧ p.types.equiv (some 0) none = .ok true ∧
    t.aliasOf 3 (some 1) 0 none = t.aliasOf 3 (some 2) 0 none ∧
    t.typedPts 3 none = .ok (t.pts 3) ∧ ∃ objs, t.typedPts 3 (some 0) = .ok objs ∧ 5 ∈ objs ∧ 4 ∉ objs := by
  obtain ⟨p, s, k, t, hbuild, hstart, -, hrun, -, hcheck⟩ :=
    exists_end sharedMemory (declaredTypes sharedMemory) {} (fun _ t =>
      (t.typedPts 3 (some 0)).map IdSet.toList = .ok [5]) (by decide +kernel)
  obtain ⟨hadmitted, hof, hint, hvoid⟩ := sharedMemory_types hbuild
  obtain ⟨hequiv, hundefined⟩ := equivalent_types_give_one_view hbuild hadmitted hof hstart hrun
  obtain ⟨hall, objs, hobjs, -⟩ := hundefined 0 hvoid rfl 3
  rw [decide_eq_true_eq, hobjs, map_eq_ok] at hcheck
  obtain ⟨_, hsame, hlist⟩ := hcheck
  obtain rfl := Except.ok.inj hsame
  have hmem : ∀ x, x ∈ objs ↔ x = 5 := fun x => by rw [← IdSet.mem_toList, hlist, List.mem_singleton]
  exact ⟨p, s, k, t, hbuild, hadmitted, hof, hstart, hrun, hint, hvoid,
    ((hequiv _ _ hint (Or.inl rfl) 3).2 0 none).1, hall, objs, hobjs, (hmem 5).mpr rfl,
    fun h => absurd ((hmem 4).mp h) (by decide)⟩

/-- Read at a constant `void`, a pointer to an `int` does not alias itself. -/
theorem sharedMemory_void_hides_int : ∃ p s k t, Program.build sharedMemory = .ok p ∧
    p.types.Admitted ∧ Hierarchy.ofTable p.types = .ok (declaredTypes sharedMemory) ∧
    (Solver.new (declaredTypes sharedMemory) p.graph {}).start = .ok s ∧ Run s k t ∧ t.pending.items = [] ∧
    p.types.equiv (some 0) none = .ok true ∧ t.typedPts 0 (some 0) ≠ t.typedPts 0 none ∧
    t.aliasOf 0 none 0 none = .ok .mustAlias ∧ t.aliasOf 0 (some 0) 0 none = .ok .noAlias := by
  obtain ⟨p, s, k, t, hbuild, hstart, -, hrun, hend, hcheck⟩ :=
    exists_end sharedMemory (declaredTypes sharedMemory) {} (fun _ t =>
      t.aliasOf 0 none 0 none = .ok .mustAlias && t.aliasOf 0 (some 0) 0 none = .ok .noAlias)
      (by decide +kernel)
  simp only [Bool.and_eq_true, decide_eq_true_eq] at hcheck
  obtain ⟨hmust, hno⟩ := hcheck
  obtain ⟨hadmitted, hof, -, hvoid⟩ := sharedMemory_types hbuild
  refine ⟨p, s, k, t, hbuild, hadmitted, hof, hstart, hrun, hend, hvoid, fun hsame => ?_, hmust, hno⟩
  rw [aliasOf, hsame] at hno
  cases ok_unique hmust hno

end Solver

end PointsTo
