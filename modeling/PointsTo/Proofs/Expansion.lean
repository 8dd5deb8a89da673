import PointsTo.Proofs.FixedPoint

/-! Expanding labels as a closure.

    In a valid heap an object of a label brings along exactly the objects that it is joined with, and
    what is joined with one of these is joined with it already. So one round of expansion reaches
    everything, a label is expanded object by object, and a heap that knows more expands it to more. -/

namespace PointsTo.Heap

variable {g₀ : Graph} {tys : TypeId → Prop} {h h' : Heap} {x y z : NodeId} {X Y E : IdSet}

/-- Do two objects always flow together? Either they have their prototype in common, or they belong
    to one allocation, as fields at the same offset or because its fields are not told apart. -/
def Joined (h : Heap) (x y : NodeId) : Prop :=
  ∃ ox oy, h.graph.obj x = .ok ox ∧ h.graph.obj y = .ok oy ∧
    (h.prototype x = h.prototype y ∨ (ox.mem = oy.mem ∧
      ((h.graph.mem ox.mem).fieldInsensitive = true ∨
        ∃ r r' k, ox.kind = .field r k ∧ oy.kind = .field r' k)))

/-! ### Being joined is reflexive and transitive -/

/-- Objects with the same prototype are nodes of the same content. -/
theorem Valid.node_eq_of_prototype_eq (hv : h.Valid g₀ tys) {ox oy : ObjNode}
    (hx : h.graph.obj x = .ok ox) (hy : h.graph.obj y = .ok oy)
    (heq : h.prototype x = h.prototype y) : ox = oy := by
  have hpx := (hv.prototype hx).1
  rw [heq] at hpx
  exact ok_unique hpx (hv.prototype hy).1

theorem Joined.refl (hx : h.graph.HasObj x) : h.Joined x x := by
  obtain ⟨o, ho⟩ := hx
  exact ⟨o, o, ho, ho, Or.inl rfl⟩

theorem Joined.hasObj (hj : h.Joined x y) : h.graph.HasObj y := by
  obtain ⟨ox, oy, hx, hy, -⟩ := hj
  exact ⟨oy, hy⟩

theorem Joined.trans (hv : h.Valid g₀ tys) (hxy : h.Joined x y) (hyz : h.Joined y z) :
    h.Joined x z := by
  obtain ⟨ox, oy, hx, hy, hxy⟩ := hxy
  obtain ⟨oy', oz, hy', hz, hyz⟩ := hyz
  obtain rfl := ok_unique hy hy'
  refine ⟨ox, oz, hx, hz, ?_⟩
  rcases hxy with hp | ⟨hm, hxy⟩
  · rcases hyz with hp' | hyz
    · exact Or.inl (hp.trans hp')
    · rw [hv.node_eq_of_prototype_eq hx hy hp]
      exact Or.inr hyz
  · rcases hyz with hp' | ⟨hm', hyz⟩
    · rw [← hv.node_eq_of_prototype_eq hy hz hp']
      exact Or.inr ⟨hm, hxy⟩
    · refine Or.inr ⟨hm.trans hm', ?_⟩
      rcases hxy with hfi | ⟨r, r', k, hk, hk'⟩
      · exact Or.inl hfi
      · rcases hyz with hfi | ⟨q, q', j, hj, hj'⟩
        · exact Or.inl (hm ▸ hfi)
        · rw [hk'] at hj
          injection hj with _ hj
          exact Or.inr ⟨r, q', k, hk, hj ▸ hj'⟩

/-- A heap that knows more joins what was joined. -/
theorem Joined.extend (hext : h.Extends h') (hj : h.Joined x y) : h'.Joined x y := by
  obtain ⟨ox, oy, hx, hy, hj⟩ := hj
  refine ⟨ox, oy, hext.graph.obj hx, hext.graph.obj hy, ?_⟩
  rcases hj with hp | ⟨hm, hfi | hk⟩
  · exact Or.inl (by rw [hext.prototype ⟨ox, hx⟩, hext.prototype ⟨oy, hy⟩, hp])
  · exact Or.inr ⟨hm, Or.inl (hext.graph.collapsed hfi)⟩
  · exact Or.inr ⟨hm, Or.inr hk⟩

/-! ### One round of expansion -/

/-- An object of a label brings along what it is joined with. -/
theorem Valid.joined_iff (hv : h.Valid g₀ tys) (hx : h.graph.HasObj x) :
    h.Joined x y ↔ y = x ∨ h.Brings x y := by
  obtain ⟨ox, hox⟩ := hx
  constructor
  · rintro ⟨ox', oy, hox', hoy, hp | ⟨hm, hfi | ⟨r, r', k, hk, hk'⟩⟩⟩
    · cases hpy : h.prototypes[y]? with
      | none =>
        rw [prototype_of_none hpy] at hp
        exact Or.inr (Or.inl hp.symm)
      | some p =>
        rw [prototype_of_some hpy] at hp
        exact Or.inr (Or.inr (Or.inl (hp ▸ hpy)))
    · exact Or.inr (Or.inr (Or.inr ⟨ox', hox', Or.inr ⟨hfi, hv.memObjects.mpr ⟨oy, hoy, hm.symm⟩⟩⟩))
    · exact Or.inr (Or.inr (Or.inr ⟨ox', hox', Or.inl
        ⟨r, k, hk, hv.memFields.mpr ⟨oy, r', hoy, hm.symm, hk'⟩⟩⟩))
  · rintro (rfl | rfl | hclone | ⟨ox', hox', ⟨r, k, hk, hy⟩ | ⟨hfi, hy⟩⟩)
    · exact .refl ⟨ox, hox⟩
    · obtain ⟨hp, hnone⟩ := hv.prototype hox
      exact ⟨ox, ox, hox, hp, Or.inl (prototype_of_none hnone).symm⟩
    · obtain ⟨-, oy, hoy, -⟩ := hv.clone hclone
      exact ⟨ox, oy, hox, hoy, Or.inl (prototype_of_some hclone).symm⟩
    · obtain ⟨oy, r', hoy, hm, hk'⟩ := hv.memFields.mp hy
      exact ⟨ox', oy, hox', hoy, Or.inr ⟨hm.symm, Or.inr ⟨r, r', k, hk, hk'⟩⟩⟩
    · obtain ⟨oy, hoy, hm⟩ := hv.memObjects.mp hy
      exact ⟨ox', oy, hox', hoy, Or.inr ⟨hm.symm, Or.inl hfi⟩⟩

/-- Are all members of a set objects? -/
def IsLabel (h : Heap) (X : IdSet) : Prop := ∀ x ∈ X, h.graph.HasObj x

theorem IsLabel.union (hX : h.IsLabel X) (hY : h.IsLabel Y) : h.IsLabel (X.union Y).2 := by
  intro x hx
  rcases IdSet.mem_union.mp hx with hx | hx
  · exact hX x hx
  · exact hY x hx

/-- A label expands to all that its objects are joined with. -/
theorem Valid.expand_label (hv : h.Valid g₀ tys) (hX : h.IsLabel X) :
    ∃ E, h.expand X = .ok E ∧ ∀ y, y ∈ E ↔ ∃ x ∈ X, h.Joined x y := by
  obtain ⟨E, hE, hmem⟩ := expand_spec hv hX
  refine ⟨E, hE, fun y => (hmem y).trans ⟨?_, ?_⟩⟩
  · rintro (hy | ⟨x, hx, hb⟩)
    · exact ⟨y, hy, .refl (hX y hy)⟩
    · exact ⟨x, hx, (hv.joined_iff (hX x hx)).mpr (Or.inr hb)⟩
  · rintro ⟨x, hx, hj⟩
    rcases (hv.joined_iff (hX x hx)).mp hj with rfl | hb
    · exact Or.inl hx
    · exact Or.inr ⟨x, hx, hb⟩

theorem Valid.mem_expand (hv : h.Valid g₀ tys) (hX : h.IsLabel X) (hE : h.expand X = .ok E) :
    y ∈ E ↔ ∃ x ∈ X, h.Joined x y := by
  obtain ⟨E', hE', hmem⟩ := hv.expand_label hX
  obtain rfl := ok_unique hE hE'
  exact hmem y

theorem Valid.isLabel_expand (hv : h.Valid g₀ tys) (hX : h.IsLabel X) (hE : h.expand X = .ok E) :
    h.IsLabel E := by
  intro y hy
  obtain ⟨x, -, hj⟩ := (hv.mem_expand hX hE).mp hy
  exact hj.hasObj

/-! ### Expansion as a closure -/

/-- Expanding labels is a closure operator that goes object by object, and yields what the objects of
    the label are joined with. -/
structure ClosesLabels (h : Heap) : Prop where
  total : ∀ X, h.IsLabel X → ∃ E, h.expand X = .ok E ∧ h.IsLabel E
  joined : ∀ X E, h.IsLabel X → h.expand X = .ok E → ∀ y, y ∈ E ↔ ∃ x ∈ X, h.Joined x y
  extensive : ∀ X E, h.IsLabel X → h.expand X = .ok E → ∀ x ∈ X, x ∈ E
  union : ∀ X Y E F, h.IsLabel X → h.IsLabel Y → h.expand X = .ok E → h.expand Y = .ok F →
    ∃ G, h.expand (X.union Y).2 = .ok G ∧ ∀ x, x ∈ G ↔ x ∈ (E.union F).2
  monotone : ∀ X Y E F, h.IsLabel Y → (∀ x ∈ X, x ∈ Y) → h.expand X = .ok E → h.expand Y = .ok F →
    ∀ x ∈ E, x ∈ F
  idempotent : ∀ X E, h.IsLabel X → h.expand X = .ok E →
    ∃ E', h.expand E = .ok E' ∧ ∀ x, x ∈ E' ↔ x ∈ E

theorem Valid.closesLabels (hv : h.Valid g₀ tys) : h.ClosesLabels where
  total := by
    intro X hX
    obtain ⟨E, hE, -⟩ := hv.expand_label hX
    exact ⟨E, hE, hv.isLabel_expand hX hE⟩
  joined := by
    intro X E hX hE y
    exact hv.mem_expand hX hE
  extensive := by
    intro X E hX hE x hx
    exact (hv.mem_expand hX hE).mpr ⟨x, hx, .refl (hX x hx)⟩
  union := by
    intro X Y E F hX hY hE hF
    obtain ⟨G, hG, hmem⟩ := hv.expand_label (hX.union hY)
    refine ⟨G, hG, fun x => ?_⟩
    rw [hmem, IdSet.mem_union, hv.mem_expand hX hE, hv.mem_expand hY hF]
    simp only [IdSet.mem_union, or_and_right, exists_or]
  monotone := by
    intro X Y E F hY hsub hE hF x hx
    have hX : h.IsLabel X := fun y hy => hY y (hsub y hy)
    obtain ⟨y, hy, hj⟩ := (hv.mem_expand hX hE).mp hx
    exact (hv.mem_expand hY hF).mpr ⟨y, hsub y hy, hj⟩
  idempotent := by
    intro X E hX hE
    have hEl := hv.isLabel_expand hX hE
    obtain ⟨E', hE', hmem⟩ := hv.expand_label hEl
    refine ⟨E', hE', fun z => (hmem z).trans ⟨?_, fun hz => ⟨z, hz, .refl (hEl z hz)⟩⟩⟩
    -- What is joined with something joined is joined already.
    rintro ⟨y, hy, hyz⟩
    obtain ⟨x, hx, hxy⟩ := (hv.mem_expand hX hE).mp hy
    exact (hv.mem_expand hX hE).mpr ⟨x, hx, hxy.trans hv hyz⟩

/-- A heap that knows more expands a label to more. -/
theorem Extends.expand_grows {tys' : TypeId → Prop} (hv : h.Valid g₀ tys) (hv' : h'.Valid g₀ tys')
    (hext : h.Extends h') (hX : h.IsLabel X) (hE : h.expand X = .ok E) :
    ∃ E', h'.expand X = .ok E' ∧ ∀ x ∈ E, x ∈ E' := by
  obtain ⟨E', hE', hmem⟩ := hv'.expand_label fun x hx => hext.graph.hasObj (hX x hx)
  refine ⟨E', hE', fun y hy => ?_⟩
  obtain ⟨x, hx, hj⟩ := (hv.mem_expand hX hE).mp hy
  exact (hmem y).mpr ⟨x, hx, hj.extend hext⟩

end PointsTo.Heap

namespace PointsTo.Solver

/-- In every state of an analysis of a built program, edge labels are expanded by a closure operator
    that goes object by object, on all sets of objects, clones and fields among them; and what a
    label expands to only grows from there on. -/
theorem expansion_is_closure {d : ProgramDesc} {p : Program} (hbuild : Program.build d = .ok p)
    (types : Hierarchy) (options : Options) {s t : Solver} {k : Nat}
    (hstart : (Solver.new types p.graph options).start = .ok s) (hrun : Run s k t) :
    t.heap.ClosesLabels ∧
      ∀ {j u}, Run t j u → ∀ X E, t.heap.IsLabel X → t.heap.expand X = .ok E →
        ∃ E', u.heap.expand X = .ok E' ∧ ∀ x ∈ E, x ∈ E' := by
  have hwf := Program.wellFormed_of_build hbuild
  have hv := (started_of_start hwf hstart).valid
  obtain ⟨hvt, -⟩ := hrun.extends hwf hv
  refine ⟨hvt.heap.closesLabels, fun hrun' X E hX hE => ?_⟩
  obtain ⟨hvu, hext⟩ := hrun'.extends hwf hvt
  exact hext.expand_grows hvt.heap hvu.heap hX hE

/-- Memory of no type of its own whose second word is found through the memory itself and through
    its clone as a `Pair`, and is then read as an `int`. -/
def pairedMemory : ProgramDesc where
  types := [{ name := some "int", sizeBits := 32, kind := .basic .signed },
    { name := some "float", sizeBits := 32, kind := .basic .float },
    { name := some "Pair", sizeBits := 64,
      kind := .record .structWord [.field "a" 0, .field "b" 1] }]
  objects := [{ name := "h", alloc := .heap }]
  values := ["p", "x", "q", "y"]
  statements := [{ kind := .addr "h" "p" }, { kind := .load "p" "x" (some 2) },
    { kind := .gep "p" "q" (some 1) none }, { kind := .load "q" "y" (some 0) }]

theorem pairedMemory_expansion_is_closure : ∃ p s k t E F,
    Program.build pairedMemory = .ok p ∧
    (Solver.new (declaredTypes pairedMemory) p.graph {}).start = .ok s ∧ Run s k t ∧
    t.heap.ClosesLabels ∧ t.heap.expand (.ofList [10]) = .ok E ∧ E.toList = [10, 12, 11] ∧
    t.heap.expand E = .ok F ∧ ∀ x, x ∈ F ↔ x ∈ E := by
  obtain ⟨p, s, k, t, hbuild, hstart, -, hrun, -, hcheck⟩ :=
    exists_end pairedMemory (declaredTypes pairedMemory) {} (fun _ t =>
      decide ((t.graph.obj 10).map (·.kind) = .ok (.field 4 1)) &&
      decide ((t.heap.expand (.ofList [10])).map (·.toList) = .ok [10, 12, 11])) (by decide +kernel)
  simp only [Bool.and_eq_true, decide_eq_true_eq] at hcheck
  obtain ⟨hfield, hexpand⟩ := hcheck
  have hclosure := (expansion_is_closure hbuild (declaredTypes pairedMemory) {} hstart hrun).1
  have hlabel : t.heap.IsLabel (.ofList [10]) := by
    intro x hx
    rw [IdSet.mem_ofList, List.mem_singleton] at hx
    subst hx
    obtain ⟨o, hobj, -⟩ := map_eq_ok.mp hfield
    exact ⟨o, hobj⟩
  obtain ⟨E, hE, -⟩ := hclosure.total _ hlabel
  obtain ⟨F, hF, hmem⟩ := hclosure.idempotent _ E hlabel hE
  rw [hE] at hexpand
  exact ⟨p, s, k, t, E, F, hbuild, hstart, hrun, hclosure, hE, Except.ok.inj hexpand, hF, hmem⟩

end PointsTo.Solver
