import PointsTo.Proofs.FixedPoint

/-! The registry of clones and fields.

    Clones and fields are entered in several tables, and all of these agree with the objects of the
    graph in every state of every run. So asking again for a clone that was made finds it, whichever
    object of the same origin is asked for it. -/

namespace PointsTo

namespace Heap

variable {g₀ : Graph} {tys : TypeId → Prop} {h h' : Heap}

theorem isClone_iff {x : NodeId} : h.isClone x = true ↔ ∃ p, h.prototypes[x]? = some p := by
  rw [isClone, Std.TreeMap.contains_eq_isSome_getElem?, Option.isSome_iff_exists]

theorem isClone_eq_false {x : NodeId} : h.isClone x = false ↔ h.prototypes[x]? = none := by
  rw [isClone, Std.TreeMap.contains_eq_isSome_getElem?, Option.isSome_eq_false_iff, Option.isNone_iff_eq_none]

theorem isClone_and_prototype_eq {c p : NodeId} :
    h.isClone c = true ∧ h.prototype c = p ↔ h.prototypes[c]? = some p := by
  rw [isClone_iff]
  constructor
  · rintro ⟨⟨q, hq⟩, hp⟩
    rwa [← hp, prototype_of_some hq]
  · intro hp
    exact ⟨⟨p, hp⟩, prototype_of_some hp⟩

theorem typeOf_eq_ok {x : NodeId} {ty : Option TypeId} : h.typeOf x = .ok ty ↔ h.types[x]? = some ty := by
  unfold typeOf
  cases h.types[x]? with
  | none => simp
  | some ty' => simp

/-- The tables of clones, fields and allocations agree with the objects of the graph. -/
structure Registry (g₀ : Graph) (limit : Nat) (h : Heap) : Prop where
  /-- What a clone was made from is no clone. -/
  original : ∀ {c}, h.isClone c = true → h.isClone (h.prototype c) = false
  clones : ∀ {c p}, c ∈ h.clones.setAt p ↔ h.isClone c = true ∧ h.prototype c = p
  /-- Clones of one object have different types. -/
  types : ∀ {c c'}, h.isClone c = true → h.isClone c' = true → h.prototype c = h.prototype c' → c ≠ c' →
    ∃ ty ty', h.typeOf c = .ok ty ∧ h.typeOf c' = .ok ty' ∧ ty ≠ ty'
  /-- A clone is a node like the object it was made from, with the same allocation site. -/
  alike : ∀ {c}, h.isClone c = true → h.site? c = h.site? (h.prototype c) ∧
    ∃ o o', h.graph.obj c = .ok o ∧ h.graph.obj (h.prototype c) = .ok o' ∧ o.kind = o'.kind ∧ o.mem = o'.mem
  fields : ∀ {f r k}, f ∈ h.fields.setAt r k ↔ ∃ o, h.graph.obj f = .ok o ∧ o.kind = .field r k
  /-- A slot is one of a whole object, below the limit, and holds just one object that is no clone. -/
  slots : ∀ {r k objs}, h.fields.cell? r k = some objs → (∃! f, f ∈ objs ∧ h.isClone f = false) ∧
    (∃ w, h.graph.obj r = .ok w ∧ w.isField = false) ∧ k < limit
  memObjects : ∀ {x m}, x ∈ h.memObjects.setAt m ↔ ∃ o, h.graph.obj x = .ok o ∧ o.mem = m
  memFields : ∀ {f m k}, f ∈ h.memFields.setAt m k ↔
    ∃ o r, h.graph.obj f = .ok o ∧ o.mem = m ∧ o.kind = .field r k
  count : h.graph.objects.size = g₀.objects.size + h.numClones + h.numFields

theorem Valid.registry (hv : h.Valid g₀ tys) : h.Registry g₀ h.fieldLimit where
  original := by
    intro c hc
    obtain ⟨p, hp⟩ := isClone_iff.mp hc
    rw [prototype_of_some hp]
    exact isClone_eq_false.mpr (hv.clone hp).1
  clones := hv.clones.trans isClone_and_prototype_eq.symm
  types := by
    intro c c' hc hc' heq hne
    obtain ⟨p, hp⟩ := isClone_iff.mp hc
    obtain ⟨p', hp'⟩ := isClone_iff.mp hc'
    rw [prototype_of_some hp, prototype_of_some hp'] at heq
    subst heq
    obtain ⟨ty, -, hty⟩ := hv.cloneType hp
    obtain ⟨ty', -, hty'⟩ := hv.cloneType hp'
    refine ⟨some ty, some ty', typeOf_eq_ok.mpr hty, typeOf_eq_ok.mpr hty', fun hsame => hne ?_⟩
    exact hv.cloneInj hp hp' (by rw [hty, hty', hsame])
  alike := by
    intro c hc
    obtain ⟨p, hp⟩ := isClone_iff.mp hc
    obtain ⟨-, o, ho, ho'⟩ := hv.clone hp
    rw [prototype_of_some hp]
    exact ⟨hv.cloneSite hp, o, o, ho, ho', rfl, rfl⟩
  fields := hv.fields
  slots := by
    intro r k objs hcell
    have hmem : ∀ f, f ∈ objs ↔ ∃ o, h.graph.obj f = .ok o ∧ o.kind = .field r k := by
      intro f
      rw [← IdGrid.setAt_of_cell? hcell]
      exact hv.fields
    obtain ⟨f, hf⟩ := hv.slot hcell
    obtain ⟨o, ho, hk⟩ := (hmem f).mp hf
    obtain ⟨hlt, w, hw, hwhole, -⟩ := hv.fieldOf ho hk
    -- The one object of the slot that is no clone is the prototype of any of them.
    obtain ⟨hp, hnone⟩ := hv.prototype ho
    refine ⟨⟨h.prototype f, ⟨(hmem _).mpr ⟨o, hp, hk⟩, isClone_eq_false.mpr hnone⟩, ?_⟩,
      ⟨w, hw, hwhole⟩, hlt⟩
    rintro f' ⟨hf', hnone'⟩
    obtain ⟨o', ho', hk'⟩ := (hmem f').mp hf'
    exact hv.fieldInj ho' hp hk' hk (isClone_eq_false.mp hnone') hnone
  memObjects := hv.memObjects
  memFields := hv.memFields
  count := by rw [hv.count, Nat.add_assoc]

/-! ### Asking again for a clone -/

theorem Adds.findClone?_new {o : ObjNode} {ty : Option TypeId} {p : NodeId}
    (ha : Adds h h' o ty (some p)) (hv : h.Valid g₀ tys) (hfind : h.findClone? p ty = none) :
    h'.findClone? p ty = some h.graph.nodes.size := by
  unfold findClone?
  cases hf : (h'.clones.setAt p).toList.find? fun c => h'.types[c]? == some ty with
  | none =>
    have hnew : h.graph.nodes.size ∈ (h'.clones.setAt p).toList :=
      IdSet.mem_toList.mpr (ha.clones.mpr (Or.inl ⟨rfl, rfl⟩))
    exact absurd ha.types_new (by simpa using List.find?_eq_none.mp hf _ hnew)
  | some c =>
    have hty : h'.types[c]? = some ty := by simpa using List.find?_some hf
    rcases ha.clones.mp (IdSet.mem_toList.mp (List.mem_of_find?_eq_some hf)) with ⟨-, rfl⟩ | hold
    · rfl
    · have hc := hv.clones.mp hold
      rw [ha.types_old (hv.clone_ne_size hc).1] at hty
      exact absurd hty (findClone?_none hv hfind c hc)

/-- Whoever asks for a clone of the same origin and type is given the same clone. -/
theorem cloneAs_again (hv : h.Valid g₀ tys) {x y c : NodeId} {ty : Option TypeId} {woken : List NodeId}
    (hclone : h.cloneAs x ty = .ok ((c, woken), h')) (hy : h'.prototype y = h'.prototype x) :
    h'.cloneAs y ty = .ok ((c, []), h') := by
  cases hfind : h.findClone? (h.prototype x) ty with
  | some c' =>
    rw [cloneAs_of_findClone? hfind] at hclone
    cases hclone
    exact cloneAs_of_findClone? (hy ▸ hfind)
  | none =>
    cases ho : h.graph.obj (h.prototype x) with
    | error e =>
      simp only [cloneAs, hfind, ho] at hclone
      cases hclone
    | ok o =>
      cases hs : o.isSpecial with
      | true =>
        obtain ⟨which, hk⟩ : ∃ which, o.kind = .special which := by
          cases hk : o.kind <;> simp_all [ObjNode.isSpecial]
        simp only [cloneAs, hfind, ho, ok_bind, hk] at hclone
        cases hclone
      | false =>
        obtain ⟨h₁, heq, ha⟩ := adds_cloneAs ho hs hfind
        cases ok_unique heq hclone
        have hx : h.graph.HasObj x := by
          cases hp : h.prototypes[x]? with
          | none => exact ⟨o, prototype_of_none hp ▸ ho⟩
          | some p =>
            obtain ⟨-, ox, hox, -⟩ := hv.clone hp
            exact ⟨ox, hox⟩
        refine cloneAs_of_findClone? ?_
        rw [hy, ha.extend.prototype hx]
        exact ha.findClone?_new hv hfind

end Heap

/-! ### Runs -/

namespace Solver

/-- In every state of every run, in either analysis and with any options, the tables of clones, fields
    and allocations agree with the objects there are; no object ever changes its type; and after a
    clone was asked for, whoever asks for one of the same origin and type is given the same. -/
theorem registry_agrees_with_objects {d : ProgramDesc} {p : Program} (hbuild : Program.build d = .ok p)
    (types : Hierarchy) (options : Options) {s t : Solver} {k : Nat}
    (hstart : (Solver.new types p.graph options).start = .ok s) (hrun : Run s k t) :
    t.heap.Registry p.graph options.maxFieldLimit ∧
    (∀ j u, Run t j u → ∀ x, t.graph.HasObj x →
      ∃ ty, t.heap.typeOf x = .ok ty ∧ u.heap.typeOf x = .ok ty) ∧
    ∀ x ty c woken h, t.heap.cloneAs x ty = .ok ((c, woken), h) →
      ∀ y, h.prototype y = h.prototype x → h.cloneAs y ty = .ok ((c, []), h) := by
  have hwf := Program.wellFormed_of_build hbuild
  obtain ⟨s', hstart', hs⟩ := start_spec hwf types options
  obtain rfl := ok_unique hstart hstart'
  obtain ⟨hv, hext⟩ := hrun.extends hwf hs.valid
  refine ⟨?_, fun j u hrun' x hx => ?_, fun x ty c woken h hclone y hy =>
    Heap.cloneAs_again hv.heap hclone hy⟩
  · have hlimit : t.heap.fieldLimit = options.maxFieldLimit := hext.fieldLimit.trans hs.fieldLimit
    exact hlimit ▸ hv.heap.registry
  · obtain ⟨ty, hty⟩ := hv.heap.typed hx
    have hsame := (hrun'.extends hwf hv).2.types hx
    exact ⟨ty, Heap.typeOf_eq_ok.mpr hty, Heap.typeOf_eq_ok.mpr (hsame.trans hty)⟩

/-- Memory that is used at two types ends with a clone, registered like all objects. -/
theorem reusedMemory_registry : ∃ p s k t, Program.build reusedMemory = .ok p ∧
    (Solver.new (declaredTypes reusedMemory) p.graph {}).start = .ok s ∧ Run s k t ∧
    0 < t.heap.numClones ∧ t.heap.Registry p.graph 512 ∧
    ∀ x ty c woken h, t.heap.cloneAs x ty = .ok ((c, woken), h) →
      ∀ y, h.prototype y = h.prototype x → h.cloneAs y ty = .ok ((c, []), h) := by
  obtain ⟨p, s, k, t, hbuild, hstart, -, hrun, -, hclones⟩ :=
    exists_end reusedMemory (declaredTypes reusedMemory) {} (fun _ t => decide (0 < t.heap.numClones))
      (by decide +kernel)
  obtain ⟨hreg, -, hagain⟩ :=
    registry_agrees_with_objects hbuild (declaredTypes reusedMemory) {} hstart hrun
  exact ⟨p, s, k, t, hbuild, hstart, hrun, of_decide_eq_true hclones, hreg, hagain⟩

end Solver

end PointsTo
