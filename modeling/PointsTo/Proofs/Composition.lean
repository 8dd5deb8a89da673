import PointsTo.Proofs.FixedPoint

/-! Projections compose.

    Projecting a field by one more offset leads where projecting the whole object by both offsets at
    once leads, whichever is asked for first: both lead to the same slot. So whoever goes on asking for
    one or the other is given the same objects again and again, and no slot is filled twice. -/

namespace PointsTo

namespace Heap

variable {g₀ : Graph} {tys : TypeId → Prop} {h h' h'' : Heap} {types : Hierarchy} {base : NodeId}
  {ob : ObjNode} {offset : Nat} {objs s : IdSet}

/-! ### What projections below the field limit change -/

/-- The later heap is the earlier one with more nodes, of which each is the only object of one of the
    slots: there are no new clones, and no allocation was collapsed. -/
structure Fills (h : Heap) (slots : NodeId → Nat → Prop) (h' : Heap) : Prop where
  extend : h.Extends h'
  prototypes : h'.prototypes = h.prototypes
  fields : ∀ m, h.SameFields h' m
  new : ∀ {x : NodeId}, h.graph.nodes.size ≤ x → x < h'.graph.nodes.size →
    ∃ n root slot, h'.graph.obj x = .ok n ∧ n.kind = .field root slot ∧ slots root slot ∧
      ∀ y n', h'.graph.obj y = .ok n' → n'.kind = .field root slot → y = x

namespace Fills

variable {slots slots' : NodeId → Nat → Prop}

theorem refl (h : Heap) : h.Fills slots h where
  extend := .refl h
  prototypes := rfl
  fields _ := rfl
  new hge hlt := absurd hlt (Nat.not_lt.mpr hge)

theorem mono (hf : h.Fills slots h') (himp : ∀ root slot, slots root slot → slots' root slot) :
    h.Fills slots' h' where
  extend := hf.extend
  prototypes := hf.prototypes
  fields := hf.fields
  new hge hlt := by
    obtain ⟨n, root, slot, hn, hk, hslot, honly⟩ := hf.new hge hlt
    exact ⟨n, root, slot, hn, hk, himp root slot hslot, honly⟩

theorem trans (hf : h.Fills slots h') (hf' : h'.Fills slots h'') : h.Fills slots h'' where
  extend := hf.extend.trans hf'.extend
  prototypes := hf'.prototypes.trans hf.prototypes
  fields m := (hf'.fields m).trans (hf.fields m)
  new := by
    intro x hge hlt
    rcases Nat.lt_or_ge x h'.graph.nodes.size with hmid | hmid
    · obtain ⟨n, root, slot, hn, hk, hslot, honly⟩ := hf.new hge hmid
      refine ⟨n, root, slot, hf'.extend.graph.obj hn, hk, hslot, fun y n' hy hk' => ?_⟩
      rcases hf'.extend.graph.obj_cases hy with hold | hnew
      · exact honly y n' hold hk'
      · -- An object that came later would have to be the only one of the slot.
        obtain ⟨n₂, root₂, slot₂, hn₂, hk₂, -, honly₂⟩ := hf'.new hnew (Graph.obj_lt_size hy)
        obtain rfl := ok_unique hy hn₂
        exact (honly₂ x n (hf'.extend.graph.obj hn) (hk.trans (hk'.symm.trans hk₂))).symm
    · exact hf'.new hmid hlt

end Fills

/-- Does the projection stay below the field limit? -/
def Within (h : Heap) (base : NodeId) (ob : ObjNode) (offset : Nat) : Prop :=
  ∃ root slot, slotOf base ob.kind offset = .ok (root, slot) ∧ slot < h.fieldLimit

/-- Projections below the field limit fill at most the slot they lead to. -/
theorem Projected.fills (hv : h.Valid g₀ tys) (hwithin : h.Within base ob offset)
    (hp : Projected h types base ob offset objs h') :
    h.Fills (fun root slot => slotOf base ob.kind offset = .ok (root, slot)) h' := by
  cases hp with
  | itself => exact .refl h
  | collapsed hopen hslot hlimit =>
    obtain ⟨root, slot, hslot', hlt⟩ := hwithin
    cases ok_unique hslot hslot'
    exact absurd hlt (Nat.not_lt.mpr hlimit)
  | found => exact .refl h
  | @made root slot h' n ty hopen hslot hlt hcell hadds hkind hmem =>
    refine ⟨hadds.extend, hadds.prototypes, fun m => by rw [SameFields, hadds.graph]; rfl, ?_⟩
    intro x hge hx
    have hsize : h'.graph.nodes.size = h.graph.nodes.size + 1 := by
      rw [hadds.graph]
      simp [Graph.addObjNode, Graph.addNode]
    rw [hsize] at hx
    obtain rfl : x = h.graph.nodes.size := Nat.le_antisymm (Nat.lt_succ_iff.mp hx) hge
    refine ⟨n, root, slot, hadds.obj_iff.mpr (Or.inl ⟨rfl, rfl⟩), hkind, hslot, fun y n' hy hk => ?_⟩
    rcases hadds.obj_iff.mp hy with ⟨rfl, -⟩ | hold
    · rfl
    · have hmem := hv.fields.mpr ⟨n', hold, hk⟩
      rw [IdGrid.setAt_of_cell?_none hcell] at hmem
      exact absurd hmem (IdSet.not_mem_empty y)

theorem project_within (types : Hierarchy) (hv : h.Valid g₀ tys) (ho : h.graph.obj base = .ok ob)
    (hwithin : h.Within base ob offset) : ∃ objs h', h.project types base offset = .ok (objs, h') := by
  have hspec : Delivers _ (h.project types base offset) _ := project_spec hv ho
  rcases hspec.cases with ⟨⟨objs, h'⟩, hproj, -⟩ | ⟨-, -, r, k, hk, hover⟩
  · exact ⟨objs, h', hproj⟩
  · obtain ⟨root, slot, hslot, -⟩ := hwithin
    rw [hk, slotOf_field_eq_ok] at hslot
    exact absurd hslot.2.2 (Nat.not_lt.mpr hover)

/-! ### Answers that are settled -/

/-- Does the projection lead to these objects, and change nothing? -/
def Settled (h : Heap) (types : Hierarchy) (base : NodeId) (offset : Nat) (s : IdSet) : Prop :=
  ∃ objs, h.project types base offset = .ok (objs, h) ∧ ∀ x, x ∈ objs ↔ x ∈ s

/-- What a projection below the field limit leads to is settled from then on. -/
theorem settled_of_project (hv : h.Valid g₀ tys) (ho : h.graph.obj base = .ok ob)
    (hwithin : h.Within base ob offset) (hproj : h.project types base offset = .ok (objs, h')) :
    h'.Valid g₀ tys ∧ h'.Settled types base offset objs ∧
      h.Fills (fun root slot => slotOf base ob.kind offset = .ok (root, slot)) h' := by
  obtain ⟨hv', hp⟩ := (project_spec hv ho).result hproj
  have hfills := hp.fills hv hwithin
  refine ⟨hv', ?_, hfills⟩
  rcases hp.again hv hv' ho with ⟨hopen, hlost⟩ | hagain
  · rw [hfills.fields ob.mem, hopen] at hlost
    cases hlost
  · exact ⟨objs, hagain, fun x => Iff.rfl⟩

/-- New objects in slots do not change what is settled. -/
theorem Settled.keep {slots : NodeId → Nat → Prop} (hs : h.Settled types base offset s)
    (hv : h.Valid g₀ tys) (hv' : h'.Valid g₀ tys) (hf : h.Fills slots h')
    (ho : h.graph.obj base = .ok ob) : h'.Settled types base offset s := by
  obtain ⟨objs, hproj, hsame⟩ := hs
  obtain ⟨objs', hproj', hsame'⟩ := project_stable hv hv' hf.extend ho (hf.fields ob.mem) hproj
    fun f _ _ _ _ _ _ c hc => by rwa [hf.prototypes] at hc
  exact ⟨objs', hproj', fun x => (hsame' x).trans (hsame x)⟩

/-- Two projections lead to the same objects, and both or neither makes one of them. -/
def Alike (h : Heap) (types : Hierarchy) (x : NodeId) (i : Nat) (y : NodeId) (j : Nat) : Prop :=
  ∃ objs h' objs' h'', h.project types x i = .ok (objs, h') ∧ h.project types y j = .ok (objs', h'') ∧
    (∀ z, z ∈ objs ↔ z ∈ objs') ∧ (h' = h ↔ h'' = h)

theorem Alike.settled {x y : NodeId} {i j : Nat} (ha : h.Alike types x i y j) :
    h.Settled types x i s ↔ h.Settled types y j s := by
  obtain ⟨objs, h', objs', h'', hx, hy, hsame, hkeep⟩ := ha
  constructor
  · rintro ⟨set, hset, hmem⟩
    cases ok_unique hx hset
    obtain rfl := hkeep.mp rfl
    exact ⟨objs', hy, fun z => (hsame z).symm.trans (hmem z)⟩
  · rintro ⟨set, hset, hmem⟩
    cases ok_unique hy hset
    obtain rfl := hkeep.mpr rfl
    exact ⟨objs, hx, fun z => (hsame z).trans (hmem z)⟩

/-- What a projection into a slot leads to is told by the slot alone. -/
theorem project_slot (hv : h.Valid g₀ tys) (ho : h.graph.obj base = .ok ob)
    (hopen : h.opens types base ob offset = true) {root : NodeId} {slot : Nat}
    (hslot : slotOf base ob.kind offset = .ok (root, slot)) (hlt : slot < h.fieldLimit) :
    ∃ objs h', h.project types base offset = .ok (objs, h') ∧
      (∀ x, x ∈ objs ↔ x ∈ h.fields.setAt root slot ∨
        (h.fields.cell? root slot = none ∧ x = h.graph.nodes.size)) ∧
      (h' = h ↔ h.fields.cell? root slot ≠ none) := by
  obtain ⟨objs, h', hproj⟩ := project_within types hv ho ⟨root, slot, hslot, hlt⟩
  refine ⟨objs, h', hproj, ?_⟩
  have hp : Projected h types base ob offset objs h' := ((project_spec hv ho).result hproj).2
  cases hp with
  | itself hclosed =>
    rw [hopen] at hclosed
    cases hclosed
  | collapsed hopen' hslot' hlimit =>
    cases ok_unique hslot hslot'
    exact absurd hlt (Nat.not_lt.mpr hlimit)
  | found hopen' hslot' hlt' hcell =>
    cases ok_unique hslot hslot'
    simp [hcell, IdGrid.setAt_of_cell? hcell]
  | made hopen' hslot' hlt' hcell hadds hkind hmem =>
    cases ok_unique hslot hslot'
    refine ⟨fun x => ?_, ?_⟩
    · rw [hadds.fields]
      simp [hcell, hkind, or_comm]
    · have hne : h' ≠ h := by
        rintro rfl
        exact hv.not_hasObj_size hadds.hasObj_new
      simp [hne, hcell]

/-- Projections into one slot. -/
theorem alike_of_slot (hv : h.Valid g₀ tys) {x y root : NodeId} {i j slot : Nat} {ox oy : ObjNode}
    (hx : h.graph.obj x = .ok ox) (hy : h.graph.obj y = .ok oy) (hxopen : h.opens types x ox i = true)
    (hyopen : h.opens types y oy j = true) (hxslot : slotOf x ox.kind i = .ok (root, slot))
    (hyslot : slotOf y oy.kind j = .ok (root, slot)) (hlt : slot < h.fieldLimit) :
    h.Alike types x i y j := by
  obtain ⟨objs, h', hproj, hmem, hkeep⟩ := project_slot hv hx hxopen hxslot hlt
  obtain ⟨objs', h'', hproj', hmem', hkeep'⟩ := project_slot hv hy hyopen hyslot hlt
  exact ⟨objs, h', objs', h'', hproj, hproj', fun z => (hmem z).trans (hmem' z).symm,
    hkeep.trans hkeep'.symm⟩

/-! ### Two offsets, one after the other or at once -/

section Whole

variable {o f : NodeId} {w : ObjNode} {a b : Nat}

theorem opens_of_closed (hclosed : h.opens types o w a = false) (ha : a ≠ 0) (c : Nat) :
    h.opens types o w c = false := by
  cases hs : w.isSpecial with
  | true => simp [opens, hs]
  | false =>
    rcases (opens_eq_false_iff hs).mp hclosed with hfi | ⟨hzero, -⟩
    · exact (opens_eq_false_iff hs).mpr (Or.inl hfi)
    · exact absurd hzero ha

/-- A projection that leads to the object itself does not count: after it, the object is projected as
    if by both offsets. -/
theorem project_add_of_closed (hv : h.Valid g₀ tys) (ho : h.graph.obj o = .ok w)
    (hclosed : h.opens types o w a = false) (b : Nat) :
    h.project types o b = h.project types o (a + b) := by
  by_cases ha : a = 0
  · rw [ha, Nat.zero_add]
  · rw [project_of_closed hv ho (opens_of_closed hclosed ha b),
      project_of_closed hv ho (opens_of_closed hclosed ha (a + b))]

/-- What a settled projection of a whole object leads to: the object itself, or fields of it. -/
theorem Settled.cases (hs : h.Settled types o a s) (hv : h.Valid g₀ tys) (ho : h.graph.obj o = .ok w)
    (hwhole : w.isField = false) (ha : a < h.fieldLimit) (hf : f ∈ s) :
    (h.opens types o w a = false ∧ f = o) ∨
      (h.opens types o w a = true ∧ ∃ n, h.graph.obj f = .ok n ∧ n.kind = .field o a) := by
  obtain ⟨objs, hproj, hmem⟩ := hs
  cases hopen : h.opens types o w a with
  | false =>
    cases ok_unique hproj (project_of_closed hv ho hopen)
    exact Or.inl ⟨rfl, by simpa using (hmem f).mpr hf⟩
  | true =>
    obtain ⟨objs', h', hproj', hmem', hkeep⟩ := project_slot hv ho hopen (slotOf_of_whole hwhole) ha
    cases ok_unique hproj hproj'
    rcases (hmem' f).mp ((hmem f).mpr hf) with hfield | ⟨hcell, -⟩
    · exact Or.inr ⟨rfl, hv.fields.mp hfield⟩
    · exact absurd hcell (hkeep.mp rfl)

/-- Where a projection leads into a slot, going on from a field in it leads into a slot again, and so does
    the projection of the whole object by both offsets. -/
theorem opens_add (hv : h.Valid g₀ tys) (ho : h.graph.obj o = .ok w) {n : ObjNode}
    (hn : h.graph.obj f = .ok n) (hk : n.kind = .field o a) (hopen : h.opens types o w a = true)
    (hb : 0 < b) : h.opens types f n b = true ∧ h.opens types o w (a + b) = true := by
  have hfi := not_fieldInsensitive_of_opens hopen
  obtain ⟨-, w', hw', -, hm⟩ := hv.fieldOf hn hk
  obtain rfl := ok_unique ho hw'
  have hspecial : w.isSpecial = false := by
    cases hs : w.isSpecial with
    | false => rfl
    | true => simp [opens, hs] at hopen
  have hfspecial : n.isSpecial = false := by simp [ObjNode.isSpecial, hk]
  exact ⟨(opens_eq_true_iff hfspecial).mpr ⟨hm ▸ hfi, by omega⟩,
    (opens_eq_true_iff hspecial).mpr ⟨hfi, by omega⟩⟩

/-- What the first offset led to goes the same way as the whole object by both offsets: it is the object
    itself, or a field that leads to the same slot. -/
theorem Settled.onward (hs : h.Settled types o a s) (hv : h.Valid g₀ tys) (ho : h.graph.obj o = .ok w)
    (hwhole : w.isField = false) (hb : 0 < b) (hlt : a + b < h.fieldLimit)
    (hword : h.fieldLimit ≤ wordLimit) (hf : f ∈ s) :
    h.project types f b = h.project types o (a + b) ∨
      ∃ n, h.graph.obj f = .ok n ∧ slotOf f n.kind b = .ok (o, a + b) ∧
        h.Alike types f b o (a + b) := by
  rcases hs.cases hv ho hwhole (by omega) hf with ⟨hclosed, rfl⟩ | ⟨hopen, n, hn, hk⟩
  · exact Or.inl (project_add_of_closed hv ho hclosed b)
  · obtain ⟨hfopen, hoopen⟩ := opens_add hv ho hn hk hopen hb
    have hslot : slotOf f n.kind b = .ok (o, a + b) := by
      rw [hk, slotOf_field_eq_ok]
      exact ⟨rfl, rfl, by omega⟩
    exact Or.inr ⟨n, hn, hslot,
      alike_of_slot hv hn ho hfopen hoopen hslot (slotOf_of_whole hwhole) hlt⟩

/-- Projecting what the first offset led to by the second one leads to the same objects as projecting
    the whole object by both. -/
theorem Settled.alike (hs : h.Settled types o a s) (hv : h.Valid g₀ tys) (ho : h.graph.obj o = .ok w)
    (hwhole : w.isField = false) (hb : 0 < b) (hlt : a + b < h.fieldLimit)
    (hword : h.fieldLimit ≤ wordLimit) (hf : f ∈ s) : h.Alike types f b o (a + b) := by
  obtain ⟨objs, h', hproj⟩ :=
    project_within types hv ho ⟨o, a + b, slotOf_of_whole hwhole, hlt⟩
  rcases hs.onward hv ho hwhole hb hlt hword hf with heq | ⟨n, hn, hslot, halike⟩
  · exact ⟨objs, h', objs, h', heq.trans hproj, hproj, fun _ => Iff.rfl, Iff.rfl⟩
  · exact halike

/-- Projections of a whole object by the first offset or by both at once, and of what the first offset
    led to by the second, in any order and as often as one likes; with the last answers, one for the
    first offset and one for both. -/
inductive Composing (types : Hierarchy) (o : NodeId) (a b : Nat) (h₀ : Heap) :
    Option IdSet → Option IdSet → Heap → Prop
  | start : Composing types o a b h₀ none none h₀
  | inward {first both : Option IdSet} {h h' : Heap} {objs : IdSet}
    (hrest : Composing types o a b h₀ first both h) (hproj : h.project types o a = .ok (objs, h')) :
    Composing types o a b h₀ (some objs) both h'
  | across {first both : Option IdSet} {h h' : Heap} {objs : IdSet}
    (hrest : Composing types o a b h₀ first both h)
    (hproj : h.project types o (a + b) = .ok (objs, h')) :
    Composing types o a b h₀ first (some objs) h'
  | onward {inner objs : IdSet} {both : Option IdSet} {h h' : Heap} {f : NodeId}
    (hrest : Composing types o a b h₀ (some inner) both h) (hf : f ∈ inner)
    (hproj : h.project types f b = .ok (objs, h')) :
    Composing types o a b h₀ (some inner) (some objs) h'

/-- What holds after such projections: all answers are settled, and only the two slots were filled. -/
structure Composed (g₀ : Graph) (tys : TypeId → Prop) (types : Hierarchy) (o : NodeId) (a b : Nat)
    (h₀ : Heap) (first both : Option IdSet) (h : Heap) : Prop where
  valid : h.Valid g₀ tys
  fills : h₀.Fills (fun root slot => root = o ∧ (slot = a ∨ slot = a + b)) h
  first : ∀ s ∈ first, h.Settled types o a s
  both : ∀ s ∈ both, h.Settled types o (a + b) s

variable {h₀ : Heap} {first both : Option IdSet}

/-- One more projection, which leads to one of the two slots. -/
theorem Composed.next (hc : Composed g₀ tys types o a b h₀ first both h) (ho : h₀.graph.obj o = .ok w)
    {x : NodeId} {n : ObjNode} {i slot : Nat} (hx : h.graph.obj x = .ok n)
    (hslot : slotOf x n.kind i = .ok (o, slot)) (hwhich : slot = a ∨ slot = a + b)
    (hlt : slot < h.fieldLimit) (hproj : h.project types x i = .ok (objs, h')) :
    Composed g₀ tys types o a b h₀ first both h' ∧ h'.Settled types x i objs := by
  have ho' := hc.fills.extend.graph.obj ho
  obtain ⟨hv', hset, hf⟩ := settled_of_project hc.valid hx ⟨o, slot, hslot, hlt⟩ hproj
  refine ⟨⟨hv', hc.fills.trans (hf.mono fun root k hk => ?_), ?_, ?_⟩, hset⟩
  · cases ok_unique hslot hk
    exact ⟨rfl, hwhich⟩
  · exact fun s hs => (hc.first s hs).keep hc.valid hv' hf ho'
  · exact fun s hs => (hc.both s hs).keep hc.valid hv' hf ho'

/-- Composing keeps all answers. -/
theorem Composing.composed (hc : Composing types o a b h₀ first both h) (hv : h₀.Valid g₀ tys)
    (ho : h₀.graph.obj o = .ok w) (hwhole : w.isField = false) (hb : 0 < b) (hlt : a + b < h₀.fieldLimit)
    (hword : h₀.fieldLimit ≤ wordLimit) : Composed g₀ tys types o a b h₀ first both h := by
  induction hc with
  | start => exact ⟨hv, .refl h₀, by simp, by simp⟩
  | inward hrest hproj ih =>
    obtain ⟨hnext, hset⟩ := ih.next ho (ih.fills.extend.graph.obj ho) (slotOf_of_whole hwhole)
      (Or.inl rfl) (by rw [ih.fills.extend.fieldLimit]; omega) hproj
    exact { hnext with first := by simpa using hset }
  | across hrest hproj ih =>
    obtain ⟨hnext, hset⟩ := ih.next ho (ih.fills.extend.graph.obj ho) (slotOf_of_whole hwhole)
      (Or.inr rfl) (by rw [ih.fills.extend.fieldLimit]; omega) hproj
    exact { hnext with both := by simpa using hset }
  | @onward inner objs both h h' f hrest hf hproj ih =>
    have ho' := ih.fills.extend.graph.obj ho
    have hlimit := ih.fills.extend.fieldLimit
    have hlt' : a + b < h.fieldLimit := hlimit ▸ hlt
    rcases (ih.first inner rfl).onward ih.valid ho' hwhole hb hlt' (hlimit ▸ hword) hf with
      heq | ⟨n, hn, hslot, -⟩
    · obtain ⟨hnext, hset⟩ := ih.next ho ho' (slotOf_of_whole hwhole) (Or.inr rfl) hlt' (heq ▸ hproj)
      exact { hnext with both := by simpa using hset }
    · obtain ⟨hnext, hset⟩ := ih.next ho hn hslot (Or.inr rfl) hlt' hproj
      have hlimit' := hnext.fills.extend.fieldLimit
      -- The field was asked, but the answer holds for the whole object as well.
      have halike := (hnext.first inner rfl).alike hnext.valid (hnext.fills.extend.graph.obj ho) hwhole hb
        (hlimit' ▸ hlt) (hlimit' ▸ hword) hf
      exact { hnext with both := by simpa using halike.settled.mp hset }

end Whole

end Heap

/-! ### Runs -/

namespace Solver

/-- In every state of every run, a whole object can be projected by one offset and what this leads to
    by another one, or the whole object by both at once, in any order and again and again: no call
    fails, the two ways lead to the same objects, a question that was answered before is answered the
    same and changes nothing, and no more than one object is made for each of the two slots. -/
theorem projections_compose {d : ProgramDesc} {p : Program} (hbuild : Program.build d = .ok p)
    (types : Hierarchy) (options : Options) (hword : options.maxFieldLimit ≤ wordLimit) {s t : Solver}
    {k : Nat} (hstart : (Solver.new types p.graph options).start = .ok s) (hrun : Run s k t) {o : NodeId}
    {w : ObjNode} (ho : t.graph.obj o = .ok w) (hwhole : w.isField = false) {a b : Nat} (hb : 0 < b)
    (hlt : a + b < options.maxFieldLimit) {first both : Option IdSet} {h : Heap}
    (hc : Heap.Composing types o a b t.heap first both h) :
    t.heap.Fills (fun root slot => root = o ∧ (slot = a ∨ slot = a + b)) h ∧
    (∃ objs h', h.project types o a = .ok (objs, h')) ∧
    (∃ objs h', h.project types o (a + b) = .ok (objs, h')) ∧
    (∀ inner ∈ first, h.Settled types o a inner ∧ ∀ f ∈ inner, h.Alike types f b o (a + b)) ∧
    ∀ outer ∈ both, h.Settled types o (a + b) outer ∧
      ∀ inner ∈ first, ∀ f ∈ inner, h.Settled types f b outer := by
  have hwf := Program.wellFormed_of_build hbuild
  have hs := started_of_start hwf hstart
  obtain ⟨hv, hext⟩ := hrun.extends hwf hs.valid
  have hlimit : t.heap.fieldLimit = options.maxFieldLimit := hext.fieldLimit.trans hs.fieldLimit
  have hcomp := hc.composed hv.heap ho hwhole hb (hlimit ▸ hlt) (hlimit ▸ hword)
  have hlimit' : h.fieldLimit = options.maxFieldLimit := hcomp.fills.extend.fieldLimit.trans hlimit
  have ho' := hcomp.fills.extend.graph.obj ho
  have halike : ∀ inner ∈ first, ∀ f ∈ inner, h.Alike types f b o (a + b) := fun inner hinner f hf =>
    (hcomp.first inner hinner).alike hcomp.valid ho' hwhole hb (hlimit' ▸ hlt) (hlimit' ▸ hword) hf
  refine ⟨hcomp.fills, ?_, ?_, fun inner hinner => ⟨hcomp.first inner hinner, halike inner hinner⟩,
    fun outer houter => ⟨hcomp.both outer houter, fun inner hinner f hf => ?_⟩⟩
  · exact Heap.project_within types hcomp.valid ho' ⟨o, a, Heap.slotOf_of_whole hwhole, by omega⟩
  · exact Heap.project_within types hcomp.valid ho' ⟨o, a + b, Heap.slotOf_of_whole hwhole, by omega⟩
  · exact (halike inner hinner f hf).settled.mpr (hcomp.both outer houter)

/-- A clone in reused memory is asked for a field, and that for the next one, which is what the clone
    has at both offsets. -/
theorem reusedMemory_projections : ∃ p s k t o w inner h f, Program.build reusedMemory = .ok p ∧
    (Solver.new (declaredTypes reusedMemory) p.graph {}).start = .ok s ∧ Run s k t ∧
    t.graph.obj o = .ok w ∧ w.isField = false ∧ t.heap.isClone o = true ∧
    t.heap.project (declaredTypes reusedMemory) o 1 = .ok (inner, h) ∧ f ∈ inner ∧ f ≠ o ∧
    h.Alike (declaredTypes reusedMemory) f 1 o 2 := by
  obtain ⟨p, s, k, t, hbuild, hstart, -, hrun, -, hcheck⟩ :=
    exists_end reusedMemory (declaredTypes reusedMemory) {} (fun _ t => decide (
      (t.graph.obj 12).map ObjNode.isField = .ok false ∧ t.heap.isClone 12 = true ∧
      (t.heap.project (declaredTypes reusedMemory) 12 1).map (fun r => r.1.contains 13) = .ok true))
      (by decide +kernel)
  obtain ⟨hfield, hclone, hnext⟩ := of_decide_eq_true hcheck
  cases ho : t.graph.obj 12 with
  | error e => simp [ho, Except.map] at hfield
  | ok w =>
    cases hproj : t.heap.project (declaredTypes reusedMemory) 12 1 with
    | error e => simp [hproj, Except.map] at hnext
    | ok r =>
      have hwhole : w.isField = false := by simpa [ho, Except.map] using hfield
      have hf : 13 ∈ r.1 := IdSet.mem_iff.mpr (by simpa [hproj, Except.map] using hnext)
      obtain ⟨-, -, -, hinner, -⟩ := projections_compose hbuild (declaredTypes reusedMemory) {}
        (by decide) hstart hrun ho hwhole (b := 1) (by decide) (by decide) (.inward .start hproj)
      exact ⟨p, s, k, t, 12, w, r.1, r.2, 13, hbuild, hstart, hrun, ho, hwhole, hclone, hproj, hf,
        by decide, (hinner r.1 rfl).2 13 hf⟩

end Solver

end PointsTo
