import PointsTo.Proofs.Building
import PointsTo.Proofs.CanonicalTypes

/-! Lookups in the hierarchy of a program.

    A hierarchy is asked for the nodes of canonical types, for their descriptors, and for the ends of
    edges. Where building has checked that types refer to types, and no type is made of itself, all of
    that is there, and the name of a type is spelled out to its end. -/

namespace PointsTo

/-! ### Links that lead back nowhere -/

/-- Where steps up to a number lead to smaller ones only, none of them lead back. -/
theorem not_transGen_self_of_lt {r : Nat → Nat → Prop} {n x : Nat} (h : ∀ y ≤ n, ∀ z, r y z → z < y)
    (hx : Relation.ReflTransGen r n x) : ¬ Relation.TransGen r x x := by
  have hlt : ∀ {y z}, y ≤ n → Relation.TransGen r y z → z < y := by
    intro y z hy hyz
    induction hyz with
    | single hstep => exact h y hy _ hstep
    | tail _ hstep ih => exact (h _ (ih.le.trans hy) _ hstep).trans ih
  intro hxx
  rcases Relation.reflTransGen_iff_eq_or_transGen.mp hx with rfl | hx
  · exact Nat.lt_irrefl _ (hlt le_rfl hxx)
  · exact Nat.lt_irrefl _ (hlt (hlt le_rfl hx).le hxx)

namespace TypeTable

variable {t : TypeTable} {a : Option TypeId} {x y : TypeId}

/-- Pointers, references, arrays and qualifiers never lead from a type back to itself. -/
def Acyclic (t : TypeTable) : Prop := ∀ x, ¬ Relation.TransGen t.Links x x

theorem Acyclic.admitted (ht : t.Acyclic) (hc : t.Closed) : t.Admitted := by
  refine ⟨hc, ?_⟩
  rintro x a b hxa ⟨d, hd, hb⟩ hbx
  exact ht a (.head' ⟨d, hd, Or.inl hb⟩ (hbx.trans hxa))

/-- A table is acyclic if all links lead to types that were declared before. -/
theorem acyclic_of_earlier
    (h : ∀ id ∈ t.ids, ∀ d ∈ t.get? id, ∀ b ∈ d.targets ++ d.qualifies, b < id) : t.Acyclic := by
  refine fun x => not_transGen_self_of_lt (n := x) ?_ .refl
  rintro a - b ⟨d, hd, hb⟩
  exact h a (List.mem_range.mpr (lt_size_of_get? hd)) d hd b (List.mem_append.mpr hb)

/-- Fewer types are reached from the end of a link than from its start. -/
theorem Acyclic.card_reach_lt (ht : t.Acyclic) (hl : t.Links x y) :
    (t.reach (some y)).card < (t.reach (some x)).card := by
  refine Finset.card_lt_card ⟨fun z hz => ?_, fun hsub => ?_⟩
  · obtain ⟨hlt, _, ⟨⟩, hz⟩ := mem_reach.mp hz
    exact mem_reach.mpr ⟨hlt, x, rfl, .head hl hz⟩
  · obtain ⟨d, hd, -⟩ := id hl
    obtain ⟨-, _, ⟨⟩, hyx⟩ := mem_reach.mp (hsub (mem_reach.mpr ⟨lt_size_of_get? hd, x, rfl, .refl⟩))
    exact ht x (.head' hl hyx)

/-- With more links to go than types are reached, a name does not depend on their number. -/
theorem Acyclic.nameUpTo_eq (ht : t.Acyclic) {fuel fuel' : Nat} (h : (t.reach a).card < fuel)
    (h' : (t.reach a).card < fuel') :
    Hierarchy.nameUpTo t fuel a = Hierarchy.nameUpTo t fuel' a := by
  induction fuel generalizing a fuel' with
  | zero => omega
  | succ fuel ih =>
    obtain ⟨fuel', rfl⟩ : ∃ k, fuel' = k + 1 := ⟨fuel' - 1, by omega⟩
    cases a with
    | none => rfl
    | some id =>
      cases hd : t.get? id with
      | none => simp only [Hierarchy.nameUpTo, hd]
      | some d =>
        have hpos : 0 < (t.reach (some id)).card :=
          Finset.card_pos.mpr ⟨id, mem_reach.mpr ⟨lt_size_of_get? hd, id, rfl, .refl⟩⟩
        -- The name of what a link leads to is shorter by one link.
        have hpart : ∀ b, (∀ y ∈ b, t.Links id y) →
            Hierarchy.nameUpTo t fuel b = Hierarchy.nameUpTo t fuel' b := by
          intro b hb
          have hcard : (t.reach b).card < (t.reach (some id)).card := by
            cases b with
            | none => simpa [reach] using hpos
            | some y => exact ht.card_reach_lt (hb y rfl)
          exact ih (by omega) (by omega)
        have htarget : ∀ {how target}, d.kind = .address how target → ∀ y ∈ target, t.Links id y :=
          fun hk y hy => ⟨d, hd, Or.inl (by simpa [TypeDesc.targets, hk] using hy)⟩
        have hbase : ∀ {q base}, d.kind = .qualified q base → ∀ y ∈ base, t.Links id y :=
          fun hk y hy => ⟨d, hd, Or.inr (by simpa [TypeDesc.qualifies, hk] using hy)⟩
        simp only [Hierarchy.nameUpTo, hd]
        cases hk : d.kind with
        | address how target => cases how <;> simp only [hpart target (htarget hk)]
        | array element count =>
          have helement : ∀ y ∈ some element, t.Links id y := fun y hy =>
            ⟨d, hd, Or.inl (by simpa [TypeDesc.targets, hk, eq_comm] using hy)⟩
          simp only [hpart (some element) helement]
        | qualified q base => cases q <;> simp only [hpart base (hbase hk)]
        | basic | record | union | subroutine => rfl

end TypeTable

/-! ### Canonical types are representatives -/

namespace Canonicals

variable {t : TypeTable} {c : Canonicals}

/-- The canonical types found so far are representatives. -/
def Listed (c : Canonicals) : Prop := ∀ (id : TypeId) r, c.types[id]? = some (some r) → r ∈ c.reps

theorem findRep_mem {stripped rep : TypeId} {reps : List TypeId}
    (h : findRep t stripped reps = .ok (some rep)) : rep ∈ reps := by
  induction reps with
  | nil => cases h
  | cons r reps ih =>
    rw [findRep, bind_eq_ok] at h
    obtain ⟨same, -, h⟩ := h
    cases same with
    | true =>
      cases h
      exact List.mem_cons_self
    | false => exact List.mem_cons_of_mem _ (ih h)

theorem Listed.push (h : c.Listed) {r : Option TypeId} {reps : List TypeId}
    (hreps : ∀ x ∈ c.reps, x ∈ reps) (hr : ∀ x ∈ r, x ∈ reps) : Listed ⟨c.types.push r, reps⟩ := by
  intro id x hx
  rw [Array.getElem?_push] at hx
  split at hx
  · exact hr x (by simpa using hx)
  · exact hreps x (h id x hx)

theorem Listed.see {c' : Canonicals} (h : c.Listed) {id : TypeId} (hsee : see t c id = .ok c') :
    c'.Listed := by
  rw [Canonicals.see, bind_eq_ok] at hsee
  obtain ⟨_ | stripped, -, hsee⟩ := hsee
  · cases hsee
    exact h.push (fun _ hx => hx) (by simp)
  · obtain ⟨_ | rep, hfind, hsee⟩ := bind_eq_ok.mp hsee
    · cases hsee
      exact h.push (fun _ hx => List.mem_append_left _ hx) (by simp)
    · cases hsee
      refine h.push (fun _ hx => hx) fun x hx => ?_
      obtain rfl := Option.some.inj hx
      exact findRep_mem hfind

theorem listed_of_ofTable (h : ofTable t = .ok c) : c.Listed :=
  foldlM_result (I := fun _ c => c.Listed) (by simp [Listed, empty])
    (fun _ _ _ _ _ _ hc hsee => hc.see hsee) h

theorem Listed.canonical (h : c.Listed) {a : Option TypeId} {r : TypeId}
    (hr : c.canonical a = some r) : r ∈ c.reps := by
  rw [Canonicals.canonical, Option.bind_eq_some_iff] at hr
  obtain ⟨id, -, hid⟩ := hr
  exact h id r (Option.join_eq_some_iff.mp hid)

end Canonicals

/-! ### Hierarchies -/

namespace Hierarchy

/-- The list has all types in it that are their own canonical types, and no others. -/
def Enumerates (h : Hierarchy) (tys : List TypeId) : Prop :=
  ∀ ty, ty ∈ tys ↔ h.canonical (some ty) = some ty

theorem Enumerates.perm {h : Hierarchy} {tys tys' : List TypeId} (h' : h.Enumerates tys)
    (hp : tys'.Perm tys) : h.Enumerates tys' :=
  fun ty => hp.mem_iff.trans (h' ty)

/-- What the canonical types in the hierarchy of a table are like. -/
structure Represents (h : Hierarchy) (t : TypeTable) : Prop where
  table : h.table = t
  nodes : h.Enumerates h.canonicals.reps
  canonical : ∀ {a c}, h.canonical a = some c → h.canonical (some c) = some c
  outside : ∀ {id}, t.size ≤ id → h.canonical (some id) = none
  congr : ∀ {a b}, t.equiv a b = .ok true → h.canonical a = h.canonical b

theorem ofTable_represents {t : TypeTable} (ht : t.Admitted) :
    ∃ h, ofTable t = .ok h ∧ h.Represents t := by
  obtain ⟨c, hc, hseen⟩ := Canonicals.ofTable_spec ht
  have hlisted := Canonicals.listed_of_ofTable hc
  refine ⟨_, by rw [ofTable, hc]; rfl, rfl, fun ty => ?_, fun ha => ?_, fun hid => ?_, fun hab => ?_⟩
  · exact ⟨hseen.canonical_rep ht, hlisted.canonical⟩
  · exact hseen.canonical_rep ht (hlisted.canonical ha)
  · have hnone := Array.getElem?_eq_none (hseen.size.trans_le hid)
    simp only [Hierarchy.canonical, Canonicals.canonical, Option.bind_some, hnone, Option.join_none]
  · exact hseen.canonical_congr ht hab

/-- Everything that a hierarchy is asked for is there. -/
structure Complete (h : Hierarchy) : Prop where
  /-- Canonical types are nodes of the hierarchy. -/
  nodes : ∀ {a c}, h.canonical a = some c → c ∈ h.canonicals.reps
  /-- Nodes are types of the table. -/
  described : ∀ {c}, c ∈ h.canonicals.reps → ∃ d, h.table.get? c = some d
  /-- Edges connect nodes. -/
  edges : ∀ e ∈ h.edges, e.src ∈ h.canonicals.reps ∧ e.dst ∈ h.canonicals.reps
  /-- More links do not make a name longer. -/
  names : ∀ a fuel, h.table.size < fuel → nameUpTo h.table fuel a = h.typeName a

theorem edgesInto_ends {t : TypeTable} {c : Canonicals} (hc : c.Listed) {ty : TypeId}
    {e : HierarchyEdge} (he : e ∈ edgesInto t c ty) : e.src ∈ c.reps ∧ e.dst = ty := by
  have hmember : ∀ {members x}, x ∈ Layout.memberTypes c members → x ∈ c.reps := by
    intro members x hx
    obtain ⟨m, -, hm⟩ := List.mem_filterMap.mp hx
    exact hc.canonical hm
  unfold edgesInto at he
  split at he
  · simp only [List.mem_filter, List.mem_append, List.mem_map] at he
    obtain ⟨⟨x, hx, rfl⟩ | ⟨x, hx, rfl⟩, -⟩ := he
    · exact ⟨hmember hx, rfl⟩
    · exact ⟨hmember hx, rfl⟩
  · cases he

/-- The hierarchy of a table can be built, and everything in it is there. -/
theorem ofTable_complete {t : TypeTable} (hc : t.Closed) (ht : t.Acyclic) :
    ∃ h, ofTable t = .ok h ∧ h.Complete := by
  obtain ⟨c, hof, hseen⟩ := Canonicals.ofTable_spec (ht.admitted hc)
  have hlisted := Canonicals.listed_of_ofTable hof
  refine ⟨_, by rw [ofTable, hof]; rfl, ⟨?_, fun hrep => ?_, fun e he => ?_, fun a fuel h => ?_⟩⟩
  · exact hlisted.canonical
  · obtain ⟨first, -, hs⟩ := hseen.reps hrep
    exact TypeTable.exists_get? hs.lt_size
  · obtain ⟨ty, hty, he⟩ := List.mem_flatMap.mp he
    obtain ⟨hsrc, rfl⟩ := edgesInto_ends hlisted he
    exact ⟨hsrc, hty⟩
  · have hcard : (t.reach a).card ≤ t.size := TypeTable.card_reach_le
    exact ht.nameUpTo_eq (hcard.trans_lt h) (by show _ < t.size + 2; omega)

end Hierarchy

/-! ### The types of a built program -/

namespace Builder

theorem forM_eq_ok {ε : Type} {f : TypeId → Except ε Unit} {ids : List TypeId} :
    ids.forM f = .ok () ↔ ∀ id ∈ ids, f id = .ok () := by
  induction ids with
  | nil => simp [pure_eq_ok]
  | cons id ids ih =>
    rw [List.forall_mem_cons, ← ih]
    exact bind_eq_ok.trans ⟨fun ⟨_, hid, hids⟩ => ⟨hid, hids⟩, fun ⟨hid, hids⟩ => ⟨(), hid, hids⟩⟩

theorem checkId_eq_ok {t : TypeTable} {referrer : Option TypeId} {id : TypeId} :
    checkId t referrer id = .ok () ↔ id < t.size := by
  unfold checkId
  split
  · exact iff_of_true rfl ‹_›
  · exact iff_of_false (fun h => by cases h) ‹_›

theorem checkReferences_eq_ok {t : TypeTable} : t.ids.forM (checkReferences t) = .ok () ↔ t.Closed := by
  rw [forM_eq_ok]
  constructor
  · intro h id d hd r hr
    have hid := h id (List.mem_range.mpr (TypeTable.lt_size_of_get? hd))
    simp only [checkReferences, hd] at hid
    exact checkId_eq_ok.mp (forM_eq_ok.mp hid r hr)
  · intro hc id hid
    obtain ⟨d, hd⟩ := TypeTable.exists_get? (List.mem_range.mp hid)
    simp only [checkReferences, hd]
    exact forM_eq_ok.mpr fun r hr => checkId_eq_ok.mpr (hc hd r hr)

end Builder

/-- The types of a built program refer to types of the program. -/
theorem Program.closed_of_build {d : ProgramDesc} {p : Program} (h : Program.build d = .ok p) :
    p.types.Closed := by
  obtain ⟨b, rfl, he⟩ := Program.build_spec h
  replace h := (Program.build_eq_ok.mp h).2
  simp only [Program.assemble, Builder.ofTypes, bind_eq_ok] at h
  obtain ⟨-, ⟨_, hrefs, -⟩, -⟩ := h
  rw [he.types, ← Builder.checkReferences_eq_ok]
  exact hrefs

end PointsTo
