import PointsTo.FilterSets
import PointsTo.FlowFacts
import PointsTo.PointerSets
import PointsTo.Worklist
import PointsTo.Proofs.IdSet

/-! What tables of id sets, points-to sets, contents, filters and worklists hold after an update.

    Every update is described by the members of every entry afterwards and by its flag, which is set
    if and only if some entry got a new member. -/

namespace PointsTo

/-! ### Tables with one key -/

namespace IdTable

theorem setAt_insert (t : IdTable) (k : Nat) (s : IdSet) (j : Nat) :
    setAt (t.insert k s) j = if k = j then s else setAt t j := by
  simp only [setAt, Std.TreeMap.getD_insert, Nat.compare_eq_eq]

theorem setAt_of_some {t : IdTable} {k : Nat} {s : IdSet} (h : t[k]? = some s) : t.setAt k = s := by
  rw [setAt, Std.TreeMap.getD_eq_getD_getElem?, h]; rfl

theorem setAt_of_none {t : IdTable} {k : Nat} (h : t[k]? = none) : t.setAt k = ∅ := by
  rw [setAt, Std.TreeMap.getD_eq_getD_getElem?, h]; rfl

@[simp] theorem setAt_empty (k : Nat) : setAt (∅ : IdTable) k = ∅ := by
  rw [setAt, Std.TreeMap.getD_emptyc]

/-- An element is in the entry of a key exactly if it is in the key's set. -/
theorem exists_mem_entry_iff {t : IdTable} {k x : Nat} : (∃ s ∈ t[k]?, x ∈ s) ↔ x ∈ t.setAt k := by
  cases hget : t[k]? with
  | none => simp [setAt_of_none hget]
  | some s => simp [setAt_of_some hget]

@[simp] theorem mem_addTo {t : IdTable} {k x j y : Nat} :
    y ∈ (t.addTo k x).2.setAt j ↔ (j = k ∧ y = x) ∨ y ∈ t.setAt j := by
  simp only [addTo, setAt_insert]
  by_cases h : k = j
  · subst h; simp
  · simp [h, Ne.symm h]

theorem addTo_fst {t : IdTable} {k x : Nat} : (t.addTo k x).1 = true ↔ x ∉ t.setAt k :=
  IdSet.insert_fst

@[simp] theorem mem_unionInto {t : IdTable} {k : Nat} {s : IdSet} {j y : Nat} :
    y ∈ (t.unionInto k s).2.setAt j ↔ (j = k ∧ y ∈ s) ∨ y ∈ t.setAt j := by
  simp only [unionInto, setAt_insert]
  by_cases h : k = j
  · subst h; simp [or_comm]
  · simp [h, Ne.symm h]

theorem unionInto_fst {t : IdTable} {k : Nat} {s : IdSet} :
    (t.unionInto k s).1 = true ↔ ∃ x ∈ s, x ∉ t.setAt k :=
  IdSet.union_fst

theorem getElem?_unionInto (t : IdTable) (k : Nat) (s : IdSet) (j : Nat) :
    (t.unionInto k s).2[j]? = if k = j then some ((t.setAt k).union s).2 else t[j]? := by
  simp only [unionInto, Std.TreeMap.getElem?_insert, Nat.compare_eq_eq]

end IdTable

/-! ### Tables with two keys -/

namespace IdGrid

theorem rowAt_insert (g : IdGrid) (i : Nat) (t : IdTable) (i' : Nat) :
    rowAt (g.insert i t) i' = if i = i' then t else rowAt g i' := by
  simp only [rowAt, Std.TreeMap.getD_insert, Nat.compare_eq_eq]

@[simp] theorem setAt_empty (i j : Nat) : setAt (∅ : IdGrid) i j = ∅ := by
  rw [setAt, rowAt, Std.TreeMap.getD_emptyc, IdTable.setAt_empty]

@[simp] theorem mem_addTo {g : IdGrid} {i j x i' j' y : Nat} :
    y ∈ (g.addTo i j x).2.setAt i' j' ↔ (i' = i ∧ j' = j ∧ y = x) ∨ y ∈ g.setAt i' j' := by
  simp only [setAt, addTo, rowAt_insert]
  by_cases h : i = i'
  · subst h; simp
  · simp [h, Ne.symm h]

theorem cell?_addTo (g : IdGrid) (i j x i' j' : Nat) :
    (g.addTo i j x).2.cell? i' j' =
      if i = i' ∧ j = j' then some ((g.setAt i j).insert x).2 else g.cell? i' j' := by
  simp only [cell?, addTo, rowAt_insert, setAt]
  by_cases h : i = i'
  · subst h
    simp only [if_true, IdTable.addTo, Std.TreeMap.getElem?_insert, Nat.compare_eq_eq, true_and]
  · simp [h]

theorem setAt_of_cell? {g : IdGrid} {i j : Nat} {s : IdSet} (h : g.cell? i j = some s) :
    g.setAt i j = s :=
  IdTable.setAt_of_some h

theorem setAt_of_cell?_none {g : IdGrid} {i j : Nat} (h : g.cell? i j = none) :
    g.setAt i j = ∅ :=
  IdTable.setAt_of_none h

@[simp] theorem cell?_empty (i j : Nat) : cell? (∅ : IdGrid) i j = none := by
  simp [cell?, rowAt]

@[simp] theorem mem_unionInto {g : IdGrid} {i j : Nat} {s : IdSet} {i' j' y : Nat} :
    y ∈ (g.unionInto i j s).2.setAt i' j' ↔ (i' = i ∧ j' = j ∧ y ∈ s) ∨ y ∈ g.setAt i' j' := by
  rw [unionInto]
  by_cases hs : s.isEmpty = true
  · have hnone := IdSet.isEmpty_iff.mp hs
    simp [hs, hnone y]
  · simp only [hs, Bool.false_eq_true, if_false, setAt, rowAt_insert]
    by_cases h : i = i'
    · subst h; simp
    · simp [h, Ne.symm h]

theorem unionInto_fst {g : IdGrid} {i j : Nat} {s : IdSet} :
    (g.unionInto i j s).1 = true ↔ ∃ x ∈ s, x ∉ g.setAt i j := by
  rw [unionInto]
  by_cases hs : s.isEmpty = true
  · have hnone := IdSet.isEmpty_iff.mp hs
    simp [hs, hnone]
  · simp only [hs, Bool.false_eq_true, if_false]
    exact IdTable.unionInto_fst

end IdGrid

/-! ### Points-to sets -/

namespace PointerSets

@[simp] theorem pts_empty (v : Nat) : (∅ : PointerSets).pts v = ∅ := IdTable.setAt_empty v

@[simp] theorem mem_pts_add {p : PointerSets} {var elem v o : Nat} :
    o ∈ (p.add var elem).2.pts v ↔ (v = var ∧ o = elem) ∨ o ∈ p.pts v :=
  IdTable.mem_addTo

theorem add_fst {p : PointerSets} {var elem : Nat} : (p.add var elem).1 = true ↔ elem ∉ p.pts var :=
  IdTable.addTo_fst

@[simp] theorem mem_pts_addAll {p : PointerSets} {var : Nat} {elems : IdSet} {v o : Nat} :
    o ∈ (p.addAll var elems).2.pts v ↔ (v = var ∧ o ∈ elems) ∨ o ∈ p.pts v :=
  IdTable.mem_unionInto

theorem addAll_fst {p : PointerSets} {var : Nat} {elems : IdSet} :
    (p.addAll var elems).1 = true ↔ ∃ o ∈ elems, o ∉ p.pts var :=
  IdTable.unionInto_fst

@[simp] theorem mem_pts_copy {p : PointerSets} {dst src v o : Nat} :
    o ∈ (p.copy dst src).2.pts v ↔ (v = dst ∧ o ∈ p.pts src) ∨ o ∈ p.pts v := by
  rw [copy]
  by_cases h : dst = src
  · subst h
    rw [if_pos rfl]
    constructor
    · exact Or.inr
    · rintro (⟨rfl, ho⟩ | ho) <;> exact ho
  · rw [if_neg h]
    cases hget : p.get? src with
    | none =>
      have hsrc : p.pts src = ∅ := IdTable.setAt_of_none hget
      simp [hsrc]
    | some s =>
      have hsrc : p.pts src = s := IdTable.setAt_of_some hget
      simp [hsrc]

theorem copy_fst {p : PointerSets} {dst src : Nat} :
    (p.copy dst src).1 = true ↔ ∃ o ∈ p.pts src, o ∉ p.pts dst := by
  rw [copy]
  by_cases h : dst = src
  · subst h; simp
  · rw [if_neg h]
    cases hget : p.get? src with
    | none =>
      have hsrc : p.pts src = ∅ := IdTable.setAt_of_none hget
      simp [hsrc]
    | some s =>
      have hsrc : p.pts src = s := IdTable.setAt_of_some hget
      rw [hsrc]
      exact addAll_fst

theorem pts_add (p : PointerSets) (var elem v : Nat) :
    (p.add var elem).2.pts v = if var = v then ((p.pts var).insert elem).2 else p.pts v :=
  IdTable.setAt_insert ..

theorem pts_addAll (p : PointerSets) (var : Nat) (elems : IdSet) (v : Nat) :
    (p.addAll var elems).2.pts v = if var = v then ((p.pts var).union elems).2 else p.pts v :=
  IdTable.setAt_insert ..

/-- Adding what makes no difference to a variable's set makes none to any. -/
theorem addAll_of_union {p : PointerSets} {var : Nat} {elems : IdSet}
    (h : (p.pts var).union elems = (false, p.pts var)) :
    (p.addAll var elems).1 = false ∧ ∀ v, (p.addAll var elems).2.pts v = p.pts v := by
  refine ⟨congrArg Prod.fst h, fun v => ?_⟩
  rw [pts_addAll, h]
  split
  case isTrue hv => rw [hv]
  case isFalse => rfl

/-- Copying is adding what the source points to, also where it does nothing. -/
theorem copy_eq_addAll (p : PointerSets) (dst src : Nat) :
    (p.copy dst src).1 = (p.addAll dst (p.pts src)).1 ∧
      ∀ v, (p.copy dst src).2.pts v = (p.addAll dst (p.pts src)).2.pts v := by
  rw [copy]
  by_cases h : dst = src
  · obtain ⟨hflag, hpts⟩ := addAll_of_union (IdSet.union_self (p.pts dst))
    rw [if_pos h, ← h, hflag]
    exact ⟨rfl, fun v => (hpts v).symm⟩
  · rw [if_neg h]
    cases hget : p.get? src with
    | some s =>
      have hsrc : p.pts src = s := IdTable.setAt_of_some hget
      rw [hsrc]
      exact ⟨rfl, fun _ => rfl⟩
    | none =>
      have hsrc : p.pts src = ∅ := IdTable.setAt_of_none hget
      obtain ⟨hflag, hpts⟩ := addAll_of_union (IdSet.union_empty (p.pts dst))
      rw [hsrc, hflag]
      exact ⟨rfl, fun v => (hpts v).symm⟩

end PointerSets

/-! ### Contents of objects -/

namespace FlowFacts

/-- What an object holds on the edges that leave a statement. -/
def leaving (f : FlowFacts) (fromOut : Bool) (st o : Nat) : IdSet :=
  if fromOut then f.outs.setAt st o else f.ins.setAt st o

@[simp] theorem ins_addOut (f : FlowFacts) (loc obj : Nat) (s : IdSet) :
    (f.addOut loc obj s).2.ins = f.ins := rfl

@[simp] theorem mem_outs_addOut {f : FlowFacts} {loc obj : Nat} {s : IdSet} {l o x : Nat} :
    x ∈ (f.addOut loc obj s).2.outs.setAt l o ↔
      (l = loc ∧ o = obj ∧ x ∈ s) ∨ x ∈ f.outs.setAt l o :=
  IdGrid.mem_unionInto

theorem addOut_fst {f : FlowFacts} {loc obj : Nat} {s : IdSet} :
    (f.addOut loc obj s).1 = true ↔ ∃ x ∈ s, x ∉ f.outs.setAt loc obj :=
  IdGrid.unionInto_fst

/-- What a walk over a row of sets makes of another row: the sets of the objects that are not `killed`
    grow by those of the walk, and all others stay. -/
structure TakesIn (killed : Option Nat) (row : List (Nat × IdSet)) (changed : Bool) (t : IdTable)
    (r : Bool × IdTable) : Prop where
  taken : ∀ o s, (o, s) ∈ row → some o ≠ killed → r.2[o]? = some ((t.setAt o).union s).2
  kept : ∀ o, (∀ s, (o, s) ∈ row → some o = killed) → r.2[o]? = t[o]?
  flag : r.1 = true ↔ changed = true ∨
    ∃ o s, (o, s) ∈ row ∧ some o ≠ killed ∧ ∃ x ∈ s, x ∉ t.setAt o

/-- The objects of the row are different, so no step of the walk meets what another one changed. -/
theorem takesIn_foldl (killed : Option Nat) {row : List (Nat × IdSet)}
    (hrow : row.Pairwise fun e e' => e.1 ≠ e'.1) (changed : Bool) (t : IdTable) :
    TakesIn killed row changed t (row.foldl (takeIn killed) (changed, t)) := by
  induction row generalizing changed t with
  | nil => exact ⟨fun _ _ h => (List.not_mem_nil h).elim, fun _ _ => rfl, by simp⟩
  | cons e row ih =>
    obtain ⟨o, s⟩ := e
    obtain ⟨hne, hrow⟩ := List.pairwise_cons.mp hrow
    rw [List.foldl_cons, takeIn]
    by_cases hk : some o = killed
    · rw [if_pos hk]
      obtain ⟨htaken, hkept, hflag⟩ := ih hrow changed t
      refine ⟨fun o' s' hs' hne' => ?_, fun o' ho' => ?_, hflag.trans (or_congr_right ?_)⟩
      · rcases List.mem_cons.mp hs' with heq | hs'
        · injection heq with ho
          exact absurd (ho ▸ hk) hne'
        · exact htaken o' s' hs' hne'
      · exact hkept o' fun s' hs' => ho' s' (List.mem_cons_of_mem _ hs')
      · constructor
        · rintro ⟨o', s', hs', hne', hx⟩
          exact ⟨o', s', List.mem_cons_of_mem _ hs', hne', hx⟩
        · rintro ⟨o', s', hs', hne', hx⟩
          rcases List.mem_cons.mp hs' with heq | hs'
          · injection heq with ho
            exact absurd (ho ▸ hk) hne'
          · exact ⟨o', s', hs', hne', hx⟩
    · rw [if_neg hk]
      obtain ⟨htaken, hkept, hflag⟩ := ih hrow (changed || (t.unionInto o s).1) (t.unionInto o s).2
      have hother : ∀ o', o' ≠ o → (t.unionInto o s).2.setAt o' = t.setAt o' := fun o' ho' =>
        (IdTable.setAt_insert ..).trans (if_neg ho'.symm)
      have hnew : ∀ o' s', (o', s') ∈ row → o' ≠ o := fun o' s' hs' => (hne _ hs').symm
      refine ⟨fun o' s' hs' hne' => ?_, fun o' ho' => ?_, hflag.trans ?_⟩
      · rcases List.mem_cons.mp hs' with heq | hs'
        · injection heq with ho hs
          subst ho hs
          rw [hkept o' fun s' hs' => absurd rfl (hnew o' s' hs'), IdTable.getElem?_unionInto, if_pos rfl]
        · rw [htaken o' s' hs' hne', hother o' (hnew o' s' hs')]
      · have hoo' : o ≠ o' := by
          rintro rfl
          exact hk (ho' s List.mem_cons_self)
        rw [hkept o' fun s' hs' => ho' s' (List.mem_cons_of_mem _ hs'), IdTable.getElem?_unionInto,
          if_neg hoo']
      · rw [Bool.or_eq_true, IdTable.unionInto_fst, or_assoc]
        refine or_congr_right ⟨?_, ?_⟩
        · rintro (hx | ⟨o', s', hs', hne', hx⟩)
          · exact ⟨o, s, List.mem_cons_self, hk, hx⟩
          · rw [hother o' (hnew o' s' hs')] at hx
            exact ⟨o', s', List.mem_cons_of_mem _ hs', hne', hx⟩
        · rintro ⟨o', s', hs', hne', hx⟩
          rcases List.mem_cons.mp hs' with heq | hs'
          · injection heq with ho hs
            subst ho hs
            exact Or.inl hx
          · rw [← hother o' (hnew o' s' hs')] at hx
            exact Or.inr ⟨o', s', hs', hne', hx⟩

/-- The contents that a walk over a whole row leads to. -/
theorem TakesIn.mem_setAt {killed : Option Nat} {row t : IdTable} {changed : Bool} {r : Bool × IdTable}
    (h : TakesIn killed row.toList changed t r) {o x : Nat} :
    x ∈ r.2.setAt o ↔ (some o ≠ killed ∧ x ∈ row.setAt o) ∨ x ∈ t.setAt o := by
  by_cases hk : some o = killed
  · have hkept : r.2[o]? = t[o]? := h.kept o fun _ _ => hk
    rw [← IdTable.exists_mem_entry_iff, hkept, IdTable.exists_mem_entry_iff]
    simp [hk]
  · cases hget : row[o]? with
    | none =>
      have hkept : r.2[o]? = t[o]? := h.kept o fun s hs => by
        rw [Std.TreeMap.mem_toList_iff_getElem?_eq_some, hget] at hs
        cases hs
      rw [← IdTable.exists_mem_entry_iff, hkept, IdTable.exists_mem_entry_iff,
        IdTable.setAt_of_none hget]
      simp
    | some s =>
      have htaken := h.taken o s (Std.TreeMap.mem_toList_iff_getElem?_eq_some.mpr hget) hk
      rw [IdTable.setAt_of_some htaken, IdTable.setAt_of_some hget, IdSet.mem_union]
      tauto

theorem takesIn_carryOut (f : FlowFacts) (loc : Nat) (killed : Option Nat)
    {row : List (Nat × IdSet)} (hrow : row.Pairwise fun e e' => e.1 ≠ e'.1) :
    TakesIn killed row false (f.outs.rowAt loc)
      ((f.carryOut loc killed row).1, (f.carryOut loc killed row).2.outs.rowAt loc) := by
  have hwalk := takesIn_foldl killed hrow false (f.outs.rowAt loc)
  rw [carryOut, IdGrid.rowAt_insert, if_pos rfl]
  exact hwalk

theorem pairwise_toList (row : IdTable) : row.toList.Pairwise fun e e' => e.1 ≠ e'.1 :=
  Std.TreeMap.distinct_keys_toList.imp fun hne heq => hne (Nat.compare_eq_eq.mpr heq)

theorem takesIn_outFromIn (f : FlowFacts) (loc : Nat) (killed : Option Nat) :
    TakesIn killed (f.ins.rowAt loc).toList false (f.outs.rowAt loc)
      ((f.outFromIn loc killed).1, (f.outFromIn loc killed).2.outs.rowAt loc) := by
  rw [outFromIn]
  cases hget : f.ins[loc]? with
  | none =>
    have hrow : f.ins.rowAt loc = ∅ := by
      rw [IdGrid.rowAt, Std.TreeMap.getD_eq_getD_getElem?, hget]; rfl
    rw [hrow]
    exact takesIn_foldl killed List.Pairwise.nil false (f.outs.rowAt loc)
  | some row =>
    have hrow : f.ins.rowAt loc = row := by
      rw [IdGrid.rowAt, Std.TreeMap.getD_eq_getD_getElem?, hget]; rfl
    rw [hrow]
    exact takesIn_carryOut f loc killed (pairwise_toList row)

theorem ins_outFromIn (f : FlowFacts) (loc : Nat) (killed : Option Nat) :
    (f.outFromIn loc killed).2.ins = f.ins := by
  rw [outFromIn]
  split <;> rfl

theorem rowAt_outFromIn_of_ne (f : FlowFacts) {loc l : Nat} (killed : Option Nat) (hne : l ≠ loc) :
    (f.outFromIn loc killed).2.outs.rowAt l = f.outs.rowAt l := by
  rw [outFromIn]
  split
  · rfl
  · exact (IdGrid.rowAt_insert ..).trans (if_neg hne.symm)

theorem mem_outs_outFromIn {f : FlowFacts} {loc : Nat} {killed : Option Nat} {l o x : Nat} :
    x ∈ (f.outFromIn loc killed).2.outs.setAt l o ↔
      (l = loc ∧ some o ≠ killed ∧ x ∈ f.ins.setAt loc o) ∨ x ∈ f.outs.setAt l o := by
  by_cases hl : l = loc
  · subst hl
    simp only [true_and]
    exact (takesIn_outFromIn f l killed).mem_setAt
  · rw [IdGrid.setAt, rowAt_outFromIn_of_ne f killed hl]
    simp [hl, IdGrid.setAt]

theorem outFromIn_fst {f : FlowFacts} {loc : Nat} {killed : Option Nat} :
    (f.outFromIn loc killed).1 = true ↔
      ∃ o x, some o ≠ killed ∧ x ∈ f.ins.setAt loc o ∧ x ∉ f.outs.setAt loc o := by
  refine (takesIn_outFromIn f loc killed).flag.trans ?_
  simp only [Bool.false_eq_true, false_or, Std.TreeMap.mem_toList_iff_getElem?_eq_some]
  constructor
  · rintro ⟨o, s, hs, hne, x, hx, hxf⟩
    exact ⟨o, x, hne, IdTable.exists_mem_entry_iff.mp ⟨s, hs, hx⟩, hxf⟩
  · rintro ⟨o, x, hne, hx, hxf⟩
    obtain ⟨s, hs, hxs⟩ := IdTable.exists_mem_entry_iff.mpr hx
    exact ⟨o, s, hs, hne, x, hxs, hxf⟩

@[simp] theorem outs_inFromIn (f : FlowFacts) (src obj dst : Nat) :
    (f.inFromIn src obj dst).2.outs = f.outs := rfl

@[simp] theorem mem_ins_inFromIn {f : FlowFacts} {src obj dst l o x : Nat} :
    x ∈ (f.inFromIn src obj dst).2.ins.setAt l o ↔
      (l = dst ∧ o = obj ∧ x ∈ f.ins.setAt src obj) ∨ x ∈ f.ins.setAt l o :=
  IdGrid.mem_unionInto

theorem inFromIn_fst {f : FlowFacts} {src obj dst : Nat} :
    (f.inFromIn src obj dst).1 = true ↔
      ∃ x ∈ f.ins.setAt src obj, x ∉ f.ins.setAt dst obj :=
  IdGrid.unionInto_fst

@[simp] theorem outs_inFromOut (f : FlowFacts) (src obj dst : Nat) :
    (f.inFromOut src obj dst).2.outs = f.outs := rfl

@[simp] theorem mem_ins_inFromOut {f : FlowFacts} {src obj dst l o x : Nat} :
    x ∈ (f.inFromOut src obj dst).2.ins.setAt l o ↔
      (l = dst ∧ o = obj ∧ x ∈ f.outs.setAt src obj) ∨ x ∈ f.ins.setAt l o :=
  IdGrid.mem_unionInto

theorem inFromOut_fst {f : FlowFacts} {src obj dst : Nat} :
    (f.inFromOut src obj dst).1 = true ↔
      ∃ x ∈ f.outs.setAt src obj, x ∉ f.ins.setAt dst obj :=
  IdGrid.unionInto_fst

end FlowFacts

/-! ### Filters -/

namespace FilterSets

theorem isFiltered_iff {f : FilterSets} {loc obj : Nat} :
    f.isFiltered loc obj = true ↔ obj ∈ f.setAt loc := Iff.rfl

@[simp] theorem isFiltered_empty (loc obj : Nat) : (∅ : FilterSets).isFiltered loc obj = false := by
  show (IdTable.setAt ∅ loc).contains obj = false
  rw [IdTable.setAt_empty, IdSet.contains_eq_decide]
  simp

@[simp] theorem isFiltered_filter {f : FilterSets} {loc obj l o : Nat} :
    (f.filter loc obj).2.isFiltered l o = true ↔
      (l = loc ∧ o = obj) ∨ f.isFiltered l o = true :=
  IdTable.mem_addTo

end FilterSets

/-! ### Worklists -/

namespace Worklist

@[simp] theorem items_empty : (∅ : Worklist).items = [] := rfl

@[simp] theorem mem_push {w : Worklist} {x y : Nat} : y ∈ (w.push x).2.items ↔ y = x ∨ y ∈ w.items := by
  rw [push]
  by_cases h : x ∈ w.items
  · rw [dif_pos h]
    constructor
    · exact Or.inr
    · rintro (rfl | hy)
      · exact h
      · exact hy
  · rw [dif_neg h]
    simp [or_comm]

@[simp] theorem mem_pushAll {w : Worklist} {xs : List Nat} {y : Nat} :
    y ∈ (w.pushAll xs).items ↔ y ∈ xs ∨ y ∈ w.items := by
  induction xs generalizing w with
  | nil => simp [pushAll]
  | cons x xs ih =>
    have hstep : w.pushAll (x :: xs) = (w.push x).2.pushAll xs := rfl
    rw [hstep, ih, mem_push, List.mem_cons]
    tauto

theorem pop?_none {w : Worklist} : w.pop? = none ↔ w.items = [] := by
  rcases w with ⟨_ | ⟨x, xs⟩, h⟩ <;> simp [pop?]

theorem pop?_some {w rest : Worklist} {x : Nat} :
    w.pop? = some (x, rest) ↔ w.items = x :: rest.items := by
  rcases w with ⟨_ | ⟨y, ys⟩, h⟩
  · simp [pop?]
  · cases rest
    simp [pop?]

end Worklist

end PointsTo
