import PointsTo.Proofs.SetRegisters
import PointsTo.Proofs.Tables

/-! The contents of objects before and after statements, under any operations.

    Four operations fill the IN and OUT rows of statements, and rows and entries are made on the way.
    Three of the operations make no entry for an empty set; the fourth carries a whole row over and
    makes an entry for every object in it. Still no entry is ever empty, no set loses an element, every
    operation tells whether some set changed, and the order in which a row is walked makes no
    difference. -/

namespace PointsTo

/-! ### Entries are never empty -/

theorem IdGrid.cell?_unionInto (g : IdGrid) (i j : Nat) (s : IdSet) (i' j' : Nat) :
    (g.unionInto i j s).2.cell? i' j' =
      if s.isEmpty = false ∧ i = i' ∧ j = j' then some ((g.setAt i j).union s).2
      else g.cell? i' j' := by
  rw [unionInto]
  cases s.isEmpty with
  | true => simp
  | false =>
    simp only [Bool.false_eq_true, if_false, true_and, cell?, setAt, rowAt_insert]
    by_cases hi : i = i'
    · subst hi
      simp only [if_true, true_and, IdTable.getElem?_unionInto]
    · simp only [hi, if_false, false_and]

/-- No entry is an empty set. -/
def IdGrid.Filled (g : IdGrid) : Prop := ∀ i j s, g.cell? i j = some s → ∃ x, x ∈ s

theorem IdGrid.filled_empty : IdGrid.Filled ∅ := fun i j s hs => by
  rw [cell?_empty] at hs
  cases hs

theorem IdGrid.Filled.unionInto {g : IdGrid} (hg : g.Filled) (i j : Nat) (s : IdSet) :
    (g.unionInto i j s).2.Filled := by
  intro i' j' s' hs'
  rw [cell?_unionInto] at hs'
  split at hs'
  case isTrue h =>
    obtain ⟨x, hx⟩ := IdSet.exists_mem_of_not_isEmpty h.1
    obtain rfl := Option.some_inj.mp hs'
    exact ⟨x, IdSet.mem_union.mpr (Or.inr hx)⟩
  case isFalse => exact hg i' j' s' hs'

namespace FlowFacts

variable {f : FlowFacts}

/-- No entry before or after a statement is an empty set. -/
structure Filled (f : FlowFacts) : Prop where
  ins : f.ins.Filled
  outs : f.outs.Filled

theorem filled_empty : (∅ : FlowFacts).Filled := ⟨IdGrid.filled_empty, IdGrid.filled_empty⟩

/-- The row that is carried over holds no empty set, so none is put after the statement. -/
theorem Filled.outFromIn (hf : f.Filled) (loc : Nat) (killed : Option Nat) :
    (f.outFromIn loc killed).2.Filled := by
  have hwalk := takesIn_outFromIn f loc killed
  refine ⟨(ins_outFromIn f loc killed).symm ▸ hf.ins, fun l o s hs => ?_⟩
  by_cases hl : l = loc
  · subst hl
    by_cases hin : ∃ t, f.ins.cell? l o = some t ∧ some o ≠ killed
    · obtain ⟨t, ht, hne⟩ := hin
      obtain ⟨x, hx⟩ := hf.ins l o t ht
      have htaken := hwalk.taken o t (Std.TreeMap.mem_toList_iff_getElem?_eq_some.mpr ht) hne
      obtain rfl := Option.some_inj.mp (htaken.symm.trans hs)
      exact ⟨x, IdSet.mem_union.mpr (Or.inr hx)⟩
    · have hkept := hwalk.kept o fun t ht => by
        by_contra hne
        exact hin ⟨t, Std.TreeMap.mem_toList_iff_getElem?_eq_some.mp ht, hne⟩
      exact hf.outs l o s (hkept.symm.trans hs)
  · rw [IdGrid.cell?, rowAt_outFromIn_of_ne f killed hl] at hs
    exact hf.outs l o s hs

/-- Where no entry is empty, the objects with an entry are those that hold something. -/
theorem Filled.mem_inObjects (hf : f.Filled) {loc o : Nat} :
    o ∈ f.inObjects loc ↔ ∃ x, x ∈ f.ins.setAt loc o := by
  rw [inObjects, Std.TreeMap.mem_keys, Std.TreeMap.mem_iff_isSome_getElem?, Option.isSome_iff_exists]
  constructor
  · rintro ⟨s, hs⟩
    obtain ⟨x, hx⟩ := hf.ins loc o s hs
    exact ⟨x, IdTable.exists_mem_entry_iff.mp ⟨s, hs, hx⟩⟩
  · rintro ⟨x, hx⟩
    obtain ⟨s, hs, -⟩ := IdTable.exists_mem_entry_iff.mpr hx
    exact ⟨s, hs⟩

/-! ### The order of a row -/

/-- Two walks over the same entries end alike, in whichever order they met them. -/
theorem TakesIn.unique {killed : Option Nat} {row row' : List (Nat × IdSet)} {changed : Bool}
    {t : IdTable} {r r' : Bool × IdTable} (hperm : row'.Perm row) (h : TakesIn killed row changed t r)
    (h' : TakesIn killed row' changed t r') : r'.1 = r.1 ∧ ∀ o : Nat, r'.2[o]? = r.2[o]? := by
  have hmem : ∀ o s, (o, s) ∈ row' ↔ (o, s) ∈ row := fun o s => hperm.mem_iff
  constructor
  · rw [Bool.eq_iff_iff, h'.flag, h.flag]
    simp only [hmem]
  · intro o
    by_cases hin : ∃ s, (o, s) ∈ row ∧ some o ≠ killed
    · obtain ⟨s, hs, hne⟩ := hin
      rw [h.taken o s hs hne, h'.taken o s ((hmem o s).mpr hs) hne]
    · have hkilled : ∀ s, (o, s) ∈ row → some o = killed := fun s hs => by
        by_contra hne
        exact hin ⟨s, hs, hne⟩
      rw [h.kept o hkilled, h'.kept o fun s hs => hkilled s ((hmem o s).mp hs)]

/-- Carrying a row over in any other order tells the same and leads to the same entries. -/
theorem carryOut_perm (f : FlowFacts) (loc : Nat) (killed : Option Nat) {row : List (Nat × IdSet)}
    (hperm : row.Perm (f.ins.rowAt loc).toList) :
    (f.carryOut loc killed row).1 = (f.outFromIn loc killed).1 ∧
    (f.carryOut loc killed row).2.ins = (f.outFromIn loc killed).2.ins ∧
    ∀ l o, (f.carryOut loc killed row).2.outs.cell? l o =
      (f.outFromIn loc killed).2.outs.cell? l o := by
  have hrow : row.Pairwise fun e e' => e.1 ≠ e'.1 :=
    (hperm.pairwise_iff fun hne => hne.symm).mpr (pairwise_toList _)
  obtain ⟨hflag, hentries⟩ :=
    (takesIn_outFromIn f loc killed).unique hperm (takesIn_carryOut f loc killed hrow)
  refine ⟨hflag, (ins_outFromIn f loc killed).symm, fun l o => ?_⟩
  by_cases hl : l = loc
  · subst hl
    exact hentries o
  · have hother : (f.carryOut loc killed row).2.outs.rowAt l = f.outs.rowAt l :=
      (IdGrid.rowAt_insert ..).trans (if_neg (Ne.symm hl))
    rw [IdGrid.cell?, IdGrid.cell?, hother, rowAt_outFromIn_of_ne f killed hl]

end FlowFacts

/-! ### Operations -/

/-- An operation on contents. -/
inductive FlowOp where
  | addOut (loc obj : Nat) (s : IdSet)
  | inFromIn (src obj dst : Nat)
  | inFromOut (src obj dst : Nat)
  | outFromIn (loc : Nat) (killed : Option Nat)
  deriving DecidableEq, Repr

namespace FlowOp

/-- Carries out an operation and tells whether a set changed. -/
def perform (f : FlowFacts) : FlowOp → Bool × FlowFacts
  | addOut loc obj s => f.addOut loc obj s
  | inFromIn src obj dst => f.inFromIn src obj dst
  | inFromOut src obj dst => f.inFromOut src obj dst
  | outFromIn loc killed => f.outFromIn loc killed

/-- The contents after operations that start with none. -/
def after (ops : List FlowOp) : FlowFacts := ops.foldl (fun f op => (perform f op).2) ∅

theorem filled_perform {f : FlowFacts} (hf : f.Filled) (op : FlowOp) : (perform f op).2.Filled := by
  cases op with
  | addOut loc obj s => exact ⟨hf.ins, hf.outs.unionInto loc obj s⟩
  | inFromIn src obj dst => exact ⟨hf.ins.unionInto dst obj _, hf.outs⟩
  | inFromOut src obj dst => exact ⟨hf.ins.unionInto dst obj _, hf.outs⟩
  | outFromIn loc killed => exact hf.outFromIn loc killed

theorem filled_after (ops : List FlowOp) : (after ops).Filled := by
  refine List.foldlRecOn ops _ FlowFacts.filled_empty fun f hf op _ => ?_
  exact filled_perform hf op

end FlowOp

/-! ### What operations make of the sets -/

/-- What objects hold before and after statements, as finite sets. -/
@[ext] structure Contents where
  ins : Nat → Nat → Finset Nat
  outs : Nat → Nat → Finset Nat

namespace Contents

/-- The sets with `more` added to those at which `P` holds. -/
def grow (sets : Nat → Nat → Finset Nat) (P : Nat → Nat → Prop) [∀ l o, Decidable (P l o)]
    (more : Nat → Nat → Finset Nat) : Nat → Nat → Finset Nat :=
  fun l o => if P l o then sets l o ∪ more l o else sets l o

/-- What an operation makes of contents. -/
def act (c : Contents) : FlowOp → Contents
  | .addOut loc obj s =>
    { c with outs := grow c.outs (fun l o => l = loc ∧ o = obj) fun _ _ => s.toFinset }
  | .inFromIn src obj dst =>
    { c with ins := grow c.ins (fun l o => l = dst ∧ o = obj) fun _ _ => c.ins src obj }
  | .inFromOut src obj dst =>
    { c with ins := grow c.ins (fun l o => l = dst ∧ o = obj) fun _ _ => c.outs src obj }
  | .outFromIn loc killed =>
    { c with outs := grow c.outs (fun l o => l = loc ∧ some o ≠ killed) c.ins }

/-- Every set of `c` has all its elements in `c'`. -/
def Within (c c' : Contents) : Prop :=
  ∀ l o, c.ins l o ⊆ c'.ins l o ∧ c.outs l o ⊆ c'.outs l o

/-- Some set of `c'` is another one than in `c`. -/
def Differs (c c' : Contents) : Prop := ∃ l o, c'.ins l o ≠ c.ins l o ∨ c'.outs l o ≠ c.outs l o

section

variable (sets : Nat → Nat → Finset Nat) (P : Nat → Nat → Prop) [∀ l o, Decidable (P l o)]
  (more : Nat → Nat → Finset Nat)

theorem mem_grow {l o x : Nat} : x ∈ grow sets P more l o ↔ (P l o ∧ x ∈ more l o) ∨ x ∈ sets l o := by
  rw [grow]
  split
  case isTrue h => simp [h, or_comm]
  case isFalse h => simp [h]

theorem subset_grow (l o : Nat) : sets l o ⊆ grow sets P more l o :=
  fun _ hx => (mem_grow sets P more).mpr (Or.inr hx)

theorem exists_grow_ne_iff :
    (∃ l o, grow sets P more l o ≠ sets l o) ↔ ∃ l o, P l o ∧ ∃ x ∈ more l o, x ∉ sets l o := by
  constructor
  · rintro ⟨l, o, hne⟩
    by_contra hnone
    push Not at hnone
    refine hne (Finset.Subset.antisymm (fun x hx => ?_) (subset_grow sets P more l o))
    rcases (mem_grow sets P more).mp hx with ⟨hP, hx⟩ | hx
    · exact hnone l o hP x hx
    · exact hx
  · rintro ⟨l, o, hP, x, hx, hxs⟩
    exact ⟨l, o, fun heq => hxs (heq ▸ (mem_grow sets P more).mpr (Or.inl ⟨hP, hx⟩))⟩

theorem differs_ins_iff (c : Contents) :
    c.Differs { c with ins := sets } ↔ ∃ l o, sets l o ≠ c.ins l o := by
  simp [Differs]

theorem differs_outs_iff (c : Contents) :
    c.Differs { c with outs := sets } ↔ ∃ l o, sets l o ≠ c.outs l o := by
  simp [Differs]

end

theorem within_act (c : Contents) (op : FlowOp) : c.Within (c.act op) := by
  intro l o
  cases op with
  | addOut => exact ⟨Finset.Subset.rfl, subset_grow _ _ _ l o⟩
  | inFromIn => exact ⟨subset_grow _ _ _ l o, Finset.Subset.rfl⟩
  | inFromOut => exact ⟨subset_grow _ _ _ l o, Finset.Subset.rfl⟩
  | outFromIn => exact ⟨Finset.Subset.rfl, subset_grow _ _ _ l o⟩

theorem Within.trans {c c' c'' : Contents} (h : c.Within c') (h' : c'.Within c'') : c.Within c'' :=
  fun l o => ⟨(h l o).1.trans (h' l o).1, (h l o).2.trans (h' l o).2⟩

end Contents

/-- What objects hold before and after statements. -/
def FlowFacts.contents (f : FlowFacts) : Contents where
  ins l o := (f.ins.setAt l o).toFinset
  outs l o := (f.outs.setAt l o).toFinset

namespace FlowOp

variable (f : FlowFacts)

theorem contents_perform (op : FlowOp) : (perform f op).2.contents = f.contents.act op := by
  ext l o x
  · cases op with
    | addOut loc obj s => rfl
    | inFromIn src obj dst =>
      simp only [FlowFacts.contents, Contents.act, Contents.mem_grow, IdSet.mem_toFinset, perform,
        FlowFacts.mem_ins_inFromIn, and_assoc]
    | inFromOut src obj dst =>
      simp only [FlowFacts.contents, Contents.act, Contents.mem_grow, IdSet.mem_toFinset, perform,
        FlowFacts.mem_ins_inFromOut, and_assoc]
    | outFromIn loc killed =>
      simp only [FlowFacts.contents, Contents.act, perform, FlowFacts.ins_outFromIn]
  · cases op with
    | addOut loc obj s =>
      simp only [FlowFacts.contents, Contents.act, Contents.mem_grow, IdSet.mem_toFinset, perform,
        FlowFacts.mem_outs_addOut, and_assoc]
    | inFromIn src obj dst => rfl
    | inFromOut src obj dst => rfl
    | outFromIn loc killed =>
      simp only [FlowFacts.contents, Contents.act, Contents.mem_grow, IdSet.mem_toFinset, perform,
        FlowFacts.mem_outs_outFromIn, and_assoc]
      refine or_congr_left (and_congr_right ?_)
      rintro rfl
      rfl

/-- The flag of an operation tells whether some set became another one. -/
theorem perform_fst (op : FlowOp) :
    (perform f op).1 = true ↔ f.contents.Differs (perform f op).2.contents := by
  rw [contents_perform]
  cases op with
  | addOut loc obj s =>
    rw [perform, FlowFacts.addOut_fst, Contents.act, Contents.differs_outs_iff,
      Contents.exists_grow_ne_iff]
    simp [FlowFacts.contents]
  | inFromIn src obj dst =>
    rw [perform, FlowFacts.inFromIn_fst, Contents.act, Contents.differs_ins_iff,
      Contents.exists_grow_ne_iff]
    simp [FlowFacts.contents]
  | inFromOut src obj dst =>
    rw [perform, FlowFacts.inFromOut_fst, Contents.act, Contents.differs_ins_iff,
      Contents.exists_grow_ne_iff]
    simp [FlowFacts.contents]
  | outFromIn loc killed =>
    rw [perform, FlowFacts.outFromIn_fst, Contents.act, Contents.differs_outs_iff,
      Contents.exists_grow_ne_iff]
    simp [FlowFacts.contents]

theorem within_after_append (ops more : List FlowOp) :
    (after ops).contents.Within (after (ops ++ more)).contents := by
  induction more using List.reverseRecOn with
  | nil =>
    rw [List.append_nil]
    exact fun _ _ => ⟨Finset.Subset.rfl, Finset.Subset.rfl⟩
  | append_singleton more op ih =>
    have hstep : after (ops ++ (more ++ [op])) = (perform (after (ops ++ more)) op).2 := by
      simp [after]
    rw [hstep, contents_perform]
    exact ih.trans (Contents.within_act _ op)

/-- Carrying a row over leaves the entries of other statements and that of `killed` as they are. -/
theorem cell?_outFromIn_of_untouched {loc l o : Nat} {killed : Option Nat}
    (h : l ≠ loc ∨ some o = killed) :
    (f.outFromIn loc killed).2.outs.cell? l o = f.outs.cell? l o := by
  by_cases hl : l = loc
  · subst hl
    have hkilled : some o = killed := h.resolve_left fun hne => hne rfl
    exact (FlowFacts.takesIn_outFromIn f l killed).kept o fun _ _ => hkilled
  · rw [IdGrid.cell?, FlowFacts.rowAt_outFromIn_of_ne f killed hl, IdGrid.cell?]

/-- After any operations no entry is empty, so that the objects with an IN entry are those that hold
    something before the statement; no set loses an element by further operations; and every operation
    does to the contents what it does to finite sets and tells whether one of them changed. Carrying
    the IN row of a statement over adds it to the OUT sets of all objects but `killed`, leaves the OUT
    entry of `killed`, all IN rows and the OUT entries of other statements as they are, and comes to
    the same in whichever order the row is walked. -/
theorem contents_only_grow (ops : List FlowOp) :
    let f := after ops
    (∀ l o s, f.ins.cell? l o = some s ∨ f.outs.cell? l o = some s → s.toFinset.Nonempty) ∧
    (∀ l, (f.inObjects l).Nodup ∧ ∀ o, o ∈ f.inObjects l ↔ (f.contents.ins l o).Nonempty) ∧
    (∀ more, f.contents.Within (after (ops ++ more)).contents) ∧
    (∀ op, (perform f op).2.contents = f.contents.act op ∧
      ((perform f op).1 = true ↔ f.contents.Differs (perform f op).2.contents)) ∧
    ∀ loc killed, let g := (f.outFromIn loc killed).2
      (∀ o, some o ≠ killed →
        g.contents.outs loc o = f.contents.outs loc o ∪ f.contents.ins loc o) ∧
      g.ins = f.ins ∧ (∀ l o, l ≠ loc ∨ some o = killed → g.outs.cell? l o = f.outs.cell? l o) ∧
      ∀ row, row.Perm (f.ins.rowAt loc).toList →
        (f.carryOut loc killed row).1 = (f.outFromIn loc killed).1 ∧
        (f.carryOut loc killed row).2.ins = g.ins ∧
        ∀ l o, (f.carryOut loc killed row).2.outs.cell? l o = g.outs.cell? l o := by
  intro f
  have hf : f.Filled := filled_after ops
  refine ⟨fun l o s hs => ?_, fun l => ⟨Std.TreeMap.nodup_keys, fun o => ?_⟩, within_after_append ops,
    fun op => ⟨contents_perform f op, perform_fst f op⟩, fun loc killed => ?_⟩
  · obtain ⟨x, hx⟩ := hs.elim (hf.ins l o s) (hf.outs l o s)
    exact ⟨x, IdSet.mem_toFinset.mpr hx⟩
  · rw [hf.mem_inObjects]
    simp only [Finset.Nonempty, FlowFacts.contents, IdSet.mem_toFinset]
  · refine ⟨fun o hne => ?_, FlowFacts.ins_outFromIn f loc killed,
      fun l o => cell?_outFromIn_of_untouched f, fun row => FlowFacts.carryOut_perm f loc killed⟩
    have hact := congrArg Contents.outs (contents_perform f (.outFromIn loc killed))
    exact (congrFun (congrFun hact loc) o).trans (if_pos ⟨rfl, hne⟩)

/-- Two objects reach statement 5, which writes to the first of them. -/
theorem contents_only_grow_written :
    let f := after [.addOut 4 1 (.ofList [7]), .addOut 4 2 (.ofList [7]), .inFromOut 4 1 5,
      .inFromOut 4 2 5, .addOut 5 1 (.ofList [8])]
    let g := (f.outFromIn 5 (some 1)).2
    g.contents.outs 5 2 = {7} ∧ g.outs.cell? 5 1 = some (.ofList [8]) ∧
      (f.carryOut 5 (some 1) (f.ins.rowAt 5).toList.reverse).1 = true := by
  intro f g
  obtain ⟨-, -, -, -, hcarry⟩ := contents_only_grow [.addOut 4 1 (.ofList [7]),
    .addOut 4 2 (.ofList [7]), .inFromOut 4 1 5, .inFromOut 4 2 5, .addOut 5 1 (.ofList [8])]
  obtain ⟨hunion, -, hframe, horder⟩ := hcarry 5 (some 1)
  refine ⟨(hunion 2 (by decide)).trans (by decide +kernel),
    (hframe 5 1 (Or.inr rfl)).trans (by decide +kernel), ?_⟩
  exact (horder _ (List.reverse_perm _)).1.trans (by decide +kernel)

end FlowOp

end PointsTo
