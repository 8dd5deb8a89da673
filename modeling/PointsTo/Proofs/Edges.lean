import PointsTo.Graph.Edge
import PointsTo.Proofs.Tables

/-! The indexes of an edge table.

    Adding an edge or extending a label keeps it true that each index tells for every node the places
    of the edges of its sort that leave the node. With such indexes the ends that are found for a node
    are those of the edges in the array. -/

namespace PointsTo

theorem EdgeIndex.mem_places_enter {x : EdgeIndex} {s s' : NodeId} {i j : Nat} :
    j ∈ (x.enter s i).places s' ↔ (s' = s ∧ j = i) ∨ j ∈ x.places s' := by
  rw [enter, places, Std.TreeMap.getD_insert]
  by_cases h : s' = s
  · subst h
    simp [Std.TreeSet.mem_insert, eq_comm (a := j)]
  · rw [if_neg (by simpa [Nat.compare_eq_eq] using Ne.symm h)]
    simp [h, places]

theorem Edge.ends_extendLabel (objs : List NodeId) (e : Edge) : (e.extendLabel objs).src = e.src ∧
    (e.extendLabel objs).dst = e.dst ∧ (e.extendLabel objs).flow.isDirect = e.flow.isDirect := by
  cases h : e.flow <;> simp [extendLabel, h, Flow.isDirect]

theorem Edge.fst_of_labelledEnd? {e : Edge} {r : NodeId × IdSet} (h : e.labelledEnd? = some r) :
    r.1 = e.dst := by
  unfold labelledEnd? at h
  split at h
  · cases h
  · cases h
    rfl

namespace EdgeTable

variable {t : EdgeTable} {s u : NodeId} {i : Nat} {e : Edge} {direct : Bool}

/-! ### Indexes -/

/-- The index of a sort of edges. -/
def index (t : EdgeTable) (direct : Bool) : EdgeIndex := if direct then t.directOut else t.indirectOut

/-- The indexes tell where the edges stand. -/
def Indexed (t : EdgeTable) : Prop := ∀ direct s i, i ∈ (t.index direct).places s ↔
  ∃ e, t.all[i]? = some e ∧ e.src = s ∧ e.flow.isDirect = direct

@[simp] theorem all_push : (t.push e).all = t.all.push e := by
  unfold push
  split <;> rfl

@[simp] theorem all_extend {objs : List NodeId} :
    (t.extend i objs).all = t.all.modify i (Edge.extendLabel objs) := rfl

theorem index_push : (t.push e).index direct =
    if e.flow.isDirect = direct then (t.index direct).enter e.src t.all.size else t.index direct := by
  obtain ⟨src, dst, flow⟩ := e
  cases flow <;> cases direct <;> rfl

theorem index_extend {objs : List NodeId} : (t.extend i objs).index direct = t.index direct := rfl

theorem indexed_empty : Indexed {} := by
  intro direct s i
  have hindex : index {} direct = ∅ := by cases direct <;> rfl
  have hplaces : EdgeIndex.places ∅ s = ∅ := Std.TreeMap.getD_emptyc
  simp [hindex, hplaces]

theorem Indexed.push (ht : t.Indexed) (e : Edge) : (t.push e).Indexed := by
  intro direct s i
  have hplaces : i ∈ ((t.push e).index direct).places s ↔
      (i = t.all.size ∧ e.src = s ∧ e.flow.isDirect = direct) ∨ i ∈ (t.index direct).places s := by
    rw [index_push]
    split
    case isTrue hsort =>
      rw [EdgeIndex.mem_places_enter]
      simp [hsort, and_comm, eq_comm]
    case isFalse hsort => simp [hsort]
  rw [hplaces, ht, all_push, Array.getElem?_push]
  split
  case isTrue hi =>
    subst hi
    simp
  case isFalse hi => simp [hi]

theorem Indexed.extend (ht : t.Indexed) (place : Nat) (objs : List NodeId) :
    (t.extend place objs).Indexed := by
  intro direct s i
  rw [index_extend, ht, all_extend, Array.getElem?_modify]
  split
  case isTrue =>
    cases t.all[i]? with
    | none => simp
    | some e =>
      obtain ⟨hs, -, hd⟩ := e.ends_extendLabel objs
      simp [hs, hd]
  case isFalse => exact Iff.rfl

/-! ### Ends -/

theorem Indexed.of_mem_places (ht : t.Indexed) (direct : Bool) (hi : i ∈ (t.index direct).places s)
    (he : t.all[i]? = some e) : e.src = s ∧ e.flow.isDirect = direct := by
  obtain ⟨e', he', hedge⟩ := (ht direct s i).mp hi
  rw [he] at he'
  cases he'
  exact hedge

theorem Indexed.mem_directEnds (ht : t.Indexed) :
    u ∈ t.directEnds s ↔ ∃ i : Nat, t.all[i]? = some ⟨s, u, .direct⟩ := by
  simp only [directEnds, List.mem_filterMap, Std.TreeSet.mem_toList, Option.map_eq_some_iff]
  refine exists_congr fun i => ⟨?_, fun he => ?_⟩
  · rintro ⟨hi, ⟨src, dst, flow⟩, he, rfl⟩
    obtain ⟨rfl, hsort⟩ := ht.of_mem_places true hi he
    cases flow with
    | direct => exact he
    | indirect label => cases hsort
  · exact ⟨(ht true s i).mpr ⟨_, he, rfl, rfl⟩, _, he, rfl⟩

theorem Indexed.mem_indirectEnds (ht : t.Indexed) {label : IdSet} :
    (u, label) ∈ t.indirectEnds s ↔ ∃ i : Nat, t.all[i]? = some ⟨s, u, .indirect label⟩ := by
  simp only [indirectEnds, List.mem_filterMap, Std.TreeSet.mem_toList, Option.bind_eq_some_iff]
  refine exists_congr fun i => ⟨?_, fun he => ?_⟩
  · rintro ⟨hi, ⟨src, dst, flow⟩, he, hend⟩
    obtain ⟨rfl, -⟩ := ht.of_mem_places false hi he
    cases flow with
    | direct => cases hend
    | indirect label' =>
      cases hend
      exact he
  · exact ⟨(ht false s i).mpr ⟨_, he, rfl, rfl⟩, _, he, rfl⟩

theorem Indexed.indirectEnds_push (ht : t.Indexed) (hdirect : e.flow = .direct) (s : NodeId) :
    (t.push e).indirectEnds s = t.indirectEnds s := by
  have hindex : (t.push e).indirectOut = t.indirectOut := by
    simp only [EdgeTable.push, hdirect]
  rw [indirectEnds, indirectEnds, hindex]
  refine List.filterMap_congr fun i hi => ?_
  -- The place of an entered edge is not the new one.
  obtain ⟨e', hi', -⟩ := (ht false s i).mp (Std.TreeSet.mem_toList.mp hi)
  have hlt := (Array.getElem?_eq_some_iff.mp hi').1
  rw [all_push, Array.getElem?_push, if_neg (Nat.ne_of_lt hlt)]

end EdgeTable

end PointsTo
