import PointsTo.Proofs.Arguments

/-! The options that a list of arguments leaves as they are.

    Whether two of the options are taken over is decided by a search for arguments that start with
    their names, while their values come from reading the arguments. The search and the reading agree
    on every list of arguments that is accepted, but for one case: the input may start with the name
    of an option after `--`. -/

namespace PointsTo.CommandLine

/-! ### Lists that are accepted -/

/-- What was read of a list of arguments that is accepted. -/
structure Accepts (args : List String) (r : Reading) : Prop extends Reads args r where
  settled : r.deferred = none
  once : ∀ u ∈ r.uses, (r.usesOf u.param).length ≤ 1
  valued : ∀ s v, ⟨.setting s, v⟩ ∈ r.uses → v ≠ none

theorem forM_eq_ok {α ε : Type} {f : α → Except ε Unit} {xs : List α} (h : xs.forM f = .ok ()) :
    ∀ x ∈ xs, f x = .ok () := by
  induction xs with
  | nil => simp
  | cons x xs ih =>
    obtain ⟨_, hx, hxs⟩ := bind_eq_ok.mp h
    intro y hy
    rcases List.mem_cons.mp hy with rfl | hy
    · exact hx
    · exact ih hxs y hy

theorem checkUse_eq_ok {r : Reading} {u : Use} (h : r.checkUse u = .ok ()) :
    (r.usesOf u.param).length ≤ 1 ∧ (u.param.needsValue && u.value.isNone) = false := by
  rw [Reading.checkUse] at h
  split at h
  · cases h
  case isFalse honce =>
    dsimp only at h
    split at h
    · cases h
    case isFalse hvalue => exact ⟨Nat.le_of_not_lt honce, (Bool.not_eq_true _).mp hvalue⟩

theorem Accepts.of_read {args : List String} {r : Reading} (h : read args = .ok r) :
    Accepts args r := by
  obtain ⟨t, ht, hfinish⟩ := bind_eq_ok.mp h
  obtain ⟨t', hsettle, hchecks⟩ := bind_eq_ok.mp hfinish
  obtain ⟨rfl, hsettled⟩ := Reading.settle_eq_ok hsettle
  obtain ⟨_, -, huses⟩ := bind_eq_ok.mp hchecks
  obtain ⟨_, hforM, hr⟩ := bind_eq_ok.mp huses
  obtain rfl := Except.ok.inj hr
  have hcheck : ∀ u ∈ t'.uses, t'.checkUse u = .ok () := fun u hu =>
    forM_eq_ok hforM u (List.mem_reverse.mpr hu)
  refine ⟨Reads.of_foldlM ht, hsettled, fun u hu => (checkUse_eq_ok (hcheck u hu)).1, fun s v hv => ?_⟩
  rintro rfl
  cases (checkUse_eq_ok (hcheck _ hv)).2

namespace Accepts

variable {args : List String} {r : Reading}

theorem has_iff (h : Accepts args r) (f : Flag) : r.has f = true ↔ f.text ∈ optionPart args := by
  rw [← h.flags f, Reading.has, Bool.not_eq_true', List.isEmpty_eq_false_iff_exists_mem]
  simp only [Reading.usesOf, List.mem_filter, decide_eq_true_eq]
  constructor
  · rintro ⟨u, hu, hparam⟩
    rcases h.uses u hu with ⟨g, rfl⟩ | ⟨s, v, rfl⟩
    · cases hparam
      exact hu
    · cases hparam
  · intro hu
    exact ⟨_, hu, rfl⟩

theorem value?_eq_some_iff (h : Accepts args r) {s : Setting} {v : String} :
    r.value? s = some v ↔ Given args s v := by
  rw [← h.settings s v, Reading.value?, Option.bind_eq_some_iff]
  constructor
  · rintro ⟨u, hhead, hvalue⟩
    obtain ⟨hu, hparam⟩ := List.mem_filter.mp (List.mem_of_mem_head? hhead)
    obtain ⟨p, w⟩ := u
    obtain rfl : p = .setting s := by simpa using hparam
    obtain rfl : w = some v := hvalue
    exact hu
  · intro hu
    have hmem : (⟨.setting s, some v⟩ : Use) ∈ r.usesOf (.setting s) :=
      List.mem_filter.mpr ⟨hu, by simp⟩
    refine ⟨⟨.setting s, some v⟩, ?_, rfl⟩
    -- There is one use at most, so it is this one.
    cases huses : r.usesOf (.setting s) with
    | nil => rw [huses] at hmem; cases hmem
    | cons w rest =>
      have honce := h.once _ hu
      rw [huses] at honce hmem
      obtain rfl : rest = [] := by simpa using honce
      rw [List.mem_singleton.mp hmem]
      rfl

theorem value?_eq_none_iff (h : Accepts args r) {s : Setting} :
    r.value? s = none ↔ ∀ v, ¬ Given args s v := by
  simp only [Option.eq_none_iff_forall_ne_some, ne_eq, h.value?_eq_some_iff]

/-- A value that is given is a valid one. -/
theorem fault?_eq_none (h : Accepts args r) {s : Setting} {v : String} (hv : Given args s v) :
    s.fault? v = none :=
  h.valid h.settled s v ((h.settings s v).mpr hv)

end Accepts

theorem mentions_iff {args : List String} {text : String} :
    mentions args text = true ↔ ∃ a ∈ args, text.toList <+: a.toList := by
  simp [mentions]

/-- Only an option's own arguments start with its name. -/
theorem eq_of_startsWith {s : Setting} {t : Token} (h : s.text.toList <+: t.text.toList) :
    t = .setting s ∨ ∃ v, t = .assigned s v := by
  rcases t with _ | (_ | _ | _ | _) | (_ | _ | _) | ⟨_ | _ | _, v⟩ <;> cases s <;>
    simp_all [Token.text, Flag.text, Setting.text]

theorem isOption_of_startsWith {s : Setting} {a : String} (h : s.text.toList <+: a.toList) :
    isOption a = true := by
  obtain ⟨rest, hrest⟩ := h
  rw [isOption, ← hrest]
  cases s <;> simp [Setting.text]

/-- The input starts with a text. -/
def InputStartsWith (args : List String) (text : String) : Prop :=
  ∃ v, IsInput args v ∧ text.toList <+: v.toList

theorem isInput_of_mem_of_notMem {args : List String} {a : String} (ha : a ∈ args)
    (hnot : a ∉ optionPart args) (hne : a ≠ "--") : IsInput args a := by
  have hsplit : optionPart args ++ args.dropWhile (· ≠ "--") = args := List.takeWhile_append_dropWhile
  have hhead := List.head?_dropWhile_not (· ≠ "--") args
  rw [← hsplit, List.mem_append, or_iff_right hnot] at ha
  cases hdrop : args.dropWhile (· ≠ "--") with
  | nil =>
    rw [hdrop] at ha
    cases ha
  | cons b rest =>
    rw [hdrop] at hsplit hhead ha
    obtain rfl : b = "--" := by simpa using hhead
    obtain ⟨before, after, rfl⟩ := List.append_of_mem ((List.mem_cons.mp ha).resolve_left hne)
    refine ⟨optionPart args ++ "--" :: before, after, ?_, Or.inl (by simp)⟩
    rw [List.append_assoc, List.cons_append, hsplit]

/-- An argument that starts with the name of an option gives the option its value or is the input. -/
theorem Accepts.mentions_iff {args : List String} {r : Reading} (h : Accepts args r) (s : Setting) :
    mentions args s.text = true ↔ (∃ v, Given args s v) ∨ InputStartsWith args s.text := by
  rw [CommandLine.mentions_iff]
  constructor
  · rintro ⟨a, ha, hprefix⟩
    have hopt := isOption_of_startsWith hprefix
    by_cases hpart : a ∈ optionPart args
    · obtain ⟨t, rfl⟩ := h.known a hpart hopt
      rcases eq_of_startsWith hprefix with rfl | ⟨v, rfl⟩
      · obtain ⟨⟨p, v⟩, hu, hparam⟩ := h.named s hpart
        obtain rfl : p = .setting s := hparam
        obtain ⟨w, rfl⟩ := Option.ne_none_iff_exists'.mp (h.valued s v hu)
        exact Or.inl ⟨w, (h.settings s w).mp hu⟩
      · exact Or.inl ⟨v, Or.inl hpart⟩
    · refine Or.inr ⟨a, isInput_of_mem_of_notMem ha hpart ?_, hprefix⟩
      rintro rfl
      rcases eq_of_startsWith (t := .escape) hprefix with ht | ⟨v, ht⟩ <;> cases ht
  · rintro (⟨v, hv | ⟨-, hpair⟩⟩ | ⟨v, ⟨before, after, rfl, -⟩, hprefix⟩)
    · refine ⟨_, (List.takeWhile_prefix _).subset hv, ?_⟩
      simp [Token.text]
    · have hmem : s.text ∈ optionPart args := hpair.subset List.mem_cons_self
      exact ⟨_, (List.takeWhile_prefix _).subset hmem, List.prefix_rfl⟩
    · exact ⟨v, by simp, hprefix⟩

end PointsTo.CommandLine

namespace PointsTo

open CommandLine

/-- How a list of arguments that is accepted changes options. -/
structure Options.Follows (args : List String) (o o' : Options) : Prop where
  analysis : ∀ v, Given args .analysis v → Analysis.ofWord? v = some o'.analysis
  analysis_stays : (∀ v, ¬ Given args .analysis v) → ¬ InputStartsWith args "--pta-type" →
    o'.analysis = o.analysis
  analysis_resets : (∀ v, ¬ Given args .analysis v) → InputStartsWith args "--pta-type" →
    o'.analysis = .typedHeap
  limit : ∀ v, Given args .maxFieldLimit v → word? v = some o'.maxFieldLimit
  limit_stays : (∀ v, ¬ Given args .maxFieldLimit v) → ¬ InputStartsWith args "--max-field-limit" →
    o'.maxFieldLimit = o.maxFieldLimit
  limit_resets : (∀ v, ¬ Given args .maxFieldLimit v) → InputStartsWith args "--max-field-limit" →
    o'.maxFieldLimit = 512
  output : ∀ v, Given args .ptsOutput v → o'.ptsOutput = some v
  output_stays : (∀ v, ¬ Given args .ptsOutput v) → o'.ptsOutput = o.ptsOutput
  input : ∀ v, IsInput args v → o'.input = some v
  input_stays : (∀ v, ¬ IsInput args v) → o'.input = o.input
  reuseAtStores : o'.reuseAtStores = (o.reuseAtStores || decide ("--store-reuse" ∈ optionPart args))
  reuseEverywhere :
    o'.reuseEverywhere = (o.reuseEverywhere || decide ("--all-reuse" ∈ optionPart args))
  firstField : o'.firstField = (o.firstField && !decide ("--no-first-field" ∈ optionPart args))
  dumpStats : o'.dumpStats = (o.dumpStats || decide ("--dump-stats" ∈ optionPart args))

theorem Options.analysis_take (o : Options) (args : List String) (r : Reading) : (o.take args r).analysis =
    if mentions args (Setting.text .analysis) then
      ((r.value? .analysis).bind Analysis.ofWord?).getD .typedHeap
    else o.analysis := rfl

theorem Options.maxFieldLimit_take (o : Options) (args : List String) (r : Reading) :
    (o.take args r).maxFieldLimit =
      if mentions args (Setting.text .maxFieldLimit) then
        ((r.value? .maxFieldLimit).bind word?).getD 512
      else o.maxFieldLimit := rfl

namespace CommandLine

theorem exists_analysis {v : String} (h : Setting.fault? .analysis v = none) :
    ∃ a, Analysis.ofWord? v = some a := by
  rw [Setting.fault?] at h
  split at h
  case isTrue hsome => exact Option.isSome_iff_exists.mp hsome
  case isFalse => cases h

theorem exists_word {v : String} (h : Setting.fault? .maxFieldLimit v = none) :
    ∃ n, word? v = some n := by
  rw [Setting.fault?] at h
  split at h
  case isTrue hsome => exact Option.isSome_iff_exists.mp hsome
  case isFalse => cases h

namespace Accepts

variable {args : List String} {r : Reading} {s : Setting} {α : Type} {parse : String → Option α}
  {default old : α}

theorem taken_of_given (h : Accepts args r) {v : String} (hv : Given args s v) {a : α}
    (ha : parse v = some a) :
    (if mentions args s.text then ((r.value? s).bind parse).getD default else old) = a := by
  rw [if_pos ((h.mentions_iff s).mpr (Or.inl ⟨v, hv⟩)), h.value?_eq_some_iff.mpr hv, Option.bind_some,
    ha, Option.getD_some]

theorem taken_of_not_given (h : Accepts args r) (hnone : ∀ v, ¬ Given args s v)
    (hinput : ¬ InputStartsWith args s.text) :
    (if mentions args s.text then ((r.value? s).bind parse).getD default else old) = old := by
  refine if_neg fun hmention => ?_
  rcases (h.mentions_iff s).mp hmention with ⟨v, hv⟩ | hstarts
  · exact hnone v hv
  · exact hinput hstarts

theorem taken_of_input (h : Accepts args r) (hnone : ∀ v, ¬ Given args s v)
    (hinput : InputStartsWith args s.text) :
    (if mentions args s.text then ((r.value? s).bind parse).getD default else old) = default := by
  rw [if_pos ((h.mentions_iff s).mpr (Or.inr hinput)), h.value?_eq_none_iff.mpr hnone,
    Option.bind_none, Option.getD_none]

theorem has_eq (h : Accepts args r) (f : Flag) : r.has f = decide (f.text ∈ optionPart args) := by
  rw [Bool.eq_iff_iff, h.has_iff, decide_eq_true_iff]

theorem follows (h : Accepts args r) (o : Options) : Options.Follows args o (o.take args r) where
  analysis := by
    intro v hv
    obtain ⟨a, ha⟩ := exists_analysis (h.fault?_eq_none hv)
    rw [ha, Options.analysis_take, h.taken_of_given hv ha]
  analysis_stays := by
    intro hnone hinput
    rw [Options.analysis_take, h.taken_of_not_given hnone hinput]
  analysis_resets := by
    intro hnone hinput
    rw [Options.analysis_take, h.taken_of_input hnone hinput]
  limit := by
    intro v hv
    obtain ⟨n, hn⟩ := exists_word (h.fault?_eq_none hv)
    rw [hn, Options.maxFieldLimit_take, h.taken_of_given hv hn]
  limit_stays := by
    intro hnone hinput
    rw [Options.maxFieldLimit_take, h.taken_of_not_given hnone hinput]
  limit_resets := by
    intro hnone hinput
    rw [Options.maxFieldLimit_take, h.taken_of_input hnone hinput]
  output := by
    intro v hv
    simp [Options.take, h.value?_eq_some_iff.mpr hv]
  output_stays := by
    intro hnone
    simp [Options.take, h.value?_eq_none_iff.mpr hnone]
  input := by
    intro v hv
    simp [Options.take, (h.input v).mpr hv]
  input_stays := by
    intro hnone
    have hinput : r.input = none :=
      Option.eq_none_iff_forall_ne_some.mpr fun v hv => hnone v ((h.input v).mp hv)
    simp [Options.take, hinput]
  reuseAtStores := congrArg (o.reuseAtStores || ·) (h.has_eq .storeReuse)
  reuseEverywhere := congrArg (o.reuseEverywhere || ·) (h.has_eq .allReuse)
  firstField := congrArg (o.firstField && !·) (h.has_eq .noFirstField)
  dumpStats := congrArg (o.dumpStats || ·) (h.has_eq .dumpStats)

end Accepts

end CommandLine

theorem Options.run_parse_of_error {args : List String} {e : UsageError}
    (h : CommandLine.read args = .error e) (o : Options) :
    (Options.parse args).run.run o = (.error e, o) := by
  rw [Options.parse, h]
  rfl

theorem Options.run_parse_of_ok {args : List String} {r : Reading}
    (h : CommandLine.read args = .ok r) (o : Options) :
    (Options.parse args).run.run o = (.ok (), o.take args r) := by
  rw [Options.parse, h]
  rfl

/-- A list of arguments that is refused leaves all options as they are. One that is accepted gives the
    options the values that it names and leaves all others as they are, unless the input starts with
    the name of one: flags are only ever set, and the first field only ever given up. -/
theorem Options.parse_follows_arguments (o : Options) (args : List String) :
    (∃ e, (Options.parse args).run.run o = (.error e, o)) ∨
      ∃ o', (Options.parse args).run.run o = (.ok (), o') ∧ Options.Follows args o o' := by
  cases hread : CommandLine.read args with
  | error e => exact Or.inl ⟨e, Options.run_parse_of_error hread o⟩
  | ok r =>
    exact Or.inr ⟨o.take args r, Options.run_parse_of_ok hread o, (Accepts.of_read hread).follows o⟩

/-- An option is given in one argument, and the input comes after the end of the options. -/
theorem Options.parse_follows_assigned_limit :
    let o : Options := { analysis := .flowSensitive }
    let args := ["--max-field-limit=16", "--", "p.json"]
    Given args .maxFieldLimit "16" ∧ IsInput args "p.json" ∧
      ∃ o', (Options.parse args).run.run o = (.ok (), o') ∧ word? "16" = some o'.maxFieldLimit ∧
        o'.input = some "p.json" := by
  intro o args
  have hlimit : Given args .maxFieldLimit "16" := Or.inl (by decide)
  have hinput : IsInput args "p.json" := ⟨["--max-field-limit=16", "--"], [], rfl, Or.inl (by decide)⟩
  have hread : CommandLine.read args = .ok
      { uses := [⟨.setting .maxFieldLimit, some "16"⟩], input := some "p.json", onlyInputs := true } := by
    decide +kernel
  refine ⟨hlimit, hinput, ?_⟩
  rcases Options.parse_follows_arguments o args with ⟨e, he⟩ | ⟨o', ho', hfollows⟩
  · rw [Options.run_parse_of_ok hread] at he
    cases he
  · exact ⟨o', ho', hfollows.limit _ hlimit, hfollows.input _ hinput⟩

/-- An input that starts with the name of an option makes the option go back to its default. -/
theorem Options.input_resets_analysis :
    let o : Options := { analysis := .flowSensitive }
    let args := ["--", "--pta-type"]
    (∀ v, ¬ Given args .analysis v) ∧ (Options.parse args).run.run o =
      (.ok (), { o with analysis := .typedHeap, input := some "--pta-type" }) := by
  intro o args
  have hread : CommandLine.read args =
      .ok { input := some "--pta-type", onlyInputs := true } := by
    decide +kernel
  refine ⟨fun v hv => ?_, ?_⟩
  · rcases hv with hv | ⟨-, hv⟩
    · cases hv
    · cases hv.length_le
  · rw [Options.run_parse_of_ok hread]
    exact congrArg (Prod.mk _) (by decide +kernel)

end PointsTo
