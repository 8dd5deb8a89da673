import Mathlib.Data.List.Infix
import Mathlib.Data.List.TakeWhile
import PointsTo.CommandLine
import PointsTo.Proofs.Delivers

/-! Reading lists of arguments.

    Reading one argument can do four things, and which of them it does is seen from how the argument
    is written and from what stands before it. What a list of arguments gives is said without reading it:
    an option has a value if one of the arguments before `--` is the option with the value, or if two
    neighbours are the option and the value; the input is what comes after `--`, or what is neither an
    option nor the value of the option before it. `Reads.of_foldlM` says that reading finds the same. -/

namespace PointsTo.CommandLine

/-! ### Arguments as they are written -/

/-- How a flag is written. -/
def Flag.text : Flag → String
  | .storeReuse => "--store-reuse"
  | .allReuse => "--all-reuse"
  | .noFirstField => "--no-first-field"
  | .dumpStats => "--dump-stats"

/-- How an option with a value is written. -/
def Setting.text : Setting → String
  | .analysis => "--pta-type"
  | .maxFieldLimit => "--max-field-limit"
  | .ptsOutput => "--dump-pts"

/-- Is the argument a dash with something after it? -/
def isOption (arg : String) : Bool :=
  match arg.toList with
  | '-' :: _ :: _ => true
  | _ => false

/-- The arguments that start with two dashes. -/
inductive Token where
  /-- The end of the options. -/
  | escape
  | flag (f : Flag)
  /-- An option of which the value is the next argument. -/
  | setting (s : Setting)
  | assigned (s : Setting) (v : String)

namespace Token

/-- How the argument is written. -/
def text : Token → String
  | escape => "--"
  | flag f => f.text
  | setting s => s.text
  | assigned s v => s.text ++ "=" ++ v

/-- The use of an option that the argument is. -/
def use? : Token → Option Use
  | escape => none
  | flag f => some ⟨.flag f, none⟩
  | setting s => some ⟨.setting s, none⟩
  | assigned s v => some ⟨.setting s, some v⟩

/-- Is a value to follow? -/
def awaits : Token → Bool
  | setting _ => true
  | _ => false

theorem text_inj {t u : Token} : t.text = u.text ↔ t = u := by
  refine ⟨fun h => ?_, congrArg text⟩
  rw [← String.toList_inj] at h
  rcases t with _ | (_ | _ | _ | _) | (_ | _ | _) | ⟨_ | _ | _, v⟩ <;>
    rcases u with _ | (_ | _ | _ | _) | (_ | _ | _) | ⟨_ | _ | _, w⟩ <;>
    simp_all [text, Flag.text, Setting.text, String.toList_inj]

@[simp] theorem isOption_text (t : Token) : isOption t.text = true := by
  rcases t with _ | (_ | _ | _ | _) | (_ | _ | _) | ⟨_ | _ | _, v⟩ <;>
    simp [isOption, text, Flag.text, Setting.text]

end Token

theorem text_of_flag {name : String} {f : Flag} (h : Param.ofName? name = some (.flag f)) :
    "--" ++ name = f.text := by
  unfold Param.ofName? at h
  split at h <;> cases h <;> rfl

theorem text_of_setting {name : String} {s : Setting} (h : Param.ofName? name = some (.setting s)) :
    "--" ++ name = s.text := by
  unfold Param.ofName? at h
  split at h <;> cases h <;> rfl

theorem eq_of_toList {arg : String} {cs : List Char} (h : arg.toList = '-' :: '-' :: cs) :
    arg = "--" ++ String.ofList cs := by
  apply String.toList_inj.mp
  rw [h, String.toList_append, String.toList_ofList (l := cs)]
  rfl

namespace Reading

variable {r r' : Reading} {arg : String}

/-- The two parts of an option that is split make it up again. -/
theorem splitValue_eq {cs : List Char} {name : String} {value : Option String}
    (h : splitValue cs = (name, value)) :
    String.ofList cs = name ++ value.elim "" ("=" ++ ·) := by
  rw [splitValue, Prod.mk.injEq] at h
  obtain ⟨rfl, rfl⟩ := h
  have hsplit := List.takeWhile_append_dropWhile (p := (· ≠ '=')) (l := cs)
  have hhead := List.head?_dropWhile_not (· ≠ '=') cs
  apply String.toList_inj.mp
  cases hdrop : cs.dropWhile (· ≠ '=') with
  | nil =>
    rw [hdrop, List.append_nil] at hsplit
    rw [hsplit, Option.elim_none, String.append_empty]
  | cons c rest =>
    rw [hdrop] at hsplit hhead
    obtain rfl : c = '=' := by simpa using hhead
    simp only [Option.elim_some, String.toList_append, String.toList_ofList]
    exact hsplit.symm

/-- What reading one argument can do. -/
inductive Step (r : Reading) : String → Reading → Prop
  | escape (hmode : r.onlyInputs = false) : Step r "--" { r with onlyInputs := true }
  | option (hmode : r.onlyInputs = false) (hvalid : r.deferred = none) (t : Token) (u : Use)
    (hu : t.use? = some u) (hv : ∀ s v, t = .assigned s v → s.fault? v = none) :
    Step r t.text (r.use u t.awaits)
  | value (hmode : r.onlyInputs = false) (v : String) (hplain : isOption v = false)
    (hwaiting : r.waiting = true) : Step r v (r.readValue v)
  | input (v : String) (hmode : r.onlyInputs = true ∨ (isOption v = false ∧ r.waiting = false))
    (hnone : r.input = none) (hvalid : r.deferred = none) :
    Step r v { r with input := some v, waiting := false }

theorem settle_eq_ok (h : r.settle = .ok r') : r' = r ∧ r.deferred = none := by
  rw [settle] at h
  split at h
  · cases h
  · cases h
    exact ⟨rfl, by assumption⟩

theorem step_of_readInput (hmode : r.onlyInputs = true ∨ (isOption arg = false ∧ r.waiting = false))
    (h : r.readInput arg = .ok r') : Step r arg r' := by
  rw [readInput] at h
  split at h
  · cases h
  case isFalse hinput =>
    obtain ⟨t, ht, hr⟩ := bind_eq_ok.mp h
    obtain ⟨rfl, hvalid⟩ := settle_eq_ok ht
    obtain rfl := Except.ok.inj hr
    exact .input arg hmode (by simpa using hinput) hvalid

theorem step_of_readAlone (hmode : r.onlyInputs = false) {name : String} {p : Param}
    (hp : Param.ofName? name = some p) (harg : arg = "--" ++ name) (h : r.readAlone p = .ok r') :
    Step r arg r' := by
  obtain ⟨t, ht, hr⟩ := bind_eq_ok.mp h
  obtain ⟨rfl, hvalid⟩ := settle_eq_ok ht
  cases p with
  | help => cases hr
  | version => cases hr
  | flag f =>
    obtain rfl := Except.ok.inj hr
    rw [harg, text_of_flag hp]
    exact .option hmode hvalid (.flag f) _ rfl fun s v ht => by cases ht
  | setting s =>
    obtain rfl := Except.ok.inj hr
    rw [harg, text_of_setting hp]
    exact .option hmode hvalid (.setting s) _ rfl fun s v ht => by cases ht

theorem step_of_readAssigned (hmode : r.onlyInputs = false) {name v : String} {p : Param}
    (hp : Param.ofName? name = some p) (harg : arg = "--" ++ (name ++ ("=" ++ v)))
    (h : r.readAssigned p v = .ok r') : Step r arg r' := by
  cases p with
  | help => cases h
  | version => cases h
  | flag f => cases h
  | setting s =>
    obtain ⟨t, ht, hr⟩ := bind_eq_ok.mp h
    obtain ⟨rfl, hvalid⟩ := settle_eq_ok ht
    rw [harg, ← String.append_assoc, text_of_setting hp, ← String.append_assoc]
    cases hv : s.fault? v with
    | none =>
      rw [hv] at hr
      obtain rfl := Except.ok.inj hr
      refine .option hmode hvalid (.assigned s v) _ rfl fun s v ht => ?_
      cases ht
      exact hv
    | some e =>
      rw [hv] at hr
      cases hr

theorem step_of_readLong (hmode : r.onlyInputs = false) {cs : List Char}
    (harg : arg.toList = '-' :: '-' :: cs) (h : r.readLong cs = .ok r') : Step r arg r' := by
  rw [readLong] at h
  cases hsplit : splitValue cs with
  | mk name value =>
    have harg := eq_of_toList harg
    rw [splitValue_eq hsplit] at harg
    rw [hsplit] at h
    cases hp : Param.ofName? name with
    | none => simp [hp] at h
    | some p =>
      cases value with
      | none => exact step_of_readAlone hmode hp (by simpa using harg) (by simpa [hp] using h)
      | some v => exact step_of_readAssigned hmode hp harg (by simpa [hp] using h)

/-- Letters stand for help and version only, and with these nothing more is read. -/
theorem readShort_ne_ok {c : Char} (h : r.readShort c = .ok r') : False := by
  unfold readShort at h
  split at h
  · obtain ⟨t, ht, hr⟩ := bind_eq_ok.mp h
    cases hr
  · obtain ⟨t, ht, hr⟩ := bind_eq_ok.mp h
    cases hr
  · cases h

/-- An argument that is read is one of those of `Step`. -/
theorem step_of_eq_ok (h : r.step arg = .ok r') : Step r arg r' := by
  rw [step] at h
  split at h
  case isTrue hmode => exact step_of_readInput (Or.inl hmode) h
  case isFalse hmode =>
    rw [Bool.not_eq_true] at hmode
    split at h
    case h_1 harg =>
      obtain rfl := Except.ok.inj h
      obtain rfl : arg = "--" := String.toList_inj.mp harg
      exact .escape hmode
    case h_2 cs _ harg => exact step_of_readLong hmode harg h
    case h_3 => exact (readShort_ne_ok h).elim
    case h_4 hnot =>
      -- What is left are plain arguments, a single dash among them.
      have hplain : isOption arg = false := by
        rw [isOption]
        split
        case h_1 c cs harg => exact (hnot c cs harg).elim
        case h_2 => rfl
      split at h
      case isTrue hwaiting =>
        obtain rfl := Except.ok.inj h
        exact .value hmode arg hplain hwaiting
      case isFalse hwaiting =>
        exact step_of_readInput (Or.inr ⟨hplain, by simpa using hwaiting⟩) h

end Reading

/-! ### What a list of arguments gives -/

/-- The arguments before the one that ends the options. -/
def optionPart (args : List String) : List String := args.takeWhile (· ≠ "--")

/-- The arguments give an option a value, in one argument or as the next one. -/
def Given (args : List String) (s : Setting) (v : String) : Prop :=
  (Token.assigned s v).text ∈ optionPart args ∨
    (isOption v = false ∧ [s.text, v] <:+: optionPart args)

/-- An argument is the input: it comes after the end of the options, or it is neither an option nor
    the value of the option before it. -/
def IsInput (args : List String) (v : String) : Prop :=
  ∃ before after, args = before ++ v :: after ∧
    ("--" ∈ before ∨ (isOption v = false ∧ ∀ s : Setting, before.getLast? ≠ some s.text))

section

variable {pre : List String} {a : String}

theorem optionPart_eq_self (h : "--" ∉ pre) : optionPart pre = pre := by
  rw [optionPart, List.takeWhile_eq_self_iff]
  intro x hx
  simpa using fun heq : x = "--" => h (heq ▸ hx)

theorem optionPart_concat_of_mem (h : "--" ∈ pre) : optionPart (pre ++ [a]) = optionPart pre := by
  rw [optionPart, List.takeWhile_append, if_neg, optionPart]
  intro hlen
  have hself := (List.takeWhile_prefix _).eq_of_length hlen
  simpa using List.takeWhile_eq_self_iff.mp hself "--" h

theorem optionPart_concat_escape : optionPart (pre ++ ["--"]) = optionPart pre := by
  by_cases h : "--" ∈ pre
  · exact optionPart_concat_of_mem h
  · rw [optionPart, List.takeWhile_append, ← optionPart, optionPart_eq_self h, if_pos rfl]
    simp

theorem optionPart_concat_of_ne (h : "--" ∉ pre) (ha : a ≠ "--") :
    optionPart (pre ++ [a]) = optionPart pre ++ [a] := by
  rw [optionPart_eq_self h, optionPart_eq_self]
  simp [h, ha.symm]

theorem pair_infix_concat {x y z : String} {l : List String} :
    [x, y] <:+: l ++ [z] ↔ [x, y] <:+: l ∨ (l.getLast? = some x ∧ y = z) := by
  rw [List.infix_concat_iff, List.suffix_concat_iff, or_comm]
  refine or_congr_right ⟨?_, ?_⟩
  · rintro (hnil | ⟨t, ht, hsuffix⟩)
    · cases hnil
    · have hpair : [x] ++ [y] = t ++ [z] := ht
      obtain ⟨rfl, hyz⟩ := List.append_inj' hpair rfl
      obtain ⟨l', rfl⟩ := hsuffix
      exact ⟨by simp, by simpa using hyz⟩
  · rintro ⟨hlast, rfl⟩
    obtain ⟨l', rfl⟩ := List.getLast?_eq_some_iff.mp hlast
    exact Or.inr ⟨[x], rfl, List.suffix_append ..⟩

theorem given_concat_of_ne {s : Setting} {v : String} (h : "--" ∉ pre) (ha : a ≠ "--") :
    Given (pre ++ [a]) s v ↔ Given pre s v ∨ a = (Token.assigned s v).text ∨
      (isOption v = false ∧ pre.getLast? = some s.text ∧ v = a) := by
  rw [Given, Given, optionPart_concat_of_ne h ha, pair_infix_concat, List.mem_append,
    List.mem_singleton, optionPart_eq_self h]
  tauto

theorem isInput_concat {v : String} :
    IsInput (pre ++ [a]) v ↔ IsInput pre v ∨ (v = a ∧
      ("--" ∈ pre ∨ (isOption v = false ∧ ∀ s : Setting, pre.getLast? ≠ some s.text))) := by
  constructor
  · rintro ⟨before, after, heq, hcond⟩
    rcases List.eq_nil_or_concat after with rfl | ⟨after', z, rfl⟩
    · obtain ⟨rfl, hav⟩ := List.append_inj' heq rfl
      obtain rfl : a = v := by simpa using hav
      exact Or.inr ⟨rfl, hcond⟩
    · rw [List.concat_eq_append, ← List.cons_append, ← List.append_assoc] at heq
      obtain ⟨rfl, -⟩ := List.append_inj' heq rfl
      exact Or.inl ⟨before, after', rfl, hcond⟩
  · rintro (⟨before, after, rfl, hcond⟩ | ⟨rfl, hcond⟩)
    · exact ⟨before, after ++ [a], by simp, hcond⟩
    · exact ⟨pre, [], rfl, hcond⟩

end

/-! ### What was read -/

/-- What reading arguments leads to, as far as no argument was refused. -/
structure Reads (pre : List String) (r : Reading) : Prop where
  mode : r.onlyInputs = true ↔ "--" ∈ pre
  uses : ∀ u ∈ r.uses, (∃ f, u = ⟨.flag f, none⟩) ∨ ∃ s v, u = ⟨.setting s, v⟩
  flags : ∀ f, ⟨.flag f, none⟩ ∈ r.uses ↔ f.text ∈ optionPart pre
  settings : ∀ s v, ⟨.setting s, some v⟩ ∈ r.uses ↔ Given pre s v
  named : ∀ s, s.text ∈ optionPart pre → ∃ u ∈ r.uses, u.param = .setting s
  known : ∀ a ∈ optionPart pre, isOption a = true → ∃ t : Token, a = t.text
  waiting : "--" ∉ pre → ∀ s : Setting, pre.getLast? = some s.text ↔
    r.waiting = true ∧ ∃ rest, r.uses = ⟨.setting s, none⟩ :: rest
  pending : r.waiting = true → r.deferred = none ∧ ∃ s rest, r.uses = ⟨.setting s, none⟩ :: rest
  valid : r.deferred = none → ∀ s v, ⟨.setting s, some v⟩ ∈ r.uses → s.fault? v = none
  input : ∀ v, r.input = some v ↔ IsInput pre v

namespace Reads

variable {pre : List String} {r : Reading}

theorem nil : Reads [] {} where
  mode := by simp
  uses := by simp
  flags := by simp [optionPart]
  settings := by simp [Given, optionPart]
  named := by simp [optionPart]
  known := by simp [optionPart]
  waiting := by simp
  pending := by simp
  valid := by simp
  input := by simp [IsInput]

theorem isInput_concat_token (hpre : "--" ∉ pre) (t : Token) {v : String} :
    IsInput (pre ++ [t.text]) v ↔ IsInput pre v := by
  rw [isInput_concat]
  refine or_iff_left ?_
  rintro ⟨rfl, hesc | ⟨hplain, -⟩⟩
  · exact hpre hesc
  · simp at hplain

theorem escape (h : Reads pre r) (hmode : r.onlyInputs = false) :
    Reads (pre ++ ["--"]) { r with onlyInputs := true } := by
  have hpre : "--" ∉ pre := by simpa [hmode] using h.mode
  exact {
    mode := by simp
    uses := h.uses
    flags := by simpa only [optionPart_concat_escape] using h.flags
    settings := by simpa only [Given, optionPart_concat_escape] using h.settings
    named := by simpa only [optionPart_concat_escape] using h.named
    known := by simpa only [optionPart_concat_escape] using h.known
    waiting := by simp
    pending := h.pending
    valid := h.valid
    input := fun v => (h.input v).trans (isInput_concat_token hpre .escape).symm }

theorem option (h : Reads pre r) (hmode : r.onlyInputs = false) (hvalid : r.deferred = none)
    {t : Token} {u : Use} (hu : t.use? = some u)
    (hv : ∀ s v, t = .assigned s v → s.fault? v = none) :
    Reads (pre ++ [t.text]) (r.use u t.awaits) := by
  have hpre : "--" ∉ pre := by simpa [hmode] using h.mode
  -- The end of the options is no use of one.
  have ht : t.text ≠ "--" := by
    intro heq
    obtain rfl : t = .escape := Token.text_inj.mp heq
    cases hu
  have hpart := optionPart_concat_of_ne hpre ht
  exact {
    mode := by simpa [Reading.use, hmode] using ⟨hpre, ht.symm⟩
    uses := by
      intro w hw
      rcases List.mem_cons.mp hw with rfl | hw
      · cases t <;> cases hu <;> simp
      · exact h.uses w hw
    flags := by
      intro f
      have htoken : f.text = t.text ↔ (⟨.flag f, none⟩ : Use) = u := by
        rw [show f.text = (Token.flag f).text from rfl, Token.text_inj]
        cases t <;> cases hu <;> simp
      rw [Reading.use, List.mem_cons, h.flags, hpart, List.mem_append, List.mem_singleton, htoken,
        or_comm]
    settings := by
      intro s v
      have htoken : t.text = (Token.assigned s v).text ↔ (⟨.setting s, some v⟩ : Use) = u := by
        rw [Token.text_inj]
        cases t <;> cases hu <;> simp [eq_comm]
      have hvalue : ¬ (isOption v = false ∧ pre.getLast? = some s.text ∧ v = t.text) := by
        rintro ⟨hplain, -, rfl⟩
        simp at hplain
      rw [Reading.use, List.mem_cons, h.settings, given_concat_of_ne hpre ht, htoken,
        or_iff_left hvalue, or_comm]
    named := by
      intro s hs
      rw [hpart, List.mem_append, List.mem_singleton] at hs
      rcases hs with hs | hs
      · obtain ⟨w, hw, hparam⟩ := h.named s hs
        exact ⟨w, List.mem_cons_of_mem _ hw, hparam⟩
      · obtain rfl : .setting s = t := Token.text_inj.mp hs
        cases hu
        exact ⟨_, List.mem_cons_self, rfl⟩
    known := by
      intro a ha hopt
      rw [hpart, List.mem_append, List.mem_singleton] at ha
      rcases ha with ha | rfl
      · exact h.known a ha hopt
      · exact ⟨t, rfl⟩
    waiting := by
      intro _ s
      rw [List.getLast?_concat, Option.some_inj, show s.text = (Token.setting s).text from rfl,
        Token.text_inj]
      cases t <;> cases hu <;> simp [Reading.use, Token.awaits]
    pending := by
      intro hwaiting
      cases t with
      | setting s =>
        cases hu
        exact ⟨hvalid, s, r.uses, rfl⟩
      | escape => cases hu
      | flag f => cases hwaiting
      | assigned s v => cases hwaiting
    valid := by
      intro _ s v hw
      rcases List.mem_cons.mp hw with rfl | hw
      · refine hv s v ?_
        cases t <;> cases hu
        rfl
      · exact h.valid hvalid s v hw
    input := fun v => (h.input v).trans (isInput_concat_token hpre t).symm }

/-- The value of an option takes the place of its absence, at the head of the uses. -/
theorem value (h : Reads pre r) (hmode : r.onlyInputs = false) {v : String}
    (hplain : isOption v = false) (hwaiting : r.waiting = true) :
    Reads (pre ++ [v]) (r.readValue v) := by
  have hpre : "--" ∉ pre := by simpa [hmode] using h.mode
  have hv : v ≠ "--" := by
    rintro rfl
    cases hplain
  have hpart := optionPart_concat_of_ne hpre hv
  have htoken : ∀ t : Token, t.text ≠ v := by
    rintro t rfl
    simp at hplain
  obtain ⟨s, rest, huses⟩ := (h.pending hwaiting).2
  have hlast : ∀ s' : Setting, pre.getLast? = some s'.text ↔ s' = s := by
    intro s'
    rw [h.waiting hpre s', huses]
    simp [hwaiting, eq_comm]
  have hread : r.readValue v = { r with
      uses := ⟨.setting s, some v⟩ :: rest, waiting := false, deferred := s.fault? v } := by
    rw [Reading.readValue, huses]
  rw [hread]
  exact {
    mode := by simpa [hmode] using ⟨hpre, hv.symm⟩
    uses := by
      intro w hw
      rcases List.mem_cons.mp hw with rfl | hw
      · exact Or.inr ⟨s, some v, rfl⟩
      · exact h.uses w (huses ▸ List.mem_cons_of_mem _ hw)
    flags := by
      intro f
      have hf := h.flags f
      rw [huses] at hf
      simpa [hpart, htoken (.flag f), show f.text ≠ v from htoken (.flag f)] using hf
    settings := by
      intro s' v'
      have hs := h.settings s' v'
      rw [huses] at hs
      have hnew : Given (pre ++ [v]) s' v' ↔ Given pre s' v' ∨ (s' = s ∧ v' = v) := by
        rw [given_concat_of_ne hpre hv, hlast, or_iff_right (htoken (.assigned s' v')).symm]
        refine or_congr_right ⟨And.right, ?_⟩
        rintro ⟨rfl, rfl⟩
        exact ⟨hplain, rfl, rfl⟩
      rw [hnew, ← hs, List.mem_cons, List.mem_cons]
      simp [or_comm]
    named := by
      intro s' hs
      rw [hpart, List.mem_append, List.mem_singleton,
        or_iff_left (show s'.text ≠ v from htoken (.setting s'))] at hs
      obtain ⟨w, hw, hparam⟩ := h.named s' hs
      rw [huses] at hw
      rcases List.mem_cons.mp hw with rfl | hw
      · exact ⟨_, List.mem_cons_self, hparam⟩
      · exact ⟨w, List.mem_cons_of_mem _ hw, hparam⟩
    known := by
      intro a ha hopt
      rw [hpart, List.mem_append, List.mem_singleton] at ha
      rcases ha with ha | rfl
      · exact h.known a ha hopt
      · rw [hplain] at hopt
        cases hopt
    waiting := by
      intro _ s'
      rw [List.getLast?_concat, Option.some_inj]
      exact iff_of_false (htoken (.setting s')).symm fun hw => Bool.false_ne_true hw.1
    pending := by simp
    valid := by
      intro hfault s' v' hw
      rcases List.mem_cons.mp hw with heq | hw
      · cases heq
        exact hfault
      · exact h.valid (h.pending hwaiting).1 s' v' (huses ▸ List.mem_cons_of_mem _ hw)
    input := by
      intro v'
      rw [isInput_concat, ← h.input v']
      refine (or_iff_left ?_).symm
      rintro ⟨-, hesc | ⟨-, hno⟩⟩
      · exact hpre hesc
      · exact hno s ((hlast s).mpr rfl) }

/-- An input is among the options only if it is no option, and it is no value there. -/
theorem optionPart_input (h : Reads pre r) {v : String}
    (hmode : r.onlyInputs = true ∨ (isOption v = false ∧ r.waiting = false)) :
    (∀ a, isOption a = true → (a ∈ optionPart (pre ++ [v]) ↔ a ∈ optionPart pre)) ∧
    (∀ s w, Given (pre ++ [v]) s w ↔ Given pre s w) ∧
    ("--" ∈ pre ∨ (isOption v = false ∧ ∀ s : Setting, pre.getLast? ≠ some s.text)) := by
  by_cases hpre : "--" ∈ pre
  · have hpart : optionPart (pre ++ [v]) = optionPart pre := optionPart_concat_of_mem hpre
    exact ⟨fun a _ => by rw [hpart], fun s w => by rw [Given, hpart, Given], Or.inl hpre⟩
  · obtain ⟨hplain, hwaiting⟩ := hmode.resolve_left fun hm => hpre (h.mode.mp hm)
    have htoken : ∀ a, isOption a = true → a ≠ v := by
      rintro a ha rfl
      rw [hplain] at ha
      cases ha
    have hlast : ∀ s : Setting, pre.getLast? ≠ some s.text := by
      intro s hs
      have := ((h.waiting hpre s).mp hs).1
      rw [hwaiting] at this
      cases this
    have hv : v ≠ "--" := (htoken _ (Token.isOption_text .escape)).symm
    refine ⟨fun a ha => ?_, fun s w => ?_, Or.inr ⟨hplain, hlast⟩⟩
    · rw [optionPart_concat_of_ne hpre hv, List.mem_append, List.mem_singleton,
        or_iff_left (htoken a ha)]
    · rw [given_concat_of_ne hpre hv, or_iff_left]
      rintro (heq | ⟨-, hs, -⟩)
      · exact htoken _ (Token.isOption_text (.assigned s w)) heq.symm
      · exact hlast s hs

theorem isInput (h : Reads pre r) {v : String}
    (hmode : r.onlyInputs = true ∨ (isOption v = false ∧ r.waiting = false)) (hnone : r.input = none) :
    Reads (pre ++ [v]) { r with input := some v, waiting := false } := by
  obtain ⟨hpart, hgiven, hinput⟩ := h.optionPart_input hmode
  exact {
    mode := by
      refine h.mode.trans ?_
      rw [List.mem_append, List.mem_singleton]
      refine (or_iff_left_of_imp ?_).symm
      rintro rfl
      refine hinput.resolve_right ?_
      rintro ⟨hplain, -⟩
      cases hplain
    uses := h.uses
    flags := fun f => (h.flags f).trans (hpart _ (Token.isOption_text (.flag f))).symm
    settings := fun s w => (h.settings s w).trans (hgiven s w).symm
    named := fun s hs => h.named s ((hpart _ (Token.isOption_text (.setting s))).mp hs)
    known := fun a ha hopt => h.known a ((hpart a hopt).mp ha) hopt
    waiting := by
      intro hpre s
      rw [List.getLast?_concat, Option.some_inj]
      refine iff_of_false ?_ fun hw => Bool.false_ne_true hw.1
      rintro rfl
      rcases hinput with hesc | ⟨hplain, -⟩
      · exact hpre (List.mem_append_left _ hesc)
      · rw [show s.text = (Token.setting s).text from rfl, Token.isOption_text] at hplain
        cases hplain
    pending := by simp
    valid := h.valid
    input := by
      intro w
      rw [isInput_concat, ← h.input w, hnone]
      constructor
      · intro hw
        obtain rfl := Option.some_inj.mp hw
        exact Or.inr ⟨rfl, hinput⟩
      · rintro (hw | ⟨rfl, -⟩)
        · cases hw
        · rfl }

theorem step {arg : String} {r' : Reading} (h : Reads pre r) (hstep : r.step arg = .ok r') :
    Reads (pre ++ [arg]) r' := by
  cases Reading.step_of_eq_ok hstep with
  | escape hmode => exact h.escape hmode
  | option hmode hvalid t u hu hv => exact h.option hmode hvalid hu hv
  | value hmode v hplain hwaiting => exact h.value hmode hplain hwaiting
  | input v hmode hnone hvalid => exact h.isInput hmode hnone

theorem of_foldlM {args : List String} (h : args.foldlM Reading.step {} = .ok r) : Reads args r :=
  foldlM_result nil (fun _ _ _ _ _ _ hpre hstep => hpre.step hstep) h

end Reads

end PointsTo.CommandLine
