import Mathlib.Data.List.Nodup
import PointsTo.Fault

/-! Computations that can fail.

    `Delivers why x P` says that `x` gives a result with the property `P`, unless a sum of machine
    words overflows on the way, for which `why` gives the reason: no other fault is possible.
    Specifications of checked operations have this form; they are put together along `bind` and along
    folds. `Agree R x y` compares two computations: either both give results, which are related, or
    both fail with the same fault. -/

namespace PointsTo

theorem ok_bind {ε α β : Type} (a : α) (f : α → Except ε β) : (Except.ok a >>= f) = f a := rfl

theorem pure_eq_ok {ε α : Type} (a : α) : (pure a : Except ε α) = .ok a := rfl

theorem ok_unique {ε α : Type} {x : Except ε α} {a b : α} (ha : x = .ok a) (hb : x = .ok b) : a = b :=
  Except.ok.inj (ha.symm.trans hb)

theorem bind_eq_ok {ε α β : Type} {x : Except ε α} {f : α → Except ε β} {r : β} :
    (x >>= f) = .ok r ↔ ∃ a, x = .ok a ∧ f a = .ok r := by
  cases x with
  | error e => simp [Bind.bind, Except.bind]
  | ok a => simp [Bind.bind, Except.bind]

theorem map_eq_ok {ε α β : Type} {x : Except ε α} {f : α → β} {b : β} :
    x.map f = .ok b ↔ ∃ a, x = .ok a ∧ f a = b := by
  cases x with
  | error e => simp [Except.map]
  | ok a => simp [Except.map]

theorem map_eq_error {ε α β : Type} {x : Except ε α} {f : α → β} {e : ε} :
    x.map f = .error e ↔ x = .error e := by
  cases x with
  | error e => simp [Except.map]
  | ok a => simp [Except.map]

theorem mapError_eq_ok {ε ε' α : Type} {e : ε → ε'} {x : Except ε α} {a : α} :
    x.mapError e = .ok a ↔ x = .ok a := by
  cases x with
  | error _ => simp [Except.mapError]
  | ok b => simp [Except.mapError]

theorem error_not_ok {ε α : Type} {e : ε} : ¬ ∃ a : α, Except.error e = .ok a := by
  rintro ⟨_, h⟩
  cases h

/-- When a computation of two parts succeeds. -/
theorem bind_ok_iff {ε α β : Type} {P Q : Prop} {x : Except ε α} {f : α → Except ε β}
    (hx : (∃ a, x = .ok a) ↔ P) (hf : ∀ a, x = .ok a → ((∃ r, f a = .ok r) ↔ Q)) :
    (∃ r, (x >>= f) = .ok r) ↔ P ∧ Q := by
  cases x with
  | error e => exact iff_of_false error_not_ok fun h => error_not_ok (hx.mpr h.1)
  | ok a =>
    rw [ok_bind, hf a rfl]
    exact (and_iff_right (hx.mp ⟨a, rfl⟩)).symm

theorem bind_pure_ok_iff {ε α β : Type} {x : Except ε α} {f : α → β} :
    (∃ r, (x >>= fun a => pure (f a)) = .ok r) ↔ ∃ a, x = .ok a :=
  (bind_ok_iff Iff.rfl fun _ _ => iff_of_true ⟨_, rfl⟩ trivial).trans (and_iff_left trivial)

/-- A computation that goes on alike in both branches. -/
theorem ite_bind_eq_ok {ε α β : Type} {c : Bool} {x y : Except ε α} {f : α → Except ε β} {r : β} :
    (if c then x >>= f else y >>= f) = .ok r ↔ ∃ a, (if c then x else y) = .ok a ∧ f a = .ok r := by
  cases c with
  | true => exact bind_eq_ok
  | false => exact bind_eq_ok

variable {α β σ : Type} {why : Prop} {P : α → Prop} {Q : β → Prop}

/-- The computation gives a result with a property, unless there is reason for a sum to overflow. -/
def Delivers (why : Prop) (x : Except Fault α) (P : α → Prop) : Prop :=
  match x with
  | .ok a => P a
  | .error e => e = .addOverflow ∧ why

namespace Delivers

theorem ok {a : α} (h : P a) : Delivers why (.ok a) P := h

theorem overflow (h : why) : Delivers why (.error .addOverflow : Except Fault α) P := ⟨rfl, h⟩

theorem of_eq {x : Except Fault α} {a : α} (hx : x = .ok a) (h : P a) : Delivers why x P := by
  rw [hx]; exact h

theorem result {x : Except Fault α} (h : Delivers why x P) {a : α} (hx : x = .ok a) : P a := by
  rw [hx] at h; exact h

theorem fault {x : Except Fault α} (h : Delivers why x P) {e : Fault} (hx : x = .error e) :
    e = .addOverflow ∧ why := by
  rw [hx] at h; exact h

theorem cases {x : Except Fault α} (h : Delivers why x P) :
    (∃ a, x = .ok a ∧ P a) ∨ (x = .error .addOverflow ∧ why) := by
  cases x with
  | ok a => exact Or.inl ⟨a, rfl, h⟩
  | error e => exact Or.inr ⟨congrArg Except.error h.1, h.2⟩

theorem mono {P' : α → Prop} {x : Except Fault α} (h : Delivers why x P) (himp : ∀ a, P a → P' a) :
    Delivers why x P' := by
  cases x with
  | ok a => exact himp a h
  | error e => exact h

/-- A reason that is due to another one. -/
theorem because {why' : Prop} {x : Except Fault α} (h : Delivers why x P) (himp : why → why') :
    Delivers why' x P := by
  cases x with
  | ok a => exact h
  | error e => exact ⟨h.1, himp h.2⟩

theorem bind {x : Except Fault α} {f : α → Except Fault β} (hx : Delivers why x P)
    (hf : ∀ a, P a → Delivers why (f a) Q) : Delivers why (x >>= f) Q := by
  cases x with
  | ok a => exact hf a hx
  | error e => exact hx

theorem bind_ok {x : Except Fault α} {a : α} {f : α → Except Fault β} (hx : x = .ok a)
    (hf : Delivers why (f a) Q) : Delivers why (x >>= f) Q := by
  rw [hx]; exact hf

/-- A computation that goes on alike in both branches. -/
theorem ite_bind {c : Bool} {x y : Except Fault α} {f : α → Except Fault β}
    (hxy : Delivers why (if c then x else y) P) (hf : ∀ a, P a → Delivers why (f a) Q) :
    Delivers why (if c then x >>= f else y >>= f) Q := by
  cases c with
  | true => exact hxy.bind hf
  | false => exact hxy.bind hf

/-- What every step of a fold keeps, told what has been folded so far, holds of its result. -/
theorem foldlM {f : σ → α → Except Fault σ} {xs : List α} {s : σ} {I : List α → σ → Prop}
    (hinit : I [] s)
    (hstep : ∀ done x rest t, xs = done ++ x :: rest → I done t →
      Delivers why (f t x) (I (done ++ [x]))) :
    Delivers why (xs.foldlM f s) (I xs) := by
  suffices h : ∀ rest done t, xs = done ++ rest → I done t → Delivers why (rest.foldlM f t) (I xs) from
    h xs [] s rfl hinit
  intro rest
  induction rest with
  | nil =>
    intro done t hxs ht
    rw [hxs, List.append_nil]
    exact ht
  | cons x rest ih =>
    intro done t hxs ht
    rw [List.foldlM_cons]
    refine (hstep done x rest t hxs ht).bind ?_
    intro t' ht'
    exact ih (done ++ [x]) t' (by simpa using hxs) ht'

end Delivers

/-- A fold of steps that all succeed succeeds, and what they keep holds of its result. -/
theorem foldlM_succeeds {ε : Type} {f : σ → α → Except ε σ} {xs : List α} {s : σ}
    {I : List α → σ → Prop} (hinit : I [] s)
    (hstep : ∀ done x rest t, xs = done ++ x :: rest → I done t →
      ∃ t', f t x = .ok t' ∧ I (done ++ [x]) t') : ∃ t, xs.foldlM f s = .ok t ∧ I xs t := by
  suffices h : ∀ rest done t, xs = done ++ rest → I done t → ∃ t', rest.foldlM f t = .ok t' ∧ I xs t' from
    h xs [] s rfl hinit
  intro rest
  induction rest with
  | nil =>
    intro done t hxs ht
    rw [hxs, List.append_nil]
    exact ⟨t, rfl, ht⟩
  | cons x rest ih =>
    intro done t hxs ht
    obtain ⟨t', heq, ht'⟩ := hstep done x rest t hxs ht
    rw [List.foldlM_cons, heq]
    exact ih (done ++ [x]) t' (by simpa using hxs) ht'

/-- What every successful step of a fold keeps holds of its result. -/
theorem foldlM_result {ε : Type} {f : σ → α → Except ε σ} {xs : List α} {s t : σ}
    {I : List α → σ → Prop} (hinit : I [] s)
    (hstep : ∀ done x rest u v, xs = done ++ x :: rest → I done u → f u x = .ok v → I (done ++ [x]) v)
    (hfold : xs.foldlM f s = .ok t) : I xs t := by
  suffices h : ∀ rest done u, xs = done ++ rest → I done u → rest.foldlM f u = .ok t → I xs t from
    h xs [] s rfl hinit hfold
  intro rest
  induction rest with
  | nil =>
    intro done u hxs hu heq
    rw [hxs, List.append_nil]
    injection heq with heq
    exact heq ▸ hu
  | cons x rest ih =>
    intro done u hxs hu heq
    rw [List.foldlM_cons] at heq
    cases hx : f u x with
    | error e => rw [hx] at heq; cases heq
    | ok v =>
      rw [hx] at heq
      exact ih (done ++ [x]) v (by simpa using hxs) (hstep done x rest u v hxs hu hx) heq

/-- When a fold succeeds of which every step takes the key of its element, if it has one: each element
    has to be in order by itself, with a key that no other element has taken. -/
theorem foldlM_ok_iff {ε κ : Type} {f : σ → α → Except ε σ} {k : α → Option κ} {P : α → Prop}
    {I : List α → σ → Prop}
    (hstep : ∀ {done x t}, I done t →
      ((∃ u, f t x = .ok u) ↔ P x ∧ ∀ n, k x = some n → n ∉ done.filterMap k))
    (hkeep : ∀ {done x t u}, I done t → f t x = .ok u → I (done ++ [x]) u)
    {xs : List α} {s : σ} (hs : I [] s) :
    (∃ t, xs.foldlM f s = .ok t) ↔ (∀ x ∈ xs, P x) ∧ (xs.filterMap k).Nodup := by
  suffices h : ∀ (rest done : List α) (t : σ), I done t → ((∃ u, rest.foldlM f t = .ok u) ↔
      (∀ x ∈ rest, P x) ∧ (rest.filterMap k).Nodup ∧ ∀ n ∈ rest.filterMap k, n ∉ done.filterMap k) by
    simpa using h xs [] s hs
  intro rest
  induction rest with
  | nil => simp [pure_eq_ok]
  | cons x rest ih =>
    intro done t ht
    have hkeys : ∀ n, n ∈ (x :: rest).filterMap k ↔ k x = some n ∨ n ∈ rest.filterMap k := by
      intro n
      simp only [List.mem_filterMap, List.mem_cons, exists_eq_or_imp]
    have hnodup : ((x :: rest).filterMap k).Nodup ↔
        (∀ n, k x = some n → n ∉ rest.filterMap k) ∧ (rest.filterMap k).Nodup := by
      cases hkey : k x with
      | none => simp [hkey]
      | some n => simp [hkey]
    have htaken : ∀ n, n ∈ (done ++ [x]).filterMap k ↔ n ∈ done.filterMap k ∨ k x = some n := by
      intro n
      simp only [List.mem_filterMap, List.mem_append, List.mem_singleton, or_and_right, exists_or,
        exists_eq_left]
    rw [List.foldlM_cons, bind_ok_iff (hstep ht) fun u hu => ih (done ++ [x]) u (hkeep ht hu)]
    simp only [hkeys, hnodup, htaken, List.forall_mem_cons]
    grind

/-- A fold of steps that succeed from related states succeeds from related states. -/
theorem foldlM_simulates {ε : Type} {f : σ → α → Except ε σ} {R : σ → σ → Prop}
    (hstep : ∀ {s s' t : σ} {x : α}, R s s' → f s x = .ok t → ∃ t', f s' x = .ok t' ∧ R t t')
    {xs : List α} {s s' t : σ} (hR : R s s') (hfold : xs.foldlM f s = .ok t) :
    ∃ t', xs.foldlM f s' = .ok t' ∧ R t t' := by
  induction xs generalizing s s' with
  | nil =>
    cases hfold
    exact ⟨s', rfl, hR⟩
  | cons x xs ih =>
    rw [List.foldlM_cons, bind_eq_ok] at hfold
    obtain ⟨u, hu, hrest⟩ := hfold
    obtain ⟨u', hu', hR'⟩ := hstep hR hu
    rw [List.foldlM_cons, hu', ok_bind]
    exact ih hR' hrest

/-- What every step of a fold keeps holds of its result. -/
theorem foldl_keeps {f : σ → α → σ} {xs : List α} {s : σ} {I : List α → σ → Prop}
    (hinit : I [] s)
    (hstep : ∀ done x rest t, xs = done ++ x :: rest → I done t → I (done ++ [x]) (f t x)) :
    I xs (xs.foldl f s) := by
  suffices h : ∀ rest done t, xs = done ++ rest → I done t → I xs (rest.foldl f t) from
    h xs [] s rfl hinit
  intro rest
  induction rest with
  | nil =>
    intro done t hxs ht
    rw [hxs, List.append_nil]
    exact ht
  | cons x rest ih =>
    intro done t hxs ht
    exact ih (done ++ [x]) (f t x) (by simpa using hxs) (hstep done x rest t hxs ht)

/-- Two computations give related results or fail with the same fault. -/
inductive Agree {ε : Type} (R : α → β → Prop) : Except ε α → Except ε β → Prop
  | ok {a : α} {b : β} (h : R a b) : Agree R (.ok a) (.ok b)
  | error (e : ε) : Agree R (.error e) (.error e)

namespace Agree

variable {ε γ δ : Type} {R : α → β → Prop} {S : γ → δ → Prop}

theorem mono {S : α → β → Prop} {x : Except ε α} {y : Except ε β} (h : Agree R x y)
    (himp : ∀ a b, R a b → S a b) : Agree S x y := by
  cases h with
  | ok h => exact .ok (himp _ _ h)
  | error e => exact .error e

theorem bind {x : Except ε α} {y : Except ε β} {f : α → Except ε γ} {g : β → Except ε δ}
    (h : Agree R x y) (hfg : ∀ a b, R a b → Agree S (f a) (g b)) : Agree S (x >>= f) (y >>= g) := by
  cases h with
  | ok h => exact hfg _ _ h
  | error e => exact .error e

/-- Two computations that start with the same one. -/
theorem bind_same {x : Except ε α} {f : α → Except ε γ} {g : α → Except ε δ}
    (hfg : ∀ a, x = .ok a → Agree S (f a) (g a)) : Agree S (x >>= f) (x >>= g) := by
  cases x with
  | ok a => exact hfg a rfl
  | error e => exact .error e

theorem foldlM {σ' : Type} {R : σ → σ' → Prop} {f : σ → α → Except ε σ} {g : σ' → α → Except ε σ'}
    (hstep : ∀ s s' x, R s s' → Agree R (f s x) (g s' x)) (xs : List α) {s : σ} {s' : σ'}
    (h : R s s') : Agree R (xs.foldlM f s) (xs.foldlM g s') := by
  induction xs generalizing s s' with
  | nil => exact .ok h
  | cons x xs ih =>
    rw [List.foldlM_cons, List.foldlM_cons]
    exact (hstep s s' x h).bind fun _ _ h => ih h

end Agree

end PointsTo
