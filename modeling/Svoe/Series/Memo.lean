import Svoe.Series.Accumulate
import Mathlib.Logic.Function.Basic

/-!
# Calls through a memo table

A function is called through a table of earlier results.  The table is indexed by a key of the
argument, and the key may say less than the argument.

* `memoCall_snd_eq_iff`, `memoCall_fst_eq_some_iff` : one call.
* `accumulate_memoCall_eq_iff` : the table goes unnoticed exactly when calls with the same key have
  the same results.
-/

namespace Svoe

namespace Series

variable {α κ ε V : Type*} [DecidableEq κ]

/-- Compute and remember. -/
def memoCompute (key : α → κ) (f : α → Except ε V) (memo : κ → Option V) (a : α) :
    (κ → Option V) × Except ε V :=
  match f a with
  | .ok v => (Function.update memo (key a) (some v), .ok v)
  | .error e => (memo, .error e)

/-- A call: an entry that is valid answers it, one that is not is deleted first. -/
def memoCall (key : α → κ) (valid : V → Bool) (f : α → Except ε V) (memo : κ → Option V) (a : α) :
    (κ → Option V) × Except ε V :=
  match memo (key a) with
  | some v =>
    if valid v then (memo, .ok v)
    else memoCompute key f (Function.update memo (key a) none) a
  | none => memoCompute key f memo a

variable {key : α → κ} {valid : V → Bool} {f : α → Except ε V} {memo : κ → Option V} {a : α}

theorem memoCompute_snd : (memoCompute key f memo a).2 = f a := by
  unfold memoCompute
  cases f a <;> rfl

theorem memoCompute_fst_eq_some_iff (h : memo (key a) = none) {k : κ} {v : V} :
    (memoCompute key f memo a).1 k = some v ↔ memo k = some v ∨ key a = k ∧ f a = .ok v := by
  unfold memoCompute
  cases hf : f a with
  | error e => simp
  | ok w =>
    by_cases hk : key a = k
    · subst hk; simp [h]
    · simp [Function.update_of_ne (Ne.symm hk), hk]

/-- **The answer** is right if no valid entry says something else. -/
theorem memoCall_snd_eq_iff :
    (memoCall key valid f memo a).2 = f a ↔
      ∀ v, memo (key a) = some v → valid v = true → f a = .ok v := by
  unfold memoCall
  cases hm : memo (key a) with
  | none => simp [memoCompute_snd]
  | some w =>
    dsimp only
    split_ifs with hw
    · refine ⟨?_, fun h => (h w rfl hw).symm⟩
      rintro h v ⟨⟩ -
      exact h.symm
    · refine iff_of_true memoCompute_snd ?_
      rintro v ⟨⟩ hv
      exact absurd hv hw

/-- **The valid entries** after a call with the right answer: those before it, and its own. -/
theorem memoCall_fst_eq_some_iff (h : (memoCall key valid f memo a).2 = f a) {k : κ} {v : V}
    (hv : valid v = true) :
    (memoCall key valid f memo a).1 k = some v ↔ memo k = some v ∨ key a = k ∧ f a = .ok v := by
  have hagree := memoCall_snd_eq_iff.1 h
  unfold memoCall
  cases hm : memo (key a) with
  | none => exact memoCompute_fst_eq_some_iff hm
  | some w =>
    dsimp only
    split_ifs with hw
    · refine ⟨.inl, fun hor => hor.elim id ?_⟩
      rintro ⟨rfl, hfa⟩
      exact hm.trans (congrArg some (Except.ok.inj ((hagree w hm hw).symm.trans hfa)))
    · rw [memoCompute_fst_eq_some_iff (by simp)]
      refine or_congr_left ?_
      by_cases hk : key a = k
      · subst hk
        have : w ≠ v := fun hwv => hw (hwv ▸ hv)
        simp [hm, this]
      · rw [Function.update_of_ne (Ne.symm hk)]

/-- Calls through a table with entries. -/
theorem accumulate_memoCall_eq_iff_of_memo {calls : List α} :
    (accumulate (memoCall key valid f) memo calls).2 = calls.map f ↔
      (∀ k v, memo k = some v → valid v = true → ∀ b ∈ calls, key b = k → f b = .ok v) ∧
        calls.Pairwise fun a b => key a = key b → ∀ v, f a = .ok v → valid v = true → f b = .ok v := by
  induction calls generalizing memo with
  | nil => simp
  | cons a calls ih =>
    rw [accumulate_cons, List.map_cons, List.cons.injEq, ih, List.pairwise_cons]
    constructor
    · rintro ⟨hhead, hmemo, hpair⟩
      refine ⟨fun k v hk hv b hb hkb => ?_, fun b hb hkey v hfa hv => ?_, hpair⟩
      · rcases List.mem_cons.1 hb with rfl | hb
        · exact memoCall_snd_eq_iff.1 hhead v (hkb ▸ hk) hv
        · exact hmemo k v ((memoCall_fst_eq_some_iff hhead hv).2 (.inl hk)) hv b hb hkb
      · exact hmemo (key a) v ((memoCall_fst_eq_some_iff hhead hv).2 (.inr ⟨rfl, hfa⟩)) hv b hb
          hkey.symm
    · rintro ⟨hmemo, hlater, hpair⟩
      have hhead : (memoCall key valid f memo a).2 = f a :=
        memoCall_snd_eq_iff.2 fun v hk hv => hmemo _ v hk hv a List.mem_cons_self rfl
      refine ⟨hhead, fun k v hk hv b hb hkb => ?_, hpair⟩
      rcases (memoCall_fst_eq_some_iff hhead hv).1 hk with hk | ⟨hka, hfa⟩
      · exact hmemo k v hk hv b (List.mem_cons_of_mem a hb) hkb
      · exact hlater b hb (hka.trans hkb.symm) v hfa hv

/-- **The table goes unnoticed** from the empty one on, exactly when a valid result is also the
result of every later call with its key. -/
theorem accumulate_memoCall_eq_iff {calls : List α} :
    (accumulate (memoCall key valid f) (fun _ => none) calls).2 = calls.map f ↔
      calls.Pairwise fun a b => key a = key b → ∀ v, f a = .ok v → valid v = true → f b = .ok v := by
  rw [accumulate_memoCall_eq_iff_of_memo]
  simp

end Series

end Svoe
