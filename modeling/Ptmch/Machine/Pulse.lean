import Mathlib.Data.List.Basic
import Mathlib.Data.List.Induction

/-!
# Pulses of a Boolean signal

A signal is the list of its levels, one for each period, earliest first.  A pulse is a maximal
interval of high levels; `pulses` lists the lengths of those that have ended and `highFor` measures
the one at the end of the signal, if any.  `pulses_concat` and `highFor_concat` say how both grow by
one level.

`sinceHigh` measures how long the signal has been low, up to a limit, which is what a retriggered
one-shot counts; `sinceHigh_lt_iff` says when the one-shot is on.
-/

namespace Ptmch.Machine

/-- The length of the current high interval and the lengths of those that have ended. -/
def pulseStep (acc : ℕ × List ℕ) (level : Bool) : ℕ × List ℕ :=
  if level then (acc.1 + 1, acc.2)
  else if acc.1 = 0 then acc
  else (0, acc.2 ++ [acc.1])

/-- For how many periods the signal has been high. -/
def highFor (levels : List Bool) : ℕ := (levels.foldl pulseStep (0, [])).1

/-- The lengths of the pulses that have ended. -/
def pulses (levels : List Bool) : List ℕ := (levels.foldl pulseStep (0, [])).2

variable (levels : List Bool)

@[simp] theorem highFor_nil : highFor [] = 0 := rfl

@[simp] theorem pulses_nil : pulses [] = [] := rfl

theorem highFor_concat (level : Bool) :
    highFor (levels ++ [level]) = if level then highFor levels + 1 else 0 := by
  unfold highFor
  rw [List.foldl_append, List.foldl_cons, List.foldl_nil, pulseStep]
  split_ifs with _ h0
  · rfl
  · exact h0
  · rfl

theorem pulses_concat (level : Bool) :
    pulses (levels ++ [level])
      = pulses levels ++ if level = false ∧ highFor levels ≠ 0 then [highFor levels] else [] := by
  unfold pulses highFor
  rw [List.foldl_append, List.foldl_cons, List.foldl_nil, pulseStep]
  cases level with
  | true => simp
  | false =>
    by_cases h0 : (levels.foldl pulseStep (0, [])).1 = 0 <;> simp [h0]

/-! ### One-shots -/

/-- The periods since the last high level, up to `n`; `n` if there was none. -/
def sinceHigh (n : ℕ) (levels : List Bool) : ℕ :=
  if true ∈ levels then min n (levels.reverse.idxOf true) else n

theorem sinceHigh_nil (n : ℕ) : sinceHigh n [] = n := rfl

theorem sinceHigh_concat (n : ℕ) (level : Bool) :
    sinceHigh n (levels ++ [level]) = if level then 0 else min n (sinceHigh n levels + 1) := by
  unfold sinceHigh
  rw [List.reverse_append, List.reverse_singleton, List.singleton_append]
  cases level with
  | true => simp
  | false =>
    rw [List.idxOf_cons_ne _ Bool.false_ne_true]
    by_cases h : true ∈ levels
    · simp only [List.mem_append, h, true_or, if_true, Bool.false_eq_true, if_false]
      omega
    · simp [h]

/-- A lower limit is reached no later. -/
theorem sinceHigh_succ_lt_iff (n : ℕ) : sinceHigh (n + 1) levels < n ↔ sinceHigh n levels < n := by
  unfold sinceHigh
  split_ifs <;> omega

/-- **A one-shot** that stays on for `n` periods is on exactly if one of the last `n` levels was
high. -/
theorem sinceHigh_lt_iff (n : ℕ) :
    sinceHigh n levels < n ↔ ∃ j, levels[j]? = some true ∧ levels.length ≤ j + n := by
  induction levels using List.reverseRecOn generalizing n with
  | nil => simp [sinceHigh_nil]
  | append_singleton levels level ih =>
    rw [sinceHigh_concat, List.length_append, List.length_singleton]
    cases level with
    | true =>
      rw [if_pos rfl]
      constructor
      · exact fun hn => ⟨levels.length, List.getElem?_concat_length, by omega⟩
      · rintro ⟨j, hj, hle⟩
        obtain ⟨hlt, -⟩ := List.getElem?_eq_some_iff.mp hj
        rw [List.length_append, List.length_singleton] at hlt
        omega
    | false =>
      -- the level appended is low, so the limit is one period closer
      have hlast : (∃ j, (levels ++ [false])[j]? = some true ∧ levels.length + 1 ≤ j + n) ↔
          ∃ j, levels[j]? = some true ∧ levels.length + 1 ≤ j + n := by
        refine exists_congr fun j => and_congr_left fun _ => ?_
        rw [List.getElem?_append]
        split_ifs with hlt
        · exact Iff.rfl
        · rw [List.getElem?_eq_none (Nat.le_of_not_lt hlt)]
          simp [List.getElem?_singleton]
      rw [if_neg Bool.false_ne_true, hlast]
      cases n with
      | zero =>
        refine iff_of_false (Nat.not_lt_zero _) ?_
        rintro ⟨j, hj, hle⟩
        obtain ⟨hlt, -⟩ := List.getElem?_eq_some_iff.mp hj
        omega
      | succ n =>
        have hstep : min (n + 1) (sinceHigh (n + 1) levels + 1) < n + 1 ↔
            sinceHigh (n + 1) levels < n := by omega
        rw [hstep, sinceHigh_succ_lt_iff, ih]
        refine exists_congr fun j => and_congr_right fun _ => ?_
        omega

end Ptmch.Machine
