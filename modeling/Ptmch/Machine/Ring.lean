import Mathlib.Data.List.Basic
import Mathlib.Logic.Function.Basic

/-!
# Circular buffers

A buffer of `n` cells, of which those from the index `out` up to the index `inp` are occupied, in
that order and starting again at `0` after the last cell.  One cell always stays free, so equal
indices mean an empty buffer.

A reader takes `ringAvail` cells and a writer fills `ringFree` cells without wrapping.  Neither
count shrinks while the other side works (`ringAvail_push`, `ringFree_pop`), so each side may work
with an index of the other that it has read earlier.
-/

namespace Ptmch.Machine

variable {α : Type*}

/-- The occupied cells, in the order in which they were filled. -/
def ringSlots (n out inp : ℕ) : List ℕ :=
  if out ≤ inp then List.range' out (inp - out)
  else List.range' out (n - out) ++ List.range' 0 inp

/-- What they contain. -/
def ringContents (n : ℕ) (buf : ℕ → α) (out inp : ℕ) : List α := (ringSlots n out inp).map buf

/-- The occupied cells from `out` on, up to the end of the buffer. -/
def ringAvail (n out inp : ℕ) : ℕ := if out ≤ inp then inp - out else n - out

/-- The cells from `inp` on that may be filled, up to the end of the buffer. -/
def ringFree (n out inp : ℕ) : ℕ :=
  if inp < out then out - 1 - inp
  else if 0 < out then n - inp
  else n - 1 - inp

variable {n out inp k i : ℕ}

theorem mem_ringSlots :
    i ∈ ringSlots n out inp ↔
      if out ≤ inp then out ≤ i ∧ i < inp else out ≤ i ∧ i < n ∨ i < inp := by
  unfold ringSlots
  split_ifs with h
  · rw [List.mem_range'_1]
    omega
  · rw [List.mem_append, List.mem_range'_1, List.mem_range'_1]
    omega

theorem ringSlots_self : ringSlots n out out = [] := by
  rw [ringSlots, if_pos (Nat.le_refl _), Nat.sub_self, List.range'_zero]

theorem ringContents_self (buf : ℕ → α) : ringContents n buf out out = [] := by
  rw [ringContents, ringSlots_self, List.map_nil]

theorem length_ringContents (buf : ℕ → α) :
    (ringContents n buf out inp).length = if out ≤ inp then inp - out else n - out + inp := by
  rw [ringContents, ringSlots]
  split_ifs <;> simp

theorem length_ringContents_lt (hinp : inp < n) (hout : out < n) (buf : ℕ → α) :
    (ringContents n buf out inp).length < n := by
  rw [length_ringContents]
  split_ifs <;> omega

theorem ringContents_eq_nil_iff (hout : out < n) (buf : ℕ → α) :
    ringContents n buf out inp = [] ↔ out = inp := by
  rw [← List.length_eq_zero_iff, length_ringContents]
  split_ifs <;> omega

/-- A cell that is not occupied may be filled. -/
theorem ringContents_update {buf : ℕ → α} {x : α} (hi : i ∉ ringSlots n out inp) :
    ringContents n (Function.update buf i x) out inp = ringContents n buf out inp :=
  List.map_congr_left fun j hj => Function.update_of_ne (fun h : j = i => hi (h ▸ hj)) x buf

/-! ### Indices -/

theorem ring_mod (hi : i < 2 * n) : i % n = if i < n then i else i - n := by
  split_ifs with h
  · exact Nat.mod_eq_of_lt h
  · rw [Nat.mod_eq_sub_mod (Nat.not_lt.mp h), Nat.mod_eq_of_lt (by omega)]

theorem ring_succ (hi : i < n) : (i + 1) % n = if i + 1 < n then i + 1 else 0 := by
  rw [ring_mod (by omega)]
  split_ifs <;> omega

theorem ring_add (hi : i < n) (hk : i + k ≤ n) : (i + k) % n = if i + k < n then i + k else 0 := by
  rw [ring_mod (by omega)]
  split_ifs <;> omega

/-- The length of a piece, where `i` cells are asked for and `k` are there. -/
theorem piece_spec (hi : 0 < i) (hk : k ≠ 0) :
    0 < (if i < k then i else k) ∧ (if i < k then i else k) ≤ i ∧
      (if i < k then i else k) ≤ k := by
  split_ifs <;> omega

/-! ### The reader -/

theorem add_ringAvail_le (hinp : inp < n) (hout : out < n) : out + ringAvail n out inp ≤ n := by
  unfold ringAvail
  split_ifs <;> omega

theorem ringAvail_eq_zero_iff (hout : out < n) : ringAvail n out inp = 0 ↔ out = inp := by
  unfold ringAvail
  split_ifs <;> omega

/-- The first cells are in one piece. -/
theorem ringSlots_split (hinp : inp < n) (hout : out < n) (hk : k ≤ ringAvail n out inp) :
    ringSlots n out inp = List.range' out k ++ ringSlots n ((out + k) % n) inp := by
  have hend := add_ringAvail_le hinp hout
  rw [ring_add hout (by omega)]
  unfold ringAvail at hk
  unfold ringSlots
  by_cases h : out ≤ inp
  · rw [if_pos h] at hk ⊢
    rw [if_pos (show out + k < n by omega), if_pos (by omega), List.range'_append_1]
    congr 1
    omega
  · rw [if_neg h] at hk ⊢
    by_cases hlast : out + k < n
    · rw [if_pos hlast, if_neg (by omega), ← List.append_assoc, List.range'_append_1]
      congr 2
      omega
    · rw [if_neg hlast, if_pos (Nat.zero_le _), Nat.sub_zero]
      congr 2
      omega

/-- **Taking cells** from the front. -/
theorem ringContents_split (hinp : inp < n) (hout : out < n) (hk : k ≤ ringAvail n out inp)
    (buf : ℕ → α) :
    ringContents n buf out inp =
      (List.range' out k).map buf ++ ringContents n buf ((out + k) % n) inp := by
  rw [ringContents, ringSlots_split hinp hout hk, List.map_append]
  rfl

/-- The cells to take are not the next one to fill. -/
theorem ne_of_lt_ringAvail (hlow : out ≤ i) (hi : i < out + ringAvail n out inp) :
    i ≠ inp := by
  unfold ringAvail at hi
  split_ifs at hi <;> omega

/-! ### The writer -/

theorem add_ringFree_le (hinp : inp < n) (hout : out < n) : inp + ringFree n out inp ≤ n := by
  unfold ringFree
  split_ifs <;> omega

/-- There is no cell to fill exactly if the next index is the reader's. -/
theorem ringFree_eq_zero_iff (hinp : inp < n) (hout : out < n) :
    ringFree n out inp = 0 ↔ (inp + 1) % n = out := by
  rw [ring_succ hinp]
  unfold ringFree
  split_ifs <;> omega

/-- A full buffer has all its cells but one occupied. -/
theorem length_ringContents_of_full (hinp : inp < n) (hfull : (inp + 1) % n = out) (buf : ℕ → α) :
    (ringContents n buf out inp).length + 1 = n := by
  rw [ring_succ hinp] at hfull
  rw [length_ringContents]
  split_ifs at hfull ⊢ <;> omega

/-- The cells to fill are not occupied. -/
theorem notMem_ringSlots (hlow : inp ≤ i) (hi : i < inp + ringFree n out inp) :
    i ∉ ringSlots n out inp := by
  rw [mem_ringSlots]
  unfold ringFree at hi
  split_ifs at hi ⊢ <;> omega

theorem ringSlots_append (hinp : inp < n) (hout : out < n) (hk : k ≤ ringFree n out inp) :
    ringSlots n out ((inp + k) % n) = ringSlots n out inp ++ List.range' inp k := by
  have hend := add_ringFree_le hinp hout
  rw [ring_add hinp (by omega)]
  unfold ringFree at hk
  unfold ringSlots
  by_cases h : out ≤ inp
  · rw [if_neg (Nat.not_lt.mpr h)] at hk
    rw [if_pos h]
    by_cases hlast : inp + k < n
    · have happ := List.range'_append_1 (s := out) (m := inp - out) (n := k)
      rw [Nat.add_sub_cancel' h] at happ
      rw [if_pos hlast, if_pos (by omega), happ]
      congr 1
      omega
    · split_ifs at hk
      · have happ := List.range'_append_1 (s := out) (m := inp - out) (n := k)
        rw [Nat.add_sub_cancel' h] at happ
        rw [if_neg hlast, if_neg (by omega), List.range'_zero, List.append_nil, happ]
        congr 1
        omega
      · omega
  · rw [if_pos (Nat.not_le.mp h)] at hk
    have happ := List.range'_append_1 (s := 0) (m := inp) (n := k)
    rw [Nat.zero_add] at happ
    rw [if_neg h, if_pos (show inp + k < n by omega), if_neg (by omega), List.append_assoc, happ]

/-- **Filling cells** at the end. -/
theorem ringContents_append (hinp : inp < n) (hout : out < n) (hk : k ≤ ringFree n out inp)
    (buf : ℕ → α) :
    ringContents n buf out ((inp + k) % n) =
      ringContents n buf out inp ++ (List.range' inp k).map buf := by
  rw [ringContents, ringSlots_append hinp hout hk, List.map_append]
  rfl

/-- Filling one cell. -/
theorem ringContents_push (hinp : inp < n) (hout : out < n) (hroom : (inp + 1) % n ≠ out)
    (buf : ℕ → α) (x : α) :
    ringContents n (Function.update buf inp x) out ((inp + 1) % n) =
      ringContents n buf out inp ++ [x] := by
  have hfree : 0 < ringFree n out inp :=
    Nat.pos_of_ne_zero fun h => hroom ((ringFree_eq_zero_iff hinp hout).mp h)
  rw [ringContents_append hinp hout hfree,
    ringContents_update (notMem_ringSlots (Nat.le_refl _) (by omega))]
  show _ ++ [Function.update buf inp x inp] = _
  rw [Function.update_self]

/-! ### The other side at work -/

/-- A writer that fills a cell leaves the reader what it has seen. -/
theorem ringAvail_push (hinp : inp < n) (hout : out < n) (hroom : (inp + 1) % n ≠ out) :
    ringAvail n out inp ≤ ringAvail n out ((inp + 1) % n) := by
  rw [ring_succ hinp] at hroom ⊢
  unfold ringAvail
  split_ifs at hroom ⊢ <;> omega

/-- A reader that takes a cell leaves the writer the room it has seen. -/
theorem ringFree_pop (hinp : inp < n) (hout : out < n) (hne : out ≠ inp) :
    ringFree n out inp ≤ ringFree n ((out + 1) % n) inp := by
  rw [ring_succ hout]
  unfold ringFree
  split_ifs <;> omega

end Ptmch.Machine
