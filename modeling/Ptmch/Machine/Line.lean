import Mathlib.Data.List.Basic
import Mathlib.Data.List.Pairwise

/-!
# A value that travels down a line

The registers of a line, first to last, are a list.  The value `t` has entered the line at its head
and moves towards its end: `Led t l` says that it fills a first part of `l`, and `lag t l` counts
the registers that it has not reached.
-/

namespace Ptmch.Machine

variable {α : Type*} {t : α} {a : α} {l l' : List α}

/-! ### Led lines -/

/-- Whatever stands before a `t` is a `t`. -/
def Led (t : α) (l : List α) : Prop := l.Pairwise fun a b => b = t → a = t

theorem Led.sublist (h : Led t l') (hl : l.Sublist l') : Led t l := List.Pairwise.sublist hl h

theorem led_cons : Led t (a :: l) ↔ (t ∈ l → a = t) ∧ Led t l := by
  unfold Led
  rw [List.pairwise_cons]
  refine and_congr_left fun _ => ⟨fun h ht => h t ht rfl, fun h b hb hbt => ?_⟩
  exact h (hbt ▸ hb)

theorem Led.cons_self (h : Led t l) : Led t (t :: l) := led_cons.mpr ⟨fun _ => rfl, h⟩

theorem led_of_not_mem (h : t ∉ l) : Led t l := by
  unfold Led
  rw [List.pairwise_iff_forall_sublist]
  intro a b hab hb
  have hmem : b ∈ l := hab.subset (by simp)
  exact absurd (hb ▸ hmem) h

theorem led_of_forall_eq (h : ∀ b ∈ l, b = t) : Led t l := by
  unfold Led
  rw [List.pairwise_iff_forall_sublist]
  intro a b hab _
  exact h a (hab.subset (by simp))

theorem led_append : Led t (l ++ l') ↔ Led t l ∧ Led t l' ∧ (t ∈ l' → ∀ b ∈ l, b = t) := by
  unfold Led
  rw [List.pairwise_append]
  refine and_congr_right fun _ => and_congr_right fun _ => ⟨fun h ht b hb => h b hb t ht rfl, ?_⟩
  intro h b hb b' hb' ht
  exact h (ht ▸ hb') b hb

/-- A register in the middle may be doubled. -/
theorem Led.dup (h : Led t (l ++ a :: l')) : Led t (l ++ a :: a :: l') := by
  rw [led_append] at h ⊢
  obtain ⟨hl, hal, hmem⟩ := h
  refine ⟨hl, ?_, fun ht => hmem (by simpa using ht)⟩
  rw [led_cons] at hal ⊢
  exact ⟨fun ht => (List.mem_cons.mp ht).elim Eq.symm hal.1, led_cons.mpr hal⟩

/-- Where `t` has reached the end, it is everywhere. -/
theorem Led.eq_of_getLast (h : Led t l) (hne : l ≠ []) (hlast : l.getLast hne = t) :
    ∀ b ∈ l, b = t := by
  intro b hb
  rw [← List.dropLast_append_getLast hne] at h hb
  rw [led_append, hlast] at h
  rcases List.mem_append.mp hb with hinit | hend
  · exact h.2.2 (List.mem_singleton_self t) b hinit
  · rw [List.mem_singleton.mp hend, hlast]

/-! ### The rest of the way -/

variable [DecidableEq α]

/-- The registers that do not hold `t`. -/
def lag (t : α) (l : List α) : ℕ := l.countP (· ≠ t)

theorem lag_le_length : lag t l ≤ l.length := List.countP_le_length

theorem lag_push_le (l : List α) : lag t (t :: l.dropLast) ≤ lag t l := by
  unfold lag
  rw [List.countP_cons_of_neg (by simp)]
  exact (List.dropLast_sublist l).countP_le

/-- Pushing `t` into the line moves a `t` that is not yet at its end. -/
theorem lag_push (hne : l ≠ []) (hlast : l.getLast hne ≠ t) :
    lag t (t :: l.dropLast) + 1 = lag t l := by
  have hsplit := congrArg (lag t) (List.dropLast_append_getLast hne)
  unfold lag at hsplit ⊢
  rw [List.countP_append] at hsplit
  rw [List.countP_cons_of_neg (by simp), ← hsplit]
  simp [hlast]

end Ptmch.Machine
