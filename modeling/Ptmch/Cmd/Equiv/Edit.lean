import Ptmch.Cmd.Basic

/-!
# Correctness of `removeNonascii`

`remove_nonascii` reads with one pointer and writes with another in the same buffer.  What it has
kept so far is a stack, which `edit` builds from the bytes of the line, and the invariant `Editing`
says that the stack is at the start of the buffer, ends where `removed_p` points, and is no longer
than what has been read.
-/

namespace Ptmch.Cmd

open CLib

/-! ### The stack -/

def IsPrintable (b : Byte) : Prop := 0x20 ≤ b.toNat ∧ b.toNat ≤ 0x7e

instance : DecidablePred IsPrintable := fun b =>
  inferInstanceAs (Decidable (0x20 ≤ b.toNat ∧ b.toNat ≤ 0x7e))

/-- A printable byte is kept, a backspace removes the last kept byte, and others are dropped. -/
def keep (kept : List Byte) (b : Byte) : List Byte :=
  if IsPrintable b then kept ++ [b] else if b = 0x08 then kept.dropLast else kept

/-- The text that editing a line from left to right gives. -/
def edit (line : List Byte) : List Byte := line.foldl keep []

theorem keep_printable {kept : List Byte} (h : ∀ b ∈ kept, IsPrintable b) (b : Byte) :
    ∀ c ∈ keep kept b, IsPrintable c := by
  intro c hc
  unfold keep at hc
  split_ifs at hc with hb
  · rcases List.mem_append.mp hc with hc | hc
    · exact h c hc
    · exact List.mem_singleton.mp hc ▸ hb
  · exact h c (List.dropLast_subset _ hc)
  · exact h c hc

theorem foldl_keep_printable {kept : List Byte} (h : ∀ b ∈ kept, IsPrintable b) (line : List Byte) :
    ∀ b ∈ line.foldl keep kept, IsPrintable b := by
  induction line generalizing kept with
  | nil => exact h
  | cons b line ih => exact ih (keep_printable h b)

/-- An edited text is printable. -/
theorem edit_printable (line : List Byte) : ∀ b ∈ edit line, IsPrintable b :=
  foldl_keep_printable (List.forall_mem_nil _) line

theorem IsPrintable.ne_zero {b : Byte} (h : IsPrintable b) : b ≠ 0 := by
  rintro rfl
  exact absurd h (by decide)

theorem length_keep_le (kept : List Byte) (b : Byte) : (keep kept b).length ≤ kept.length + 1 := by
  unfold keep
  split_ifs
  · exact (List.length_append).le
  · exact (List.length_dropLast).le.trans (by omega)
  · exact Nat.le_succ _

theorem length_foldl_keep_le (kept line : List Byte) :
    (line.foldl keep kept).length ≤ kept.length + line.length := by
  induction line generalizing kept with
  | nil => exact Nat.le_refl _
  | cons b line ih =>
    have hb := length_keep_le kept b
    have hline := ih (keep kept b)
    rw [List.foldl_cons, List.length_cons]
    omega

/-- The test of `remove_nonascii`, whether characters are signed or not. -/
theorem char_iff (pf : Platform) (b : Byte) :
    pf.char b < 0x20 ∨ 0x7e < pf.char b ↔ ¬IsPrintable b := by
  have hb := b.isLt
  unfold Platform.char IsPrintable
  rw [BitVec.toInt_eq_toNat_cond]
  split_ifs <;> omega

/-! ### The loop -/

variable {m : Mem} {p : Ptr} {kept rest : List Byte} {b : Byte} {i : ℕ}

/-- What `kept` of the first `i` bytes at `p` is left, with `rest` still to read. -/
structure Editing (m : Mem) (p : Ptr) (kept rest : List Byte) (i : ℕ) : Prop where
  length_le : kept.length ≤ i
  holds_kept : Holds m p kept
  holds_rest : Holds m (p + BitVec.ofNat 32 i) (rest ++ [0])
  fits : p.toNat + i + rest.length < 2 ^ 32

theorem Editing.holds_tail (h : Editing m p kept (b :: rest) i) :
    Holds m (p + BitVec.ofNat 32 (i + 1)) (rest ++ [0]) := by
  rw [← add_one_add_ofNat, BitVec.add_assoc, BitVec.add_comm 1, ← BitVec.add_assoc]
  exact h.holds_rest.2

/-- A kept byte is written over one that has been read. -/
theorem Editing.write (h : Editing m p kept (b :: rest) i) :
    Editing (Function.update m (p + BitVec.ofNat 32 kept.length) b) p (kept ++ [b]) rest
      (i + 1) where
  length_le := by
    rw [List.length_append, List.length_singleton]
    exact Nat.succ_le_succ h.length_le
  holds_kept := by
    have hfits := h.fits
    have hle := h.length_le
    refine holds_append.mpr ⟨h.holds_kept.update fun j hj => ?_, Function.update_self .., trivial⟩
    rw [Ne, add_ofNat_inj (by omega) (by omega)]
    omega
  -- `removed_p` is at or before the byte that was read, so what is still to read stays
  holds_rest := by
    have hfits := h.fits
    have hle := h.length_le
    refine h.holds_tail.update fun j hj => ?_
    rw [List.length_append, List.length_singleton] at hj
    rw [List.length_cons] at hfits
    rw [BitVec.add_assoc, ← BitVec.ofNat_add, Ne, add_ofNat_inj (by omega) (by omega)]
    omega
  fits := by
    have hfits := h.fits
    rw [List.length_cons] at hfits
    omega

/-- A byte that is dropped, with the bytes that it drops. -/
theorem Editing.skip {kept' : List Byte} (h : Editing m p kept (b :: rest) i)
    (hkept : kept' <+: kept) :
    Editing m p kept' rest (i + 1) where
  length_le := hkept.length_le.trans (Nat.le_succ_of_le h.length_le)
  holds_kept := by
    obtain ⟨tail, rfl⟩ := hkept
    exact (holds_append.mp h.holds_kept).1
  holds_rest := h.holds_tail
  fits := by
    have hfits := h.fits
    rw [List.length_cons] at hfits
    omega

/-- `removed_p` after a backspace, which stays where the buffer starts. -/
theorem Editing.clamp (h : Editing m p kept rest i) (hp : p ≠ 0) :
    (if p + BitVec.ofNat 32 kept.length - 1 < p then p else p + BitVec.ofNat 32 kept.length - 1) =
      p + BitVec.ofNat 32 kept.dropLast.length := by
  have hfits := h.fits
  have hle := h.length_le
  cases hlen : kept.length with
  | zero =>
    -- nothing is kept: `removed_p - 1` is before the buffer, which is not at address zero
    have hpos : 0 < p.toNat := BitVec.toNat_pos_of_ne_zero hp
    have hlt : p - 1 < p := by
      rw [BitVec.lt_def]
      bv_omega
    have hdrop : kept.dropLast.length = 0 := by rw [List.length_dropLast, hlen]
    rw [hdrop, BitVec.add_zero, if_pos hlt]
  | succ n =>
    have hpred : p + BitVec.ofNat 32 (n + 1) - 1 = p + BitVec.ofNat 32 n := by
      rw [BitVec.ofNat_add, ← BitVec.add_assoc]
      exact BitVec.add_sub_cancel _ _
    have hge : ¬p + BitVec.ofNat 32 n < p := by
      rw [BitVec.lt_def, BitVec.toNat_add, BitVec.toNat_ofNat]
      omega
    have hdrop : kept.dropLast.length = n := by rw [List.length_dropLast, hlen, Nat.add_sub_cancel]
    rw [hpred, if_neg hge, hdrop]

/-- **One turn**: the loop goes on after the byte, with the stack that the byte leaves.  What the
turn writes is the byte, at the end of the stack. -/
theorem Editing.turn (pf : Platform) (hp : p ≠ 0) (h : Editing m p kept (b :: rest) i) (hb : b ≠ 0)
    (n : ℕ) :
    ∃ m' writes, Editing m' p (keep kept b) rest (i + 1) ∧
      (∀ x ∈ writes, x = .write (p + BitVec.ofNat 32 kept.length) b) ∧
      removeFrom pf p (n + 1) m (p + BitVec.ofNat 32 i) (p + BitVec.ofNat 32 kept.length) =
        removeFrom pf p n m' (p + BitVec.ofNat 32 (i + 1))
          (p + BitVec.ofNat 32 (keep kept b).length) ∧
      removeTraceFrom pf p (n + 1) m (p + BitVec.ofNat 32 i) (p + BitVec.ofNat 32 kept.length) =
        .read (p + BitVec.ofNat 32 i) :: (writes ++
          removeTraceFrom pf p n m' (p + BitVec.ofNat 32 (i + 1))
            (p + BitVec.ofNat 32 (keep kept b).length)) := by
  have hread : m (p + BitVec.ofNat 32 i) = b := h.holds_rest.1
  have hcurrent : p + BitVec.ofNat 32 i + 1 = p + BitVec.ofNat 32 (i + 1) := by
    rw [BitVec.ofNat_add, ← BitVec.add_assoc]
    rfl
  rw [removeFrom, removeTraceFrom, hread, if_neg hb, if_neg hb, hcurrent,
    if_congr (char_iff pf b) rfl rfl, if_congr (char_iff pf b) rfl rfl]
  by_cases hprint : IsPrintable b
  · -- the byte is copied down
    have hkeep : keep kept b = kept ++ [b] := if_pos hprint
    have hremoved : p + BitVec.ofNat 32 kept.length + 1 =
        p + BitVec.ofNat 32 (kept ++ [b]).length := by
      rw [List.length_append, BitVec.ofNat_add, ← BitVec.add_assoc]
      rfl
    rw [if_neg (not_not_intro hprint), if_neg (not_not_intro hprint), hkeep, hremoved]
    exact ⟨_, [.write (p + BitVec.ofNat 32 kept.length) b], h.write,
      fun x hx => List.mem_singleton.mp hx, rfl, rfl⟩
  · rw [if_pos hprint, if_pos hprint]
    by_cases hback : b = 0x08
    · -- a backspace takes `removed_p` back
      have hkeep : keep kept b = kept.dropLast := by rw [keep, if_neg hprint, if_pos hback]
      rw [if_pos hback, if_pos hback, h.clamp hp, hkeep]
      exact ⟨_, [], h.skip (List.dropLast_prefix _), List.forall_mem_nil _, rfl, rfl⟩
    · -- any other byte is passed over
      have hkeep : keep kept b = kept := by rw [keep, if_neg hprint, if_neg hback]
      rw [if_neg hback, if_neg hback, hkeep]
      exact ⟨_, [], h.skip List.prefix_rfl, List.forall_mem_nil _, rfl, rfl⟩

/-- The loop leaves the stack at the start of the buffer, and `removed_p` at its end. -/
theorem removeFrom_eq (pf : Platform) (hp : p ≠ 0) (h : Editing m p kept rest i)
    (hne : ∀ b ∈ rest, b ≠ 0) :
    ∃ m', removeFrom pf p rest.length m (p + BitVec.ofNat 32 i) (p + BitVec.ofNat 32 kept.length) =
        (m', p + BitVec.ofNat 32 (rest.foldl keep kept).length) ∧
      Holds m' p (rest.foldl keep kept) := by
  -- by induction on the bytes still to read, with `Editing` before each of them
  induction rest generalizing m kept i with
  | nil => exact ⟨m, rfl, h.holds_kept⟩
  | cons b rest ih =>
    obtain ⟨hb, hrest⟩ := List.forall_mem_cons.mp hne
    obtain ⟨m', writes, hnext, -, hrun, -⟩ := h.turn pf hp hb rest.length
    rw [List.foldl_cons, List.length_cons, hrun]
    exact ih hnext hrest

/-- A length that an `int` can hold. -/
theorem toInt_toNat_ofNat {n : ℕ} (h : n < 2 ^ 31) : (BitVec.ofNat 32 n).toInt.toNat = n := by
  rw [BitVec.toInt_eq_toNat_of_lt (by rw [BitVec.toNat_ofNat]; omega), BitVec.toNat_ofNat]
  omega

/-- **Correctness of `removeNonascii`**: a line in a buffer is replaced by its edited text. -/
theorem removeNonascii_eq (pf : Platform) {line : List Byte} (hp : p ≠ 0)
    (hline : Holds m p (line ++ [0])) (hne : ∀ b ∈ line, b ≠ 0) (hlen : line.length < 2 ^ 31)
    (hfits : p.toNat + line.length < 2 ^ 32) :
    Holds (removeNonascii pf m p (BitVec.ofNat 32 line.length)) p (edit line ++ [0]) := by
  have hsize := toInt_toNat_ofNat hlen
  have hstart : Editing m p [] line 0 :=
    ⟨Nat.le_refl _, trivial, by rwa [BitVec.add_zero], hfits⟩
  obtain ⟨m', hm', hkept⟩ := removeFrom_eq pf hp hstart hne
  rw [List.length_nil, BitVec.add_zero] at hm'
  have hedit : (edit line).length ≤ line.length :=
    (length_foldl_keep_le [] line).trans (Nat.zero_add _).le
  simp only [removeNonascii, hsize, hm']
  refine holds_append.mpr ⟨hkept.update fun j hj => ?_, Function.update_self .., trivial⟩
  have hj : j < (edit line).length := hj
  rw [Ne, ← edit, add_ofNat_inj (by omega) (by omega)]
  omega

end Ptmch.Cmd
