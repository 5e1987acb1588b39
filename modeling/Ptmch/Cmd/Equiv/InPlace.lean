import Ptmch.Cmd.Equiv.Edit

/-!
# `removeNonascii` in place

What `remove_nonascii` reads and writes on its way.  A turn reads the byte at its own index and
writes at the end of the stack, which is no further, so no byte is read after it has been written
over (`InPlace`), and an edited text is left as it is (`removeNonascii_of_printable`).
-/

namespace Ptmch.Cmd

open CLib

variable {m : Mem} {p : Ptr} {kept rest : List Byte} {i n : ℕ}

/-! ### Accesses -/

/-- The accesses are those that the memory after them comes from. -/
theorem foldl_removeTraceFrom (pf : Platform) (target : Ptr) (n : ℕ) (m : Mem)
    (current removed : Ptr) :
    (removeTraceFrom pf target n m current removed).foldl MemAccess.apply m =
      Function.update (removeFrom pf target n m current removed).1
        (removeFrom pf target n m current removed).2 0 := by
  induction n generalizing m current removed with
  | zero => rfl
  | succ n ih =>
    rw [removeTraceFrom, removeFrom, List.foldl_cons]
    show List.foldl MemAccess.apply m _ = _
    by_cases h0 : m current = 0
    · rw [if_pos h0, if_pos h0]
      rfl
    rw [if_neg h0, if_neg h0]
    by_cases hdrop : pf.char (m current) < 0x20 ∨ 0x7e < pf.char (m current)
    · rw [if_pos hdrop, if_pos hdrop]
      by_cases hback : m current = 0x08
      · rw [if_pos hback, if_pos hback]
        exact ih ..
      · rw [if_neg hback, if_neg hback]
        exact ih ..
    · rw [if_neg hdrop, if_neg hdrop]
      exact ih ..

/-- What a run reads and writes in a buffer of `n` bytes and a NUL, the first `i` of which have been
read. -/
structure InPlace (p : Ptr) (i n : ℕ) (trace : List MemAccess) : Prop where
  reads : ∀ a, .read a ∈ trace → ∃ j, i ≤ j ∧ j < n ∧ a = p + BitVec.ofNat 32 j
  writes : ∀ a v, .write a v ∈ trace → ∃ j ≤ n, a = p + BitVec.ofNat 32 j
  /-- no byte is read after it has been written over -/
  ordered : trace.Pairwise fun x y => ∀ a v, x = .write a v → y ≠ .read a

/-- **One turn** reads the byte at `i`, and writes before it or over it. -/
theorem InPlace.turn {trace writes : List MemAccess} {k : ℕ} {b : Byte}
    (h : InPlace p (i + 1) n trace) (hi : i < n) (hk : k ≤ i) (hn : n < 2 ^ 32)
    (hwrites : ∀ x ∈ writes, x = .write (p + BitVec.ofNat 32 k) b) :
    InPlace p i n (.read (p + BitVec.ofNat 32 i) :: (writes ++ trace)) where
  reads := by
    intro a ha
    rcases List.mem_cons.mp ha with ha | ha
    · exact ⟨i, le_rfl, hi, MemAccess.read.inj ha⟩
    · rcases List.mem_append.mp ha with ha | ha
      · exact absurd (hwrites _ ha) MemAccess.noConfusion
      · obtain ⟨j, hj, hlt, rfl⟩ := h.reads a ha
        exact ⟨j, Nat.le_of_succ_le hj, hlt, rfl⟩
  writes := by
    intro a v ha
    rcases List.mem_cons.mp ha with ha | ha
    · exact absurd ha MemAccess.noConfusion
    · rcases List.mem_append.mp ha with ha | ha
      · exact ⟨k, by omega, (MemAccess.write.inj (hwrites _ ha)).1⟩
      · exact h.writes a v ha
  ordered := by
    refine List.pairwise_cons.mpr ⟨fun y _ a v hx => MemAccess.noConfusion hx, ?_⟩
    refine List.pairwise_append.mpr ⟨?_, h.ordered, fun x hx y hy a v hxa hya => ?_⟩
    · refine List.pairwise_of_forall_mem_list fun x _ y hy a _ _ hya => ?_
      exact absurd ((hwrites y hy).symm.trans hya) MemAccess.noConfusion
    · -- what is read later is further on than the end of the stack
      obtain ⟨j, hj, hlt, hja⟩ := h.reads a (hya ▸ hy)
      have hka : a = p + BitVec.ofNat 32 k :=
        (MemAccess.write.inj (hxa.symm.trans (hwrites x hx))).1
      have hjk : j = k := (add_ofNat_inj (by omega) (by omega)).mp (hja.symm.trans hka)
      omega

/-- The accesses of the loop. -/
theorem inPlace_removeTraceFrom (pf : Platform) (hp : p ≠ 0) (h : Editing m p kept rest i)
    (hne : ∀ b ∈ rest, b ≠ 0) :
    InPlace p i (i + rest.length) (removeTraceFrom pf p rest.length m (p + BitVec.ofNat 32 i)
      (p + BitVec.ofNat 32 kept.length)) := by
  -- by induction on the bytes still to read, with `Editing` before each of them
  induction rest generalizing m kept i with
  | nil =>
    refine ⟨fun a ha => ?_, fun a v ha => ?_, List.pairwise_singleton ..⟩
    · exact absurd (List.mem_singleton.mp ha) MemAccess.noConfusion
    · exact ⟨kept.length, h.length_le, (MemAccess.write.inj (List.mem_singleton.mp ha)).1⟩
  | cons b rest ih =>
    obtain ⟨hb, hrest⟩ := List.forall_mem_cons.mp hne
    have hfits := h.fits
    rw [List.length_cons] at hfits
    obtain ⟨m', writes, hnext, hwrites, -, htrace⟩ := h.turn pf hp hb rest.length
    have hih := ih hnext hrest
    rw [List.length_cons, htrace, ← Nat.add_assoc, Nat.add_right_comm]
    exact hih.turn (by omega) h.length_le (by omega) hwrites

/-! ### Editing again -/

/-- The loop copies printable bytes onto themselves. -/
theorem removeFrom_of_printable (pf : Platform) (target : Ptr) {text : List Byte}
    (htext : Holds m p (text ++ [0])) (hprint : ∀ b ∈ text, IsPrintable b) :
    removeFrom pf target text.length m p p = (m, p + BitVec.ofNat 32 text.length) := by
  induction text generalizing p with
  | nil =>
    rw [List.length_nil, BitVec.add_zero]
    rfl
  | cons b text ih =>
    obtain ⟨hb, htail⟩ := List.forall_mem_cons.mp hprint
    have hread : m p = b := htext.1
    have hsame : Function.update m p b = m := hread ▸ Function.update_eq_self p m
    rw [List.length_cons, removeFrom, hread, if_neg hb.ne_zero, if_congr (char_iff pf b) rfl rfl,
      if_neg (not_not_intro hb), hsame, ih htext.2 htail, add_one_add_ofNat]

/-- An edited text stays as it is. -/
theorem removeNonascii_of_printable (pf : Platform) {text : List Byte}
    (htext : Holds m p (text ++ [0])) (hprint : ∀ b ∈ text, IsPrintable b)
    (hlen : text.length < 2 ^ 31) :
    removeNonascii pf m p (BitVec.ofNat 32 text.length) = m := by
  have hnul : m (p + BitVec.ofNat 32 text.length) = 0 := (holds_append.mp htext).2.1
  simp only [removeNonascii, toInt_toNat_ofNat hlen, removeFrom_of_printable pf p htext hprint]
  rw [← hnul]
  exact Function.update_eq_self _ m

/-! ### The buffer -/

/-- **Line editing in place.**  `remove_nonascii` replaces a string in a buffer by its edited text,
which is no longer and printable.  It touches no byte outside the string and its NUL, reads no byte
that it has written over, and changes nothing if it is called again. -/
theorem removeNonascii_inPlace (pf : Platform) {line : List Byte} (hp : p ≠ 0)
    (hline : Holds m p (line ++ [0])) (hne : ∀ b ∈ line, b ≠ 0) (hlen : line.length < 2 ^ 31)
    (hfits : p.toNat + line.length < 2 ^ 32) (m' : Mem)
    (hm' : m' = removeNonascii pf m p (BitVec.ofNat 32 line.length)) (trace : List MemAccess)
    (htrace : trace = removeTrace pf m p (BitVec.ofNat 32 line.length)) :
    Holds m' p (edit line ++ [0]) ∧ (edit line).length ≤ line.length ∧
    (∀ b ∈ edit line, IsPrintable b) ∧
    trace.foldl MemAccess.apply m = m' ∧ InPlace p 0 line.length trace ∧
    removeNonascii pf m' p (BitVec.ofNat 32 (edit line).length) = m' := by
  have hedited : Holds m' p (edit line ++ [0]) :=
    hm' ▸ removeNonascii_eq pf hp hline hne hlen hfits
  have hle : (edit line).length ≤ line.length :=
    (length_foldl_keep_le [] line).trans (Nat.zero_add _).le
  have hstart : Editing m p [] line 0 :=
    ⟨Nat.le_refl _, trivial, by rwa [BitVec.add_zero], hfits⟩
  have hplace := inPlace_removeTraceFrom pf hp hstart hne
  rw [List.length_nil, BitVec.add_zero, Nat.zero_add] at hplace
  refine ⟨hedited, hle, edit_printable line, ?_, ?_, ?_⟩
  · rw [htrace, hm']
    exact foldl_removeTraceFrom pf p _ m p p
  · rw [htrace, removeTrace, toInt_toNat_ofNat hlen]
    exact hplace
  · exact removeNonascii_of_printable pf hedited (edit_printable line) (by omega)

/-- A backspace at the start, a byte above `~`, and a backspace at the end. -/
def strayLine : List Byte := [0x08, 0x61, 0xff, 0x62, 0x08]

def strayMem : Mem := store (fun _ => 0) 0x1000 (strayLine ++ [0])

theorem removeNonascii_strayLine :
    edit strayLine = [0x61] ∧
    Holds (removeNonascii ⟨true, fun _ _ => 0⟩ strayMem 0x1000 5) 0x1000 [0x61, 0] ∧
    InPlace 0x1000 0 5 (removeTrace ⟨true, fun _ _ => 0⟩ strayMem 0x1000 5) ∧
    removeNonascii ⟨true, fun _ _ => 0⟩
      (removeNonascii ⟨true, fun _ _ => 0⟩ strayMem 0x1000 5) 0x1000 1 =
        removeNonascii ⟨true, fun _ _ => 0⟩ strayMem 0x1000 5 := by
  obtain ⟨hholds, -, -, -, hplace, hagain⟩ :=
    @removeNonascii_inPlace strayMem 0x1000 ⟨true, fun _ _ => 0⟩ strayLine
      (by decide) (holds_store (by decide)) (by decide) (by decide) (by decide) _ rfl _ rfl
  exact ⟨by decide, hholds, hplace, hagain⟩

end Ptmch.Cmd
