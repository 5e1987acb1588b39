import Mathlib.Algebra.Group.Nat.Defs
import Mathlib.Data.List.Infix
import Mathlib.Logic.Function.Basic

/-!
# Memory and C strings

Memory is a function from 32-bit addresses to bytes, and addresses wrap.  `Holds` says that a list
of bytes is in memory at an address, `store` puts it there, and `cstr` reads a C string.  `strlen`
and `strstr` are those of `string.h`.
-/

namespace Ptmch.CLib

abbrev Byte := BitVec 8

abbrev Ptr := BitVec 32

abbrev Mem := Ptr → Byte

/-- An array of `size` bytes: it is not at a null pointer and does not wrap. -/
structure CArray (size : ℕ) where
  addr : Ptr
  addr_ne_zero : addr ≠ 0
  fits : addr.toNat + size ≤ 2 ^ 32

/-- The bytes of an ASCII text. -/
def ascii (text : List Char) : List Byte := text.map fun c => BitVec.ofNat 8 c.toNat

/-! ### Addresses -/

theorem add_ofNat_inj {p : Ptr} {i j : ℕ} (hi : i < 2 ^ 32) (hj : j < 2 ^ 32) :
    p + BitVec.ofNat 32 i = p + BitVec.ofNat 32 j ↔ i = j := by
  constructor
  · intro h
    have h := BitVec.add_right_inj _ |>.mp h
    have h := congrArg BitVec.toNat h
    rwa [BitVec.toNat_ofNat, BitVec.toNat_ofNat, Nat.mod_eq_of_lt hi, Nat.mod_eq_of_lt hj] at h
  · rintro rfl
    rfl

theorem add_one_add_ofNat (p : Ptr) (i : ℕ) :
    p + 1 + BitVec.ofNat 32 i = p + BitVec.ofNat 32 (i + 1) := by
  rw [BitVec.ofNat_add, BitVec.add_assoc, BitVec.add_comm 1]
  rfl

/-! ### Bytes in memory -/

/-- Memory holds these bytes from `p` on. -/
def Holds (m : Mem) : Ptr → List Byte → Prop
  | _, [] => True
  | p, b :: bs => m p = b ∧ Holds m (p + 1) bs

/-- Memory with these bytes from `p` on. -/
def store (m : Mem) : Ptr → List Byte → Mem
  | _, [] => m
  | p, b :: bs => store (Function.update m p b) (p + 1) bs

variable {m m' : Mem} {p a : Ptr} {b : Byte} {bs cs : List Byte}

theorem holds_append :
    Holds m p (bs ++ cs) ↔ Holds m p bs ∧ Holds m (p + BitVec.ofNat 32 bs.length) cs := by
  induction bs generalizing p with
  | nil => simp [Holds]
  | cons b bs ih =>
    rw [List.cons_append, Holds, Holds, ih, List.length_cons, add_one_add_ofNat, and_assoc]

/-- Memory that agrees on the bytes holds them too. -/
theorem Holds.congr (h : Holds m p bs)
    (heq : ∀ i < bs.length, m' (p + BitVec.ofNat 32 i) = m (p + BitVec.ofNat 32 i)) :
    Holds m' p bs := by
  induction bs generalizing p with
  | nil => trivial
  | cons b bs ih =>
    refine ⟨?_, ih h.2 fun i hi => ?_⟩
    · have h0 := heq 0 (Nat.succ_pos _)
      rw [BitVec.add_zero] at h0
      exact h0.trans h.1
    · rw [add_one_add_ofNat]
      exact heq (i + 1) (Nat.succ_lt_succ hi)

/-- A write elsewhere. -/
theorem Holds.update (h : Holds m p bs) (hne : ∀ i < bs.length, p + BitVec.ofNat 32 i ≠ a) :
    Holds (Function.update m a b) p bs :=
  h.congr fun i hi => Function.update_of_ne (hne i hi) _ _

theorem store_of_ne (hne : ∀ i < bs.length, p + BitVec.ofNat 32 i ≠ a) :
    store m p bs a = m a := by
  induction bs generalizing m p with
  | nil => rfl
  | cons b bs ih =>
    have h0 := hne 0 (Nat.succ_pos _)
    rw [BitVec.add_zero] at h0
    rw [store, ih fun i hi => ?_, Function.update_of_ne h0.symm]
    rw [add_one_add_ofNat]
    exact hne (i + 1) (Nat.succ_lt_succ hi)

theorem holds_store (hlen : bs.length ≤ 2 ^ 32) : Holds (store m p bs) p bs := by
  induction bs generalizing m p with
  | nil => trivial
  | cons b bs ih =>
    refine ⟨?_, ih (Nat.le_of_succ_le hlen)⟩
    rw [store, store_of_ne fun i hi => ?_, Function.update_self]
    rw [add_one_add_ofNat]
    intro h
    rw [List.length_cons] at hlen
    have h : p + BitVec.ofNat 32 (i + 1) = p + BitVec.ofNat 32 0 := by rw [h, BitVec.add_zero]
    exact absurd ((add_ofNat_inj (by omega) (by omega)).mp h) (Nat.succ_ne_zero i)

/-! ### C strings -/

/-- The first `n` bytes at `p`, up to a NUL. -/
def cstrUpTo (m : Mem) : ℕ → Ptr → List Byte
  | 0, _ => []
  | n + 1, p => if m p = 0 then [] else m p :: cstrUpTo m n (p + 1)

/-- The C string at `p`. -/
def cstr (m : Mem) (p : Ptr) : List Byte := cstrUpTo m (2 ^ 32) p

def strlen (m : Mem) (p : Ptr) : ℕ := (cstr m p).length

theorem cstrUpTo_eq {n : ℕ} (h : Holds m p (bs ++ [0])) (hne : ∀ b ∈ bs, b ≠ 0)
    (hlen : bs.length < n) : cstrUpTo m n p = bs := by
  induction bs generalizing p n with
  | nil =>
    obtain ⟨n, rfl⟩ := Nat.exists_eq_add_of_lt hlen
    exact if_pos h.1
  | cons b bs ih =>
    obtain ⟨hb, hbs⟩ := List.forall_mem_cons.mp hne
    cases n with
    | zero => exact absurd hlen (Nat.not_lt_zero _)
    | succ n =>
      obtain ⟨h0, hrest⟩ := h
      rw [cstrUpTo, if_neg (h0 ▸ hb), h0, ih hrest hbs (Nat.lt_of_succ_lt_succ hlen)]

/-- What is in memory before a NUL is read back as a C string. -/
theorem cstr_eq (h : Holds m p (bs ++ [0])) (hne : ∀ b ∈ bs, b ≠ 0) (hlen : bs.length < 2 ^ 32) :
    cstr m p = bs := cstrUpTo_eq h hne hlen

/-- A C string ends at the first NUL. -/
theorem Holds.takeWhile (h : Holds m p (bs ++ [0])) :
    Holds m p (bs.takeWhile (· ≠ 0) ++ [0]) := by
  induction bs generalizing p with
  | nil => exact h
  | cons b bs ih =>
    by_cases hb : b = 0
    · rw [List.takeWhile_cons_of_neg (by simpa using hb)]
      exact ⟨h.1.trans hb, trivial⟩
    · rw [List.takeWhile_cons_of_pos (by simpa using hb)]
      exact ⟨h.1, ih h.2⟩

/-- The array holds a C string: there is a NUL in it. -/
def CArray.Terminated {size : ℕ} (a : CArray size) (m : Mem) : Prop :=
  ∃ i < size, m (a.addr + BitVec.ofNat 32 i) = 0

/-- What is in memory before the first NUL. -/
theorem exists_holds {i : ℕ} (h : m (p + BitVec.ofNat 32 i) = 0) :
    ∃ bs, Holds m p (bs ++ [0]) ∧ (∀ b ∈ bs, b ≠ 0) ∧ bs.length ≤ i := by
  induction i generalizing p with
  | zero =>
    rw [BitVec.add_zero] at h
    exact ⟨[], ⟨h, trivial⟩, List.forall_mem_nil _, le_rfl⟩
  | succ i ih =>
    by_cases h0 : m p = 0
    · exact ⟨[], ⟨h0, trivial⟩, List.forall_mem_nil _, Nat.zero_le _⟩
    · rw [← add_one_add_ofNat] at h
      obtain ⟨bs, hbs, hne, hlen⟩ := ih h
      exact ⟨m p :: bs, ⟨rfl, hbs⟩, List.forall_mem_cons.mpr ⟨h0, hne⟩, Nat.succ_le_succ hlen⟩

/-- The index of the first occurrence of `needle`, for the pointer that the C function returns. -/
def strstr (hay needle : List Byte) : Option ℕ :=
  if needle <+: hay then some 0
  else match hay with
    | [] => none
    | _ :: rest => (strstr rest needle).map (· + 1)

/-- `strstr` returns a null pointer exactly where `needle` does not occur. -/
theorem strstr_ne_none_iff (hay needle : List Byte) :
    strstr hay needle ≠ none ↔ needle <:+: hay := by
  induction hay with
  | nil =>
    have hbegins : needle <+: [] ↔ needle = [] := List.prefix_nil
    rw [List.infix_nil, strstr]
    by_cases h : needle = []
    · simp [h]
    · simp [h, hbegins]
  | cons b rest ih =>
    rw [strstr, List.infix_cons_iff]
    split_ifs with h
    · simp [h]
    · rw [← ih, or_iff_right h, ne_eq, Option.map_eq_none_iff]

end Ptmch.CLib
