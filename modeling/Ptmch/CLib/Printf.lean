import Ptmch.CLib.Stdio

/-!
# `printf`

What `printf` writes for a format with the conversions `%s` and `%x`, the flags `-` and `0`, a width
and the length `l`.  A number that is written with `%x` is read back by `%lx` of `sscanf`, whatever
zeros the format puts before it (`isNumeral_pad`).
-/

namespace Ptmch.CLib

/-! ### Conversions -/

/-- What stands between the `%` and the letter of a conversion. -/
structure Conversion where
  left : Bool
  zero : Bool
  width : ℕ
  deriving Repr, DecidableEq

/-- Nothing has been read after the `%`. -/
def Conversion.plain : Conversion := ⟨false, false, 0⟩

/-- A text in its field.  Only numbers are filled with zeros, and only on the left. -/
def Conversion.pad (c : Conversion) (numeric : Bool) (text : List Byte) : List Byte :=
  let fill := c.width - text.length
  if c.left then text ++ List.replicate fill 0x20
  else if c.zero && numeric then List.replicate fill 0x30 ++ text
  else List.replicate fill 0x20 ++ text

/-- A number in a base up to 16, in lower case. -/
def numberText (base v : ℕ) : List Byte := ascii (Nat.toDigits base v)

def hexText (v : ℕ) : List Byte := numberText 16 v

variable {α : Type*}

/-- The text of a format from here on, inside of a conversion or not.  `convert` writes an argument
for the letter of its conversion; without an argument the behaviour is undefined, and nothing is
written. -/
def formatFrom (convert : Conversion → Char → α → List Byte) :
    Option Conversion → List Char → List α → List Byte
  | _, [], _ => []
  | none, c :: cs, args =>
    if c = '%' then formatFrom convert (some .plain) cs args
    else BitVec.ofNat 8 c.toNat :: formatFrom convert none cs args
  | some conv, c :: cs, args =>
    if c = '-' then formatFrom convert (some { conv with left := true }) cs args
    else if c = '0' ∧ conv.width = 0 then
      formatFrom convert (some { conv with zero := true }) cs args
    else if '0' ≤ c ∧ c ≤ '9' then
      formatFrom convert
        (some { conv with width := 10 * conv.width + (c.toNat - '0'.toNat) }) cs args
    else if c = 'l' then formatFrom convert (some conv) cs args
    else match args with
      | [] => formatFrom convert none cs []
      | arg :: args => convert conv c arg ++ formatFrom convert none cs args

/-- The text of a format. -/
def format (convert : Conversion → Char → α → List Byte) (text : List Char) (args : List α) :
    List Byte :=
  formatFrom convert none text args

/-! ### Reading a number back -/

theorem numeral_append (base : ℕ) (text more : List Byte) :
    numeral base (text ++ more) = more.foldl (fun acc b => base * acc + digit b) (numeral base text)
    := List.foldl_append

theorem digit_digitChar : ∀ d < 16, digit (BitVec.ofNat 8 d.digitChar.toNat) = d := by decide

theorem ascii_append (text more : List Char) : ascii (text ++ more) = ascii text ++ ascii more :=
  List.map_append

/-- A number is read back from its own text. -/
theorem isNumeral_numberText {base : ℕ} (hbase : 1 < base) (hle : base ≤ 16) (v : ℕ) :
    IsNumeral base (numberText base v) v := by
  -- by induction on the number of digits, the last of which is `v % base`
  induction v using Nat.strongRecOn with
  | ind v ih =>
    by_cases hlt : v < base
    · have htext : numberText base v = [BitVec.ofNat 8 v.digitChar.toNat] := by
        rw [numberText, Nat.toDigits_of_lt_base hlt]
        rfl
      have hdigit := digit_digitChar v (hlt.trans_le hle)
      rw [htext]
      refine ⟨List.cons_ne_nil _ _, fun b hb => ?_, ?_⟩
      · rw [List.mem_singleton.mp hb, hdigit]
        exact hlt
      · show base * 0 + digit _ = v
        rw [hdigit, Nat.mul_zero, Nat.zero_add]
    · have hge : base ≤ v := Nat.le_of_not_lt hlt
      have hmod : v % base < base := Nat.mod_lt v (by omega)
      have htext : numberText base v =
          numberText base (v / base) ++ [BitVec.ofNat 8 (v % base).digitChar.toNat] := by
        rw [numberText, Nat.toDigits_of_base_le hbase hge, ascii_append]
        rfl
      have hdigit := digit_digitChar (v % base) (hmod.trans_le hle)
      have hfront := ih (v / base) (Nat.div_lt_self (by omega) hbase)
      rw [htext]
      refine ⟨?_, fun b hb => ?_, ?_⟩
      · exact List.append_ne_nil_of_right_ne_nil _ (List.cons_ne_nil _ _)
      · rcases List.mem_append.mp hb with hb | hb
        · exact hfront.digits b hb
        · rw [List.mem_singleton.mp hb, hdigit]
          exact hmod
      · rw [numeral_append, hfront.value]
        show base * (v / base) + digit _ = v
        rw [hdigit]
        exact Nat.div_add_mod v base

theorem length_numberText_le {base n v : ℕ} (hbase : 1 < base) (hpos : 0 < n)
    (hlt : v < base ^ n) : (numberText base v).length ≤ n := by
  rw [numberText, ascii, List.length_map]
  exact (Nat.length_toDigits_le_iff hbase hpos).mpr hlt

/-- Zeros before a number change nothing. -/
theorem isNumeral_zeros {text : List Byte} {v : ℕ} (h : IsNumeral 16 text v) (n : ℕ) :
    IsNumeral 16 (List.replicate n 0x30 ++ text) v := by
  have hzero : digit 0x30 = 0 := by decide
  induction n with
  | zero => exact h
  | succ n ih =>
    rw [List.replicate_succ, List.cons_append]
    refine ⟨List.cons_ne_nil _ _, fun b hb => ?_, ?_⟩
    · rcases List.mem_cons.mp hb with rfl | hb
      · exact hzero ▸ (by decide)
      · exact ih.digits b hb
    · rw [← ih.value]
      show List.foldl _ (16 * 0 + digit 0x30) _ = _
      rw [hzero]
      rfl

/-- **A number in its field is read back.** -/
theorem isNumeral_pad (width v : ℕ) :
    IsNumeral 16 (Conversion.pad ⟨false, true, width⟩ true (hexText v)) v :=
  isNumeral_zeros (isNumeral_numberText (by decide) (by decide) v) _

end Ptmch.CLib
