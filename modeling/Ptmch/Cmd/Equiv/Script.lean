import Ptmch.Cmd.Equiv.Console

/-!
# Lines written by a program

Every request has a line (`Request.line`), so a program at the other end of the console can ask for
whatever the tool can do.  What the tool shows for a read can be put into the line of a write as it
is: the zeros before it change nothing.  A program that reads and writes back so copies memory
(`copy_session`).
-/

namespace Ptmch.Cmd

open CLib Machine

/-! ### Texts of arguments -/

/-- A text for each of these conversions that it reads. -/
inductive Texts : List Directive → List (BitVec 32) → List (List Byte) → Prop
  | nil : Texts [] [] []
  | cons {dir w dirs ws text texts} : dir.Reads text w → Texts dirs ws texts →
    Texts (dir :: dirs) (w :: ws) (text :: texts)

/-- The texts with a space before each of them. -/
def spacedTexts (texts : List (List Byte)) : List Byte := texts.flatMap fun text => 0x20 :: text

variable {dirs : List Directive} {ws : List (BitVec 32)} {texts : List (List Byte)} {r : Request}

theorem Texts.arguments (h : Texts dirs ws texts) : Arguments dirs ws (spacedTexts texts) := by
  induction h with
  | nil => exact .nil
  | @cons dir w dirs ws text texts hreads _ ih =>
    have hsplit : spacedTexts (text :: texts) = [0x20] ++ (text ++ spacedTexts texts) := rfl
    rw [hsplit]
    exact .cons (List.cons_ne_nil _ _) (fun b hb => List.mem_singleton.mp hb) hreads ih

theorem Texts.length_eq (h : Texts dirs ws texts) : texts.length = dirs.length := by
  induction h with
  | nil => rfl
  | cons _ _ ih => exact congrArg (· + 1) ih

theorem length_spacedTexts_le {n : ℕ} (h : ∀ text ∈ texts, text.length ≤ n) :
    (spacedTexts texts).length ≤ texts.length * (n + 1) := by
  induction texts with
  | nil => exact Nat.zero_le _
  | cons text texts ih =>
    obtain ⟨htext, htexts⟩ := List.forall_mem_cons.mp h
    have hrest := ih htexts
    have hlen : (spacedTexts (text :: texts)).length =
        text.length + 1 + (spacedTexts texts).length := by
      show ((0x20 :: text) ++ spacedTexts texts).length = _
      rw [List.length_append, List.length_cons]
    rw [hlen, List.length_cons, Nat.succ_mul]
    omega

/-! ### Lines -/

/-- A digit is printable. -/
theorem isPrintable_of_digit {b : Byte} (h : digit b < 16) : IsPrintable b := by
  unfold digit at h
  unfold IsPrintable
  split_ifs at h <;> omega

/-- Editing leaves a printable text as it is. -/
theorem edit_of_printable {text : List Byte} (h : ∀ b ∈ text, IsPrintable b) :
    edit text = text := by
  induction text using List.reverseRecOn with
  | nil => rfl
  | append_singleton text b ih =>
    have htext := ih fun b hb => h b (List.mem_append_left _ hb)
    have hb := h b (List.mem_append_right _ List.mem_cons_self)
    rw [edit, List.foldl_append, ← edit, htext]
    exact if_pos hb

theorem Request.name_printable (r : Request) : ∀ b ∈ r.name, IsPrintable b := by
  cases r with
  | mr w a =>
    show ∀ b ∈ ascii ['m', 'r'], IsPrintable b
    decide
  | mw w a d =>
    show ∀ b ∈ ascii ['m', 'w'], IsPrintable b
    decide
  | mf fixed d a n =>
    show ∀ b ∈ ascii ['m', 'f'], IsPrintable b
    decide

theorem Texts.printable (h : Texts r.radices r.args texts) :
    ∀ b ∈ r.name ++ spacedTexts texts, IsPrintable b := by
  intro b hb
  rcases List.mem_append.mp hb with hb | hb
  · exact r.name_printable b hb
  · rcases h.arguments.mem b hb with rfl | hdigit
    · decide
    · exact isPrintable_of_digit hdigit

theorem Texts.edited (h : Texts r.radices r.args texts) :
    edit (beforeNul (r.name ++ spacedTexts texts)) = r.name ++ spacedTexts texts := by
  rw [beforeNul_eq fun b hb => (h.printable b hb).ne_zero]
  exact edit_of_printable h.printable

/-- A line with these texts as the arguments of a request. -/
theorem Texts.valid (h : Texts r.radices r.args texts) (hlen : ∀ text ∈ texts, text.length ≤ 30)
    (halign : r.Aligned) (stack : Mem) :
    Typed.Valid ⟨r.name ++ spacedTexts texts, some r, stack⟩ := by
  refine ⟨?_, fun hnewline => ?_, ?_, nofun⟩
  · -- four arguments at most
    have hcount : texts.length ≤ 4 := by
      rw [h.length_eq]
      cases r <;> simp [Request.radices]
    have hrest := length_spacedTexts_le hlen
    have hnameLen : r.name.length = 2 := by
      cases r <;> rfl
    have hmul : texts.length * (30 + 1) ≤ 4 * (30 + 1) := Nat.mul_le_mul_right _ hcount
    show (r.name ++ spacedTexts texts).length ≤ 126
    rw [List.length_append, hnameLen]
    omega
  · exact absurd (h.printable newline hnewline) (by decide)
  · intro r' hr'
    obtain rfl : r = r' := Option.some.inj hr'
    exact ⟨⟨spacedTexts texts, h.edited, h.arguments⟩, halign⟩

/-- The text of a number for a conversion. -/
def argText : Directive → BitVec 32 → List Byte
  | .d, v => numberText 10 v.toNat
  | _, v => hexText v.toNat

/-- The texts of the arguments of a request. -/
def Request.argTexts (r : Request) : List (List Byte) :=
  (List.zip r.radices r.args).map fun arg => argText arg.1 arg.2

/-- The line of a request. -/
def Request.line (r : Request) : List Byte := r.name ++ spacedTexts r.argTexts

theorem reads_hexText (v : BitVec 32) : Directive.lx.Reads (hexText v.toNat) v :=
  isNumeral_numberText (by decide) (by decide) v.toNat

theorem reads_numberText {v : BitVec 32} (h : v.toNat < 2 ^ 31) :
    Directive.d.Reads (numberText 10 v.toNat) v :=
  ⟨isNumeral_numberText (by decide) (by decide) v.toNat, h⟩

theorem Width.bits_lt (w : Width) : (BitVec.ofNat 32 w.bits).toNat < 2 ^ 31 := by
  cases w <;> decide

/-- A digit for each four bits. -/
theorem length_argText_le (dir : Directive) (v : BitVec 32) : (argText dir v).length ≤ 10 := by
  cases dir with
  | d =>
    refine length_numberText_le (by decide) (by decide) (v.isLt.trans_le ?_)
    decide
  | _ =>
    refine length_numberText_le (by decide) (by decide) (v.isLt.trans_le ?_)
    decide

theorem Request.argTexts_read (r : Request) : Texts r.radices r.args r.argTexts := by
  cases r with
  | mr w a =>
    apply Texts.cons (reads_numberText w.bits_lt)
    exact .cons (reads_hexText a) .nil
  | mw w a d =>
    apply Texts.cons (reads_numberText w.bits_lt)
    exact .cons (reads_hexText a) (.cons (reads_hexText d) .nil)
  | mf fixed d a n =>
    have hfixed : (if fixed then 1 else 0 : BitVec 32).toNat < 2 ^ 31 := by
      cases fixed <;> decide
    apply Texts.cons (reads_numberText hfixed)
    exact .cons (reads_hexText d) (.cons (reads_hexText a) (.cons (reads_hexText n) .nil))

/-- **Every request has a line.** -/
theorem Request.valid_line (halign : r.Aligned) (stack : Mem) :
    Typed.Valid ⟨r.line, some r, stack⟩ := by
  apply r.argTexts_read.valid _ halign
  intro text htext
  obtain ⟨arg, -, rfl⟩ := List.mem_map.mp htext
  exact (length_argText_le arg.1 arg.2).trans (by decide)

/-! ### Reading and writing back -/

/-- A byte of a value that is read is the byte in memory. -/
theorem Width.value_byte (w : Width) (m : Mem) (a : Ptr) {i : ℕ} (hi : i < w.bits / 8) :
    w.value m a / 2 ^ (8 * i) % 256 = (m (a + BitVec.ofNat 32 i)).toNat := by
  have hbytes : ∀ v ∈ (List.range (w.bits / 8)).map fun i => (m (a + BitVec.ofNat 32 i)).toNat,
      v < 256 := by
    intro v hv
    obtain ⟨i, -, rfl⟩ := List.mem_map.mp hv
    exact (m (a + BitVec.ofNat 32 i)).isLt
  have hdrop := Nat.ofDigits_div_pow_eq_ofDigits_drop i (by decide : 0 < 256) _ hbytes
  have hpow : 2 ^ (8 * i) = 256 ^ i := by
    rw [pow_mul]
    rfl
  have hlen : i < ((List.range (w.bits / 8)).map fun i =>
      (m (a + BitVec.ofNat 32 i)).toNat).length := by
    rwa [List.length_map, List.length_range]
  rw [Width.value, hpow, hdrop, List.drop_eq_getElem_cons hlen, Nat.ofDigits_cons,
    Nat.add_mul_mod_self_left, List.getElem_map, List.getElem_range]
  exact Nat.mod_eq_of_lt (m (a + BitVec.ofNat 32 i)).isLt

/-- A write of a value that has been read puts the bytes that it was read from. -/
theorem Request.perform_copy (w : Width) (m : Mem) (a b : Ptr) :
    (∀ i < w.bits / 8, (Request.mw w b (BitVec.ofNat 32 (w.value m a))).perform m
      (b + BitVec.ofNat 32 i) = m (a + BitVec.ofNat 32 i)) ∧
    ∀ x, (∀ i < w.bits / 8, x ≠ b + BitVec.ofNat 32 i) →
      (Request.mw w b (BitVec.ofNat 32 (w.value m a))).perform m x = m x := by
  have hvalue : (BitVec.ofNat 32 (w.value m a)).toNat = w.value m a := by
    rw [BitVec.toNat_ofNat]
    refine Nat.mod_eq_of_lt ((w.value_lt m a).trans_le ?_)
    cases w <;> decide
  constructor
  · intro i hi
    have hoffset : (b + BitVec.ofNat 32 i - b).toNat = i := by
      rw [BitVec.add_comm, BitVec.add_sub_cancel, BitVec.toNat_ofNat]
      refine Nat.mod_eq_of_lt (hi.trans_le ?_)
      cases w <;> decide
    show (if _ then _ else _) = _
    rw [hoffset, if_pos hi, hvalue]
    apply BitVec.eq_of_toNat_eq
    rw [BitVec.toNat_ofNat]
    exact w.value_byte m a hi
  · intro x hx
    apply if_neg
    intro hlt
    exact hx _ hlt (add_sub_toNat b x).symm

/-- The line of a write with the digits of a read as its data. -/
def copyLine (w : Width) (b : Ptr) (digits : List Byte) : List Byte :=
  ascii ['m', 'w'] ++ spacedTexts [numberText 10 w.bits, hexText b.toNat, digits]

/-- The digits that are shown are read as the value. -/
theorem texts_copyLine (w : Width) (b : Ptr) (v : ℕ) (hv : v < 2 ^ 32) :
    Texts (Request.mw w b (BitVec.ofNat 32 v)).radices (Request.mw w b (BitVec.ofNat 32 v)).args
      [numberText 10 w.bits, hexText b.toNat, Request.hexField (w.bits / 4) v] := by
  have hbits : (BitVec.ofNat 32 w.bits).toNat = w.bits := by
    cases w <;> rfl
  have hvalue : (BitVec.ofNat 32 v).toNat = v := by
    rw [BitVec.toNat_ofNat, Nat.mod_eq_of_lt hv]
  have htype : Directive.d.Reads (numberText 10 w.bits) (BitVec.ofNat 32 w.bits) := by
    have hreads := reads_numberText w.bits_lt
    rwa [hbits] at hreads
  have hdata : Directive.lx.Reads (Request.hexField (w.bits / 4) v) (BitVec.ofNat 32 v) := by
    show IsNumeral 16 _ (BitVec.ofNat 32 v).toNat
    rw [hvalue]
    exact isNumeral_pad (w.bits / 4) v
  exact .cons htype (.cons (reads_hexText b) (.cons hdata .nil))

theorem valid_copyLine {w : Width} {b : Ptr} (halign : w.Aligned b) {v : ℕ} (hv : v < 2 ^ 32)
    (stack : Mem) :
    Typed.Valid ⟨copyLine w b (Request.hexField (w.bits / 4) v),
      some (.mw w b (BitVec.ofNat 32 v)), stack⟩ := by
  apply (texts_copyLine w b v hv).valid _ halign
  have hdigits : (hexText v).length ≤ 8 := length_numberText_le (by decide) (by decide) hv
  have hfield : (Request.hexField (w.bits / 4) v).length ≤ 30 := by
    have hwidth : w.bits / 4 ≤ 8 := by
      cases w <;> decide
    show (List.replicate (w.bits / 4 - (hexText v).length) 0x30 ++ hexText v).length ≤ 30
    rw [List.length_append, List.length_replicate]
    omega
  have htype : (numberText 10 w.bits).length ≤ 30 := by
    cases w <;> decide
  have haddr : (hexText b.toNat).length ≤ 30 := by
    have hlen : (hexText b.toNat).length ≤ 8 :=
      length_numberText_le (by decide) (by decide) b.isLt
    exact hlen.trans (by decide)
  intro text htext
  simp only [List.mem_cons, List.not_mem_nil, or_false] at htext
  rcases htext with rfl | rfl | rfl
  · exact htype
  · exact haddr
  · exact hfield

/-- One call on a line that asks for something and is printable. -/
theorem call_request {raw rest shown : List Byte} {stack : Mem} {inputStr : CArray 128}
    (charSigned : Bool) (ram : Mem) (hvalid : Typed.Valid ⟨raw, some r, stack⟩)
    (hedited : edit (beforeNul raw) = raw) :
    Console.call charSigned inputStr ⟨ram, raw ++ newline :: rest, shown⟩ stack =
      ⟨r.perform ram, rest, shown ++ (ascii "\nCommand: ".toList ++ raw ++ ascii "\n".toList ++
        r.answer ram)⟩ := by
  have hcall := @call_typed inputStr ⟨raw, some r, stack⟩ charSigned ram rest shown hvalid
  rw [Typed.shown, Typed.edited, hedited] at hcall
  exact hcall

/-- **Reading and writing back.**  A program asks for the value at `a`, takes the digits that are
shown as they are, and puts them into the line of a write at `b`: the bytes from `b` on are then
those that were found from `a` on, and no other byte has changed. -/
theorem copy_session (charSigned : Bool) (inputStr : CArray 128) (ram : Mem)
    (rest shown : List Byte) (w : Width) {a b : Ptr} (ha : w.Aligned a) (hb : w.Aligned b)
    (stack stack' : Mem) :
    let digits := Request.hexField (w.bits / 4) (w.value ram a)
    let asked := Console.call charSigned inputStr
      ⟨ram, (Request.mr w a).line ++ newline :: (copyLine w b digits ++ newline :: rest), shown⟩
      stack
    let copied := Console.call charSigned inputStr asked stack'
    asked.stdout = shown ++ (ascii "\nCommand: ".toList ++ (Request.mr w a).line ++
      ascii "\nmem_read \nread_data = ".toList ++ digits ++ ascii " \n".toList) ∧
    copied.stdin = rest ∧
    (∀ i < w.bits / 8, copied.ram (b + BitVec.ofNat 32 i) = ram (a + BitVec.ofNat 32 i)) ∧
    ∀ x, (∀ i < w.bits / 8, x ≠ b + BitVec.ofNat 32 i) → copied.ram x = ram x := by
  intro digits asked copied
  have hv : w.value ram a < 2 ^ 32 := by
    refine (w.value_lt ram a).trans_le ?_
    cases w <;> decide
  have hreads := (Request.mr w a).argTexts_read
  have hask : Typed.Valid ⟨(Request.mr w a).line, some (.mr w a), stack⟩ :=
    Request.valid_line (r := .mr w a) ha stack
  have hasked : asked = ⟨ram, copyLine w b digits ++ newline :: rest, _⟩ :=
    call_request charSigned ram hask hreads.edited
  -- what has been shown is read as the value that was found
  have hcopy := valid_copyLine hb hv stack'
  have hcopied : copied = Console.call charSigned inputStr asked stack' := rfl
  clear_value copied asked
  subst hasked
  rw [call_request charSigned ram hcopy (texts_copyLine w b _ hv).edited] at hcopied
  subst hcopied
  obtain ⟨hdone, hkept⟩ := Request.perform_copy w ram a b
  refine ⟨?_, rfl, hdone, hkept⟩
  show _ ++ (_ ++ _ ++ _ ++ Request.answer ram (.mr w a)) = _
  have htext : ascii "\nmem_read \nread_data = ".toList =
      ascii "\n".toList ++ ascii "mem_read \nread_data = ".toList := rfl
  rw [Request.answer, htext]
  simp only [List.append_assoc]
  rfl

/-- The byte at `a7` is copied to `10`. -/
theorem copy_session_byte :
    let asked := Console.call true stackBuffer
      ⟨fun x => x.setWidth 8, ascii "mr 8 a7\nmw 8 10 a7\n".toList, []⟩ fun _ => 0
    let copied := Console.call true stackBuffer asked fun _ => 0
    asked.stdout = ascii "\nCommand: mr 8 a7\nmem_read \nread_data = a7 \n".toList ∧
      copied.ram 0x10 = 0xa7 := by
  obtain ⟨hasked, -, hcopied, -⟩ := copy_session true stackBuffer (fun x => x.setWidth 8) [] []
    .w8 (a := 0xa7) (b := 0x10) (by decide) (by decide) (fun _ => 0) fun _ => 0
  intro asked copied
  refine ⟨hasked.trans ?_, hcopied 0 (by decide)⟩
  decide

end Ptmch.Cmd
