import Ptmch.CLib.CString

/-!
# `fgets` and `sscanf`

The two functions of `stdio.h` that read a command line.  `fgets` takes the bytes of a line from a
stream, and `sscanf` takes the numbers of a format from a string.  A conversion skips white space,
and reads a sign, the prefix `0x` in base 16, and digits; a value out of range is the nearest one in
range, as `strtol` and `strtoul` have it.
-/

namespace Ptmch.CLib

/-! ### Reading a line -/

def newline : Byte := 0x0a

/-- At most `n` bytes of the stream, through the first newline, and the rest of the stream. -/
def readLine : ℕ → List Byte → List Byte × List Byte
  | 0, stream => ([], stream)
  | _ + 1, [] => ([], [])
  | n + 1, b :: stream =>
    if b = newline then ([b], stream)
    else (b :: (readLine n stream).1, (readLine n stream).2)

/-- Memory after `fgets(s, n, stream)`, and the rest of the stream.  At the end of the stream memory
is as it was. -/
def fgets (m : Mem) (s : Ptr) (n : ℕ) (stream : List Byte) : Mem × List Byte :=
  let (line, rest) := readLine (n - 1) stream
  (if line = [] then m else store m s (line ++ [0]), rest)

/-- A line that fits, newline included, is read whole. -/
theorem readLine_eq {n : ℕ} {line rest : List Byte} (hline : newline ∉ line)
    (hlen : line.length < n) :
    readLine n (line ++ newline :: rest) = (line ++ [newline], rest) := by
  induction line generalizing n with
  | nil =>
    obtain ⟨n, rfl⟩ := Nat.exists_eq_succ_of_ne_zero (Nat.ne_of_gt hlen)
    exact if_pos rfl
  | cons b line ih =>
    rw [List.mem_cons, not_or] at hline
    cases n with
    | zero => exact absurd hlen (Nat.not_lt_zero _)
    | succ n =>
      rw [List.cons_append, readLine, if_neg (Ne.symm hline.1),
        ih hline.2 (Nat.lt_of_succ_lt_succ hlen)]
      rfl

/-! ### Lines of a stream -/

/-- The first line, without its newline. -/
def firstLine (stream : List Byte) : List Byte := stream.takeWhile (· ≠ newline)

/-- The stream after its first line. -/
def afterLine (stream : List Byte) : List Byte := (stream.dropWhile (· ≠ newline)).tail

/-- The first line has at most `n` bytes, with its newline if it has one. -/
def LineFits (n : ℕ) (stream : List Byte) : Prop :=
  (firstLine stream).length < n ∨ newline ∉ stream ∧ stream.length ≤ n

instance (n : ℕ) : DecidablePred (LineFits n) := fun stream =>
  inferInstanceAs (Decidable ((firstLine stream).length < n ∨
    newline ∉ stream ∧ stream.length ≤ n))

variable {n : ℕ} {b : Byte} {stream : List Byte}

theorem firstLine_cons (hb : b ≠ newline) : firstLine (b :: stream) = b :: firstLine stream :=
  List.takeWhile_cons_of_pos (decide_eq_true hb)

theorem firstLine_newline : firstLine (newline :: stream) = [] :=
  List.takeWhile_cons_of_neg (by decide)

theorem afterLine_cons (hb : b ≠ newline) : afterLine (b :: stream) = afterLine stream :=
  congrArg List.tail (List.dropWhile_cons_of_pos (decide_eq_true hb))

theorem afterLine_newline : afterLine (newline :: stream) = stream :=
  congrArg List.tail (List.dropWhile_cons_of_neg (by decide))

theorem lineFits_cons (hb : b ≠ newline) : LineFits (n + 1) (b :: stream) ↔ LineFits n stream := by
  rw [LineFits, LineFits, firstLine_cons hb, List.length_cons, List.length_cons, List.mem_cons,
    not_or, and_iff_right (Ne.symm hb), Nat.succ_lt_succ_iff, Nat.succ_le_succ_iff]

theorem length_afterLine_lt (hne : stream ≠ []) : (afterLine stream).length < stream.length := by
  have hsuffix : stream.dropWhile (· ≠ newline) <:+ stream := List.dropWhile_suffix _
  have hle := hsuffix.length_le
  have hpos := List.length_pos_iff.mpr hne
  rw [afterLine, List.length_tail]
  omega

/-- What is left of the stream begins with the next line exactly if the line fits. -/
theorem readLine_rest_iff (n : ℕ) (stream : List Byte) :
    (readLine n stream).2 = afterLine stream ↔ LineFits n stream := by
  induction stream generalizing n with
  | nil =>
    refine iff_of_true ?_ (Or.inr ⟨List.not_mem_nil, Nat.zero_le n⟩)
    cases n <;> rfl
  | cons b stream ih =>
    cases n with
    | zero =>
      -- nothing is read, and something is left
      refine iff_of_false (fun h => ?_) ?_
      · have hlt := length_afterLine_lt (List.cons_ne_nil b stream)
        rw [← h] at hlt
        exact Nat.lt_irrefl _ hlt
      · rintro (hlt | ⟨-, hle⟩)
        · exact Nat.not_lt_zero _ hlt
        · exact absurd hle (Nat.not_succ_le_zero _)
    | succ n =>
      rw [readLine]
      by_cases hb : b = newline
      · subst hb
        refine iff_of_true ?_ (Or.inl ?_)
        · rw [if_pos rfl, afterLine_newline]
        · rw [firstLine_newline]
          exact Nat.succ_pos n
      · rw [if_neg hb, afterLine_cons hb, lineFits_cons hb]
        exact ih n

/-- What is read is the line if it fits, and the start of it otherwise. -/
theorem readLine_text (n : ℕ) (stream : List Byte) :
    ∃ text, text <+: firstLine stream ∧ (LineFits n stream → text = firstLine stream) ∧
      ((readLine n stream).1 = text ∨ (readLine n stream).1 = text ++ [newline]) := by
  induction stream generalizing n with
  | nil => exact ⟨[], List.nil_prefix, fun _ => rfl, Or.inl (by cases n <;> rfl)⟩
  | cons b stream ih =>
    cases n with
    | zero =>
      refine ⟨[], List.nil_prefix, ?_, Or.inl rfl⟩
      rintro (hlt | ⟨-, hle⟩)
      · exact absurd hlt (Nat.not_lt_zero _)
      · exact absurd hle (Nat.not_succ_le_zero _)
    | succ n =>
      rw [readLine]
      by_cases hb : b = newline
      · subst hb
        rw [if_pos rfl, firstLine_newline]
        exact ⟨[], List.nil_prefix, fun _ => rfl, Or.inr rfl⟩
      · obtain ⟨text, hbegins, hfits, hread⟩ := ih n
        rw [if_neg hb, firstLine_cons hb, lineFits_cons hb]
        refine ⟨b :: text, (List.prefix_cons_inj b).mpr hbegins, fun h => ?_, ?_⟩
        · rw [hfits h]
        · exact hread.imp (congrArg (b :: ·)) (congrArg (b :: ·))

theorem length_readLine_le (n : ℕ) (stream : List Byte) : (readLine n stream).1.length ≤ n := by
  induction stream generalizing n with
  | nil => cases n <;> exact Nat.zero_le _
  | cons b stream ih =>
    cases n with
    | zero => exact Nat.zero_le _
    | succ n =>
      rw [readLine]
      split_ifs
      · exact Nat.succ_le_succ (Nat.zero_le n)
      · exact Nat.succ_le_succ (ih n)

theorem readLine_ne_nil (hne : stream ≠ []) : (readLine (n + 1) stream).1 ≠ [] := by
  obtain ⟨b, stream, rfl⟩ := List.exists_cons_of_ne_nil hne
  rw [readLine]
  split_ifs
  · exact List.cons_ne_nil _ _
  · exact List.cons_ne_nil _ _

/-! ### Characters -/

def IsSpace (b : Byte) : Prop := b.toNat = 0x20 ∨ 0x09 ≤ b.toNat ∧ b.toNat ≤ 0x0d

instance : DecidablePred IsSpace := fun b =>
  inferInstanceAs (Decidable (b.toNat = 0x20 ∨ 0x09 ≤ b.toNat ∧ b.toNat ≤ 0x0d))

/-- The value of a digit of either case, 16 for a byte that is none. -/
def digit (b : Byte) : ℕ :=
  if 0x30 ≤ b.toNat ∧ b.toNat ≤ 0x39 then b.toNat - 0x30
  else if 0x41 ≤ b.toNat ∧ b.toNat ≤ 0x46 then b.toNat - 0x37
  else if 0x61 ≤ b.toNat ∧ b.toNat ≤ 0x66 then b.toNat - 0x57
  else 16

theorem digit_of_isSpace {b : Byte} (h : IsSpace b) : digit b = 16 := by
  unfold IsSpace at h
  unfold digit
  split_ifs <;> omega

theorem not_isSpace_of_digit {b : Byte} (h : digit b < 16) : ¬IsSpace b := fun hs =>
  Nat.lt_irrefl _ (digit_of_isSpace hs ▸ h)

/-! ### Numbers -/

/-- The value of a text of digits. -/
def numeral (base : ℕ) (text : List Byte) : ℕ := text.foldl (fun acc b => base * acc + digit b) 0

/-- A sign, and what follows it. -/
def scanSign : List Byte → Bool × List Byte
  | b :: s => if b = 0x2d then (true, s) else if b = 0x2b then (false, s) else (false, b :: s)
  | [] => (false, [])

/-- What follows the prefix of a hexadecimal number.  It is a prefix before a digit only. -/
def scanPrefix : List Byte → List Byte
  | z :: x :: d :: s =>
    if z = 0x30 ∧ (x = 0x78 ∨ x = 0x58) ∧ digit d < 16 then d :: s else z :: x :: d :: s
  | s => s

/-- The sign and the value of the number that a text begins with, and what follows it. -/
def scanInt (base : ℕ) (s : List Byte) : Option (Bool × ℕ × List Byte) :=
  let (negative, s) := scanSign s
  let s := if base = 16 then scanPrefix s else s
  let digits := s.takeWhile (digit · < base)
  if digits = [] then none
  else some (negative, numeral base digits, s.dropWhile (digit · < base))

/-- A signed value as `strtol` returns it. -/
def strtol (negative : Bool) (v : ℕ) : BitVec 32 :=
  if negative then -BitVec.ofNat 32 (min v (2 ^ 31)) else BitVec.ofNat 32 (min v (2 ^ 31 - 1))

/-- An unsigned value as `strtoul` returns it. -/
def strtoul (negative : Bool) (v : ℕ) : BitVec 32 :=
  if v < 2 ^ 32 then if negative then -BitVec.ofNat 32 v else BitVec.ofNat 32 v
  else BitVec.allOnes 32

/-! ### Formats -/

/-- A part of a format: white space, `%d` or `%lx`. -/
inductive Directive
  | space
  | d
  | lx
  deriving Repr, DecidableEq

/-- The value that a conversion assigns, and what follows in the string. -/
def Directive.convert : Directive → List Byte → Option (BitVec 32 × List Byte)
  | space, _ => none
  | d, s => (scanInt 10 s).map fun (negative, v, rest) => (strtol negative v, rest)
  | lx, s => (scanInt 16 s).map fun (negative, v, rest) => (strtoul negative v, rest)

/-- `sscanf` where the values `args` have been assigned. -/
def sscanfFrom (args : List (BitVec 32)) : List Byte → List Directive → ℤ × List (BitVec 32)
  | _, [] => (args.length, args)
  | s, .space :: format => sscanfFrom args (s.dropWhile (IsSpace ·)) format
  | s, dir :: format =>
    let s := s.dropWhile (IsSpace ·)
    -- The end of the string is an input failure, `EOF` before the first conversion.
    if s = [] then (if args = [] then -1 else args.length, args)
    else match dir.convert s with
      | none => (args.length, args)
      | some (v, rest) => sscanfFrom (args ++ [v]) rest format

/-- The value that `sscanf` returns, and the values that it assigns, in order. -/
def sscanf (s : List Byte) (format : List Directive) : ℤ × List (BitVec 32) :=
  sscanfFrom [] s format

/-- The number of conversions in a format. -/
def conversions (format : List Directive) : ℕ := (format.filter (· ≠ .space)).length

/-- `sscanf` returns how many values it has assigned, at most one for each conversion, or `EOF`. -/
theorem sscanfFrom_count (args : List (BitVec 32)) (s : List Byte) (format : List Directive) :
    ((sscanfFrom args s format).1 = (sscanfFrom args s format).2.length ∨
      (sscanfFrom args s format).1 = -1) ∧
    (sscanfFrom args s format).2.length ≤ args.length + conversions format := by
  induction format generalizing args s with
  | nil =>
    rw [sscanfFrom]
    exact ⟨Or.inl rfl, Nat.le_add_right ..⟩
  | cons dir format ih =>
    by_cases hdir : dir = .space
    · subst hdir
      rw [sscanfFrom]
      exact ih args _
    · have hcount : conversions (dir :: format) = conversions format + 1 := by
        rw [conversions, List.filter_cons_of_pos (by simpa using hdir)]
        rfl
      rw [hcount, sscanfFrom]
      · split_ifs with hs hargs
        · exact ⟨Or.inr rfl, Nat.le_add_right ..⟩
        · exact ⟨Or.inl rfl, Nat.le_add_right ..⟩
        · split
          · exact ⟨Or.inl rfl, Nat.le_add_right ..⟩
          · -- one value more, and one conversion less
            rename_i v rest _
            have hnext := ih (args ++ [v]) rest
            rw [List.length_append, List.length_singleton] at hnext
            exact ⟨hnext.1, hnext.2.trans (by omega)⟩
      · exact hdir

/-! ### Reading a number back -/

/-- A text of digits in a base, with its value. -/
structure IsNumeral (base : ℕ) (text : List Byte) (v : ℕ) : Prop where
  ne_nil : text ≠ []
  digits : ∀ b ∈ text, digit b < base
  value : numeral base text = v

/-- The text is a number that the conversion reads in range. -/
def Directive.Reads : Directive → List Byte → BitVec 32 → Prop
  | space, _, _ => False
  | d, text, w => IsNumeral 10 text w.toNat ∧ w.toNat < 2 ^ 31
  | lx, text, w => IsNumeral 16 text w.toNat

/-- The texts of numbers for these conversions, with one or more spaces before each of them. -/
inductive Arguments : List Directive → List (BitVec 32) → List Byte → Prop
  | nil : Arguments [] [] []
  | cons {dir w dirs ws spaces text rest} : spaces ≠ [] → (∀ b ∈ spaces, b = 0x20) →
    dir.Reads text w → Arguments dirs ws rest →
    Arguments (dir :: dirs) (w :: ws) (spaces ++ (text ++ rest))

/-- The format of these conversions, with white space before each of them. -/
def spaced (dirs : List Directive) : List Directive := dirs.flatMap fun dir => [.space, dir]

/-- The end of a string, or white space. -/
def AtSpace (rest : List Byte) : Prop := ∀ b ∈ rest.head?, IsSpace b

variable {base v : ℕ} {text rest : List Byte}

theorem scanSign_eq {b : Byte} {s : List Byte} (hb : digit b < 16) :
    scanSign (b :: s) = (false, b :: s) := by
  have hminus : b ≠ 0x2d := by
    rintro rfl
    exact absurd hb (by decide)
  have hplus : b ≠ 0x2b := by
    rintro rfl
    exact absurd hb (by decide)
  rw [scanSign, if_neg hminus, if_neg hplus]

/-- Digits before white space are no prefix. -/
theorem scanPrefix_eq (htext : ∀ b ∈ text, digit b < 16) (hrest : AtSpace rest) :
    scanPrefix (text ++ rest) = text ++ rest := by
  -- The byte after the first one is a digit or white space, and an `x` is neither.
  have hx : ∀ x : Byte, digit x < 16 ∨ IsSpace x → ¬(x = 0x78 ∨ x = 0x58) := by
    rintro x hx (rfl | rfl)
    · exact absurd hx (by decide)
    · exact absurd hx (by decide)
  match text, rest with
  | [], [] | [], [_] | [], [_, _] | [_], [] | [_], [_] | [_, _], [] => rfl
  | [], z :: x :: d :: s =>
    -- white space is no `0`
    refine if_neg fun h => ?_
    have hz := hrest z rfl
    rw [h.1] at hz
    exact absurd hz (by decide)
  | [_], x :: _ :: _ => exact if_neg fun h => hx x (.inr (hrest x rfl)) h.2.1
  | [_, x], _ :: _ =>
    exact if_neg fun h => hx x (.inl (htext x (by simp))) h.2.1
  | _ :: x :: _ :: _, _ => exact if_neg fun h => hx x (.inl (htext x (by simp))) h.2.1

theorem takeWhile_digits (htext : ∀ b ∈ text, digit b < base) (hbase : base ≤ 16)
    (hrest : AtSpace rest) :
    (text ++ rest).takeWhile (digit · < base) = text ∧
      (text ++ rest).dropWhile (digit · < base) = rest := by
  have htext : ∀ b ∈ text, decide (digit b < base) = true := fun b hb => decide_eq_true (htext b hb)
  rw [List.takeWhile_append_of_pos htext, List.dropWhile_append_of_pos htext]
  cases rest with
  | nil => simp
  | cons b rest =>
    -- the digits end at the white space
    have hb : ¬digit b < base := by
      rw [digit_of_isSpace (hrest b rfl)]
      omega
    simp [hb]

/-- A text of digits before white space is read whole. -/
theorem scanInt_eq (htext : IsNumeral base text v) (hbase : base ≤ 16) (hrest : AtSpace rest) :
    scanInt base (text ++ rest) = some (false, v, rest) := by
  have hdigits : ∀ b ∈ text, digit b < 16 := fun b hb => (htext.digits b hb).trans_le hbase
  -- a text of digits has neither a sign nor a prefix
  have hsign : scanSign (text ++ rest) = (false, text ++ rest) := by
    obtain ⟨b, tail, rfl⟩ := List.exists_cons_of_ne_nil htext.ne_nil
    exact scanSign_eq (hdigits b List.mem_cons_self)
  have hbegins :
      (if base = 16 then scanPrefix (text ++ rest) else text ++ rest) = text ++ rest := by
    rw [scanPrefix_eq hdigits hrest, ite_self]
  obtain ⟨htake, hdrop⟩ := takeWhile_digits htext.digits hbase hrest
  simp only [scanInt, hsign, hbegins, htake, hdrop, htext.value, if_neg htext.ne_nil]

variable {dir : Directive} {w : BitVec 32} {spaces : List Byte} {args ws : List (BitVec 32)}
  {format dirs : List Directive}

theorem Directive.Reads.digits (h : dir.Reads text w) : text ≠ [] ∧ ∀ b ∈ text, digit b < 16 := by
  cases dir with
  | space => exact h.elim
  | d => exact ⟨h.1.ne_nil, fun b hb => (h.1.digits b hb).trans (by decide)⟩
  | lx => exact ⟨h.ne_nil, h.digits⟩

theorem Directive.convert_eq (h : dir.Reads text w) (hrest : AtSpace rest) :
    dir.convert (text ++ rest) = some (w, rest) := by
  cases dir with
  | space => exact h.elim
  | d =>
    have hmin : min w.toNat (2 ^ 31 - 1) = w.toNat := Nat.min_eq_left (Nat.le_pred_of_lt h.2)
    rw [convert, scanInt_eq h.1 (by decide) hrest, Option.map_some]
    show some (strtol false w.toNat, rest) = _
    rw [strtol, if_neg Bool.false_ne_true, hmin, BitVec.ofNat_toNat, BitVec.setWidth_eq]
  | lx =>
    rw [convert, scanInt_eq h (by decide) hrest, Option.map_some]
    show some (strtoul false w.toNat, rest) = _
    rw [strtoul, if_pos w.isLt, if_neg Bool.false_ne_true, BitVec.ofNat_toNat, BitVec.setWidth_eq]

/-- White space before a text of digits is skipped. -/
theorem dropWhile_spaces (hspaces : ∀ b ∈ spaces, IsSpace b) (h : dir.Reads text w) :
    (spaces ++ (text ++ rest)).dropWhile (IsSpace ·) = text ++ rest := by
  rw [List.dropWhile_append_of_pos fun b hb => decide_eq_true (hspaces b hb)]
  obtain ⟨hne, hdigits⟩ := h.digits
  obtain ⟨b, tail, rfl⟩ := List.exists_cons_of_ne_nil hne
  have hb := not_isSpace_of_digit (hdigits b List.mem_cons_self)
  simp [hb]

/-- A conversion takes the number that is next. -/
theorem sscanfFrom_reads (hspaces : ∀ b ∈ spaces, IsSpace b) (h : dir.Reads text w)
    (hrest : AtSpace rest) :
    sscanfFrom args (spaces ++ (text ++ rest)) (dir :: format) =
      sscanfFrom (args ++ [w]) rest format := by
  have hdir : dir ≠ .space := by
    rintro rfl
    exact h
  have hne : text ++ rest ≠ [] := fun hnil => h.digits.1 (List.append_eq_nil_iff.mp hnil).1
  rw [sscanfFrom]
  · simp only [dropWhile_spaces hspaces h, if_neg hne, Directive.convert_eq h hrest]
  · exact hdir

/-- White space in the format before a conversion changes nothing. -/
theorem sscanfFrom_space_reads (hspaces : ∀ b ∈ spaces, IsSpace b) (h : dir.Reads text w)
    (hrest : AtSpace rest) :
    sscanfFrom args (spaces ++ (text ++ rest)) (.space :: dir :: format) =
      sscanfFrom (args ++ [w]) rest format := by
  have hnext : sscanfFrom args ([] ++ (text ++ rest)) (dir :: format) =
      sscanfFrom (args ++ [w]) rest format :=
    sscanfFrom_reads (List.forall_mem_nil _) h hrest
  rw [List.nil_append] at hnext
  rw [sscanfFrom, dropWhile_spaces hspaces h, hnext]

theorem Arguments.atSpace (h : Arguments dirs ws text) : AtSpace text := by
  cases h with
  | nil => simp [AtSpace]
  | cons hne hspaces _ _ =>
    obtain ⟨b, tail, rfl⟩ := List.exists_cons_of_ne_nil hne
    rintro _ ⟨⟩
    exact .inl (congrArg BitVec.toNat (hspaces b List.mem_cons_self))

theorem Arguments.mem (h : Arguments dirs ws text) : ∀ b ∈ text, b = 0x20 ∨ digit b < 16 := by
  induction h with
  | nil => simp
  | cons _ hspaces hreads _ ih =>
    intro b hb
    rw [List.mem_append, List.mem_append] at hb
    rcases hb with hb | hb | hb
    · exact .inl (hspaces b hb)
    · exact .inr (hreads.digits.2 b hb)
    · exact ih b hb

/-- **Arguments are read back**: `sscanf` returns the number of conversions and assigns the value of
each of them. -/
theorem sscanfFrom_arguments (h : Arguments dirs ws text) :
    sscanfFrom args text (spaced dirs) = (↑(args ++ ws).length, args ++ ws) := by
  induction h generalizing args with
  | nil =>
    rw [List.append_nil]
    rfl
  | @cons dir w dirs ws spaces text rest _ hspaces hreads hrest ih =>
    have hspaces : ∀ b ∈ spaces, IsSpace b := fun b hb =>
      .inl (congrArg BitVec.toNat (hspaces b hb))
    have hformat : spaced (dir :: dirs) = .space :: dir :: spaced dirs := rfl
    rw [hformat, sscanfFrom_space_reads hspaces hreads hrest.atSpace, ih, List.append_assoc]
    rfl

/-- The first conversion needs no white space in the format. -/
theorem sscanf_arguments (h : Arguments (dir :: dirs) ws text) :
    sscanf text (dir :: spaced dirs) = ((ws.length : ℤ), ws) := by
  cases h with
  | @cons dir w dirs ws spaces text rest _ hspaces hreads hrest =>
    have hspaces : ∀ b ∈ spaces, IsSpace b := fun b hb =>
      .inl (congrArg BitVec.toNat (hspaces b hb))
    exact (sscanfFrom_reads hspaces hreads hrest.atSpace).trans (sscanfFrom_arguments hrest)

end Ptmch.CLib
