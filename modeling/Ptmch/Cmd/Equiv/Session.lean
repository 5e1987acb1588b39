import Mathlib.Logic.Function.Iterate
import Ptmch.Cmd.Equiv.Line
import Ptmch.Machine.Run

/-!
# Successive calls on one stream

`cmd_execute` reads at most 127 bytes and does not look at what `fgets` returns.  So a line that
does not fit in `input_str` is read by more than one call, and a call at the end of the stream
searches what is in the array already.  Where neither happens, call `k` searches the edited text of
line `k` and of no other (`oneLineOneCommand_iff`).
-/

namespace Ptmch.Cmd

open CLib Machine

/-! ### Calls -/

/-- What a call of `cmd_execute` finds: nothing is known of the array `input_str` in this memory. -/
structure Call where
  platform : Platform
  mem : Mem

def Call.outcome (c : Call) (inputStr : CArray 128) (stdin : List Byte) : Outcome :=
  cmdExecute c.platform c.mem inputStr stdin

/-- The stream after these calls. -/
def stdinAfter (inputStr : CArray 128) (stream : List Byte) (cs : List Call) : List Byte :=
  run (fun stdin c => (c.outcome inputStr stdin).stdin) stream cs

/-- The stream from line `k` on. -/
def fromLine (stream : List Byte) (k : ℕ) : List Byte := afterLine^[k] stream

/-! ### One line for each call -/

/-- A call that finds `stdin` reads its own line, the first one of `ahead`. -/
structure ReadsLine (inputStr : CArray 128) (c : Call) (stdin ahead : List Byte) : Prop where
  /-- the call does not start in the rest of an earlier line -/
  own : stdin = ahead
  /-- it searches the edited line, or the edited start of a line that does not fit -/
  text : ahead ≠ [] → ∃ text, text <+: firstLine ahead ∧
    (LineFits 127 ahead → text = firstLine ahead) ∧
    (c.outcome inputStr stdin).line inputStr = edit text
  /-- at the end of the stream it calls nothing, and reads nothing that is not in the array -/
  quiet : ahead = [] → inputStr.Terminated c.mem ∧ calls (c.outcome inputStr stdin).effects = []

/-- Call `k` reads line `k`, for every call. -/
def OneLineOneCommand (inputStr : CArray 128) (stream : List Byte) (cs : List Call) : Prop :=
  ∀ k c, cs[k]? = some c →
    ReadsLine inputStr c (stdinAfter inputStr stream (cs.take k)) (fromLine stream k)

/-- The text that is left in `input_str` contains no name of the table once it is edited. -/
def Quiet (inputStr : CArray 128) (m : Mem) : Prop :=
  inputStr.Terminated m ∧ ∀ c ∈ commands, ¬c.name <:+: edit (cstr m inputStr.addr)

variable {inputStr : CArray 128} {stream stdin bytes : List Byte} {c : Call} {cs : List Call}
  {k : ℕ}

/-! ### One call -/

theorem edit_concat_newline (text : List Byte) : edit (text ++ [newline]) = edit text := by
  rw [edit, List.foldl_append]
  exact keep_newline _

theorem beforeNul_eq (h : ∀ b ∈ bytes, b ≠ 0) : beforeNul bytes = bytes :=
  List.takeWhile_eq_self_iff.mpr fun b hb => decide_eq_true (h b hb)

/-- What a call leaves of the stream. -/
theorem stdin_outcome (c : Call) (inputStr : CArray 128) (stdin : List Byte) :
    (c.outcome inputStr stdin).stdin = (readLine 127 stdin).2 := rfl

/-- The text of a buffer that holds an edited line. -/
theorem line_eq_edit {o : Outcome} {text : List Byte}
    (h : Holds o.mem inputStr.addr (edit text ++ [0])) (hlen : text.length < 2 ^ 32) :
    o.line inputStr = edit text := by
  have hkept := length_foldl_keep_le [] text
  rw [List.length_nil, Nat.zero_add, ← edit] at hkept
  exact cstr_eq h (fun b hb => (edit_printable text b hb).ne_zero) (by omega)

/-- **A call in the stream** searches the edited line. -/
theorem line_outcome (c : Call) (hstdin : stdin ≠ []) (hzero : ∀ b ∈ stdin, b ≠ 0) :
    ∃ text, text <+: firstLine stdin ∧ (LineFits 127 stdin → text = firstLine stdin) ∧
      (c.outcome inputStr stdin).line inputStr = edit text := by
  obtain ⟨text, hbegins, hfits, hread⟩ := readLine_text 127 stdin
  have hmem : ∀ b ∈ text, b ≠ 0 := fun b hb =>
    hzero b ((hbegins.trans (List.takeWhile_prefix _)).subset hb)
  have hbytes : ∀ b ∈ (readLine 127 stdin).1, b ≠ 0 := by
    intro b hb
    rcases hread with hread | hread
    · exact hmem b (hread ▸ hb)
    · rw [hread] at hb
      rcases List.mem_append.mp hb with hb | hb
      · exact hmem b hb
      · rw [List.mem_singleton.mp hb]
        decide
  have hedit : edit (readLine 127 stdin).1 = edit text := by
    rcases hread with hread | hread
    · rw [hread]
    · rw [hread, edit_concat_newline]
  obtain ⟨hholds, -⟩ := cmdExecute_bytes (rfl : readLine 127 stdin = (_, _))
    (readLine_ne_nil hstdin) (c.outcome inputStr stdin) rfl
  rw [beforeNul_eq hbytes] at hholds
  have hlen := length_readLine_le 127 stdin
  exact ⟨text, hbegins, hfits, hedit ▸ line_eq_edit hholds (by omega)⟩

/-- **A call at the end of the stream** searches what is left in the array. -/
theorem line_outcome_nil (c : Call) (h : inputStr.Terminated c.mem) :
    (c.outcome inputStr []).line inputStr = edit (cstr c.mem inputStr.addr) := by
  obtain ⟨i, hi, hnul⟩ := h
  obtain ⟨left, hholds, hzero, hlen⟩ := exists_holds hnul
  have hfits := inputStr.fits
  have hcstr : cstr c.mem inputStr.addr = left := cstr_eq hholds hzero (by omega)
  have hmem : (c.outcome inputStr []).mem =
      removeNonascii c.platform c.mem inputStr.addr (BitVec.ofNat 32 left.length) := by
    rw [← hcstr]
    rfl
  rw [hcstr]
  refine line_eq_edit (hmem ▸ ?_) (by omega)
  exact removeNonascii_eq c.platform inputStr.addr_ne_zero hholds hzero (by omega) (by omega)

/-- It calls nothing exactly if no name occurs there. -/
theorem quiet_iff (c : Call) (inputStr : CArray 128) :
    inputStr.Terminated c.mem ∧ calls (c.outcome inputStr []).effects = [] ↔
      Quiet inputStr c.mem := by
  refine and_congr_right fun hterm => ?_
  rw [calls_cmdExecute (c.outcome inputStr []) rfl, line_outcome_nil c hterm, List.map_eq_nil_iff,
    occurring, List.filter_eq_nil_iff]
  exact forall₂_congr fun d _ => not_congr decide_eq_true_iff

/-! ### Runs -/

theorem fromLine_succ (stream : List Byte) (k : ℕ) :
    fromLine stream (k + 1) = afterLine (fromLine stream k) :=
  Function.iterate_succ_apply' afterLine k stream

theorem fromLine_suffix (stream : List Byte) (k : ℕ) : fromLine stream k <:+ stream := by
  induction k with
  | zero => exact List.suffix_refl stream
  | succ k ih =>
    rw [fromLine_succ]
    exact ((List.tail_suffix _).trans (List.dropWhile_suffix _)).trans ih

theorem stdinAfter_take_succ (hc : cs[k]? = some c) :
    stdinAfter inputStr stream (cs.take (k + 1)) =
      (c.outcome inputStr (stdinAfter inputStr stream (cs.take k))).stdin := by
  rw [stdinAfter, List.take_add_one, hc, Option.toList_some, run_concat]
  rfl

/-- **Run lemma**: as long as the lines fit, every call starts in its own line. -/
theorem stdinAfter_of_fits (hk : k ≤ cs.length)
    (hfits : ∀ j < k, LineFits 127 (fromLine stream j)) :
    stdinAfter inputStr stream (cs.take k) = fromLine stream k := by
  induction k with
  | zero => rfl
  | succ k ih =>
    have hprev := ih (Nat.le_of_succ_le hk) fun j hj => hfits j (Nat.lt_succ_of_lt hj)
    rw [stdinAfter_take_succ (List.getElem?_eq_getElem hk), hprev, stdin_outcome, fromLine_succ]
    exact (readLine_rest_iff 127 _).mpr (hfits k (Nat.lt_succ_self k))

/-- **One line, one command.**  On a stream without NUL bytes, each call searches the edited text of
its own line, and the calls at the end of the stream call nothing, if and only if all the lines
before that of the last call fit in `input_str` and the array is quiet at the end of the stream. -/
theorem oneLineOneCommand_iff (inputStr : CArray 128) (stream : List Byte) (cs : List Call)
    (hzero : ∀ b ∈ stream, b ≠ 0) :
    OneLineOneCommand inputStr stream cs ↔
      (∀ k, k + 1 < cs.length → LineFits 127 (fromLine stream k)) ∧
      ∀ k c, cs[k]? = some c → fromLine stream k = [] → Quiet inputStr c.mem := by
  constructor
  · intro h
    refine ⟨fun k hk => ?_, fun k c hc hend => ?_⟩
    · -- the next call starts in the next line
      have hcur := h k _ (List.getElem?_eq_getElem (Nat.lt_of_succ_lt hk))
      have hnext := (h (k + 1) _ (List.getElem?_eq_getElem hk)).own
      rw [stdinAfter_take_succ (List.getElem?_eq_getElem (Nat.lt_of_succ_lt hk)), hcur.own,
        stdin_outcome, fromLine_succ] at hnext
      exact (readLine_rest_iff 127 _).mp hnext
    · have hcall := h k c hc
      have hquiet := hcall.quiet hend
      rw [hcall.own, hend] at hquiet
      exact (quiet_iff c inputStr).mp hquiet
  · rintro ⟨hfits, hquiet⟩ k c hc
    obtain ⟨hk, -⟩ := List.getElem?_eq_some_iff.mp hc
    have hown : stdinAfter inputStr stream (cs.take k) = fromLine stream k :=
      stdinAfter_of_fits hk.le fun j hj => hfits j (by omega)
    refine ⟨hown, fun hne => ?_, fun hend => ?_⟩
    · rw [hown]
      exact line_outcome c hne fun b hb => hzero b ((fromLine_suffix stream k).subset hb)
    · rw [hown, hend]
      exact (quiet_iff c inputStr).mpr (hquiet k c hc hend)

/-- A call that finds zeros in memory. -/
def blankCall : Call := ⟨⟨true, fun _ _ => 0⟩, fun _ => 0⟩

/-- A line of 127 blanks and a write. -/
def longStream : List Byte := List.replicate 127 0x20 ++ ascii "mw 8 1 2\n".toList

def shortStream : List Byte := ascii "mr 8 10\n".toList

/-- A call that finds memory as the first call on `shortStream` has left it. -/
def secondCall : Call := ⟨blankCall.platform, (blankCall.outcome stackBuffer shortStream).mem⟩

/-- **A line in two calls, and a line called twice**: the second call on `longStream` makes the
write at the end of the line, and the second call on `shortStream` makes the read again. -/
theorem longStream_split :
    ¬OneLineOneCommand stackBuffer longStream [blankCall, blankCall] ∧
    accesses (blankCall.outcome stackBuffer
      (stdinAfter stackBuffer longStream [blankCall])).effects = [.iowr .w8 1 2] ∧
    ¬OneLineOneCommand stackBuffer shortStream [blankCall, secondCall] ∧
    accesses (secondCall.outcome stackBuffer
      (stdinAfter stackBuffer shortStream [blankCall])).effects = [.iord .w8 0x10] := by
  refine ⟨fun h => ?_, by decide +kernel, fun h => ?_, by decide +kernel⟩
  · have hown := (h 1 blankCall rfl).own
    exact absurd hown (by decide +kernel)
  · have hquiet := ((h 1 secondCall rfl).quiet (by decide +kernel)).2
    exact absurd hquiet (by decide +kernel)

/-- Two lines that fit, and a call after them. -/
theorem oneLineOneCommand_menu :
    OneLineOneCommand stackBuffer (ascii "menu\nmw 8 10 5\n".toList)
      [blankCall, blankCall, blankCall] := by
  refine (oneLineOneCommand_iff _ _ _ (by decide)).mpr ⟨fun k hk => ?_, fun k c hc _ => ?_⟩
  · have hk : k < 2 := Nat.lt_of_succ_lt_succ hk
    have hfits : ∀ k < 2, LineFits 127 (fromLine (ascii "menu\nmw 8 10 5\n".toList) k) := by
      decide +kernel
    exact hfits k hk
  · have hcall : c = blankCall := by
      have hmem := List.mem_of_getElem? hc
      simpa using hmem
    rw [hcall]
    exact ⟨⟨0, by decide, rfl⟩, by decide +kernel⟩

end Ptmch.Cmd
