import Ptmch.Cmd.Console
import Ptmch.Cmd.Equiv.Session

/-!
# A session at the console

What the tool is for: it reads and writes memory as its user asks.  `Request.perform` is what a
request does to memory and `Request.answer` what it shows, both said without reference to the
handlers.  A user types lines, each of which asks for something or has no command in it.  Calls of
`cmd_execute` on these lines do what the requests ask, in order, and show a transcript with the
values that memory has at the time (`call_session`); and what is shown for a read can be typed back
(`copy_session`).
-/

namespace Ptmch.Cmd

open CLib Machine

/-! ### What requests ask for -/

namespace Request

/-- Memory after the request: a write puts the bytes of `d` from `a` on, the low one first, and a
fill puts bytes that count up from `d`, or `d` itself. -/
def perform : Request → Mem → Mem
  | mr .., m => m
  | mw w a d, m => fun x =>
    if (x - a).toNat < w.bits / 8 then BitVec.ofNat 8 (d.toNat / 2 ^ (8 * (x - a).toNat)) else m x
  | mf fixed d a n, m => fun x =>
    if x - a < n then BitVec.ofNat 8 (if fixed then d.toNat else d.toNat + (x - a).toNat) else m x

/-- A number with zeros before it. -/
def hexField (width v : ℕ) : List Byte := Conversion.pad ⟨false, true, width⟩ true (hexText v)

/-- What the request shows. -/
def answer (m : Mem) : Request → List Byte
  | mr w a =>
    ascii "mem_read \nread_data = ".toList ++ hexField (w.bits / 4) (w.value m a) ++
      ascii " \n".toList
  | mw .. => ascii "mem_write \n".toList
  | mf fixed d a n =>
    ascii "mem_fill \n Fill ".toList ++
      ascii (if fixed then "fixed".toList else "incremental".toList) ++
      ascii " data from addr:0x".toList ++ hexField 8 a.toNat ++
      ascii " (size:0x".toList ++ hexText n.toNat ++
      ascii (if fixed then ") data:0x".toList else ") data_start:0x".toList) ++
      hexField 2 d.toNat ++ ascii "  \n".toList

end Request

/-! ### Memory -/

variable {m : Mem} {p a x : Ptr} {bs : List Byte} {w : Width}

theorem Width.length_bytes (w : Width) (v : ℕ) : (w.bytes v).length = w.bits / 8 := by
  rw [Width.bytes, List.length_map, List.length_range]

/-- What is in memory, byte by byte. -/
theorem apply_of_holds (h : Holds m p bs) {i : ℕ} (hi : i < bs.length) :
    m (p + BitVec.ofNat 32 i) = bs[i] := by
  induction bs generalizing p i with
  | nil => exact absurd hi (Nat.not_lt_zero i)
  | cons b bs ih =>
    cases i with
    | zero =>
      rw [BitVec.add_zero]
      exact h.1
    | succ i =>
      rw [← add_one_add_ofNat]
      exact ih h.2 (Nat.lt_of_succ_lt_succ hi)

/-- An address as an offset from another one. -/
theorem add_sub_toNat (p x : Ptr) : p + BitVec.ofNat 32 (x - p).toNat = x := by
  rw [BitVec.ofNat_toNat, BitVec.setWidth_eq, BitVec.add_comm, BitVec.sub_add_cancel]

theorem store_apply (m : Mem) (p : Ptr) (hlen : bs.length ≤ 2 ^ 32) (x : Ptr) :
    store m p bs x = if h : (x - p).toNat < bs.length then bs[(x - p).toNat] else m x := by
  split_ifs with h
  · have hread := apply_of_holds (holds_store (m := m) (p := p) hlen) h
    rwa [add_sub_toNat] at hread
  · apply store_of_ne
    rintro i hi rfl
    apply h
    rw [BitVec.add_comm, BitVec.add_sub_cancel, BitVec.toNat_ofNat]
    exact (Nat.mod_le i _).trans_lt hi

/-- A byte of a value is the same after the value has been cut off above it. -/
theorem byte_mod {d k i : ℕ} (hi : i < k) :
    d % 2 ^ (8 * k) / 2 ^ (8 * i) % 2 ^ 8 = d / 2 ^ (8 * i) % 2 ^ 8 := by
  have hsplit : 2 ^ (8 * k) = 2 ^ (8 * i) * 2 ^ (8 * (k - i)) := by
    rw [← pow_add, ← Nat.mul_add, Nat.add_sub_cancel' hi.le]
  have hdvd : 2 ^ 8 ∣ 2 ^ (8 * (k - i)) := pow_dvd_pow 2 (by omega)
  rw [hsplit, Nat.mod_mul_right_div_self, Nat.mod_mod_of_dvd _ hdvd]

theorem Width.eight_mul (w : Width) : 8 * (w.bits / 8) = w.bits := by
  cases w <;> rfl

/-- A write puts the low bytes of the data. -/
theorem memAfter_mw (m : Mem) (w : Width) (a : Ptr) (d : BitVec 32) :
    memAfter m (Request.mw w a d).accesses = (Request.mw w a d).perform m := by
  have hlen : (w.bytes (d.toNat % 2 ^ w.bits)).length ≤ 2 ^ 32 := by
    rw [Width.length_bytes]
    cases w <;> decide
  funext x
  show store m a (w.bytes (d.toNat % 2 ^ w.bits)) x =
    if (x - a).toNat < w.bits / 8 then BitVec.ofNat 8 (d.toNat / 2 ^ (8 * (x - a).toNat)) else m x
  rw [store_apply m a hlen x]
  by_cases h : (x - a).toNat < w.bits / 8
  · have h' : (x - a).toNat < (w.bytes (d.toNat % 2 ^ w.bits)).length := by
      rwa [Width.length_bytes]
    rw [dif_pos h', if_pos h]
    simp only [Width.bytes, List.getElem_map, List.getElem_range]
    -- the byte is one of those that the access transfers
    apply BitVec.eq_of_toNat_eq
    rw [BitVec.toNat_ofNat, BitVec.toNat_ofNat]
    rw [← w.eight_mul]
    exact byte_mod h
  · have h' : ¬(x - a).toNat < (w.bytes (d.toNat % 2 ^ w.bits)).length := by
      rwa [Width.length_bytes]
    rw [dif_neg h', if_neg h]

theorem memAfter_mf (m : Mem) (fixed : Bool) (d : BitVec 32) (a : Ptr) (n : BitVec 32) :
    memAfter m (Request.mf fixed d a n).accesses = (Request.mf fixed d a n).perform m := by
  have hwrites : (Request.mf fixed d a n).accesses = byteWrites n.toNat a fun k =>
      (if fixed then d.toNat else d.toNat + k) % 256 := by
    cases fixed with
    | false => exact fillIncrement_eq d a n
    | true => exact fillFixed_eq d a n
  have hfill := @memAfter_byteWrites n.toNat a
    (fun k => (if fixed then d.toNat else d.toNat + k) % 256) n.isLt.le m
  obtain ⟨hfilled, hkept⟩ := hfill
  funext x
  show memAfter m (Request.mf fixed d a n).accesses x =
    if x - a < n then BitVec.ofNat 8 (if fixed then d.toNat else d.toNat + (x - a).toNat) else m x
  rw [hwrites]
  by_cases h : x - a < n
  · have hbyte := hfilled (x - a).toNat h
    rw [add_sub_toNat] at hbyte
    rw [if_pos h, hbyte]
    apply BitVec.eq_of_toNat_eq
    rw [BitVec.toNat_ofNat, BitVec.toNat_ofNat, Nat.mod_mod]
  · rw [if_neg h]
    apply hkept
    rintro k hk rfl
    apply h
    rw [BitVec.add_comm, BitVec.add_sub_cancel]
    show (BitVec.ofNat 32 k).toNat < n.toNat
    rw [BitVec.toNat_ofNat]
    exact (Nat.mod_le k _).trans_lt hk

/-- **The accesses of a request do to memory what it asks for.** -/
theorem memAfter_request (m : Mem) (r : Request) : memAfter m r.accesses = r.perform m := by
  cases r with
  | mr w a => rfl
  | mw w a d => exact memAfter_mw m w a d
  | mf fixed d a n => exact memAfter_mf m fixed d a n

/-! ### What is read -/

theorem Width.value_lt (w : Width) (m : Mem) (a : Ptr) : w.value m a < 2 ^ w.bits := by
  have hbytes : ∀ v ∈ (List.range (w.bits / 8)).map fun i => (m (a + BitVec.ofNat 32 i)).toNat,
      v < 256 := by
    intro v hv
    obtain ⟨i, -, rfl⟩ := List.mem_map.mp hv
    exact (m (a + BitVec.ofNat 32 i)).isLt
  have hlt := Nat.ofDigits_lt_base_pow_length (by decide : 1 < 256) hbytes
  rw [List.length_map, List.length_range] at hlt
  cases w <;> exact hlt

/-- A handler finds the value that is in memory. -/
theorem readData_onBus (charSigned : Bool) (m : Mem) (w : Width) (a : Ptr) :
    (Platform.onBus charSigned m).readData w a = BitVec.ofNat 32 (w.value m a) := by
  have hlt := w.value_lt m a
  have hle : 2 ^ w.bits ≤ 2 ^ 32 := by
    cases w <;> decide
  rw [Platform.readData, Platform.onBus, BitVec.toNat_ofNat, Nat.mod_eq_of_lt (hlt.trans_le hle),
    Nat.mod_eq_of_lt hlt]

/-! ### What is shown -/

variable {pf : Platform} {r : Request} {text rest : List Byte}

theorem stdoutOf_nil : stdoutOf [] = [] := rfl

theorem stdoutOf_cons (e : Effect) (effects : List Effect) :
    stdoutOf (e :: effects) = e.stdout ++ stdoutOf effects := rfl

theorem stdoutOf_append (a b : List Effect) : stdoutOf (a ++ b) = stdoutOf a ++ stdoutOf b :=
  List.flatMap_append

/-- The loops of a fill show nothing. -/
theorem stdoutOf_byteWrites (n : ℕ) (a : Ptr) (value : ℕ → ℕ) :
    stdoutOf (byteWrites n a value) = [] := by
  induction n with
  | zero => rfl
  | succ n ih =>
    rw [byteWrites_succ, stdoutOf_append, ih]
    rfl

theorem pad_plain (numeric : Bool) (text : List Byte) :
    Conversion.plain.pad numeric text = text := by
  simp [Conversion.pad, Conversion.plain]

theorem stdout_read (w : Width) (v : BitVec 32) :
    (Effect.printf (readFormat w) [.num v]).stdout =
      ascii "read_data = ".toList ++ (Request.hexField (w.bits / 4) v.toNat ++
        ascii " \n".toList) := by
  cases w <;> rfl

set_option maxRecDepth 2000 in
theorem stdout_increment (a n d : BitVec 32) :
    (Effect.printf
      " Fill incremental data from addr:0x%08x (size:0x%x) data_start:0x%02x  \n"
      [.num a, .num n, .num d]).stdout =
      ascii " Fill incremental data from addr:0x".toList ++ (Request.hexField 8 a.toNat ++
        (ascii " (size:0x".toList ++ (hexText n.toNat ++ (ascii ") data_start:0x".toList ++
          (Request.hexField 2 d.toNat ++ ascii "  \n".toList))))) := by
  rw [← pad_plain true (hexText n.toNat)]
  rfl

set_option maxRecDepth 2000 in
theorem stdout_fixed (a n d : BitVec 32) :
    (Effect.printf " Fill fixed data from addr:0x%08x (size:0x%x) data:0x%02x  \n"
      [.num a, .num n, .num d]).stdout =
      ascii " Fill fixed data from addr:0x".toList ++ (Request.hexField 8 a.toNat ++
        (ascii " (size:0x".toList ++ (hexText n.toNat ++ (ascii ") data:0x".toList ++
          (Request.hexField 2 d.toNat ++ ascii "  \n".toList))))) := by
  rw [← pad_plain true (hexText n.toNat)]
  rfl

/-- The handler of a request shows its answer. -/
theorem stdoutOf_run (charSigned : Bool) (m : Mem) (halign : r.Aligned)
    (hrest : Arguments r.radices r.args rest) :
    stdoutOf (r.func.run (.onBus charSigned m) rest).2 = r.answer m := by
  cases r with
  | mr w a =>
    have hscan : sscanf rest [.d, .space, .lx] = (2, [BitVec.ofNat 32 w.bits, a]) :=
      sscanf_arguments hrest
    have hlt := w.value_lt m a
    have hvalue : (BitVec.ofNat 32 (w.value m a)).toNat = w.value m a := by
      rw [BitVec.toNat_ofNat, Nat.mod_eq_of_lt]
      refine hlt.trans_le ?_
      cases w <;> decide
    simp only [Request.func, Func.run, cmdMemRead, hscan, widthOf_bits, List.getD_cons_zero,
      List.getD_cons_succ, iordDirect_aligned halign, Int.lt_irrefl, if_false, readData_onBus]
    generalize BitVec.ofNat 32 (w.value m a) = v at hvalue
    rw [stdoutOf_cons, stdoutOf_cons, stdoutOf_cons, stdout_read, Request.answer, ← hvalue]
    simp only [stdoutOf_nil, List.append_nil, List.append_assoc]
    rfl
  | mw w a d =>
    have hscan : sscanf rest [.d, .space, .lx, .space, .lx] = (3, [BitVec.ofNat 32 w.bits, a, d]) :=
      sscanf_arguments hrest
    simp only [Request.func, Func.run, cmdMemWrite, hscan, widthOf_bits, List.getD_cons_zero,
      List.getD_cons_succ, iowrDirect_aligned halign, Int.lt_irrefl, if_false]
    rfl
  | mf fixed d a n =>
    have hscan : sscanf rest [.d, .space, .lx, .space, .lx, .space, .lx] =
        (4, [if fixed then 1 else 0, d, a, n]) := sscanf_arguments hrest
    cases fixed with
    | false =>
      have hfill := stdoutOf_byteWrites n.toNat a fun k => (d.toNat + k) % 256
      rw [← fillIncrement_eq] at hfill
      simp only [Request.func, Func.run, cmdMemFill, hscan, List.getD_cons_zero,
        List.getD_cons_succ, Int.lt_irrefl, if_false, Bool.false_eq_true, if_true]
      rw [stdoutOf_cons, stdoutOf_cons, hfill, stdout_increment, Request.answer]
      simp only [List.append_assoc, List.append_nil, Bool.false_eq_true, if_false]
      rfl
    | true =>
      have hfill := stdoutOf_byteWrites n.toNat a fun _ => d.toNat % 256
      rw [← fillFixed_eq] at hfill
      have hone : (1 : BitVec 32) ≠ 0 := by decide
      simp only [Request.func, Func.run, cmdMemFill, hscan, List.getD_cons_zero,
        List.getD_cons_succ, Int.lt_irrefl, if_false, if_true, hone]
      rw [stdoutOf_cons, stdoutOf_cons, hfill, stdout_fixed, Request.answer]
      simp only [List.append_assoc, List.append_nil, if_true]
      rfl

/-! ### Lines that are typed -/

/-- A line, the request that is meant by it, if any, and the memory in which the call that reads it
finds its array. -/
structure Typed where
  raw : List Byte
  request : Option Request
  stack : Mem

namespace Typed

/-- The text of the line once it is edited. -/
def edited (t : Typed) : List Byte := edit (beforeNul t.raw)

/-- The line fits, and writes the request, or has no command in it. -/
structure Valid (t : Typed) : Prop where
  length_le : t.raw.length ≤ 126
  newline : newline ∉ t.raw
  writes : ∀ r ∈ t.request, r.Writes t.edited ∧ r.Aligned
  quiet : t.request = none → ∀ c ∈ commands, ¬c.name <:+: t.edited

/-- Memory after the line. -/
def perform (t : Typed) (m : Mem) : Mem := t.request.elim m (·.perform m)

/-- What the terminal shows for the line. -/
def shown (t : Typed) (m : Mem) : List Byte :=
  ascii "\nCommand: ".toList ++ t.edited ++ ascii "\n".toList ++ t.request.elim [] (·.answer m)

end Typed

/-- What the terminal shows for these lines. -/
def transcript : Mem → List Typed → List Byte
  | _, [] => []
  | m, t :: ts => t.shown m ++ transcript (t.perform m) ts

/-- The lines as they come in. -/
def typing (ts : List Typed) : List Byte := ts.flatMap fun t => t.raw ++ [newline]

/-! ### One call -/

variable {inputStr : CArray 128} {t : Typed} {cs : List Command}

/-- The loop finds nothing in a line without a command. -/
theorem executeFrom_of_quiet (hquiet : ∀ c ∈ cs, ¬c.name <:+: cstr m p) :
    executeFrom pf m p 0 cs = (0, []) := by
  induction cs with
  | nil => rfl
  | cons c cs ih =>
    obtain ⟨hc, hcs⟩ := List.forall_mem_cons.mp hquiet
    rw [executeFrom, if_congr (strstr_ne_none_iff _ _) rfl rfl, if_neg hc]
    exact ih hcs

/-- The loop runs the handler of a request. -/
theorem stdoutOf_executeFrom (charSigned : Bool) (ram : Mem) (hline : cstr m p = text)
    (hholds : Holds m p (text ++ [0])) (hzero : ∀ b ∈ text, b ≠ 0) (hlen : text.length < 2 ^ 32)
    (h : r.Writes text) (halign : r.Aligned) :
    stdoutOf (executeFrom (.onBus charSigned ram) m p 0 commands).2 = r.answer ram := by
  have hstart := Request.occursAtStart h
  obtain ⟨c, hc, hname, hfunc⟩ := r.exists_command
  obtain ⟨rest, rfl, hrest⟩ := h
  have hbegins : c.name <+: r.name ++ rest := hname ▸ List.prefix_append _ _
  have hoptions : cstr m (c.options p) = rest := by
    rw [List.append_assoc, holds_append, ← hname] at hholds
    rw [List.length_append] at hlen
    exact cstr_eq hholds.2 (fun b hb => hzero b (List.mem_append_right _ hb)) (by omega)
  rw [← hline] at hstart hbegins
  rw [executeFrom_of_occursAtStart hstart hc hbegins (hfunc ▸ r.func_ne_exit), hoptions, hfunc,
    stdoutOf_cons, stdoutOf_run charSigned ram halign hrest]
  rfl

theorem stdoutOf_prologue (line : List Byte) :
    stdoutOf (prologue line) = ascii "\nCommand: ".toList ++ line ++ ascii "\n".toList := by
  have hline : Conversion.plain.pad false line = line := pad_plain false line
  have hshow : stdoutOf (prologue line) = ascii "\nCommand: ".toList ++
      (Conversion.plain.pad false line ++ ascii "\n".toList) := by
    have hflush : Effect.fflush.stdout = [] := rfl
    simp only [prologue, stdoutOf_cons, stdoutOf_nil, hflush, List.append_nil, List.nil_append]
    rfl
  rw [hshow, hline, List.append_assoc]

/-- **One line at the console.** -/
theorem call_typed (charSigned : Bool) (ram : Mem) (rest shown : List Byte) (ht : t.Valid) :
    Console.call charSigned inputStr ⟨ram, t.raw ++ newline :: rest, shown⟩ t.stack =
      ⟨t.perform ram, rest, shown ++ t.shown ram⟩ := by
  generalize ho : cmdExecute (.onBus charSigned ram) t.stack inputStr (t.raw ++ newline :: rest) = o
  obtain ⟨hholds, hstdin⟩ := cmdExecute_line ht.length_le ht.newline o ho.symm
  obtain ⟨-, heffects⟩ := cmdExecute_eq o ho.symm
  have hzero : ∀ b ∈ t.edited, b ≠ 0 := fun b hb => (edit_printable _ b hb).ne_zero
  have hraw : (beforeNul t.raw).length < 2 ^ 32 := by
    have hlen := length_beforeNul_le t.raw
    have hle := ht.length_le
    omega
  have htext : t.edited.length < 2 ^ 32 := by
    have hkept := length_foldl_keep_le [] (beforeNul t.raw)
    rw [List.length_nil, Nat.zero_add] at hkept
    exact hkept.trans_lt hraw
  have hline : o.line inputStr = t.edited := line_eq_edit hholds hraw
  have hcall : Console.call charSigned inputStr ⟨ram, t.raw ++ newline :: rest, shown⟩ t.stack =
      ⟨memAfter ram o.effects, o.stdin, shown ++ stdoutOf o.effects⟩ := by
    rw [← ho]
    rfl
  rw [hcall, hstdin, heffects, hline, stdoutOf_append, stdoutOf_prologue, Typed.shown,
    Typed.perform, ← memAfter_accesses, accesses_append]
  cases hr : t.request with
  | none =>
    have hquiet := ht.quiet hr
    rw [← hline] at hquiet
    rw [executeFrom_of_quiet hquiet]
    rfl
  | some r =>
    obtain ⟨hwrites, halign⟩ := ht.writes r (Option.mem_def.mpr hr)
    have hrequest := executeFrom_request (.onBus charSigned ram) hholds hzero htext hwrites halign
    rw [hrequest.2, stdoutOf_executeFrom charSigned ram hline hholds hzero htext hwrites halign]
    show Console.mk (memAfter ram r.accesses) _ _ = _
    rw [memAfter_request]
    rfl

/-! ### Sessions -/

/-- **A session at the console.**  Successive calls of `cmd_execute` on lines of which each asks for
something or has no command in it: memory is as if the requests had been performed one after the
other, the terminal shows the transcript of the session, and what was typed after these lines is
left for later calls. -/
theorem call_session (charSigned : Bool) (inputStr : CArray 128) (ram : Mem)
    (rest shown : List Byte) (ts : List Typed) (hts : ∀ t ∈ ts, t.Valid) :
    run (Console.call charSigned inputStr) ⟨ram, typing ts ++ rest, shown⟩ (ts.map (·.stack)) =
      ⟨ts.foldl (fun m t => t.perform m) ram, rest, shown ++ transcript ram ts⟩ := by
  -- by induction on the lines, with the memory and the screen that the first one leaves
  induction ts generalizing ram shown with
  | nil =>
    rw [transcript, List.append_nil]
    rfl
  | cons t ts ih =>
    obtain ⟨ht, hts⟩ := List.forall_mem_cons.mp hts
    have htyping : typing (t :: ts) ++ rest = t.raw ++ newline :: (typing ts ++ rest) := by
      simp [typing]
    rw [List.map_cons, run_cons, htyping, call_typed charSigned ram _ shown ht, ih _ _ hts,
      List.foldl_cons, transcript, List.append_assoc]

/-- A write, a line without a command and a read of the upper half of what has been written. -/
def sessionLines : List Typed :=
  [⟨typedLine, some (.mw .w32 0x2000 0xdeadbeef), fun _ => 0⟩,
    ⟨ascii "hello".toList, none, fun _ => 0⟩,
    ⟨ascii "mr 16 2002".toList, some (.mr .w16 0x2002), fun _ => 0⟩]

theorem sessionLines_valid : ∀ t ∈ sessionLines, t.Valid := by
  have hwrite : Typed.Valid ⟨typedLine, some (.mw .w32 0x2000 0xdeadbeef), fun _ => 0⟩ := by
    refine ⟨by decide, by decide, fun r hr => ?_, nofun⟩
    obtain rfl := Option.some.inj hr
    exact ⟨typedLine_edit, by decide⟩
  have hhello : Typed.Valid ⟨ascii "hello".toList, none, fun _ => 0⟩ := by
    refine ⟨by decide, by decide, nofun, fun _ => ?_⟩
    decide +kernel
  have hread : Typed.Valid ⟨ascii "mr 16 2002".toList, some (.mr .w16 0x2002), fun _ => 0⟩ := by
    refine ⟨by decide, by decide, fun r hr => ?_, nofun⟩
    obtain rfl := Option.some.inj hr
    refine ⟨⟨[0x20] ++ (ascii "16".toList ++ ([0x20] ++ (ascii "2002".toList ++ []))),
      by decide +kernel, ?_⟩, by decide⟩
    refine .cons (by decide) (by decide) ?_ (.cons (by decide) (by decide) ?_ .nil)
    · exact ⟨⟨by decide, by decide, by decide⟩, by decide⟩
    · exact ⟨by decide, by decide, by decide⟩
  exact List.forall_mem_cons.mpr ⟨hwrite, List.forall_mem_cons.mpr ⟨hhello,
    List.forall_mem_cons.mpr ⟨hread, List.forall_mem_nil _⟩⟩⟩

/-- The half that is shown is that which the first line has written. -/
theorem call_sessionLines :
    (run (Console.call true stackBuffer) ⟨fun _ => 0, typing sessionLines, []⟩
      (sessionLines.map (·.stack))).stdout =
      ascii "\nCommand: mw 32  2000 dEADbeef\nmem_write \n".toList ++
        (ascii "\nCommand: hello\n".toList ++
          ascii "\nCommand: mr 16 2002\nmem_read \nread_data = dead \n".toList) := by
  have hrun := call_session true stackBuffer (fun _ => 0) [] [] sessionLines sessionLines_valid
  rw [List.append_nil] at hrun
  rw [hrun]
  decide +kernel

end Ptmch.Cmd
