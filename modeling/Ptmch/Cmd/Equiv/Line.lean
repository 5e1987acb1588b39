import Ptmch.Cmd.Equiv.Dispatch
import Mathlib.Data.List.TakeWhile

/-!
# A command line from end to end

A request is a read, a write or a fill with its values.  A line whose edited text writes a request
is read, edited, dispatched and parsed to the bus accesses of that request: its name is the only one
that occurs in the text, as the others would need an `m` after the first character or an `x`.
-/

namespace Ptmch.Cmd

open CLib

/-! ### Requests -/

inductive Request
  | mr (w : Width) (a : Ptr)
  | mw (w : Width) (a : Ptr) (d : BitVec 32)
  | mf (fixed : Bool) (d : BitVec 32) (a : Ptr) (n : BitVec 32)
  deriving Repr, DecidableEq

namespace Request

def name : Request → List Byte
  | mr .. => ascii ['m', 'r']
  | mw .. => ascii ['m', 'w']
  | mf .. => ascii ['m', 'f']

def func : Request → Func
  | mr .. => .cmdMemRead
  | mw .. => .cmdMemWrite
  | mf .. => .cmdMemFill

/-- The arguments, the first of them in decimal and the others in hexadecimal. -/
def args : Request → List (BitVec 32)
  | mr w a => [BitVec.ofNat 32 w.bits, a]
  | mw w a d => [BitVec.ofNat 32 w.bits, a, d]
  | mf fixed d a n => [if fixed then 1 else 0, d, a, n]

def radices : Request → List Directive
  | mr .. => [.d, .lx]
  | mw .. => [.d, .lx, .lx]
  | mf .. => [.d, .lx, .lx, .lx]

/-- The text is the name and then the arguments, each after one or more spaces. -/
def Writes (r : Request) (text : List Byte) : Prop :=
  ∃ rest, text = r.name ++ rest ∧ Arguments r.radices r.args rest

def Aligned : Request → Prop
  | mr w a | mw w a _ => w.Aligned a
  | mf .. => True

instance : DecidablePred Aligned
  | mr w a | mw w a _ => inferInstanceAs (Decidable (w.Aligned a))
  | mf .. => inferInstanceAs (Decidable True)

/-- The bus accesses of a request. -/
def accesses : Request → List Effect
  | mr w a => [.iord w a]
  | mw w a d => [.iowr w a (d.toNat % 2 ^ w.bits)]
  | mf fixed d a n => if fixed then fillFixed d a n else fillIncrement d a n

end Request

variable {pf : Platform} {m : Mem} {p : Ptr} {r : Request} {text rest : List Byte}

/-! ### Parsing -/

theorem widthOf_bits (w : Width) : widthOf (BitVec.ofNat 32 w.bits) = some w := by
  cases w <;> rfl

theorem iordDirect_aligned {w : Width} {a : Ptr} (h : w.Aligned a) :
    iordDirect w a 0 = .iord w a := by
  have hzero : a + 0 = a := BitVec.add_zero a
  rw [iordDirect, hzero, if_pos h]

theorem iowrDirect_aligned {w : Width} {a : Ptr} (h : w.Aligned a) (d : BitVec 32) :
    iowrDirect w a 0 d = .iowr w a (d.toNat % 2 ^ w.bits) := by
  have hzero : a + 0 = a := BitVec.add_zero a
  rw [iowrDirect, hzero, if_pos h]

theorem accesses_append (a b : List Effect) : accesses (a ++ b) = accesses a ++ accesses b :=
  List.filter_append a b

theorem accesses_fillFrom (data : BitVec 32 → BitVec 32) (addr size i : BitVec 32) :
    accesses (fillFrom data addr size i) = fillFrom data addr size i := by
  induction i using fillFrom.induct size with
  | case1 i h ih =>
    have hwrite : accesses [iowrDirect .w8 addr i (data i)] = [iowrDirect .w8 addr i (data i)] := by
      unfold iowrDirect
      split_ifs <;> rfl
    rw [fillFrom, if_pos h]
    exact (accesses_append [_] _).trans (by rw [hwrite, ih]; rfl)
  | case2 i h =>
    rw [fillFrom, if_neg h]
    rfl

/-- The handler of a request makes its accesses. -/
theorem accesses_run (halign : r.Aligned) (hrest : Arguments r.radices r.args rest) :
    accesses (r.func.run pf rest).2 = r.accesses := by
  cases r with
  | mr w a =>
    have hscan : sscanf rest [.d, .space, .lx] = (2, [BitVec.ofNat 32 w.bits, a]) :=
      sscanf_arguments hrest
    simp only [Request.func, Func.run, cmdMemRead, hscan, widthOf_bits, List.getD_cons_zero,
      List.getD_cons_succ, iordDirect_aligned halign, Int.lt_irrefl, if_false]
    rfl
  | mw w a d =>
    have hscan : sscanf rest [.d, .space, .lx, .space, .lx] = (3, [BitVec.ofNat 32 w.bits, a, d]) :=
      sscanf_arguments hrest
    simp only [Request.func, Func.run, cmdMemWrite, hscan, widthOf_bits, List.getD_cons_zero,
      List.getD_cons_succ, iowrDirect_aligned halign, Int.lt_irrefl, if_false]
    rfl
  | mf fixed d a n =>
    have hscan : sscanf rest [.d, .space, .lx, .space, .lx, .space, .lx] =
        (4, [if fixed then 1 else 0, d, a, n]) := sscanf_arguments hrest
    cases fixed with
    | false =>
      have hfill := accesses_fillFrom (fun i => d + i) a n 0
      simpa [Request.func, Func.run, cmdMemFill, hscan, accesses, Effect.isAccess, Request.accesses,
        fillIncrement] using hfill
    | true =>
      have hfill := accesses_fillFrom (fun _ => d) a n 0
      simpa [Request.func, Func.run, cmdMemFill, hscan, accesses, Effect.isAccess, Request.accesses,
        fillFixed] using hfill

/-! ### Dispatch -/

/-- Every request is an entry of the table. -/
theorem Request.exists_command (r : Request) :
    ∃ c ∈ commands, c.name = r.name ∧ c.func = r.func := by
  cases r with
  | mr w a =>
    show ∃ c ∈ commands, c.name = ascii ['m', 'r'] ∧ c.func = .cmdMemRead
    decide +kernel
  | mw w a d =>
    show ∃ c ∈ commands, c.name = ascii ['m', 'w'] ∧ c.func = .cmdMemWrite
    decide +kernel
  | mf fixed d a n =>
    show ∃ c ∈ commands, c.name = ascii ['m', 'f'] ∧ c.func = .cmdMemFill
    decide +kernel

theorem Request.func_ne_exit (r : Request) : r.func ≠ .cmdExit := by
  cases r <;> simp [Request.func]

/-- The name of a request is an `m` and a letter that is neither `m` nor `x`. -/
theorem Request.name_eq (r : Request) : ∃ b : Byte, r.name = [0x6d, b] ∧ b ≠ 0x6d ∧ b ≠ 0x78 := by
  cases r with
  | mr w a => exact ⟨0x72, rfl, by decide, by decide⟩
  | mw w a d => exact ⟨0x77, rfl, by decide, by decide⟩
  | mf fixed d a n => exact ⟨0x66, rfl, by decide, by decide⟩

/-- Every name of the table starts with an `m` or has an `x`. -/
theorem names_start : ∀ c ∈ commands, c.name.head? = some 0x6d ∨ 0x78 ∈ c.name := by decide +kernel

/-- No name but that of the request occurs in its text. -/
theorem Request.occursAtStart (h : r.Writes text) : OccursAtStart text := by
  obtain ⟨rest, rfl, hrest⟩ := h
  obtain ⟨b, hname, hbm, hbx⟩ := r.name_eq
  have hno : ∀ x : Byte, x = 0x6d ∨ x = 0x78 → x ∉ rest := by
    intro x hx hmem
    have hbyte := hrest.mem x hmem
    rcases hx with rfl | rfl
    · exact absurd hbyte (by decide)
    · exact absurd hbyte (by decide)
  intro c hc hocc
  rcases names_start c hc with hm | hx
  · -- The `m` of the name is the first byte of the text, as there is no other one.
    obtain ⟨tail, htail⟩ := List.head?_eq_some_iff.mp hm
    rw [htail, hname, List.cons_append, List.infix_cons_iff] at hocc
    rcases hocc with hbegins | hinfix
    · rw [htail, hname]
      exact hbegins
    · have hmem := hinfix.subset List.mem_cons_self
      rcases List.mem_append.mp hmem with h | h
      · exact absurd (List.mem_singleton.mp h).symm hbm
      · exact absurd h (hno _ (.inl rfl))
  · -- An `x` is neither a letter of a request's name nor a digit.
    have hmem := hocc.subset hx
    rw [hname] at hmem
    rcases List.mem_append.mp hmem with h | h
    · rcases List.mem_cons.mp h with h | h
      · exact absurd h (by decide)
      · exact absurd (List.mem_singleton.mp h).symm hbx
    · exact absurd h (hno _ (.inr rfl))

/-- The loop over the table makes the accesses of a request. -/
theorem executeFrom_request (pf : Platform) (hline : Holds m p (text ++ [0]))
    (hzero : ∀ b ∈ text, b ≠ 0) (hlen : text.length < 2 ^ 32) (h : r.Writes text)
    (halign : r.Aligned) :
    (executeFrom pf m p 0 commands).1 = 0 ∧
      accesses (executeFrom pf m p 0 commands).2 = r.accesses := by
  have hcstr : cstr m p = text := cstr_eq hline hzero hlen
  have hstart := Request.occursAtStart h
  obtain ⟨c, hc, hname, hfunc⟩ := r.exists_command
  obtain ⟨rest, rfl, hrest⟩ := h
  have hbegins : c.name <+: r.name ++ rest := hname ▸ List.prefix_append _ _
  have hoptions : cstr m (c.options p) = rest := by
    rw [List.append_assoc, holds_append, ← hname] at hline
    rw [List.length_append] at hlen
    exact cstr_eq hline.2 (fun b hb => hzero b (List.mem_append_right _ hb)) (by omega)
  rw [← hcstr] at hstart hbegins
  rw [executeFrom_of_occursAtStart hstart hc hbegins (hfunc ▸ r.func_ne_exit), hoptions, hfunc]
  exact ⟨rfl, accesses_run halign hrest⟩

/-! ### Reading and editing -/

/-- The bytes of a line that the program sees. -/
def beforeNul (raw : List Byte) : List Byte := raw.takeWhile (· ≠ 0)

theorem ne_zero_of_mem_beforeNul {raw : List Byte} : ∀ b ∈ beforeNul raw, b ≠ 0 := by
  intro b hb
  have hb := List.mem_takeWhile_imp hb
  exact of_decide_eq_true hb

theorem length_beforeNul_le (raw : List Byte) : (beforeNul raw).length ≤ raw.length :=
  (List.takeWhile_prefix _).length_le

theorem keep_newline (kept : List Byte) : keep kept newline = kept := by
  have hprint : ¬IsPrintable newline := by decide
  have hback : newline ≠ 0x08 := by decide
  rw [keep, if_neg hprint, if_neg hback]

/-- The newline at the end of a line is dropped. -/
theorem edit_newline (raw : List Byte) :
    edit (beforeNul (raw ++ [newline])) = edit (beforeNul raw) := by
  rw [beforeNul, List.takeWhile_append]
  split_ifs with h
  · have hraw : beforeNul raw = raw := (List.takeWhile_prefix _).eq_of_length h
    rw [hraw, List.takeWhile_cons_of_pos (by decide), List.takeWhile_nil, edit, List.foldl_append]
    exact keep_newline _
  · rfl

variable {inputStr : CArray 128} {raw : List Byte}

/-- What is read leaves its edited text in `input_str`, up to its first NUL. -/
theorem cmdExecute_bytes {stdin bytes rest : List Byte} (hread : readLine 127 stdin = (bytes, rest))
    (hne : bytes ≠ []) (o : Outcome) (ho : o = cmdExecute pf m inputStr stdin) :
    Holds o.mem inputStr.addr (edit (beforeNul bytes) ++ [0]) ∧ o.stdin = rest := by
  have hbytes : bytes.length ≤ 127 := by
    have hle := length_readLine_le 127 stdin
    rwa [hread] at hle
  have hfgets : fgets m inputStr.addr 128 stdin = (store m inputStr.addr (bytes ++ [0]), rest) := by
    simp only [fgets, hread, if_neg hne]
  have hline := length_beforeNul_le bytes
  have hfits := inputStr.fits
  have hholds : Holds (store m inputStr.addr (bytes ++ [0])) inputStr.addr
      (beforeNul bytes ++ [0]) := by
    refine (holds_store ?_).takeWhile
    rw [List.length_append, List.length_singleton]
    omega
  have hstrlen : strlen (store m inputStr.addr (bytes ++ [0])) inputStr.addr =
      (beforeNul bytes).length :=
    congrArg List.length (cstr_eq hholds ne_zero_of_mem_beforeNul (by omega))
  have hedit := removeNonascii_eq pf inputStr.addr_ne_zero hholds ne_zero_of_mem_beforeNul
    (by omega) (by omega)
  subst ho
  simp only [cmdExecute, hfgets, hstrlen]
  exact ⟨hedit, trivial⟩

/-- A line that fits leaves its edited text in `input_str`, and the lines after it in the stream. -/
theorem cmdExecute_line (hlen : raw.length ≤ 126) (hnewline : newline ∉ raw) (o : Outcome)
    (ho : o = cmdExecute pf m inputStr (raw ++ newline :: rest)) :
    Holds o.mem inputStr.addr (edit (beforeNul raw) ++ [0]) ∧ o.stdin = rest := by
  have hne : raw ++ [newline] ≠ [] := List.append_ne_nil_of_right_ne_nil _ (List.cons_ne_nil _ _)
  have hbytes := cmdExecute_bytes (readLine_eq hnewline (Nat.lt_succ_of_le hlen)) hne o ho
  rwa [edit_newline] at hbytes

/-- **A command line from end to end**: a line whose edited text writes a request makes the accesses
of the request and no other, and takes that line alone from the stream. -/
theorem cmdExecute_request (pf : Platform) (m : Mem) (inputStr : CArray 128) (raw rest : List Byte)
    (r : Request) (hlen : raw.length ≤ 126) (hnewline : newline ∉ raw)
    (htext : r.Writes (edit (beforeNul raw))) (halign : r.Aligned) :
    (cmdExecute pf m inputStr (raw ++ newline :: rest)).result = 0 ∧
      accesses (cmdExecute pf m inputStr (raw ++ newline :: rest)).effects = r.accesses ∧
      (cmdExecute pf m inputStr (raw ++ newline :: rest)).stdin = rest := by
  generalize ho : cmdExecute pf m inputStr (raw ++ newline :: rest) = o
  obtain ⟨hholds, hstdin⟩ := cmdExecute_line hlen hnewline o ho.symm
  obtain ⟨hresult, heffects⟩ := cmdExecute_eq o ho.symm
  have hedit : (edit (beforeNul raw)).length < 2 ^ 32 := by
    have hkept := length_foldl_keep_le [] (beforeNul raw)
    have hraw := length_beforeNul_le raw
    rw [List.length_nil, Nat.zero_add] at hkept
    rw [edit]
    omega
  have hrequest := executeFrom_request pf hholds
    (fun b hb => (edit_printable _ b hb).ne_zero) hedit htext halign
  rw [hresult, heffects, accesses_append]
  exact ⟨hrequest.1, hrequest.2, hstdin⟩

/-- A write with a letter that is taken back and a tab that is dropped. -/
def typedLine : List Byte := ascii "mr\x08w 32  20\t00 dEADbeef".toList

theorem typedLine_edit :
    (Request.mw .w32 0x2000 0xdeadbeef).Writes (edit (beforeNul typedLine)) := by
  refine ⟨[0x20] ++ (ascii ['3', '2'] ++ ([0x20, 0x20] ++ (ascii ['2', '0', '0', '0'] ++
    ([0x20] ++ (ascii ['d', 'E', 'A', 'D', 'b', 'e', 'e', 'f'] ++ []))))), by decide +kernel, ?_⟩
  refine .cons (by decide) (by decide) ?_ (.cons (by decide) (by decide) ?_
    (.cons (by decide) (by decide) ?_ .nil))
  · exact ⟨⟨by decide, by decide, by decide⟩, by decide⟩
  · exact ⟨by decide, by decide, by decide⟩
  · exact ⟨by decide, by decide, by decide⟩

theorem cmdExecute_typedLine :
    (cmdExecute ⟨true, fun _ _ => 0⟩ (fun _ => 0) stackBuffer
        (typedLine ++ newline :: ascii ['m', 'r'])).result = 0 ∧
      accesses (cmdExecute ⟨true, fun _ _ => 0⟩ (fun _ => 0) stackBuffer
        (typedLine ++ newline :: ascii ['m', 'r'])).effects = [.iowr .w32 0x2000 0xdeadbeef] ∧
      (cmdExecute ⟨true, fun _ _ => 0⟩ (fun _ => 0) stackBuffer
        (typedLine ++ newline :: ascii ['m', 'r'])).stdin = ascii ['m', 'r'] :=
  cmdExecute_request ⟨true, fun _ _ => 0⟩ (fun _ => 0) stackBuffer typedLine (ascii ['m', 'r'])
    (.mw .w32 0x2000 0xdeadbeef) (by decide) (by decide) typedLine_edit (by decide)

/-- A read with a NUL in its address. -/
def nulLine : List Byte := ascii ['m', 'r', ' ', '8', ' ', '1'] ++ 0 :: ascii ['0']

/-- The line ends at the NUL: without it the text would be a read at `0x10`. -/
theorem nulLine_truncated :
    nulLine.length ≤ 126 ∧ newline ∉ nulLine ∧ (Request.mr .w8 0x10).Aligned ∧
      (Request.mr .w8 0x10).Writes (edit nulLine) ∧
      accesses (cmdExecute ⟨true, fun _ _ => 0⟩ (fun _ => 0) stackBuffer
        (nulLine ++ [newline])).effects = [.iord .w8 0x1] ∧
      accesses (cmdExecute ⟨true, fun _ _ => 0⟩ (fun _ => 0) stackBuffer
        (nulLine ++ [newline])).effects ≠ (Request.mr .w8 0x10).accesses := by
  have hrun : accesses (cmdExecute ⟨true, fun _ _ => 0⟩ (fun _ => 0) stackBuffer
      (nulLine ++ [newline])).effects = [.iord .w8 0x1] := by decide +kernel
  refine ⟨by decide, by decide, by decide, ?_, hrun, ?_⟩
  · refine ⟨[0x20] ++ (ascii ['8'] ++ ([0x20] ++ (ascii ['1', '0'] ++ []))), by decide, ?_⟩
    refine .cons (by decide) (by decide) ?_ (.cons (by decide) (by decide) ?_ .nil)
    · exact ⟨⟨by decide, by decide, by decide⟩, by decide⟩
    · exact ⟨by decide, by decide, by decide⟩
  · rw [hrun]
    decide

end Ptmch.Cmd
