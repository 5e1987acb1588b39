import Ptmch.CLib.Stdio

/-!
# The command loop of the MAX10 tool

`cmd.c`: one call of `cmd_execute` reads a line into `input_str`, edits it in place, and calls the
handlers of the `commands` table whose names occur in it.  A handler parses its options and reads or
writes the bus.  What a call does outside its own buffer is the list of its effects, in order; the
bus accesses are taken not to reach `input_str` nor the variables of the handlers.
-/

namespace Ptmch.Cmd

open CLib

/-! ### Effects -/

/-- The width of a bus access. -/
inductive Width
  | w8
  | w16
  | w32
  deriving Repr, DecidableEq

def Width.bits : Width → ℕ
  | w8 => 8
  | w16 => 16
  | w32 => 32

/-- The address is a multiple of the width. -/
def Width.Aligned (w : Width) (addr : Ptr) : Prop := addr.toNat % (w.bits / 8) = 0

instance (w : Width) : DecidablePred w.Aligned := fun addr =>
  inferInstanceAs (Decidable (addr.toNat % (w.bits / 8) = 0))

/-- The functions of the `commands` table. -/
inductive Func
  | cmdMenu
  | cmdMemRead
  | cmdMemWrite
  | cmdMemDump
  | cmdMemFill
  | cmdExit
  deriving Repr, DecidableEq

/-- An argument of `printf`. -/
inductive PrintArg
  | str (text : List Byte)
  | num (value : BitVec 32)
  deriving Repr, DecidableEq

inductive Effect
  | printf (format : String) (args : List PrintArg)
  | fflush
  | call (func : Func) (options : Ptr)
  | iord (w : Width) (addr : Ptr)
  | iowr (w : Width) (addr : Ptr) (value : ℕ)
  /-- An access whose address is not aligned, which the processor leaves undefined. -/
  | misaligned (w : Width) (addr : Ptr)
  /-- A call of a function of `sample_memdmp_`, of which there is only a prototype. -/
  | memdmp (w : Width) (start : Ptr) (size : BitVec 32)
  deriving Repr, DecidableEq

/-- Whether this is an access to the bus, or a call that makes some. -/
def Effect.isAccess : Effect → Bool
  | iord .. | iowr .. | misaligned .. | memdmp .. => true
  | printf .. | fflush | call .. => false

def accesses (effects : List Effect) : List Effect := effects.filter Effect.isAccess

/-- The functions that were called, each with its options. -/
def calls (effects : List Effect) : List (Func × Ptr) := effects.filterMap fun
  | .call func options => some (func, options)
  | _ => none

/-- What the program is compiled for, and what the bus returns to a read in this call. -/
structure Platform where
  charSigned : Bool
  readValue : Width → Ptr → BitVec 32

def Platform.char (pf : Platform) (b : Byte) : ℤ := if pf.charSigned then b.toInt else b.toNat

/-! ### `io.h` -/

def iordDirect (w : Width) (base : Ptr) (offset : BitVec 32) : Effect :=
  if w.Aligned (base + offset) then .iord w (base + offset) else .misaligned w (base + offset)

def iowrDirect (w : Width) (base : Ptr) (offset data : BitVec 32) : Effect :=
  if w.Aligned (base + offset) then .iowr w (base + offset) (data.toNat % 2 ^ w.bits)
  else .misaligned w (base + offset)

/-- What `IORD_8DIRECT` and its siblings return: the value read, zero-extended. -/
def Platform.readData (pf : Platform) (w : Width) (addr : Ptr) : BitVec 32 :=
  BitVec.ofNat 32 ((pf.readValue w addr).toNat % 2 ^ w.bits)

/-! ### The table -/

structure Command where
  name : List Byte
  usage : List Byte
  func : Func
  deriving Repr, DecidableEq

/-- `input_str + strlen(name)`, the pointer that is passed to the handler. -/
def Command.options (c : Command) (inputStr : Ptr) : Ptr :=
  inputStr + BitVec.ofNat 32 c.name.length

/-- The entries of the table, up to the one whose name is a null pointer. -/
def commands : List Command :=
  [ ⟨ascii ['m', 'e', 'n', 'u'], ascii "Print of menu".toList, .cmdMenu⟩,
    ⟨ascii ['m', 'r'], ascii "mr <type:8/16/32> <addr(HEX)> ".toList, .cmdMemRead⟩,
    ⟨ascii ['m', 'w'], ascii "mw <type:8/16/32> <addr(HEX)> <data(HEX)>".toList, .cmdMemWrite⟩,
    ⟨ascii ['m', 'd'], ascii "md <type:8/16/32> <addr(HEX)> <size(HEX)>".toList, .cmdMemDump⟩,
    ⟨ascii ['m', 'f'],
      ascii "mf <type(0:inc/1:fixed> <data(HEX)> <addr(HEX)> <size(HEX)>".toList, .cmdMemFill⟩,
    ⟨ascii ['e', 'x', 'i', 't'], ascii "Exit".toList, .cmdExit⟩ ]

/-! ### Handlers -/

/-- A handler returns a value, after its effects. -/
abbrev Handler := Platform → List Byte → ℤ × List Effect

def cmdMenu : Handler := fun _ _ =>
  (0, (commands.map fun c => .printf " %-10s:\t%s\n" [.str c.name, .str c.usage]) ++
    [.printf " * Note: HEX Value does not need 0x \n" []])

def cmdExit : Handler := fun _ _ => (1, [])

/-- The cases of `switch(type)`. -/
def widthOf (type : BitVec 32) : Option Width :=
  if type = 8 then some .w8
  else if type = 16 then some .w16
  else if type = 32 then some .w32
  else none

def readFormat : Width → String
  | .w8 => "read_data = %02lx \n"
  | .w16 => "read_data = %04lx \n"
  | .w32 => "read_data = %08lx \n"

def cmdMemRead : Handler := fun pf options =>
  let (count, args) := sscanf options [.d, .space, .lx]
  let type := args.getD 0 0
  let addr := args.getD 1 0
  (0, .printf "mem_read \n" [] ::
    if count < 2 then [.printf "arg error \n" []]
    else match widthOf type with
      | some w => [iordDirect w addr 0, .printf (readFormat w) [.num (pf.readData w addr)]]
      | none => [.printf "Specified type is not supported \n" []])

def cmdMemWrite : Handler := fun _ options =>
  let (count, args) := sscanf options [.d, .space, .lx, .space, .lx]
  let type := args.getD 0 0
  let addr := args.getD 1 0
  let data := args.getD 2 0
  (0, .printf "mem_write \n" [] ::
    if count < 3 then [.printf "arg error \n" []]
    else match widthOf type with
      | some w => [iowrDirect w addr 0 data]
      | none => [.printf "Specified type is not supported \n" []])

def cmdMemDump : Handler := fun _ options =>
  let (count, args) := sscanf options [.d, .space, .lx, .space, .lx]
  let type := args.getD 0 0
  let addr := args.getD 1 0
  let size := args.getD 2 0
  (0, .printf "mem_dump \n" [] ::
    if count < 3 then [.printf "arg error \n" []]
    else .printf "base_addr = %08lx \n" [.num addr] :: match widthOf type with
      | some w => [.memdmp w addr size]
      | none => [.printf "Specified type is not supported \n" []])

/-- The loops of `cmd_mem_fill` where the counter is `i`, which wraps, and which the comparison with
`size` makes unsigned. -/
def fillFrom (data : BitVec 32 → BitVec 32) (addr size i : BitVec 32) : List Effect :=
  if i < size then iowrDirect .w8 addr i (data i) :: fillFrom data addr size (i + 1) else []
termination_by size.toNat - i.toNat
decreasing_by
  rename_i h
  have hlt : i.toNat < size.toNat := h
  have hsize := size.isLt
  have hnext : (i + 1).toNat = i.toNat + 1 :=
    Nat.mod_eq_of_lt (Nat.lt_of_le_of_lt hlt hsize)
  omega

def fillIncrement (data addr size : BitVec 32) : List Effect :=
  fillFrom (fun i => data + i) addr size 0

def fillFixed (data addr size : BitVec 32) : List Effect := fillFrom (fun _ => data) addr size 0

def cmdMemFill : Handler := fun _ options =>
  let (count, args) := sscanf options [.d, .space, .lx, .space, .lx, .space, .lx]
  let type := args.getD 0 0
  let data := args.getD 1 0
  let addr := args.getD 2 0
  let size := args.getD 3 0
  (0, .printf "mem_fill \n" [] ::
    if count < 4 then [.printf "arg error \n" []]
    else if type = 0 then
      .printf " Fill incremental data from addr:0x%08x (size:0x%x) data_start:0x%02x  \n"
        [.num addr, .num size, .num data] :: fillIncrement data addr size
    else if type = 1 then
      .printf " Fill fixed data from addr:0x%08x (size:0x%x) data:0x%02x  \n"
        [.num addr, .num size, .num data] :: fillFixed data addr size
    else
      [.printf " Specified type is not supported \n" [],
        .printf " type: 0:increment / 1: fixed \n" []])

def Func.run : Func → Handler
  | cmdMenu => Cmd.cmdMenu
  | cmdMemRead => Cmd.cmdMemRead
  | cmdMemWrite => Cmd.cmdMemWrite
  | cmdMemDump => Cmd.cmdMemDump
  | cmdMemFill => Cmd.cmdMemFill
  | cmdExit => Cmd.cmdExit

/-! ### Editing -/

/-- The loop of `remove_nonascii`, with the number of turns that are left. -/
def removeFrom (pf : Platform) (targetStr : Ptr) : ℕ → Mem → Ptr → Ptr → Mem × Ptr
  | 0, m, _, removedP => (m, removedP)
  | n + 1, m, currentP, removedP =>
    if m currentP = 0 then (m, removedP)
    else if pf.char (m currentP) < 0x20 ∨ 0x7e < pf.char (m currentP) then
      if m currentP = 0x08 then
        removeFrom pf targetStr n m (currentP + 1)
          (if removedP - 1 < targetStr then targetStr else removedP - 1)
      else removeFrom pf targetStr n m (currentP + 1) removedP
    else
      removeFrom pf targetStr n (Function.update m removedP (m currentP)) (currentP + 1)
        (removedP + 1)

/-- Memory after `remove_nonascii`.  The size is an `int`. -/
def removeNonascii (pf : Platform) (m : Mem) (targetStr : Ptr) (sizeofStr : BitVec 32) : Mem :=
  let loop := removeFrom pf targetStr sizeofStr.toInt.toNat m targetStr targetStr
  Function.update loop.1 loop.2 0

/-- An access of `remove_nonascii` to memory. -/
inductive MemAccess
  | read (addr : Ptr)
  | write (addr : Ptr) (value : Byte)
  deriving Repr, DecidableEq

def MemAccess.apply (m : Mem) : MemAccess → Mem
  | read _ => m
  | write addr value => Function.update m addr value

/-- The accesses of `removeFrom` and of the assignment after the loop, in order.  The reads of
`*current_p` in one turn count as one: the turn writes after the last of them. -/
def removeTraceFrom (pf : Platform) (targetStr : Ptr) : ℕ → Mem → Ptr → Ptr → List MemAccess
  | 0, _, _, removedP => [.write removedP 0]
  | n + 1, m, currentP, removedP =>
    .read currentP ::
      if m currentP = 0 then [.write removedP 0]
      else if pf.char (m currentP) < 0x20 ∨ 0x7e < pf.char (m currentP) then
        if m currentP = 0x08 then
          removeTraceFrom pf targetStr n m (currentP + 1)
            (if removedP - 1 < targetStr then targetStr else removedP - 1)
        else removeTraceFrom pf targetStr n m (currentP + 1) removedP
      else
        .write removedP (m currentP) ::
          removeTraceFrom pf targetStr n (Function.update m removedP (m currentP)) (currentP + 1)
            (removedP + 1)

/-- The accesses of `remove_nonascii`. -/
def removeTrace (pf : Platform) (m : Mem) (targetStr : Ptr) (sizeofStr : BitVec 32) :
    List MemAccess :=
  removeTraceFrom pf targetStr sizeofStr.toInt.toNat m targetStr targetStr

/-! ### `cmd_execute` -/

/-- The loop over the table: `result`, and the effects. -/
def executeFrom (pf : Platform) (m : Mem) (inputStr : Ptr) (result : ℤ) :
    List Command → ℤ × List Effect
  | [] => (result, [])
  | c :: cs =>
    if strstr (cstr m inputStr) c.name ≠ none then
      let (result, effects) := c.func.run pf (cstr m (c.options inputStr))
      let effects := .call c.func (c.options inputStr) :: effects
      if result ≠ 0 then (result, effects ++ [.printf "Exit loop \n" []])
      else
        let (result, rest) := executeFrom pf m inputStr result cs
        (result, effects ++ rest)
    else executeFrom pf m inputStr result cs

/-- What a call leaves behind. -/
structure Outcome where
  result : ℤ
  effects : List Effect
  mem : Mem
  stdin : List Byte

/-- The text in `input_str`, which is searched for the names. -/
def Outcome.line (o : Outcome) (inputStr : CArray 128) : List Byte := cstr o.mem inputStr.addr

/-- One call of `cmd_execute`, with `input_str` in this array and `stdin` ahead. -/
def cmdExecute (pf : Platform) (m : Mem) (inputStr : CArray 128) (stdin : List Byte) : Outcome :=
  let p := inputStr.addr
  let read := fgets m p 128 stdin
  let mem := removeNonascii pf read.1 p (BitVec.ofNat 32 (strlen read.1 p))
  let loop := executeFrom pf mem p 0 commands
  { result := loop.1
    effects := [.printf "\n" [], .printf "Command: " [], .fflush,
      .printf "%s\n" [.str (cstr mem p)], .fflush] ++ loop.2
    mem
    stdin := read.2 }

end Ptmch.Cmd
