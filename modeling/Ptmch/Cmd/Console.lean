import Mathlib.Data.Nat.Digits.Defs
import Ptmch.CLib.Printf
import Ptmch.Cmd.Equiv.Fill

/-!
# The tool on its console

`cmd_execute` called again and again, with memory on the bus, a terminal that types into `stdin` and
shows what is written to `stdout`.  The processor and the bus are little-endian.  Accesses that are
not aligned, and the functions of `sample_memdmp_`, which is not there to be read, are left out:
nothing is shown about lines that lead to one.
-/

namespace Ptmch.Cmd

open CLib

/-! ### The terminal -/

/-- The text of an argument of `printf` for a conversion. -/
def PrintArg.convert (c : Conversion) (letter : Char) : PrintArg → List Byte
  | .str text => if letter = 's' then c.pad false text else []
  | .num value => if letter = 'x' then c.pad true (hexText value.toNat) else []

/-- What an effect writes to `stdout`. -/
def Effect.stdout : Effect → List Byte
  | .printf text args => format PrintArg.convert text.toList args
  | _ => []

/-- What these effects write to `stdout`. -/
def stdoutOf (effects : List Effect) : List Byte := effects.flatMap Effect.stdout

/-! ### The bus -/

/-- The value that is read from memory. -/
def Width.value (w : Width) (m : Mem) (addr : Ptr) : ℕ :=
  Nat.ofDigits 256 ((List.range (w.bits / 8)).map fun i => (m (addr + BitVec.ofNat 32 i)).toNat)

/-- The program as it is compiled, with this memory on the bus.  A handler reads at most once, and
the handlers that write come after that in the table, so the memory that a read finds is that at
the start of the call. -/
def Platform.onBus (charSigned : Bool) (ram : Mem) : Platform :=
  ⟨charSigned, fun w addr => BitVec.ofNat 32 (w.value ram addr)⟩

/-! ### Calls -/

structure Console where
  /-- the memory on the bus -/
  ram : Mem
  /-- what has been typed and not been read -/
  stdin : List Byte
  /-- what has been written -/
  stdout : List Byte

/-- One call of `cmd_execute`, whose array `input_str` is found in the memory `stack`. -/
def Console.call (charSigned : Bool) (inputStr : CArray 128) (c : Console) (stack : Mem) :
    Console :=
  let o := cmdExecute (.onBus charSigned c.ram) stack inputStr c.stdin
  { ram := memAfter c.ram o.effects
    stdin := o.stdin
    stdout := c.stdout ++ stdoutOf o.effects }

end Ptmch.Cmd
