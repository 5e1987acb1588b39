import Ptmch.JtagUart.Driver

/-!
# The program on the JTAG UART

The loop of `main`, which answers each `p` with a line, over `stdin` and `stdout` on the JTAG UART.
`alt_getchar` and `alt_putstr` are `getchar` and `fputs`.  The streams keep bytes in their order in
buffers: `getchar` calls `read` for as many bytes as it likes when its buffer is empty, and `write`
is called for as many bytes of the other buffer as the library likes, when it likes.
-/

namespace Ptmch.JtagUart

open CLib

/-- `"mokemokemomomo!!!\n"` -/
def productName : List Byte := ascii "mokemokemomomo!!!\n".toList

/-- `EOF` as a `char` -/
def eof : Byte := 0xff

/-- What a turn of the loop puts out. -/
def respond (onechar : Byte) : List Byte := if onechar = 0x70 then productName else []

inductive Phase
  /-- outside the driver -/
  | run
  /-- in a call of `read` -/
  | fill
  /-- in a call of `write` -/
  | flush
  deriving DecidableEq, Repr

structure Prog where
  sys : Sys
  phase : Phase
  /-- the characters that `getchar` has returned -/
  consumed : List Byte
  /-- the buffer of `stdin` -/
  stdin : List Byte
  /-- the buffer of `stdout` -/
  stdout : List Byte

inductive Act
  /-- the driver, the peripheral and the host -/
  | sys (e : Sys.Event)
  /-- a turn of the loop with a character from the buffer -/
  | getchar
  /-- `stdin` calls `read` -/
  | fill (size : ℕ)
  /-- `read` has returned -/
  | filled
  /-- `stdout` calls `write` -/
  | flush (count : ℕ)
  /-- `write` has returned -/
  | flushed
  deriving DecidableEq, Repr

namespace Prog

/-- `alt_sys_init` comes before `main`. -/
def start : Prog := ⟨Sys.start false, .run, [], [], []⟩

/-- The program is outside the driver and takes the next step. -/
def Runs (p : Prog) : Prop := p.sys.isr = none ∧ p.sys.main = .idle

instance (p : Prog) : Decidable p.Runs := inferInstanceAs (Decidable (_ ∧ _))

def getchar (p : Prog) : Prog :=
  match p.stdin with
  | [] => p
  | onechar :: rest =>
    { p with
      consumed := p.consumed ++ [onechar]
      stdin := rest
      stdout := p.stdout ++ respond onechar }

/-- Nothing read is the end of the file. -/
def filled (p : Prog) (r : Return) : Prog :=
  { p with
    phase := .run
    stdin := r.bytes
    stdout := p.stdout ++ if r.value ≤ 0 then respond eof else [] }

def flushed (p : Prog) (r : Return) : Prog :=
  { p with
    phase := .run
    stdout := p.stdout.drop r.value.toNat }

def step (p : Prog) : Act → Prog
  | .sys (.call _) => p
  | .sys e => { p with sys := p.sys.step e }
  | .getchar => if p.Runs ∧ p.phase = .run then p.getchar else p
  | .fill size =>
    if p.Runs ∧ p.phase = .run ∧ p.stdin = [] ∧ 0 < size then
      { p with sys := p.sys.step (.call (.read size false)), phase := .fill }
    else p
  | .filled =>
    if p.Runs ∧ p.phase = .fill then p.sys.returns.getLast?.elim p p.filled else p
  | .flush count =>
    if p.Runs ∧ p.phase = .run ∧ 0 < count ∧ count ≤ p.stdout.length then
      { p with sys := p.sys.step (.call (.write (p.stdout.take count) false)), phase := .flush }
    else p
  | .flushed =>
    if p.Runs ∧ p.phase = .flush then p.sys.returns.getLast?.elim p p.flushed else p

end Prog

end Ptmch.JtagUart
