import Ptmch.CLib.CString
import Ptmch.Machine.Run

/-!
# The JTAG UART

The peripheral `nios2_system_jtag_uart`, clock by clock, under the source's names: the registers and
wires of its `always` blocks and `assign`s.  Each of its two FIFOs is an `scfifo`, here the list of
its bytes; the host is what `alt_jtag_atlantic` does on the other side of them.

An access of the processor lasts two clocks: `av_waitrequest` is high in the first, and in the
second the data is taken.  `Line` records beside the peripheral the bytes that have passed the
FIFOs.
-/

namespace Ptmch.JtagUart

open CLib

abbrev Word := BitVec 32

/-- The depth of both FIFOs. -/
def fifoDepth : ℕ := 64

/-! ### Signals -/

/-- What `alt_jtag_atlantic` drives in a clock. -/
structure Host where
  /-- it takes a byte -/
  rEna : Bool
  /-- it sends `tDat` -/
  tEna : Bool
  tDat : Byte
  tPause : Bool
  deriving DecidableEq, Repr

/-- What the bus drives in a clock. -/
structure Bus where
  chipselect : Bool
  address : Bool
  readN : Bool
  writeN : Bool
  writedata : Word
  deriving DecidableEq, Repr

namespace Bus

def idle : Bus := ⟨false, false, true, true, 0⟩

def read (address : Bool) : Bus := ⟨true, address, false, true, 0⟩

def write (address : Bool) (writedata : Word) : Bus := ⟨true, address, true, false, writedata⟩

end Bus

/-- The registers, and the bytes in the FIFOs, the next one first. -/
structure Uart where
  rfifo : List Byte
  wfifo : List Byte
  /-- the output of the receive FIFO -/
  fifoRdata : Byte
  /-- the output of the transmit FIFO -/
  rDat : Byte
  rVal : Bool
  tDav : Bool
  pauseIrq : Bool
  fifoAE : Bool
  fifoAF : Bool
  fifoWr : Bool
  rvalid : Bool
  read0 : Bool
  ienAE : Bool
  ienAF : Bool
  ac : Bool
  woverflow : Bool
  avWaitrequest : Bool
  deriving DecidableEq, Repr

namespace Uart

/-- The registers while `rst_n` is low. -/
def reset : Uart where
  rfifo := []
  wfifo := []
  fifoRdata := 0
  rDat := 0
  rVal := false
  tDav := true
  pauseIrq := false
  fifoAE := false
  fifoAF := false
  fifoWr := false
  rvalid := false
  read0 := false
  ienAE := false
  ienAF := false
  ac := false
  woverflow := false
  avWaitrequest := true

/-! ### Wires -/

def fifoEF (s : Uart) : Bool := s.rfifo.isEmpty

def rfifoFull (s : Uart) : Bool := s.rfifo.length = fifoDepth

/-- `{rfifo_full, rfifo_used}` -/
def rfifoUsed (s : Uart) : BitVec 7 := BitVec.ofBool s.rfifoFull ++ BitVec.ofNat 6 s.rfifo.length

def wfifoEmpty (s : Uart) : Bool := s.wfifo.isEmpty

def fifoFF (s : Uart) : Bool := s.wfifo.length = fifoDepth

/-- `{fifo_FF, wfifo_used}` -/
def wfifoUsed (s : Uart) : BitVec 7 := BitVec.ofBool s.fifoFF ++ BitVec.ofNat 6 s.wfifo.length

def rdWfifo (s : Uart) (h : Host) : Bool := h.rEna && !s.wfifoEmpty

def wrRfifo (s : Uart) (h : Host) : Bool := h.tEna && !s.rfifoFull

def ipenAE (s : Uart) : Bool := s.ienAE && s.fifoAE

def ipenAF (s : Uart) : Bool := s.ienAF && (s.pauseIrq || s.fifoAF)

def avIrq (s : Uart) : Bool := s.ipenAE || s.ipenAF

def activity (h : Host) : Bool := h.tPause || h.tEna

def fifoRd (s : Uart) (b : Bus) : Bool :=
  if b.chipselect && !b.readN && s.avWaitrequest && !b.address then !s.fifoEF else false

/-- Bits 15 to 8 of both registers. -/
def flags (s : Uart) : BitVec 8 :=
  BitVec.ofBool s.rvalid ++ BitVec.ofBool s.woverflow ++ BitVec.ofBool (!s.fifoFF) ++
    BitVec.ofBool (!s.fifoEF) ++ 0#1 ++ BitVec.ofBool s.ac ++ BitVec.ofBool s.ipenAE ++
    BitVec.ofBool s.ipenAF

def avReaddata (s : Uart) : Word :=
  if s.read0 then 0#9 ++ s.rfifoUsed ++ s.flags ++ s.fifoRdata
  else
    0#9 ++ (0x40#7 - s.wfifoUsed) ++ s.flags ++
      (0#6 ++ BitVec.ofBool s.ienAE ++ BitVec.ofBool s.ienAF)

/-! ### A clock -/

/-- `posedge clk` -/
def clk (s : Uart) (b : Bus) (h : Host) : Uart :=
  let write := b.chipselect && !b.writeN && s.avWaitrequest
  let read := b.chipselect && !b.readN && s.avWaitrequest
  { rfifo := (if s.fifoRd b then s.rfifo.tail else s.rfifo) ++
      if s.wrRfifo h then [h.tDat] else []
    wfifo := (if s.rdWfifo h then s.wfifo.tail else s.wfifo) ++
      if s.fifoWr then [b.writedata.setWidth 8] else []
    fifoRdata := if s.fifoRd b then s.rfifo.headD s.fifoRdata else s.fifoRdata
    rDat := if s.rdWfifo h then s.wfifo.headD s.rDat else s.rDat
    rVal := h.rEna && !s.wfifoEmpty
    tDav := !s.rfifoFull
    pauseIrq :=
      if h.tPause && !s.fifoEF then true
      else if s.read0 then false
      else s.pauseIrq
    fifoAE := s.wfifoUsed.toNat ≤ 8
    fifoAF := (0x40#7 - s.rfifoUsed).toNat ≤ 8
    fifoWr := if write && !b.address then !s.fifoFF else false
    rvalid := if read && !b.address then !s.fifoEF else s.rvalid
    read0 := if read then !b.address else false
    ienAE := if write && b.address then b.writedata.getLsbD 1 else s.ienAE
    ienAF := if write && b.address then b.writedata.getLsbD 0 else s.ienAF
    ac :=
      if write && b.address && b.writedata.getLsbD 10 && !activity h then false
      else if activity h then true
      else s.ac
    woverflow := if write && !b.address then s.fifoFF else s.woverflow
    avWaitrequest := !(b.chipselect && (!b.writeN || !b.readN) && s.avWaitrequest) }

end Uart

/-! ### The line -/

/-- The peripheral and what has passed its FIFOs. -/
structure Line where
  uart : Uart
  /-- the bytes that the receive FIFO has taken from the host -/
  sent : List Byte
  /-- the bytes that the host has been given -/
  received : List Byte
  deriving DecidableEq, Repr

namespace Line

def reset : Line := ⟨Uart.reset, [], []⟩

def clk (l : Line) (b : Bus) (h : Host) : Line where
  uart := l.uart.clk b h
  sent := l.sent ++ if l.uart.wrRfifo h then [h.tDat] else []
  received := l.received ++ if l.uart.rVal then [l.uart.rDat] else []

/-- A clock without an access. -/
def tick (l : Line) (h : Host) : Line := l.clk Bus.idle h

/-- `IORD` of the register at `address`: the data is taken in the second clock. -/
def iord (l : Line) (address : Bool) (h₁ h₂ : Host) : Word × Line :=
  let l₁ := l.clk (Bus.read address) h₁
  (l₁.uart.avReaddata, l₁.clk (Bus.read address) h₂)

/-- `IOWR` -/
def iowr (l : Line) (address : Bool) (data : Word) (h₁ h₂ : Host) : Line :=
  (l.clk (Bus.write address data) h₁).clk (Bus.write address data) h₂

end Line

end Ptmch.JtagUart
