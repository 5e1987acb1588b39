import Mathlib.Data.Nat.Notation
import Ptmch.Machine.Run

/-!
# The module `ptmch_trg`

The registers, wires and `always_ff` blocks of `ptmch_trg.sv`, one definition for each, under the
source's names.  A run is a list of `Event`s: an edge of `SPI_CLK` (with the bit on `SPI_MOSI`), an
edge of `CLK160M`, or a change of the level of `SPI_CS` or `RESET_N`.  At a clock edge every
register of that clock loads a function of the values before the edge; `clear` then applies the
asynchronous resets, since an edge of `CLK160M` may itself make `c_spi_reset_n` fall.

`SPI_CLK` and `CLK160M` are asynchronous.  In runs of `Event`s their edges never coincide.
`TornEvent`s add edges that do: both sides then load from the values before them, and the `CLK160M`
side has a value of its own for every bit of `sr_inst_cnt` and `sr_inst_sht` that it reads while the
`SPI_CLK` side changes it.
-/

namespace Ptmch

open Machine

/-! ### State -/

/-- `p_pageprogram` -/
def pPageprogram : BitVec 8 := 0x02

/-- `p_writeenable` -/
def pWriteenable : BitVec 8 := 0x06

/-- The input levels `RESET_N` and `SPI_CS`, and the registers in the order of their declaration. -/
structure Trg where
  resetN : Bool
  spiCs : Bool
  srInstSht : BitVec 8
  srInstCnt : BitVec 4
  arInstCnt1d : BitVec 4
  srInstCnt2d : BitVec 4
  srInstCnt3d : BitVec 4
  srInstCnt4d : BitVec 4
  arInstChk : BitVec 8
  srInstChk1d : BitVec 8
  srInstChk2d : BitVec 8
  srInstChk3d : BitVec 8
  arInstMchSft1 : Bool
  srInstMchSft2 : Bool
  srPlsCnt : BitVec 4
  arSpiCs1d : Bool
  srSpiCs2d : Bool
  srCsSync : Bool
  srCsSyncSft1 : Bool
  srCsSyncSft2 : Bool
  deriving DecidableEq, Repr

namespace Trg

inductive Event where
  /-- a rising edge of `SPI_CLK`, with the bit on `SPI_MOSI` -/
  | spiClk (mosi : Bool)
  /-- a rising edge of `CLK160M` -/
  | clk160m
  /-- `SPI_CS` takes this level -/
  | spiCs (level : Bool)
  /-- `RESET_N` takes this level -/
  | resetN (level : Bool)
  deriving DecidableEq, Repr

/-! ### Wires -/

/-- pattern match check -/
def cInstMch (s : Trg) : Bool :=
  if s.srInstChk3d = pPageprogram then true
  else if s.srInstChk3d = pWriteenable then true
  else false

/-- TRG PLS time expander -/
def nTrgPls (s : Trg) : Bool :=
  match s.srPlsCnt.toNat with
  | 0 => true
  | 1 => true
  | 2 => true
  | 3 => true
  | 4 => true
  | 5 => true
  | 6 => true
  | 7 => true
  | 8 => true
  | 9 => true
  | 10 => true
  | 11 => true
  | 12 => true
  | 13 => true
  | 14 => true
  | 15 => false
  | _ => false

def cInstEdge (s : Trg) : Bool := s.cInstMch && !s.srInstMchSft2

def cCsEdge (s : Trg) : Bool := !s.srCsSync && s.srCsSyncSft2

def cSpiResetN (s : Trg) : Bool := !s.cCsEdge && s.resetN

/-- `TRG_PLS` Output sel -/
def trgPls (s : Trg) : Fin 2 → Bool
  | 0 => if s.srInstChk3d = pPageprogram then s.nTrgPls else false
  | 1 => if s.srInstChk3d = pWriteenable then s.nTrgPls else false

/-! ### Asynchronous resets -/

/-- The registers cleared by `negedge RESET_N`. -/
def negedgeResetN (s : Trg) : Trg :=
  if s.resetN then s
  else
    { s with
      arInstChk := 0x0
      srPlsCnt := 0b1111
      arSpiCs1d := false
      srSpiCs2d := false
      srCsSync := false
      srCsSyncSft1 := false
      srCsSyncSft2 := false }

/-- The registers cleared by `negedge c_spi_reset_n`. -/
def negedgeSpiResetN (s : Trg) : Trg :=
  if s.cSpiResetN then s
  else
    { s with
      srInstSht := 0x0
      srInstCnt := 0x0
      arInstCnt1d := 0x0
      srInstCnt2d := 0x0
      srInstCnt3d := 0x0
      srInstCnt4d := 0x0
      srInstChk1d := 0x0
      srInstChk2d := 0x0
      srInstChk3d := 0x0
      arInstMchSft1 := false
      srInstMchSft2 := false }

/-- The asynchronous resets, after the levels and registers have taken new values. -/
def clear (s : Trg) : Trg := s.negedgeResetN.negedgeSpiResetN

/-! ### Clock edges -/

/-- What an `always_ff` block loads at its clock edge: the reset value while its reset is low. -/
def ff {α : Type} (rstN : Bool) (init d : α) : α := if rstN then d else init

/-- CS Shift Register -/
def srInstShtNext (s : Trg) (mosi : Bool) : BitVec 8 :=
  if s.srInstCnt = 0x8 then s.srInstSht
  else s.srInstSht.extractLsb' 0 7 ++ BitVec.ofBool mosi

/-- Instraction COUNTER -/
def srInstCntNext (s : Trg) : BitVec 4 :=
  if s.srInstCnt = 0x8 then s.srInstCnt else s.srInstCnt + 1

/-- The registers clocked by `SPI_CLK`. -/
def posedgeSpiClk (s : Trg) (mosi : Bool) : Trg :=
  { s with
    srInstSht := ff s.cSpiResetN 0x0 (s.srInstShtNext mosi)
    srInstCnt := ff s.cSpiResetN 0x0 s.srInstCntNext }

/-- Instraction COUNTER 4d: two equal samples -/
def srInstCnt4dNext (s : Trg) : BitVec 4 :=
  if s.srInstCnt2d = s.srInstCnt3d then s.srInstCnt3d else s.srInstCnt4d

/-- Instraction chk(async), reading `cnt` and `sht` from the `SPI_CLK` side -/
def arInstChkNext (s : Trg) (cnt : BitVec 4) (sht : BitVec 8) : BitVec 8 :=
  if cnt = 0b1000 then sht else s.arInstChk

/-- Instraction chk(3d): two equal samples -/
def srInstChk3dNext (s : Trg) : BitVec 8 :=
  if s.srInstChk1d = s.srInstChk2d then s.srInstChk2d else s.srInstChk3d

/-- TRG PLS COUNTER -/
def srPlsCntNext (s : Trg) : BitVec 4 :=
  if s.cInstEdge = true then 0
  else if s.srPlsCnt = 0b1111 then s.srPlsCnt
  else s.srPlsCnt + 1

/-- The registers clocked by `CLK160M`, reading `cnt` and `sht` from the `SPI_CLK` side. -/
def posedgeClk160m (s : Trg) (cnt : BitVec 4) (sht : BitVec 8) : Trg :=
  { s with
    arInstCnt1d := ff s.cSpiResetN 0x0 cnt
    srInstCnt2d := ff s.cSpiResetN 0x0 s.arInstCnt1d
    srInstCnt3d := ff s.cSpiResetN 0x0 s.srInstCnt2d
    srInstCnt4d := ff s.cSpiResetN 0x0 s.srInstCnt4dNext
    arInstChk := ff s.resetN 0x0 (s.arInstChkNext cnt sht)
    srInstChk1d := ff s.cSpiResetN 0x0 s.arInstChk
    srInstChk2d := ff s.cSpiResetN 0x0 s.srInstChk1d
    srInstChk3d := ff s.cSpiResetN 0x0 s.srInstChk3dNext
    arInstMchSft1 := ff s.cSpiResetN false s.cInstMch
    srInstMchSft2 := ff s.cSpiResetN false s.arInstMchSft1
    srPlsCnt := ff s.resetN 0b1111 s.srPlsCntNext
    arSpiCs1d := ff s.resetN false s.spiCs
    srSpiCs2d := ff s.resetN false s.arSpiCs1d
    srCsSync := ff s.resetN false s.srSpiCs2d
    srCsSyncSft1 := ff s.resetN false s.srCsSync
    srCsSyncSft2 := ff s.resetN false s.srCsSyncSft1 }

/-! ### Steps -/

/-- One event, before the asynchronous resets. -/
def edge (s : Trg) : Event → Trg
  | .spiClk mosi => s.posedgeSpiClk mosi
  | .clk160m => s.posedgeClk160m s.srInstCnt s.srInstSht
  | .spiCs level => { s with spiCs := level }
  | .resetN level => { s with resetN := level }

/-- One event. -/
def step (s : Trg) (e : Event) : Trg := (s.edge e).clear

/-! ### Coinciding edges -/

/-- A bus that is read while it changes from `old` to `new`: the bits of `sel` are read new, the
others old. -/
def torn {w : ℕ} (sel old new : BitVec w) : BitVec w := (old &&& ~~~sel) ||| (new &&& sel)

inductive TornEvent where
  | single (e : Event)
  /-- an edge of `SPI_CLK` and one of `CLK160M` at once: `cntSel` and `shtSel` are the bits of
  `sr_inst_cnt` and `sr_inst_sht` which the `CLK160M` side reads new -/
  | both (mosi : Bool) (cntSel : BitVec 4) (shtSel : BitVec 8)
  deriving DecidableEq, Repr

/-- The bit on `SPI_MOSI`, if the event is an edge of `SPI_CLK`. -/
def TornEvent.mosi? : TornEvent → Option Bool
  | .single (.spiClk mosi) => some mosi
  | .single _ => none
  | .both mosi _ _ => some mosi

/-- Both clock edges at once: each side loads from the values before, the `CLK160M` side reading
torn values of `sr_inst_cnt` and `sr_inst_sht`. -/
def posedgeBoth (s : Trg) (mosi : Bool) (cntSel : BitVec 4) (shtSel : BitVec 8) : Trg :=
  let spi := s.posedgeSpiClk mosi
  { s.posedgeClk160m (torn cntSel s.srInstCnt spi.srInstCnt)
      (torn shtSel s.srInstSht spi.srInstSht) with
    srInstSht := spi.srInstSht
    srInstCnt := spi.srInstCnt }

/-- One event of the extended model. -/
def stepTorn (s : Trg) : TornEvent → Trg
  | .single e => s.step e
  | .both mosi cntSel shtSel => (s.posedgeBoth mosi cntSel shtSel).clear

/-! ### Reset -/

/-- All registers at their reset values. -/
def reset (resetN spiCs : Bool) : Trg where
  resetN := resetN
  spiCs := spiCs
  srInstSht := 0x0
  srInstCnt := 0x0
  arInstCnt1d := 0x0
  srInstCnt2d := 0x0
  srInstCnt3d := 0x0
  srInstCnt4d := 0x0
  arInstChk := 0x0
  srInstChk1d := 0x0
  srInstChk2d := 0x0
  srInstChk3d := 0x0
  arInstMchSft1 := false
  srInstMchSft2 := false
  srPlsCnt := 0b1111
  arSpiCs1d := false
  srSpiCs2d := false
  srCsSync := false
  srCsSyncSft1 := false
  srCsSyncSft2 := false

/-- `RESET_N` has just been released with `SPI_CS` high. -/
def start : Trg := reset true true

/-- The level which `SPI_CS` has after an event. -/
def csAfter (cs : Bool) : Event → Bool
  | .spiCs level => level
  | _ => cs

end Trg

end Ptmch
