import Ptmch.JtagUart.Device

/-!
# The driver of the JTAG UART

`altera_avalon_jtag_uart_read`, `_write` and `_close` with the interrupt routine and the routine of
the alarm, without an operating system.  A program counter stands before each access to a variable
that the other side changes and before each access to the peripheral, so that the interrupt routine
comes between any two of them and the host does what it likes meanwhile.

The processor runs the interrupt routine to its end before the program goes on.  An assignment to
`irq_enable` and the write of the control register after it are one step, as interrupts are disabled
around them.
-/

namespace Ptmch.JtagUart

open CLib

/-! ### Constants -/

/-- `ALTERA_AVALON_JTAG_UART_BUF_LEN` -/
def bufLen : ℕ := 2048

def intMax : ℕ := 2 ^ 31 - 1

/-- `ALTERA_AVALON_JTAG_UART_DEFAULT_TIMEOUT` -/
def defaultTimeout : ℕ := 10

def ewouldblock : ℤ := 11

def eio : ℤ := 5

def dataRvalidMsk : Word := 0x00008000

def dataRavailMsk : Word := 0xffff0000

def dataDataMsk : Word := 0x000000ff

def controlReMsk : Word := 0x00000001

def controlWeMsk : Word := 0x00000002

def controlRiMsk : Word := 0x00000100

def controlWiMsk : Word := 0x00000200

def controlAcMsk : Word := 0x00000400

def controlWspaceMsk : Word := 0xffff0000

/-! ### State -/

/-- `altera_avalon_jtag_uart_state` -/
structure State where
  timeout : ℕ
  irqEnable : Word
  hostInactive : ℕ
  rxIn : ℕ
  rxOut : ℕ
  txIn : ℕ
  txOut : ℕ
  rxBuf : ℕ → Byte
  txBuf : ℕ → Byte

/-- Before the driver is initialized. -/
def State.init : State := ⟨defaultTimeout, 0, 0, 0, 0, 0, 0, fun _ => 0, fun _ => 0⟩

/-- Where `altera_avalon_jtag_uart_read` is. -/
inductive ReadPc
  /-- at `while (space > 0)` -/
  | outer
  /-- at `in = sp->rx_in` -/
  | loadIn
  /-- at `out = sp->rx_out`, and the length of the piece -/
  | loadOut
  /-- in `memcpy` -/
  | copy
  /-- at `sp->rx_out = ...` -/
  | advance
  /-- after the `do` loop -/
  | check
  /-- the two conditions of the waiting loop -/
  | spinIn
  | spinHost
  /-- at `if (in == sp->rx_in)` -/
  | recheck
  /-- after the loop -/
  | finish
  deriving DecidableEq, Repr

/-- The arguments and variables of `altera_avalon_jtag_uart_read`. -/
structure ReadCall where
  size : ℕ
  nonblock : Bool
  space : ℕ
  /-- the bytes before `ptr` -/
  buffer : List Byte
  inp : ℕ
  out : ℕ
  n : ℕ
  /-- what `memcpy` has copied -/
  copied : List Byte
  deriving DecidableEq, Repr

/-- Where `altera_avalon_jtag_uart_write` is. -/
inductive WritePc
  /-- at `while (count > 0)` -/
  | inner
  /-- at `in = sp->tx_in` -/
  | loadIn
  /-- at `out = sp->tx_out`, and the length of the piece -/
  | loadOut
  /-- in `memcpy` -/
  | copy
  /-- at `sp->tx_in = ...` -/
  | advance
  /-- with interrupts disabled -/
  | enable
  /-- at `if (count > 0)` after it -/
  | check
  /-- the two conditions of the waiting loop -/
  | spinOut
  | spinHost
  /-- at `if (sp->host_inactive)` -/
  | hostCheck
  deriving DecidableEq, Repr

/-- The arguments and variables of `altera_avalon_jtag_uart_write`. -/
structure WriteCall where
  data : List Byte
  nonblock : Bool
  /-- `ptr - start` -/
  written : ℕ
  inp : ℕ
  out : ℕ
  n : ℕ
  /-- what `memcpy` has copied -/
  copied : ℕ
  deriving DecidableEq, Repr

/-- `count` -/
def WriteCall.count (c : WriteCall) : ℕ := c.data.length - c.written

inductive Main
  /-- before `altera_avalon_jtag_uart_init` -/
  | boot
  /-- outside the driver -/
  | idle
  | read (pc : ReadPc) (call : ReadCall)
  | write (pc : WritePc) (call : WriteCall)
  /-- at the two conditions of the loop of `altera_avalon_jtag_uart_close` -/
  | close (nonblock : Bool)
  | closeHost (nonblock : Bool)
  deriving DecidableEq, Repr

/-- Where the interrupt routine is, with what it has read from the peripheral. -/
inductive Isr
  /-- at the top of its loop -/
  | control
  /-- at the top of the loop that receives -/
  | rx (control data : Word)
  /-- after it -/
  | rxEnd (control data : Word)
  /-- before the dummy read -/
  | rxDummy (control : Word)
  /-- at the condition of the part that transmits -/
  | tx (control : Word)
  /-- at the top of the loop that transmits -/
  | txLoop (space : ℕ)
  | txDummy
  deriving DecidableEq, Repr

/-- A call that has returned; the third argument of `read` is what it has put in the buffer. -/
inductive Return
  | read (size : ℕ) (nonblock : Bool) (bytes : List Byte) (value : ℤ)
  | write (data : List Byte) (nonblock : Bool) (value : ℤ)
  | close (nonblock : Bool) (value : ℤ)
  deriving DecidableEq, Repr

namespace Return

/-- The bytes that a call has read. -/
def bytes : Return → List Byte
  | .read _ _ bytes _ => bytes
  | _ => []

/-- The result of the function. -/
def value : Return → ℤ
  | .read _ _ _ value => value
  | .write _ _ value => value
  | .close _ value => value

end Return

structure Sys where
  line : Line
  state : State
  main : Main
  /-- the interrupt routine, if it is running -/
  isr : Option Isr
  /-- `alt_alarm_start` succeeds, as it does if the system has a clock -/
  sysClk : Bool
  /-- the calls so far, the latest one last -/
  returns : List Return

namespace Sys

/-- After the reset. -/
def start (sysClk : Bool) : Sys where
  line := Line.reset
  state := State.init
  main := .boot
  isr := none
  sysClk := sysClk
  returns := []

/-- An assignment to `irq_enable` and the write of the control register. -/
def setIrqEnable (y : Sys) (irqEnable : Word) (h₁ h₂ : Host) : Sys :=
  { y with
    state := { y.state with irqEnable := irqEnable }
    line := y.line.iowr true irqEnable h₁ h₂ }

/-! ### `altera_avalon_jtag_uart_init` -/

def boot (y : Sys) (h₁ h₂ : Host) : Sys :=
  let y := y.setIrqEnable controlReMsk h₁ h₂
  { y with
    state := { y.state with
      hostInactive := 0
      timeout := if y.sysClk then y.state.timeout else intMax }
    main := .idle }

/-! ### `altera_avalon_jtag_uart_read` -/

def readReturn (y : Sys) (c : ReadCall) : Sys :=
  { y with
    main := .idle
    returns := y.returns ++ [.read c.size c.nonblock c.buffer
      (if c.buffer ≠ [] then c.buffer.length else if c.nonblock then -ewouldblock else -eio)] }

def readStep (y : Sys) (c : ReadCall) (h₁ h₂ : Host) : ReadPc → Sys
  | .outer => { y with main := .read (if 0 < c.space then .loadIn else .finish) c }
  | .loadIn => { y with main := .read .loadOut { c with inp := y.state.rxIn } }
  | .loadOut =>
    let out := y.state.rxOut
    let n := if out ≤ c.inp then c.inp - out else bufLen - out
    if n = 0 then { y with main := .read .check { c with out := out, n := n } }
    else
      let n := if c.space < n then c.space else n
      { y with main := .read .copy { c with out := out, n := n, copied := [] } }
  | .copy =>
    if c.copied.length < c.n then
      { y with
        main := .read .copy
          { c with copied := c.copied ++ [y.state.rxBuf (c.out + c.copied.length)] } }
    else { y with main := .read .advance c }
  | .advance =>
    let c' := { c with buffer := c.buffer ++ c.copied, space := c.space - c.n, copied := [] }
    { y with
      state := { y.state with rxOut := (c.out + c.n) % bufLen }
      main := .read (if 0 < c'.space then .loadIn else .check) c' }
  | .check =>
    { y with main := .read (if c.buffer ≠ [] ∨ c.nonblock then .finish else .spinIn) c }
  | .spinIn =>
    { y with main := .read (if c.inp = y.state.rxIn then .spinHost else .recheck) c }
  | .spinHost =>
    { y with
      main := .read
        (if y.state.hostInactive < y.state.timeout then .spinIn else .recheck) c }
  | .recheck => { y with main := .read (if c.inp = y.state.rxIn then .finish else .outer) c }
  | .finish =>
    if c.buffer ≠ [] then
      (y.setIrqEnable (y.state.irqEnable ||| controlReMsk) h₁ h₂).readReturn c
    else y.readReturn c

/-! ### `altera_avalon_jtag_uart_write` -/

def writeReturn (y : Sys) (c : WriteCall) : Sys :=
  { y with
    main := .idle
    returns := y.returns ++ [.write c.data c.nonblock
      (if c.written ≠ 0 then c.written else if c.nonblock then -ewouldblock else -eio)] }

def writeStep (y : Sys) (c : WriteCall) (h₁ h₂ : Host) : WritePc → Sys
  | .inner => { y with main := .write (if 0 < c.count then .loadIn else .enable) c }
  | .loadIn => { y with main := .write .loadOut { c with inp := y.state.txIn } }
  | .loadOut =>
    let out := y.state.txOut
    let n :=
      if c.inp < out then out - 1 - c.inp
      else if 0 < out then bufLen - c.inp
      else bufLen - 1 - c.inp
    if n = 0 then { y with main := .write .enable { c with out := out, n := n } }
    else
      let n := if c.count < n then c.count else n
      { y with main := .write .copy { c with out := out, n := n, copied := 0 } }
  | .copy =>
    if c.copied < c.n then
      { y with
        state := { y.state with
          txBuf := Function.update y.state.txBuf (c.inp + c.copied)
            (c.data.getD (c.written + c.copied) 0) }
        main := .write .copy { c with copied := c.copied + 1 } }
    else { y with main := .write .advance c }
  | .advance =>
    { y with
      state := { y.state with txIn := (c.inp + c.n) % bufLen }
      main := .write .inner { c with written := c.written + c.n } }
  | .enable =>
    { y.setIrqEnable (y.state.irqEnable ||| controlWeMsk) h₁ h₂ with main := .write .check c }
  | .check =>
    if 0 < c.count ∧ c.nonblock = false then { y with main := .write .spinOut c }
    else y.writeReturn c
  | .spinOut =>
    { y with main := .write (if c.out = y.state.txOut then .spinHost else .hostCheck) c }
  | .spinHost =>
    { y with
      main := .write
        (if y.state.hostInactive < y.state.timeout then .spinOut else .hostCheck) c }
  | .hostCheck =>
    if y.state.hostInactive ≠ 0 then y.writeReturn c
    else { y with main := .write .inner c }

/-! ### `altera_avalon_jtag_uart_close` -/

def closeReturn (y : Sys) (nonblock : Bool) (value : ℤ) : Sys :=
  { y with main := .idle, returns := y.returns ++ [.close nonblock value] }

def closeStep (y : Sys) (nonblock : Bool) : Sys :=
  if y.state.txOut ≠ y.state.txIn then { y with main := .closeHost nonblock }
  else y.closeReturn nonblock 0

def closeHostStep (y : Sys) (nonblock : Bool) : Sys :=
  if y.state.hostInactive < y.state.timeout then
    if nonblock then y.closeReturn nonblock (-ewouldblock)
    else { y with main := .close nonblock }
  else y.closeReturn nonblock 0

/-- One step of the program. -/
def mainStep (y : Sys) (h₁ h₂ : Host) : Sys :=
  match y.main with
  | .boot => y.boot h₁ h₂
  | .idle => y
  | .read pc c => y.readStep c h₁ h₂ pc
  | .write pc c => y.writeStep c h₁ h₂ pc
  | .close nonblock => y.closeStep nonblock
  | .closeHost nonblock => y.closeHostStep nonblock

/-! ### `altera_avalon_jtag_uart_irq` -/

def isrStep (y : Sys) (h₁ h₂ : Host) : Isr → Sys
  | .control =>
    let (control, line) := y.line.iord true h₁ h₂
    { y with
      line := line
      isr :=
        if control &&& (controlRiMsk ||| controlWiMsk) = 0 then none
        else if control &&& controlRiMsk ≠ 0 then some (.rx control (1 <<< 16))
        else some (.tx control) }
  | .rx control data =>
    let next := (y.state.rxIn + 1) % bufLen
    if next = y.state.rxOut then { y with isr := some (.rxEnd control data) }
    else
      let (data, line) := y.line.iord false h₁ h₂
      if data &&& dataRvalidMsk = 0 then
        { y with line := line, isr := some (.rxEnd control data) }
      else
        { y with
          line := line
          state := { y.state with
            rxBuf := Function.update y.state.rxBuf y.state.rxIn
              ((data &&& dataDataMsk).setWidth 8)
            rxIn := next }
          isr := some (.rx control data) }
  | .rxEnd control data =>
    if data &&& dataRavailMsk ≠ 0 then
      { y.setIrqEnable (y.state.irqEnable &&& ~~~controlReMsk) h₁ h₂ with
        isr := some (.rxDummy control) }
    else { y with isr := some (.tx control) }
  | .rxDummy control =>
    { y with line := (y.line.iord true h₁ h₂).2, isr := some (.tx control) }
  | .tx control =>
    if control &&& controlWiMsk ≠ 0 then
      { y with isr := some (.txLoop ((control &&& controlWspaceMsk) >>> 16).toNat) }
    else { y with isr := some .control }
  | .txLoop space =>
    if 0 < space ∧ y.state.txOut ≠ y.state.txIn then
      { y with
        line := y.line.iowr false ((y.state.txBuf y.state.txOut).setWidth 32) h₁ h₂
        state := { y.state with txOut := (y.state.txOut + 1) % bufLen }
        isr := some (.txLoop (space - 1)) }
    else if 0 < space then
      { y.setIrqEnable (y.state.irqEnable &&& ~~~controlWeMsk) h₁ h₂ with isr := some .txDummy }
    else { y with isr := some .control }
  | .txDummy => { y with line := (y.line.iord true h₁ h₂).2, isr := some .control }

/-! ### `altera_avalon_jtag_uart_timeout` -/

def timeoutStep (y : Sys) (h₁ h₂ h₃ h₄ : Host) : Sys :=
  let (control, line) := y.line.iord true h₁ h₂
  if control &&& controlAcMsk ≠ 0 then
    { y with
      line := line.iowr true (y.state.irqEnable ||| controlAcMsk) h₃ h₄
      state := { y.state with hostInactive := 0 } }
  else if y.state.hostInactive < intMax - 2 then
    { y with
      line := line
      state := { y.state with hostInactive := y.state.hostInactive + 1 } }
  else { y with line := line }

/-! ### Steps -/

/-- A call of the driver. -/
inductive Call
  | read (size : ℕ) (nonblock : Bool)
  | write (data : List Byte) (nonblock : Bool)
  | close (nonblock : Bool)
  deriving DecidableEq, Repr

def Call.main : Call → Main
  | .read size nonblock => .read .outer ⟨size, nonblock, size, [], 0, 0, 0, []⟩
  | .write data nonblock => .write .inner ⟨data, nonblock, 0, 0, 0, 0, 0⟩
  | .close nonblock => .close nonblock

inductive Event
  /-- a clock in which the processor does not access the peripheral -/
  | tick (h : Host)
  /-- the processor takes a step, with the host in the clocks of its access -/
  | cpu (h₁ h₂ : Host)
  /-- the processor takes the interrupt, if there is one -/
  | irq
  /-- the alarm goes off, if there is one -/
  | alarm (h₁ h₂ h₃ h₄ : Host)
  /-- the program calls the driver -/
  | call (c : Call)
  deriving DecidableEq, Repr

def step (y : Sys) : Event → Sys
  | .tick h => { y with line := y.line.tick h }
  | .cpu h₁ h₂ =>
    match y.isr with
    | some pc => y.isrStep h₁ h₂ pc
    | none => y.mainStep h₁ h₂
  | .irq =>
    if y.isr = none ∧ y.main ≠ .boot ∧ y.line.uart.avIrq = true then
      { y with isr := some .control }
    else y
  | .alarm h₁ h₂ h₃ h₄ =>
    if y.isr = none ∧ y.main ≠ .boot ∧ y.sysClk = true then y.timeoutStep h₁ h₂ h₃ h₄ else y
  | .call c => if y.isr = none ∧ y.main = .idle then { y with main := c.main } else y

end Sys

end Ptmch.JtagUart
