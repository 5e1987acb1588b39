import Ptmch.Machine.Run

/-!
# The clock crosser

The handshake by which the interconnect takes the accesses of the processor into the clock domain of
the PLL's registers, and the answers back: `altera_std_synchronizer_nocut`,
`altera_avalon_st_clock_crosser` and `altera_avalon_st_handshake_clock_crosser`, without the output
stage that the interconnect does not ask for.

The edges of the two clocks come in any order.  Where two of them coincide, a bit that one side
changes is read old or new by the other side, and a word that changes is read as anything.
-/

namespace Ptmch.ClockCrosser

/-! ### Synchronizers -/

/-- `altera_std_synchronizer_nocut`, whose `depth` is at least two. -/
structure Synchronizer where
  dinS1 : Bool
  /-- from its bit 0 on -/
  dreg : List Bool
  ne_nil : dreg ≠ []

namespace Synchronizer

variable (s : Synchronizer)

/-- After a reset, of the depth `n + 2`. -/
def reset (n : ℕ) : Synchronizer := ⟨false, List.replicate (n + 1) false, List.cons_ne_nil _ _⟩

def dout : Bool := s.dreg.getLast s.ne_nil

/-- All registers, in the order in which a bit goes through them. -/
def stages : List Bool := s.dinS1 :: s.dreg

theorem dropLast_ne_nil : s.stages.dropLast ≠ [] := by
  unfold stages
  rw [List.dropLast_cons_of_ne_nil s.ne_nil]
  exact List.cons_ne_nil _ _

def posedge (din : Bool) : Synchronizer := ⟨din, s.stages.dropLast, s.dropLast_ne_nil⟩

end Synchronizer

/-! ### The crosser -/

/-- The registers of `altera_avalon_st_clock_crosser`. -/
structure Crosser (α : Type*) where
  inDataBuffer : α
  outDataBuffer : α
  inDataToggle : Bool
  outDataToggleFlopped : Bool
  inToOut : Synchronizer
  outToIn : Synchronizer

inductive Event (α : Type*)
  /-- a rising edge of `in_clk` -/
  | inClk (inValid : Bool) (inData : α)
  /-- a rising edge of `out_clk` -/
  | outClk (outReady : Bool)
  /-- both at once: `toggleNew` and `floppedNew` tell whether the toggle of the other side is read
  new, and `seen` is what `out_clk` reads of `in_data_buffer` if it changes -/
  | both (inValid : Bool) (inData : α) (outReady toggleNew floppedNew : Bool) (seen : α)

namespace Crosser

variable {α : Type*} (x : Crosser α)

/-- After a reset, with synchronizers of the depths `n + 2` and `m + 2`. -/
def reset (zero : α) (n m : ℕ) : Crosser α := ⟨zero, zero, false, false, .reset n, .reset m⟩

def inReady : Bool := !(x.outToIn.dout ^^ x.inDataToggle)

def takeInData (inValid : Bool) : Bool := inValid && x.inReady

def outValid : Bool := x.inToOut.dout ^^ x.outDataToggleFlopped

def outDataTaken (outReady : Bool) : Bool := outReady && x.outValid

/-- The registers clocked by `in_clk`, which reads `flopped` from the other side. -/
def posedgeIn (inValid : Bool) (inData : α) (flopped : Bool) : Crosser α :=
  { x with
    inDataBuffer := if x.takeInData inValid then inData else x.inDataBuffer
    inDataToggle := if x.takeInData inValid then !x.inDataToggle else x.inDataToggle
    outToIn := x.outToIn.posedge flopped }

/-- The registers clocked by `out_clk`, which reads `toggle` and `buffer` from the other side. -/
def posedgeOut (outReady toggle : Bool) (buffer : α) : Crosser α :=
  { x with
    outDataBuffer := buffer
    outDataToggleFlopped :=
      if x.outDataTaken outReady then x.inToOut.dout else x.outDataToggleFlopped
    inToOut := x.inToOut.posedge toggle }

def step (x : Crosser α) : Event α → Crosser α
  | .inClk inValid inData => x.posedgeIn inValid inData x.outDataToggleFlopped
  | .outClk outReady => x.posedgeOut outReady x.inDataToggle x.inDataBuffer
  | .both inValid inData outReady toggleNew floppedNew seen =>
    let taken := x.posedgeIn inValid inData x.outDataToggleFlopped
    let given := x.posedgeOut outReady x.inDataToggle x.inDataBuffer
    let flopped := if floppedNew then given.outDataToggleFlopped else x.outDataToggleFlopped
    let toggle := if toggleNew then taken.inDataToggle else x.inDataToggle
    -- the bits of a word that changes meanwhile may be read in any mixture, or as neither
    let buffer := if x.takeInData inValid then seen else x.inDataBuffer
    { x.posedgeIn inValid inData flopped with
      outDataBuffer := buffer
      outDataToggleFlopped := given.outDataToggleFlopped
      inToOut := x.inToOut.posedge toggle }

end Crosser

/-! ### The traffic -/

namespace Event

variable {α β : Type*}

/-- What the sender offers at this edge of `in_clk`. -/
def offer : Event α → Option α
  | .inClk inValid inData | .both inValid inData .. => if inValid then some inData else none
  | .outClk _ => none

/-- The receiver is ready at this edge, if it is one of `out_clk`. -/
def outReady : Event α → Bool
  | .outClk outReady | .both _ _ outReady .. => outReady
  | .inClk .. => false

def map (f : α → β) : Event α → Event β
  | .inClk inValid inData => .inClk inValid (f inData)
  | .outClk outReady => .outClk outReady
  | .both inValid inData outReady toggleNew floppedNew seen =>
    .both inValid (f inData) outReady toggleNew floppedNew (f seen)

end Event

namespace Crosser

variable {α : Type*} (x : Crosser α) (e : Event α)

/-- The word that the crosser takes from the sender at this event. -/
def accepted : Option α := if x.inReady then e.offer else none

/-- The word that the crosser gives to the receiver at this event. -/
def delivered : Option α := if x.outDataTaken e.outReady then some x.outDataBuffer else none

end Crosser

/-! ### Beats -/

/-- The signals of a beat, but for `empty` and `error`, which the interconnect does not use. -/
structure Beat (dataWidth channelWidth : ℕ) where
  data : BitVec dataWidth
  startofpacket : Bool
  endofpacket : Bool
  channel : BitVec channelWidth
  deriving DecidableEq, Repr

namespace Beat

variable {w c : ℕ}

/-- `in_payload` -/
def payload (b : Beat w c) : BitVec (c + (1 + (1 + w))) :=
  b.channel ++ (BitVec.ofBool b.startofpacket ++ (BitVec.ofBool b.endofpacket ++ b.data))

/-- `out_payload`, split into the output signals. -/
def ofPayload (p : BitVec (c + (1 + (1 + w)))) : Beat w c where
  data := p.extractLsb' 0 w
  startofpacket := p.getLsbD (w + 1)
  endofpacket := p.getLsbD w
  channel := p.extractLsb' (w + 2) c

end Beat

/-! ### The handshake crosser -/

namespace Handshake

variable {w c : ℕ} (x : Crosser (BitVec (c + (1 + (1 + w))))) (e : Event (Beat w c))

/-- `altera_avalon_st_handshake_clock_crosser` around its `clock_xer`. -/
def step : Crosser (BitVec (c + (1 + (1 + w)))) := x.step (e.map Beat.payload)

/-- The beat on the output signals, which counts where `out_valid` is set. -/
def outBeat : Beat w c := .ofPayload x.outDataBuffer

def accepted : Option (Beat w c) := if x.inReady then e.offer else none

def delivered : Option (Beat w c) := if x.outDataTaken e.outReady then some (outBeat x) else none

end Handshake

end Ptmch.ClockCrosser
