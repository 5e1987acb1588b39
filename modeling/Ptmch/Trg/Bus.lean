import Mathlib.Data.Nat.Digits.Defs
import Ptmch.Trg.Basic

/-!
# The SPI bus

What the bus master does, seen from outside: `Bus` records, from the events alone, the frames opened
so far with their `SPI_MOSI` bits and their place among the edges of `CLK160M`.  `Allowed` is the
discipline under which the master drives the bus; its three numbers (`Rules`) are edges of
`CLK160M`.  A well-formed run is a list of events each of which is allowed after those before it.

The bus is a history of inputs and never looks at a register.  `Sys` runs it beside `ptmch_trg`.
-/

namespace Ptmch

open Machine Trg

/-! ### Opcodes -/

/-- The first eight bits of a frame, MSB first, as a byte. -/
def opcode (bits : List Bool) : BitVec 8 :=
  BitVec.ofNat 8 (Nat.ofDigits 2 ((bits.take 8).reverse.map Bool.toNat))

/-- The opcode that `TRG_PLS[i]` stands for. -/
def trgOpcode : Fin 2 → BitVec 8
  | 0 => pPageprogram
  | 1 => pWriteenable

/-- One of the two opcodes. -/
def IsTrigger (op : BitVec 8) : Prop := op = pPageprogram ∨ op = pWriteenable

instance : DecidablePred IsTrigger := fun op =>
  inferInstanceAs (Decidable (op = pPageprogram ∨ op = pWriteenable))

/-! ### Frames -/

/-- What has happened since a fall of `SPI_CS`. -/
structure Frame where
  /-- the bits on `SPI_MOSI` at the edges of `SPI_CLK` -/
  bits : List Bool
  /-- the edges of `CLK160M` -/
  clks : ℕ
  /-- those of them that sampled `SPI_CS` low -/
  lows : ℕ
  /-- the edges of `CLK160M` before the eighth edge of `SPI_CLK` -/
  clksAt8 : ℕ
  deriving DecidableEq, Repr

namespace Frame

/-- `SPI_CS` has just fallen. -/
def fresh : Frame := ⟨[], 0, 0, 0⟩

/-- The reset leaves `ptmch_trg` as a frame without bits does that has been sampled low five
times, so the time before the first fall counts as such a frame. -/
def atReset : Frame := ⟨[], 5, 5, 0⟩

/-- The frame has had its eight opcode bits. -/
def Complete (f : Frame) : Prop := 8 ≤ f.bits.length

instance : DecidablePred Complete := fun f => inferInstanceAs (Decidable (8 ≤ f.bits.length))

/-- An edge of `SPI_CLK`. -/
def bit (f : Frame) (mosi : Bool) : Frame :=
  { f with
    bits := f.bits ++ [mosi]
    clksAt8 := if f.bits.length = 7 then f.clks else f.clksAt8 }

/-- An edge of `CLK160M` that samples `SPI_CS` at level `cs`. -/
def tick (f : Frame) (cs : Bool) : Frame :=
  { f with clks := f.clks + 1, lows := if cs then f.lows else f.lows + 1 }

@[simp, grind =] theorem bit_bits (f : Frame) (mosi : Bool) :
    (f.bit mosi).bits = f.bits ++ [mosi] := rfl

@[simp, grind =] theorem bit_clks (f : Frame) (mosi : Bool) : (f.bit mosi).clks = f.clks := rfl

@[simp, grind =] theorem bit_lows (f : Frame) (mosi : Bool) : (f.bit mosi).lows = f.lows := rfl

@[simp, grind =] theorem bit_clksAt8 (f : Frame) (mosi : Bool) :
    (f.bit mosi).clksAt8 = if f.bits.length = 7 then f.clks else f.clksAt8 := rfl

@[simp, grind =] theorem tick_bits (f : Frame) (cs : Bool) : (f.tick cs).bits = f.bits := rfl

@[simp, grind =] theorem tick_clks (f : Frame) (cs : Bool) :
    (f.tick cs).clks = f.clks + 1 := rfl

@[simp, grind =] theorem tick_lows (f : Frame) (cs : Bool) :
    (f.tick cs).lows = if cs then f.lows else f.lows + 1 := rfl

@[simp, grind =] theorem tick_clksAt8 (f : Frame) (cs : Bool) :
    (f.tick cs).clksAt8 = f.clksAt8 := rfl

@[simp, grind =] theorem tick_complete (f : Frame) (cs : Bool) :
    (f.tick cs).Complete = f.Complete := rfl

theorem Complete.ne_nil {f : Frame} (h : f.Complete) : f.bits ≠ [] := by
  intro h0
  simp [Complete, h0] at h

end Frame

/-- The opcode of the latest complete frame among `frames`, latest first; `0` if there is none. -/
def latestOpcode (frames : List Frame) : BitVec 8 :=
  match frames.find? (·.Complete) with
  | some f => opcode f.bits
  | none => 0

/-! ### The bus and its discipline -/

structure Bus where
  /-- the level of `SPI_CS` -/
  spiCs : Bool
  /-- the frame opened by the latest fall of `SPI_CS` -/
  frame : Frame
  /-- the frames before it, latest first -/
  earlier : List Frame
  deriving DecidableEq, Repr

/-- The least numbers of edges of `CLK160M`. -/
structure Rules where
  /-- with `SPI_CS` high, between reset and the first frame -/
  first : ℕ
  /-- with `SPI_CS` high, between two frames -/
  gap : ℕ
  /-- with `SPI_CS` low, before the first edge of `SPI_CLK` -/
  setup : ℕ

namespace Bus

/-- Reset has just been released with `SPI_CS` high. -/
def start : Bus := ⟨true, Frame.atReset, []⟩

def step (b : Bus) : Event → Bus
  | .spiClk mosi => { b with frame := b.frame.bit mosi }
  | .clk160m => { b with frame := b.frame.tick b.spiCs }
  | .spiCs true => { b with spiCs := true }
  | .spiCs false => if b.spiCs then ⟨false, Frame.fresh, b.frame :: b.earlier⟩ else b
  | .resetN _ => b

/-- The edges of `CLK160M` since `SPI_CS` rose, or since reset. -/
def highs (b : Bus) : ℕ := b.frame.clks - b.frame.lows

/-- The master may do this now: `RESET_N` stays high, `SPI_CS` changes its level and `SPI_CLK`
toggles only while `SPI_CS` is low, both no earlier than the rules say. -/
def Allowed (r : Rules) (b : Bus) : Event → Prop
  | .spiClk _ => b.spiCs = false ∧ r.setup ≤ b.frame.clks
  | .clk160m => True
  | .spiCs true => b.spiCs = false
  | .spiCs false => b.spiCs = true ∧ (if b.earlier = [] then r.first else r.gap) ≤ b.highs
  | .resetN _ => False

instance (r : Rules) (b : Bus) : ∀ e, Decidable (Allowed r b e)
  | .spiClk _ => inferInstanceAs (Decidable (_ ∧ _))
  | .clk160m => inferInstanceAs (Decidable True)
  | .spiCs true => inferInstanceAs (Decidable (_ = _))
  | .spiCs false => inferInstanceAs (Decidable (_ ∧ _))
  | .resetN _ => inferInstanceAs (Decidable False)

/-- The opcode left by the latest complete frame before the current one; `0` if there is none. -/
def stale (b : Bus) : BitVec 8 := latestOpcode b.earlier

end Bus

/-- The discipline of the testbench in edges of `CLK160M`: five with `SPI_CS` high after reset,
eight (50 ns) between frames, five from a fall of `SPI_CS` to the first edge of `SPI_CLK`. -/
def Rules.bench : Rules := ⟨5, 8, 5⟩

/-! ### The bus beside the circuit -/

structure Sys where
  bus : Bus
  trg : Trg
  deriving DecidableEq, Repr

namespace Sys

def start : Sys := ⟨Bus.start, Trg.start⟩

def step (y : Sys) (e : Event) : Sys := ⟨y.bus.step e, y.trg.step e⟩

theorem run_bus (y : Sys) (es : List Event) : (run step y es).bus = run Bus.step y.bus es :=
  run_map step Sys.bus (fun _ _ => rfl) y es

theorem run_trg (y : Sys) (es : List Event) : (run step y es).trg = run Trg.step y.trg es :=
  run_map step Sys.trg (fun _ _ => rfl) y es

/-- The state after the events `es` since reset was released. -/
def after (es : List Event) : Sys := run step start es

theorem after_concat (es : List Event) (e : Event) :
    after (es ++ [e]) = (after es).step e := run_concat step start es e

end Sys

/-- Every event of the run is one which the master may do then. -/
def WellFormed (r : Rules) (es : List Event) : Prop := Along Bus.step (Bus.Allowed r) Bus.start es

instance (r : Rules) (es : List Event) : Decidable (WellFormed r es) :=
  inferInstanceAs (Decidable (Along _ _ _ _))

/-- A condition on the bus along a run of the two together. -/
theorem Sys.along_bus (P : Bus → Event → Prop) (es : List Event) :
    Along Sys.step (fun y e => P y.bus e) Sys.start es ↔ Along Bus.step P Bus.start es :=
  along_map Sys.bus (fun _ _ => rfl) P Sys.start es

/-! ### Runs made of frames -/

/-- Edges of `CLK160M`. -/
def clks (n : ℕ) : List Event := List.replicate n .clk160m

/-- Edges of `SPI_CLK` that send a byte, MSB first. -/
def sendByte (byte : BitVec 8) : List Event := (List.range 8).map fun i => .spiClk (byte.getMsbD i)

/-- `SPI_CS` falls, `setup` edges of `CLK160M` pass, `body` happens and `SPI_CS` rises. -/
def frameEvents (setup : ℕ) (body : List Event) : List Event :=
  .spiCs false :: clks setup ++ body ++ [.spiCs true]

/-! ### What the discipline keeps -/

theorem opcode_nil : opcode [] = 0 := rfl

/-- Shifting a bit in from the right doubles the byte and adds the bit. -/
theorem ofNat_two_mul_add (n : ℕ) (mosi : Bool) :
    BitVec.ofNat 8 (mosi.toNat + 2 * n)
      = (BitVec.ofNat 8 n).extractLsb' 0 7 ++ BitVec.ofBool mosi := by
  apply BitVec.eq_of_toNat_eq
  refine Eq.trans ?_ (BitVec.toNat_append _ _).symm
  rw [← Nat.shiftLeft_add_eq_or_of_lt (BitVec.isLt _), Nat.shiftLeft_eq]
  have := Bool.toNat_lt mosi
  simp
  omega

/-- Shifting a bit in from the right appends it to a short opcode. -/
theorem opcode_concat (bits : List Bool) (mosi : Bool) (h : bits.length < 8) :
    opcode (bits ++ [mosi]) = (opcode bits).extractLsb' 0 7 ++ BitVec.ofBool mosi := by
  unfold opcode
  rw [List.take_of_length_le (by simp; omega), List.take_of_length_le (by omega),
    List.reverse_append, List.reverse_singleton, List.singleton_append, List.map_cons,
    Nat.ofDigits_cons]
  exact ofNat_two_mul_add _ _

/-- Bits after the eighth do not change the opcode. -/
theorem opcode_append_of_complete (bits more : List Bool) (h : 8 ≤ bits.length) :
    opcode (bits ++ more) = opcode bits := by
  unfold opcode
  rw [List.take_append_of_le_length h]

theorem isTrigger_trgOpcode (i : Fin 2) : IsTrigger (trgOpcode i) := by
  match i with
  | 0 => exact Or.inl rfl
  | 1 => exact Or.inr rfl

theorem isTrigger_iff (op : BitVec 8) : IsTrigger op ↔ ∃ i, op = trgOpcode i := by
  constructor
  · rintro (h | h)
    · exact ⟨0, h⟩
    · exact ⟨1, h⟩
  · rintro ⟨i, rfl⟩
    exact isTrigger_trgOpcode i

theorem not_isTrigger_zero : ¬ IsTrigger 0 := by decide

theorem latestOpcode_cons (f : Frame) (older : List Frame) :
    latestOpcode (f :: older) = if f.Complete then opcode f.bits else latestOpcode older := by
  unfold latestOpcode
  by_cases h : f.Complete
  · rw [List.find?_cons_of_pos (by simpa using h), if_pos h]
  · rw [List.find?_cons_of_neg (by simpa using h), if_neg h]

end Ptmch
