import Ptmch.Trg.Bus

/-!
# Runs with coinciding edges

The bus and the circuit under `TornEvent`s.  Where the edges of both clocks coincide, the bus takes
the edge of `CLK160M` first: it cannot sample the new bit.  The discipline is that of the testbench
with two edges of `CLK160M` between frames instead of eight, and none after reset.
-/

namespace Ptmch

open Machine Trg

/-- Two edges of `CLK160M` with `SPI_CS` high between frames, five before the first bit. -/
def Rules.loose : Rules := ⟨0, 2, 5⟩

namespace Bus

def stepTorn (b : Bus) : TornEvent → Bus
  | .single e => b.step e
  | .both mosi _ _ => (b.step .clk160m).step (.spiClk mosi)

def AllowedTorn (r : Rules) (b : Bus) : TornEvent → Prop
  | .single e => b.Allowed r e
  | .both mosi _ _ => b.Allowed r (.spiClk mosi)

instance (r : Rules) (b : Bus) : ∀ e, Decidable (AllowedTorn r b e)
  | .single e => inferInstanceAs (Decidable (b.Allowed r e))
  | .both mosi _ _ => inferInstanceAs (Decidable (b.Allowed r (.spiClk mosi)))

end Bus

/-- Every event of the run is one which the master may do then. -/
def WellFormedTorn (r : Rules) (es : List TornEvent) : Prop :=
  Along Bus.stepTorn (Bus.AllowedTorn r) Bus.start es

instance (r : Rules) (es : List TornEvent) : Decidable (WellFormedTorn r es) :=
  inferInstanceAs (Decidable (Along _ _ _ _))

namespace Sys

def stepTorn (y : Sys) (e : TornEvent) : Sys := ⟨y.bus.stepTorn e, y.trg.stepTorn e⟩

/-- The state after the events `es` since reset was released. -/
def afterTorn (es : List TornEvent) : Sys := run stepTorn start es

theorem along_busTorn (P : Bus → TornEvent → Prop) (es : List TornEvent) :
    Along stepTorn (fun y e => P y.bus e) start es ↔ Along Bus.stepTorn P Bus.start es :=
  along_map Sys.bus (fun _ _ => rfl) P start es

end Sys

/-! ### The last two opcodes -/

/-- The edges of `CLK160M` since the eighth bit of the latest complete frame; enough of them if
there is none. -/
def sinceOpcode : List Frame → ℕ
  | [] => 4
  | f :: older => if f.Complete then f.clks - f.clksAt8 else f.clks + sinceOpcode older

/-- The opcode of the complete frame before the latest one. -/
def previousOpcode : List Frame → BitVec 8
  | [] => 0
  | f :: older => if f.Complete then latestOpcode older else previousOpcode older

/-- The value is zero, the opcode of the current frame, or that of the latest earlier one. -/
def Bus.IsOpcode (b : Bus) (x : BitVec 8) : Prop :=
  x = 0 ∨ b.frame.Complete ∧ x = opcode b.frame.bits ∨ x = b.stale

instance (b : Bus) (x : BitVec 8) : Decidable (b.IsOpcode x) :=
  inferInstanceAs (Decidable (_ ∨ _ ∧ _ ∨ _))

/-- Until the fourth edge of `CLK160M` after the last eighth bit, in an earlier frame, the value may
also be the opcode before that one. -/
def Bus.IsLateOpcode (b : Bus) (x : BitVec 8) : Prop :=
  ¬ b.frame.Complete ∧ sinceOpcode (b.frame :: b.earlier) < 4 ∧ x = previousOpcode b.earlier

instance (b : Bus) (x : BitVec 8) : Decidable (b.IsLateOpcode x) :=
  inferInstanceAs (Decidable (_ ∧ _ ∧ _))

end Ptmch
