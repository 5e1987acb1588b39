import Mathlib.Algebra.Order.Field.Basic
import Ptmch.Trg.Torn

/-!
# The bus in time

Runs in which every event has a time in nanoseconds, from any ordered field: `CLK160M` has an edge
every 6.25 ns, from any phase on, and the master drives the bus as `spi_transaction` of the
testbench does.  An edge of `SPI_CLK` and one of `CLK160M` at the same instant are one event
(`TornEvent.both`), since neither side sees what the other one loads.  A change of `SPI_CS` may come
before or after an edge of `CLK160M` at the same instant: the edge samples the new or the old level.
-/

namespace Ptmch

open Machine Trg

variable {T : Type*} [Field T]

/-- The period of `CLK160M`. -/
def clkPeriod : T := 25 / 4

/-- The period of `SPI_CLK`, at 100 MHz. -/
def spiPeriod : T := 10

/-- The first edge of `SPI_CLK` after a fall of `SPI_CS`: `#20`, then `#5`. -/
def spiSetup : T := 25

/-- The least `delay_high` between two transactions. -/
def delayHigh : T := 50

/-- `ptmch_trg` on its bus, in time. -/
structure Bench (T : Type*) where
  sys : Sys
  /-- the time of the latest event -/
  now : T
  /-- the time of the next edge of `CLK160M` -/
  nextClk : T
  /-- the time at which `SPI_CS` took its level, or of the release of reset -/
  csTime : T
  /-- the time at which the next edge of `SPI_CLK` is due -/
  nextSpi : T

namespace Bench

/-- Reset is released at time 0, with `SPI_CS` high and the next edge of `CLK160M` at `phase`. -/
def start (phase : T) : Bench T := ⟨Sys.start, 0, phase, 0, 0⟩

def step (b : Bench T) (te : T × TornEvent) : Bench T :=
  let b' := { b with sys := b.sys.stepTorn te.2, now := te.1 }
  match te with
  | (t, .single (.spiClk _)) => { b' with nextSpi := t + spiPeriod }
  | (t, .single .clk160m) => { b' with nextClk := t + clkPeriod }
  | (t, .single (.spiCs _)) => { b' with csTime := t, nextSpi := t + spiSetup }
  | (_, .single (.resetN _)) => b'
  | (t, .both _ _ _) => { b' with nextClk := t + clkPeriod, nextSpi := t + spiPeriod }

theorem sys_step (b : Bench T) : ∀ te, (b.step te).sys = b.sys.stepTorn te.2
  | (_, .single (.spiClk _)) => rfl
  | (_, .single .clk160m) => rfl
  | (_, .single (.spiCs _)) => rfl
  | (_, .single (.resetN _)) => rfl
  | (_, .both _ _ _) => rfl

variable [LinearOrder T]

/-- Time does not run backwards nor past an edge of `CLK160M`, which comes on time.  `SPI_CS` has
been high for 50 ns when it falls, and while it is low `SPI_CLK` toggles on time: alone if `CLK160M`
has no edge at that instant, neither a coming one nor a past one, and else together with it. -/
def Allowed (b : Bench T) (te : T × TornEvent) : Prop :=
  b.now ≤ te.1 ∧ te.1 ≤ b.nextClk ∧
  match te with
  | (t, .single (.spiClk _)) =>
    b.sys.bus.spiCs = false ∧ t = b.nextSpi ∧ t ≠ b.nextClk ∧ t + clkPeriod ≠ b.nextClk
  | (t, .single .clk160m) => t = b.nextClk
  | (_, .single (.spiCs true)) => b.sys.bus.spiCs = false
  | (t, .single (.spiCs false)) => b.sys.bus.spiCs = true ∧ b.csTime + delayHigh ≤ t
  | (_, .single (.resetN _)) => False
  | (t, .both _ _ _) => b.sys.bus.spiCs = false ∧ t = b.nextSpi ∧ t = b.nextClk

instance (b : Bench T) : ∀ te, Decidable (b.Allowed te)
  | (_, .single (.spiClk _)) => inferInstanceAs (Decidable (_ ∧ _ ∧ _ ∧ _ ∧ _ ∧ _))
  | (_, .single .clk160m) => inferInstanceAs (Decidable (_ ∧ _ ∧ _))
  | (_, .single (.spiCs true)) => inferInstanceAs (Decidable (_ ∧ _ ∧ _))
  | (_, .single (.spiCs false)) => inferInstanceAs (Decidable (_ ∧ _ ∧ _ ∧ _))
  | (_, .single (.resetN _)) => inferInstanceAs (Decidable (_ ∧ _ ∧ False))
  | (_, .both _ _ _) => inferInstanceAs (Decidable (_ ∧ _ ∧ _ ∧ _ ∧ _))

end Bench

variable [LinearOrder T]

/-- The run is one of the testbench, with `CLK160M` at this phase. -/
def OnTime (phase : T) (run : List (T × TornEvent)) : Prop :=
  0 ≤ phase ∧ phase ≤ clkPeriod ∧ Along Bench.step Bench.Allowed (Bench.start phase) run

instance (phase : T) (run : List (T × TornEvent)) : Decidable (OnTime phase run) :=
  inferInstanceAs (Decidable (_ ∧ _ ∧ _))

/-! ### Runs of the testbench -/

/-- A transaction that begins at time `t` with these bits. -/
def transaction (t : T) (bits : List Bool) : List (T × Event) :=
  (t, .spiCs false) ::
    bits.mapIdx fun i mosi => (t + spiSetup + i * spiPeriod, .spiClk mosi)

/-- The first `n` of these events and of the edges of `CLK160M` from time `next` on, in the order of
their times.  An edge of `CLK160M` comes after a change of `SPI_CS` at the same instant; together
with an edge of `SPI_CLK` it reads the old values. -/
def withClk160m : ℕ → T → List (T × Event) → List (T × TornEvent)
  | 0, _, _ => []
  | n + 1, next, [] => (next, .single .clk160m) :: withClk160m n (next + clkPeriod) []
  | n + 1, next, (t, e) :: evs =>
    if next < t then
      (next, .single .clk160m) :: withClk160m n (next + clkPeriod) ((t, e) :: evs)
    else
      match e with
      | .spiClk mosi =>
        if t = next then (t, .both mosi 0 0) :: withClk160m n (next + clkPeriod) evs
        else (t, .single (.spiClk mosi)) :: withClk160m n next evs
      | e => (t, .single e) :: withClk160m n next evs

end Ptmch
