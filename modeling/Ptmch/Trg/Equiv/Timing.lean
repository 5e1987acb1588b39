import Mathlib.Tactic.Linarith
import Ptmch.Trg.Equiv.Sync
import Ptmch.Trg.Timing

/-!
# The clear against the first bit

25 ns are four periods of `CLK160M`, so the fifth of its edges after a fall of `SPI_CS` has not
come when `SPI_CLK` has its first edge: three or four edges have come before it, and `c_spi_reset_n`
is low after the third and after the fourth (`Bench.Timed.clearing_at_first`).  An edge of `CLK160M`
at the instant of the first bit does not help, since both sides load from the values before it.  So
the first bit of every frame is swallowed, at every phase (`noBitSwallowed_iff`).
-/

namespace Ptmch

open Machine Trg

variable {T : Type*} [Field T]

/-! ### The property -/

namespace Bench

/-- If the event is an edge of `SPI_CLK`, it finds `c_spi_reset_n` high, is counted, and leaves the
bits of the frame in the shift register. -/
def Keeps (b : Bench T) (te : T × TornEvent) : Prop :=
  ∀ mosi ∈ te.2.mosi?,
    b.sys.trg.cSpiResetN = true ∧
    (b.step te).sys.trg.srInstCnt
      = BitVec.ofNat 4 (min 8 (b.sys.bus.frame.bits ++ [mosi]).length) ∧
    (b.step te).sys.trg.srInstSht = opcode (b.sys.bus.frame.bits ++ [mosi])

instance (b : Bench T) (te : T × TornEvent) : Decidable (b.Keeps te) :=
  inferInstanceAs (Decidable (∀ mosi ∈ te.2.mosi?, _))

/-- An event that is no edge of `SPI_CLK` leaves a frame without bits. -/
theorem bits_step_eq_nil {b : Bench T} {te : T × TornEvent} (hbit : te.2.mosi? = none)
    (hbits : b.sys.bus.frame.bits = []) : (b.step te).sys.bus.frame.bits = [] := by
  rw [sys_step]
  match te, hbit with
  | (_, .single .clk160m), _ => exact hbits
  | (_, .single (.spiCs true)), _ => exact hbits
  | (_, .single (.spiCs false)), _ =>
    show (if b.sys.bus.spiCs then _ else _ : Bus).frame.bits = []
    split_ifs
    · rfl
    · exact hbits
  | (_, .single (.resetN _)), _ => exact hbits

end Bench

/-- No bit of any frame is swallowed. -/
def NoBitSwallowed (phase : T) (run : List (T × TornEvent)) : Prop :=
  Along Bench.step Bench.Keeps (Bench.start phase) run

instance (phase : T) (run : List (T × TornEvent)) : Decidable (NoBitSwallowed phase run) :=
  inferInstanceAs (Decidable (Along _ _ _ _))

/-! ### The edges of `CLK160M` in time -/

variable [LinearOrder T]

namespace Bench

/-- The edges of `CLK160M` counted by the bus are those of the clock. -/
structure Timed (b : Bench T) : Prop where
  placed : b.sys.bus.Placed
  sync : SyncRefines b.sys.bus b.sys.trg
  now_le : b.now ≤ b.nextClk
  le_now : b.nextClk ≤ b.now + clkPeriod
  /-- the first edge after a fall comes within one period -/
  low : b.sys.bus.spiCs = false →
    b.csTime + b.sys.bus.frame.clks * clkPeriod ≤ b.nextClk ∧
    b.nextClk ≤ b.csTime + (b.sys.bus.frame.clks + 1) * clkPeriod
  /-- so does the first edge after a rise -/
  high : b.sys.bus.spiCs = true → b.nextClk ≤ b.csTime + (b.sys.bus.highs + 1) * clkPeriod
  nextSpi : b.sys.bus.spiCs = false → b.sys.bus.frame.bits = [] → b.nextSpi = b.csTime + spiSetup

/-- The discipline of the testbench in edges of `CLK160M`, without the time to the first bit. -/
def coarse : Rules := ⟨5, 5, 0⟩

theorem Timed.start {phase : T} (h0 : 0 ≤ phase) (h1 : phase ≤ clkPeriod) :
    (Bench.start phase).Timed where
  placed := Bus.placed_start
  sync := SyncRefines.start
  now_le := h0
  le_now := by simpa [Bench.start] using h1
  low := nofun
  high := fun _ => by
    have : Bus.start.highs = 0 := rfl
    simpa [Bench.start, Sys.start, this] using h1
  nextSpi := nofun

variable [IsStrictOrderedRing T] {b : Bench T} {te : T × TornEvent}

/-- Eight periods fit into the time for which `SPI_CS` is high, so at least seven edges do. -/
theorem Timed.allowed (h : b.Timed) (hok : b.Allowed te) : b.sys.bus.AllowedTorn coarse te.2 := by
  obtain ⟨hnow, hclk, hok⟩ := hok
  match te, hok with
  | (t, .single (.spiClk mosi)), ⟨hcs, _⟩ => exact ⟨hcs, Nat.zero_le _⟩
  | (t, .single .clk160m), _ => exact trivial
  | (t, .single (.spiCs true)), hcs => exact hcs
  | (t, .single (.spiCs false)), ⟨hcs, htime⟩ =>
    -- `highs + 1` periods reach beyond the present time
    have h50 : b.csTime + 50 ≤ t := htime
    have hhigh := h.high hcs
    have hclk : t ≤ b.nextClk := hclk
    have h7 : (7 : T) ≤ b.sys.bus.highs := by
      rw [clkPeriod] at hhigh
      linarith
    have h7 : 7 ≤ b.sys.bus.highs := by exact_mod_cast h7
    refine ⟨hcs, ?_⟩
    show (if _ then 5 else 5) ≤ _
    rw [ite_self]
    omega
  | (t, .both mosi cntSel shtSel), ⟨hcs, _⟩ => exact ⟨hcs, Nat.zero_le _⟩

/-- An edge of `CLK160M` while `SPI_CS` is low, alone or not. -/
theorem Timed.low_tick (h : b.Timed) (hcs : b.sys.bus.spiCs = false) :
    b.csTime + ((b.sys.bus.frame.clks + 1 : ℕ) : T) * clkPeriod ≤ b.nextClk + clkPeriod ∧
    b.nextClk + clkPeriod ≤ b.csTime + ((b.sys.bus.frame.clks + 1 : ℕ) + 1) * clkPeriod := by
  obtain ⟨hfirst, hlast⟩ := h.low hcs
  push_cast
  exact ⟨by linarith, by linarith⟩

theorem Timed.step (h : b.Timed) (hok : b.Allowed te) : (b.step te).Timed := by
  have hbus := h.allowed hok
  have hplaced : (b.step te).sys.bus.Placed := by
    rw [sys_step]
    exact Bus.placed_stepTorn h.placed hbus
  have hsync : SyncRefines (b.step te).sys.bus (b.step te).sys.trg := by
    rw [sys_step]
    exact h.sync.stepTorn (by decide) h.placed hbus
  have hpos : (0 : T) < clkPeriod := by
    rw [clkPeriod]
    norm_num
  have hlows := h.placed.lows_le
  have heq := h.placed.lows_eq
  have htick := h.low_tick
  obtain ⟨hnow, hclk, hok⟩ := hok
  obtain ⟨-, -, hle, hge, hlow, hhigh, hspi⟩ := h
  match te, hok with
  | (t, .single (.spiClk mosi)), ⟨hcs, _⟩ =>
    have hbits : (b.sys.bus.frame.bits ++ [mosi]) ≠ [] := by simp
    have hnow : b.now ≤ t := hnow
    exact ⟨hplaced, hsync, hclk, (by linarith : b.nextClk ≤ t + clkPeriod), hlow, hhigh,
      fun _ hnil => absurd hnil hbits⟩
  | (t, .single .clk160m), ht =>
    obtain rfl : t = b.nextClk := ht
    have hkeep : b.nextClk ≤ b.nextClk + clkPeriod := by linarith
    refine ⟨hplaced, hsync, hkeep, le_rfl, htick, fun hcs => ?_, hspi⟩
    have hhigh := hhigh hcs
    have hnext : (b.sys.bus.step .clk160m).highs = b.sys.bus.highs + 1 := by
      have hcs : b.sys.bus.spiCs = true := hcs
      simp only [Bus.highs, Bus.step, Frame.tick, hcs, if_true]
      omega
    show b.nextClk + clkPeriod ≤
      b.csTime + (((b.sys.bus.step .clk160m).highs : T) + 1) * clkPeriod
    rw [hnext]
    push_cast
    linarith
  | (t, .single (.spiCs true)), hcs =>
    have hnow : b.now ≤ t := hnow
    have hnext : b.nextClk ≤ t + clkPeriod := by linarith
    have hup : (b.sys.bus.step (.spiCs true)).spiCs ≠ false := Bool.false_ne_true.symm
    refine ⟨hplaced, hsync, hclk, hnext, fun h => absurd h hup, fun _ => ?_, fun h => absurd h hup⟩
    have hzero : (b.sys.bus.step (.spiCs true)).highs = 0 := by
      have := heq hcs
      simp only [Bus.highs, Bus.step]
      omega
    show b.nextClk ≤ t + (((b.sys.bus.step (.spiCs true)).highs : T) + 1) * clkPeriod
    rw [hzero]
    push_cast
    linarith
  | (t, .single (.spiCs false)), ⟨hcs, htime⟩ =>
    have hnow : b.now ≤ t := hnow
    have hnext : b.nextClk ≤ t + clkPeriod := by linarith
    have hfr : (b.sys.bus.step (.spiCs false)).frame = Frame.fresh := by simp [Bus.step, hcs]
    have hlevel : (b.sys.bus.step (.spiCs false)).spiCs = false := by simp [Bus.step, hcs]
    refine ⟨hplaced, hsync, hclk, hnext, fun _ => ?_, fun hup => ?_, fun _ _ => rfl⟩
    · show t + ((b.sys.bus.step (.spiCs false)).frame.clks : T) * clkPeriod ≤ b.nextClk ∧
        b.nextClk ≤ t + ((b.sys.bus.step (.spiCs false)).frame.clks + 1) * clkPeriod
      have hclk : t ≤ b.nextClk := hclk
      rw [hfr, show Frame.fresh.clks = 0 from rfl]
      push_cast
      exact ⟨by linarith, by linarith⟩
    · exact absurd (hlevel.symm.trans hup) (by simp)
  | (t, .both mosi cntSel shtSel), ⟨hcs, _, ht⟩ =>
    obtain rfl : t = b.nextClk := ht
    have hbits : (b.sys.bus.frame.bits ++ [mosi]) ≠ [] := by simp
    have hkeep : b.nextClk ≤ b.nextClk + clkPeriod := by linarith
    refine ⟨hplaced, hsync, hkeep, le_rfl, htick, fun hup => ?_, fun _ hnil => absurd hnil hbits⟩
    exact absurd (hcs.symm.trans hup) Bool.false_ne_true

/-- **The first bit** comes in the clear of its frame. -/
theorem Timed.clearing_at_first (h : b.Timed) (hok : b.Allowed te) {mosi : Bool}
    (hbit : te.2.mosi? = some mosi) (hbits : b.sys.bus.frame.bits = []) :
    b.sys.bus.frame.Clearing := by
  -- the bit is due `spiSetup` after the fall, which is four periods
  have hclks : 3 ≤ b.sys.bus.frame.clks ∧ b.sys.bus.frame.clks ≤ 4 ∧
      b.sys.bus.spiCs = false := by
    have hle := h.le_now
    obtain ⟨hnow, hclk, hok⟩ := hok
    match te, hbit, hok with
    | (t, .single (.spiClk _)), _, ⟨hcs, hdue, hbefore, hafter⟩ =>
      -- alone, it comes between the fourth edge and the fifth
      obtain ⟨hfirst, hlast⟩ := h.low hcs
      have hnow : b.now ≤ t := hnow
      have hclk : t < b.nextClk := lt_of_le_of_ne hclk hbefore
      have hnext : b.nextClk < t + clkPeriod := lt_of_le_of_ne (by linarith) hafter.symm
      rw [hdue, h.nextSpi hcs hbits] at hclk hnext
      unfold clkPeriod spiSetup at *
      have h3 : (3 : T) < b.sys.bus.frame.clks := by linarith
      have h5 : (b.sys.bus.frame.clks : T) < 5 := by linarith
      have h3 : 3 < b.sys.bus.frame.clks := by exact_mod_cast h3
      have h5 : b.sys.bus.frame.clks < 5 := by exact_mod_cast h5
      exact ⟨by omega, by omega, hcs⟩
    | (t, .both _ _ _), _, ⟨hcs, hdue, heq⟩ =>
      -- the coinciding edge is the fourth, or the fifth where the first one was at the fall
      obtain ⟨hfirst, hlast⟩ := h.low hcs
      rw [← heq, hdue, h.nextSpi hcs hbits] at hfirst hlast
      unfold clkPeriod spiSetup at *
      have h3 : (3 : T) ≤ b.sys.bus.frame.clks := by linarith
      have h4 : (b.sys.bus.frame.clks : T) ≤ 4 := by linarith
      exact ⟨by exact_mod_cast h3, by exact_mod_cast h4, hcs⟩
  obtain ⟨h3, h4, hcs⟩ := hclks
  have hlow := h.placed.lows_eq hcs
  refine ⟨h3, ?_⟩
  rw [Frame.window_eq_two (by omega)]
  omega

/-- So it is swallowed. -/
theorem Timed.not_keeps_first (h : b.Timed) (hok : b.Allowed te) {mosi : Bool}
    (hbit : te.2.mosi? = some mosi) (hbits : b.sys.bus.frame.bits = []) : ¬ b.Keeps te := by
  intro hk
  have hhigh := (hk mosi hbit).1
  rw [h.sync.cSpiResetN, decide_eq_true (h.clearing_at_first hok hbit hbits)] at hhigh
  cases hhigh

end Bench

/-- **The first bit against the clear.**  A run of the testbench swallows no bit if and only if it
has none: there is no edge of `SPI_CLK` in it. -/
theorem noBitSwallowed_iff [IsStrictOrderedRing T] {phase : T} {run : List (T × TornEvent)}
    (hrun : OnTime phase run) :
    NoBitSwallowed phase run ↔ ∀ te ∈ run, te.2.mosi? = none := by
  obtain ⟨h0, h1, hok⟩ := hrun
  rw [← along_const Bench.step (Bench.start phase)]
  constructor
  · intro hk
    -- while every bit has been kept, there has been none
    have hstep : ∀ (b : Bench T) (te : T × TornEvent), b.Timed ∧ b.sys.bus.frame.bits = [] →
        b.Allowed te ∧ b.Keeps te → te.2.mosi? = none := by
      rintro b te ⟨ht, hbits⟩ ⟨ho, hkeep⟩
      cases hbit : te.2.mosi? with
      | none => rfl
      | some mosi => exact absurd hkeep (ht.not_keeps_first ho hbit hbits)
    refine along_of_invariant (I := fun b => b.Timed ∧ b.sys.bus.frame.bits = []) ?_ hstep
      ⟨.start h0 h1, rfl⟩ ((along_and _ _).mpr ⟨hok, hk⟩)
    intro b te h ho
    exact ⟨h.1.step ho.1, Bench.bits_step_eq_nil (hstep b te h ho) h.2⟩
  · intro hnone
    refine along_of_invariant (I := fun _ => True) (fun _ _ _ _ => trivial) ?_ trivial hnone
    intro b te _ hbit mosi hmosi
    rw [hbit] at hmosi
    cases hmosi

/-- The testbench at 100 ns, with `CLK160M` 3 ns behind: the byte 03 and a zero. -/
def swallowedRun : List (ℚ × TornEvent) :=
  withClk160m 50 3
    (transaction 100 [false, false, false, false, false, false, true, true, false])

/-- **A swallowed bit**: with the byte 03 and a zero the shift register holds 06. -/
theorem swallowedRun_swallows :
    OnTime 3 swallowedRun ∧ ¬ NoBitSwallowed 3 swallowedRun ∧
    (run Bench.step (Bench.start 3) swallowedRun).sys.trg.srInstCnt = 8 ∧
    (run Bench.step (Bench.start 3) swallowedRun).sys.trg.srInstSht = 0x06 := by decide +kernel

/-- The byte 03, with edges of `CLK160M` at the instants of the fall and of the first bit. -/
def coincidingRun : List (ℚ × TornEvent) :=
  withClk160m 50 0 (transaction 100 [false, false, false, false, false, false, true, true])

/-- A frame without bits. -/
def bareRun : List (ℚ × TornEvent) := withClk160m 50 0 (transaction 100 [])

/-- The first bit is swallowed where the edges coincide as well, and a frame without bits loses
none. -/
theorem noBitSwallowed_coincidingRun :
    (125, .both false 0 0) ∈ coincidingRun ∧ ¬ NoBitSwallowed 0 coincidingRun ∧
    (run Bench.step (Bench.start 0) coincidingRun).sys.trg.srInstCnt = 7 ∧
    NoBitSwallowed 0 bareRun := by
  refine ⟨by decide +kernel, ?_, by decide +kernel, ?_⟩
  · rw [noBitSwallowed_iff (by decide +kernel)]
    decide +kernel
  · rw [noBitSwallowed_iff (by decide +kernel)]
    decide +kernel

end Ptmch
