import Mathlib.Data.List.Forall2
import Ptmch.Machine.Agree
import Ptmch.Trg.Equiv.Timing
import Ptmch.Trg.Equiv.Torn

/-!
# The bit that the testbench loses

At the timing of the testbench the clear is on at the first edge of `SPI_CLK` of a frame
(`Bench.Timed.clearing_at_first`), and over at the second one.  So `ptmch_trg` does what it would do
if the first edge had not come, and for everything after it the clear comes first:
`run_eq_keptEvents` takes these edges out of a run and gets a run with the same registers that
leaves five edges of `CLK160M` before the first bit of every frame.  The opcode that reaches
`ar_inst_chk` is then made of the bits two to nine.

The later edges of `SPI_CLK` may coincide with edges of `CLK160M`, with whatever bits are torn.
-/

namespace Ptmch

open Machine Trg

/-! ### The shift register with coinciding edges -/

/-- Coinciding edges load the shift register and its counter as the same edges one after the other
do. -/
theorem ShiftRefines.stepTorn {r : Rules} {b : Bus} {s : Trg} {e : TornEvent}
    (h5 : 5 ≤ r.first ∧ 5 ≤ r.gap) (hset : 5 ≤ r.setup) (h : ShiftRefines b s)
    (hok : b.AllowedTorn r e) : ShiftRefines (b.stepTorn e) (s.stepTorn e) := by
  match e, hok with
  | .single e, hok => exact h.step h5 hset hok
  | .both mosi cntSel shtSel, hok =>
    have hclk : ShiftRefines (b.step .clk160m) (s.step .clk160m) :=
      step (r := r) (e := .clk160m) h5 hset h trivial
    have hspi : (b.step .clk160m).Allowed r (.spiClk mosi) := Bus.allowed_both hok
    have hseq := hclk.step h5 hset hspi
    obtain ⟨hcs, hset⟩ := hok
    -- nothing is cleared before the edges nor after them
    have hc : s.cSpiResetN = true := by
      have hnc : ¬ b.frame.Clearing := Frame.not_clearing (by omega)
      simp [h.sync.cSpiResetN, hnc]
    have hn : s.spiResetNNext = true := by
      have hnc : ¬ (b.step .clk160m).frame.Clearing :=
        Frame.not_clearing (Nat.le_succ_of_le (by omega : 5 ≤ b.frame.clks))
      rw [← step_clk_cSpiResetN h.sync.resetN]
      simp [hclk.sync.cSpiResetN, hnc]
    obtain ⟨hplaced, hsetup, ⟨g1, g2, g3, g4, g5, g6, g7⟩, hcnt, hsht⟩ := hseq
    rw [stepTorn_both h.sync.resetN hc hn]
    exact ⟨hplaced, hsetup, ⟨g1, g2, g3, g4, g5, g6, g7⟩, hcnt, hsht⟩

/-! ### An edge of `SPI_CLK` during the clear -/

/-- The registers under `c_spi_reset_n` are at `0` while it is low. -/
def Trg.ClearedWhileLow (s : Trg) : Prop := s.cSpiResetN = false → s.spiCleared = s

/-- So it is once the resets have been applied, which leave `c_spi_reset_n` as it is. -/
theorem Trg.clearedWhileLow_clear (s : Trg) : s.clear.ClearedWhileLow := by
  intro hlow
  generalize ht : s.negedgeResetN = t
  have hclear : s.clear = if t.cSpiResetN then t else t.spiCleared := by
    rw [clear, ht]
    rfl
  rw [hclear] at hlow ⊢
  split_ifs at hlow ⊢ with hc
  · rw [hlow] at hc
    cases hc
  · rfl

theorem Trg.clearedWhileLow_stepTorn (s : Trg) (e : TornEvent) :
    (s.stepTorn e).ClearedWhileLow := by
  cases e with
  | single e => exact clearedWhileLow_clear _
  | both mosi cntSel shtSel => exact clearedWhileLow_clear _

namespace Trg.ClearedWhileLow

variable {s : Trg}

/-- It changes nothing. -/
theorem step_spiClk (h : s.ClearedWhileLow) (hr : s.resetN = true)
    (hlow : s.cSpiResetN = false) (mosi : Bool) : s.step (.spiClk mosi) = s := by
  have hkeep : (s.edge (.spiClk mosi)).spiCleared = s.spiCleared := rfl
  rw [step_other_eq hr (by simp) (by simp), hlow, if_neg Bool.false_ne_true, hkeep, h hlow]

/-- With an edge of `CLK160M` at the same instant, that edge is all that happens: the clear may end
with it, but the `SPI_CLK` side does not see this. -/
theorem stepTorn_both (h : s.ClearedWhileLow) (hlow : s.cSpiResetN = false) (mosi : Bool)
    (cntSel : BitVec 4) (shtSel : BitVec 8) :
    s.stepTorn (.both mosi cntSel shtSel) = s.step .clk160m := by
  have hcnt : s.srInstCnt = 0 := by
    rw [← h hlow]
    rfl
  have hsht : s.srInstSht = 0 := by
    rw [← h hlow]
    rfl
  have hboth : s.posedgeBoth mosi cntSel shtSel = s.posedgeClk160m s.srInstCnt s.srInstSht := by
    unfold posedgeBoth posedgeSpiClk
    simp [ff, hlow, hcnt, hsht, torn_self, posedgeClk160m]
  rw [stepTorn, hboth, step, edge]

end Trg.ClearedWhileLow

/-! ### The run without the lost bits -/

/-- The event without its edge of `SPI_CLK`, if anything is left of it then. -/
def Trg.TornEvent.withoutSpiClk : TornEvent → Option TornEvent
  | .single (.spiClk _) => none
  | .single e => some (.single e)
  | .both _ _ _ => some (.single .clk160m)

variable {T : Type*} [Field T]

/-- The event, without the first edge of `SPI_CLK` of a frame. -/
def Bench.kept (b : Bench T) (te : T × TornEvent) : Option TornEvent :=
  if b.sys.bus.frame.bits = [] then te.2.withoutSpiClk else some te.2

/-- The events of a run of the testbench without the first edge of `SPI_CLK` of every frame. -/
def keptEvents (phase : T) (run : List (T × TornEvent)) : List TornEvent :=
  observe Bench.step Bench.kept (Bench.start phase) run

/-- The frame `g` is the frame `f` without its first bit. -/
structure Frame.LosesFirst (g f : Frame) : Prop where
  clks : g.clks = f.clks
  lows : g.lows = f.lows
  bits : g.bits = f.bits.tail

namespace Frame.LosesFirst

variable {g f : Frame}

theorem fresh : Frame.fresh.LosesFirst Frame.fresh := ⟨rfl, rfl, rfl⟩

theorem tick (h : g.LosesFirst f) (cs : Bool) : (g.tick cs).LosesFirst (f.tick cs) := by
  refine ⟨congrArg (· + 1) h.clks, ?_, h.bits⟩
  rw [tick_lows, tick_lows, h.lows]

/-- A later bit. -/
theorem bit (h : g.LosesFirst f) (hne : f.bits ≠ []) (mosi : Bool) :
    (g.bit mosi).LosesFirst (f.bit mosi) := by
  refine ⟨h.clks, h.lows, ?_⟩
  rw [bit_bits, bit_bits, h.bits, List.tail_append_of_ne_nil hne]

/-- The first bit is lost. -/
theorem lose (h : g.LosesFirst f) (hbits : f.bits = []) (mosi : Bool) :
    g.LosesFirst (f.bit mosi) := by
  refine ⟨h.clks, h.lows, ?_⟩
  rw [bit_bits, h.bits, hbits]
  rfl

end Frame.LosesFirst

/-- `k` is the bus `b` without the lost bits. -/
structure Bus.LosesFirst (k b : Bus) : Prop where
  spiCs : k.spiCs = b.spiCs
  frame : k.frame.LosesFirst b.frame
  earlier : List.Forall₂ Frame.LosesFirst k.earlier b.earlier

namespace Bus.LosesFirst

variable {k b : Bus}

theorem start : Bus.start.LosesFirst Bus.start := ⟨rfl, ⟨rfl, rfl, rfl⟩, List.Forall₂.nil⟩

theorem clk160m (h : k.LosesFirst b) : (k.step .clk160m).LosesFirst (b.step .clk160m) := by
  refine ⟨h.spiCs, ?_, h.earlier⟩
  show (k.frame.tick k.spiCs).LosesFirst (b.frame.tick b.spiCs)
  rw [h.spiCs]
  exact h.frame.tick b.spiCs

/-- Events that both take. -/
theorem step (h : k.LosesFirst b) {e : Event}
    (hne : (TornEvent.single e).mosi? ≠ none → b.frame.bits ≠ []) :
    (k.step e).LosesFirst (b.step e) := by
  cases e with
  | spiClk mosi => exact ⟨h.spiCs, h.frame.bit (hne nofun) mosi, h.earlier⟩
  | clk160m => exact h.clk160m
  | spiCs level =>
    cases level with
    | true => exact ⟨rfl, h.frame, h.earlier⟩
    | false =>
      show (if k.spiCs then _ else _ : Bus).LosesFirst (if b.spiCs then _ else _)
      rw [h.spiCs]
      split_ifs
      · exact ⟨rfl, .fresh, .cons h.frame h.earlier⟩
      · exact h
  | resetN level => exact h

theorem stepTorn (h : k.LosesFirst b) {e : TornEvent}
    (hne : e.mosi? ≠ none → b.frame.bits ≠ []) : (k.stepTorn e).LosesFirst (b.stepTorn e) := by
  cases e with
  | single e => exact h.step hne
  | both mosi cntSel shtSel =>
    have hclk := h.clk160m
    exact ⟨hclk.spiCs, hclk.frame.bit (hne nofun) mosi, hclk.earlier⟩

/-- A first bit, alone or with an edge of `CLK160M`. -/
theorem lose (h : k.LosesFirst b) (hbits : b.frame.bits = []) (mosi : Bool) :
    k.LosesFirst (b.step (.spiClk mosi)) :=
  ⟨h.spiCs, h.frame.lose hbits mosi, h.earlier⟩

theorem highs (h : k.LosesFirst b) : k.highs = b.highs := by
  rw [Bus.highs, Bus.highs, h.frame.clks, h.frame.lows]

theorem earlier_eq_nil (h : k.LosesFirst b) : k.earlier = [] ↔ b.earlier = [] := by
  rw [← List.length_eq_zero_iff, h.earlier.length_eq, List.length_eq_zero_iff]

end Bus.LosesFirst

/-! ### The simulation -/

variable [LinearOrder T]

/-- The discipline under which the clear comes first, in edges of `CLK160M`. -/
def Bench.fine : Rules := ⟨5, 5, 5⟩

theorem Bench.allowed_loose {k : Bus} {e : TornEvent} (hok : k.AllowedTorn fine e) :
    k.AllowedTorn Rules.loose e := by
  match e, hok with
  | .single (.spiClk _), hok => exact hok
  | .single .clk160m, _ => exact trivial
  | .single (.spiCs true), hok => exact hok
  | .single (.spiCs false), ⟨hcs, hgap⟩ =>
    refine ⟨hcs, ?_⟩
    show (if k.earlier = [] then 0 else 2) ≤ k.highs
    have hgap : (if k.earlier = [] then 5 else 5) ≤ k.highs := hgap
    split_ifs at hgap ⊢ <;> omega
  | .both _ _ _, hok => exact hok

/-- The testbench at `b`, and the circuit `k` which is not given the lost bits. -/
structure Bench.Lossy (b : Bench T) (k : Sys) : Prop where
  timed : b.Timed
  /-- the second bit is not due before the clear is over -/
  nextSpi : b.sys.bus.spiCs = false → b.sys.bus.frame.bits ≠ [] →
    b.csTime + (spiSetup + spiPeriod) ≤ b.nextSpi
  bus : k.bus.LosesFirst b.sys.bus
  trg : k.trg = b.sys.trg
  shift : ShiftRefines k.bus k.trg
  torn : TornRefines k.bus k.trg
  cleared : k.trg.ClearedWhileLow

namespace Bench.Lossy

variable {b : Bench T} {k : Sys} {te : T × TornEvent}

theorem start {phase : T} (h0 : 0 ≤ phase) (h1 : phase ≤ clkPeriod) :
    (Bench.start phase).Lossy Sys.start where
  timed := Timed.start h0 h1
  nextSpi := nofun
  bus := Bus.LosesFirst.start
  trg := rfl
  shift := ShiftRefines.start
  torn := TornRefines.start
  cleared := nofun

variable [IsStrictOrderedRing T]

/-- After an edge of `SPI_CLK` the next one is due 10 ns later. -/
theorem nextSpi_bit (h : b.Lossy k) {t : T} (hcs : b.sys.bus.spiCs = false) (hdue : t = b.nextSpi) :
    b.csTime + (spiSetup + spiPeriod) ≤ t + spiPeriod := by
  have hpos : (0 : T) ≤ spiPeriod := by
    rw [spiPeriod]
    norm_num
  rw [hdue]
  by_cases hbits : b.sys.bus.frame.bits = []
  · rw [h.timed.nextSpi hcs hbits, add_assoc]
  · have hlate := h.nextSpi hcs hbits
    linarith

theorem nextSpi_step (h : b.Lossy k) (hok : b.Allowed te) :
    (b.step te).sys.bus.spiCs = false → (b.step te).sys.bus.frame.bits ≠ [] →
      (b.step te).csTime + (spiSetup + spiPeriod) ≤ (b.step te).nextSpi := by
  match te, hok with
  | (t, .single (.spiClk mosi)), ⟨_, _, hcs, hdue, _⟩ => exact fun _ _ => h.nextSpi_bit hcs hdue
  | (t, .single .clk160m), _ => exact h.nextSpi
  | (t, .single (.spiCs true)), _ =>
    intro hcs
    cases hcs
  | (t, .single (.spiCs false)), ⟨_, _, hcs, _⟩ =>
    intro _ hbits
    have hfresh : (b.step (t, .single (.spiCs false))).sys.bus.frame = Frame.fresh := by
      show (b.sys.bus.step (.spiCs false)).frame = Frame.fresh
      simp [Bus.step, hcs]
    rw [hfresh] at hbits
    exact absurd rfl hbits
  | (t, .both _ _ _), ⟨_, _, hcs, hdue, _⟩ => exact fun _ _ => h.nextSpi_bit hcs hdue

/-- **The second bit**: five edges of `CLK160M` at least after the fall. -/
theorem clks_of_later (h : b.Lossy k) {t : T} (hclk : t ≤ b.nextClk)
    (hcs : b.sys.bus.spiCs = false) (hdue : t = b.nextSpi) (hbits : b.sys.bus.frame.bits ≠ []) :
    5 ≤ b.sys.bus.frame.clks := by
  have hlate := h.nextSpi hcs hbits
  have hlast := (h.timed.low hcs).2
  rw [← hdue] at hlate
  unfold spiSetup spiPeriod at hlate
  unfold clkPeriod at hlast
  -- 35 ns are more than five and a half periods
  have h4 : (4 : T) < b.sys.bus.frame.clks := by linarith
  exact_mod_cast h4

/-- Without the first bits the clear comes first. -/
theorem allowed (h : b.Lossy k) (hok : b.Allowed te)
    (hne : te.2.mosi? ≠ none → b.sys.bus.frame.bits ≠ []) : k.bus.AllowedTorn fine te.2 := by
  have hcoarse := h.timed.allowed hok
  match te, hok, hne, hcoarse with
  | (t, .single (.spiClk mosi)), ⟨_, hclk, hcs, hdue, _⟩, hne, _ =>
    refine ⟨h.bus.spiCs.trans hcs, ?_⟩
    rw [h.bus.frame.clks]
    exact h.clks_of_later hclk hcs hdue (hne nofun)
  | (_, .single .clk160m), _, _, _ => exact trivial
  | (_, .single (.spiCs true)), _, _, hcs => exact h.bus.spiCs.trans hcs
  | (_, .single (.spiCs false)), _, _, ⟨hcs, hgap⟩ =>
    refine ⟨h.bus.spiCs.trans hcs, ?_⟩
    rw [h.bus.highs, if_congr h.bus.earlier_eq_nil rfl rfl]
    exact hgap
  | (t, .both mosi _ _), ⟨_, hclk, hcs, hdue, _⟩, hne, _ =>
    refine ⟨h.bus.spiCs.trans hcs, ?_⟩
    rw [h.bus.frame.clks]
    exact h.clks_of_later hclk hcs hdue (hne nofun)

/-- An event that both take. -/
theorem step_same (h : b.Lossy k) (hok : b.Allowed te)
    (hne : te.2.mosi? ≠ none → b.sys.bus.frame.bits ≠ []) :
    k.bus.AllowedTorn fine te.2 ∧ (b.step te).Lossy (k.stepTorn te.2) := by
  have hallowed := h.allowed hok hne
  refine ⟨hallowed, h.timed.step hok, h.nextSpi_step hok, ?_, ?_, ?_, ?_, ?_⟩
  · rw [sys_step]
    exact h.bus.stepTorn hne
  · rw [sys_step]
    exact congrArg (Trg.stepTorn · te.2) h.trg
  · exact h.shift.stepTorn (by decide) (by decide) hallowed
  · exact h.torn.step (allowed_loose hallowed)
  · exact k.trg.clearedWhileLow_stepTorn te.2

/-- At a first bit the clear is on. -/
theorem low_at_first (h : b.Lossy k) (hok : b.Allowed te) {mosi : Bool}
    (hbit : te.2.mosi? = some mosi) (hbits : b.sys.bus.frame.bits = []) :
    k.trg.cSpiResetN = false := by
  rw [h.trg, h.timed.sync.cSpiResetN, decide_eq_true (h.timed.clearing_at_first hok hbit hbits)]
  rfl

/-- A first bit alone. -/
theorem step_lost (h : b.Lossy k) {t : T} {mosi : Bool}
    (hok : b.Allowed (t, .single (.spiClk mosi))) (hbits : b.sys.bus.frame.bits = []) :
    (b.step (t, .single (.spiClk mosi))).Lossy k := by
  refine ⟨h.timed.step hok, h.nextSpi_step hok, h.bus.lose hbits mosi, ?_, h.shift, h.torn,
    h.cleared⟩
  have hlow := h.low_at_first hok rfl hbits
  have hsame := h.cleared.step_spiClk h.shift.sync.resetN hlow mosi
  show k.trg = b.sys.trg.step (.spiClk mosi)
  rw [← h.trg, hsame]

/-- A first bit with an edge of `CLK160M`. -/
theorem step_lost_both (h : b.Lossy k) {t : T} {mosi : Bool} {cntSel : BitVec 4}
    {shtSel : BitVec 8} (hok : b.Allowed (t, .both mosi cntSel shtSel))
    (hbits : b.sys.bus.frame.bits = []) :
    (b.step (t, .both mosi cntSel shtSel)).Lossy (k.stepTorn (.single .clk160m)) := by
  have hallowed : k.bus.AllowedTorn fine (.single .clk160m) := trivial
  refine ⟨h.timed.step hok, h.nextSpi_step hok, h.bus.clk160m.lose hbits mosi, ?_,
    h.shift.stepTorn (by decide) (by decide) hallowed, h.torn.step (allowed_loose hallowed),
    k.trg.clearedWhileLow_stepTorn _⟩
  have hlow := h.low_at_first hok rfl hbits
  have hsame := h.cleared.stepTorn_both hlow mosi cntSel shtSel
  show k.trg.step .clk160m = b.sys.trg.stepTorn (.both mosi cntSel shtSel)
  rw [← h.trg, hsame]

/-- **Step lemma**: what is kept of an event. -/
theorem step_kept (h : b.Lossy k) (hok : b.Allowed te) {e : TornEvent}
    (hkept : b.kept te = some e) :
    k.bus.AllowedTorn fine e ∧ (b.step te).Lossy (k.stepTorn e) := by
  unfold Bench.kept at hkept
  split_ifs at hkept with hbits
  · match te, hok, hkept with
    | (_, .single .clk160m), hok, rfl => exact h.step_same hok fun hne => absurd rfl hne
    | (_, .single (.spiCs _)), hok, rfl => exact h.step_same hok fun hne => absurd rfl hne
    | (_, .single (.resetN _)), hok, rfl => exact h.step_same hok fun hne => absurd rfl hne
    | (_, .both _ _ _), hok, rfl => exact ⟨trivial, h.step_lost_both hok hbits⟩
  · obtain rfl := Option.some.inj hkept
    exact h.step_same hok fun _ => hbits

/-- Nothing is kept of a first bit alone. -/
theorem step_not_kept (h : b.Lossy k) (hok : b.Allowed te) (hlost : b.kept te = none) :
    (b.step te).Lossy k := by
  unfold Bench.kept at hlost
  split_ifs at hlost with hbits
  match te, hok, hlost with
  | (_, .single (.spiClk _)), hok, _ => exact h.step_lost hok hbits

end Bench.Lossy

/-- **The bit that is lost.**  Take a run of the testbench and leave out the first edge of `SPI_CLK`
of every frame.  What is left has at least five edges of `CLK160M` before the first bit of each
frame, `ptmch_trg` ends in the same state, its shift register holds the first eight of the bits that
are left, and from the first edge of `CLK160M` after the eighth of them on `ar_inst_chk` has the
opcode of the latest complete one of these frames. -/
theorem run_eq_keptEvents [IsStrictOrderedRing T] {phase : T} {es : List (T × TornEvent)}
    (hrun : OnTime phase es) :
    let b := (run Bench.step (Bench.start phase) es).sys
    let k := Sys.afterTorn (keptEvents phase es)
    WellFormedTorn Bench.fine (keptEvents phase es) ∧ k.bus.LosesFirst b.bus ∧ b.trg = k.trg ∧
      (¬ b.bus.frame.Untouched b.bus.frame.clks →
        b.trg.srInstCnt = BitVec.ofNat 4 (min 8 k.bus.frame.bits.length) ∧
        b.trg.srInstSht = opcode k.bus.frame.bits) ∧
      (1 ≤ sinceOpcode (k.bus.frame :: k.bus.earlier) →
        b.trg.arInstChk = latestOpcode (k.bus.frame :: k.bus.earlier)) := by
  intro b k
  obtain ⟨h0, h1, hok⟩ := hrun
  obtain ⟨hallowed, hlossy⟩ :
      Along Sys.stepTorn (fun y e => y.bus.AllowedTorn Bench.fine e) Sys.start
          (keptEvents phase es) ∧
        Bench.Lossy (run Bench.step (Bench.start phase) es) k :=
    simulates_observe (fun _ _ _ h ho hlost => h.step_not_kept ho hlost)
      (fun _ _ _ _ h ho hkept => h.step_kept ho hkept) (Bench.Lossy.start h0 h1) hok
  have htrg : b.trg = k.trg := hlossy.trg.symm
  have hwf : WellFormedTorn Bench.fine (keptEvents phase es) :=
    (Sys.along_busTorn (Bus.AllowedTorn Bench.fine) _).mp hallowed
  have hbus : k.bus.LosesFirst b.bus := hlossy.bus
  refine ⟨hwf, hbus, htrg, fun hu => ?_, fun hsince => ?_⟩
  · have hu' : ¬ k.bus.frame.Untouched k.bus.frame.clks := by
      rw [Frame.Untouched, hbus.frame.clks, hbus.frame.lows]
      exact hu
    rw [htrg]
    exact ⟨hlossy.shift.cnt hu', hlossy.shift.sht hu'⟩
  · rw [htrg]
    exact hlossy.torn.filtered.chk_eq hsince

/-- The byte 03, a zero and an edge of `CLK160M` after it.  The first edge of `SPI_CLK` coincides
with one of `CLK160M`, and so does the sixth. -/
def lostRun : List (ℚ × TornEvent) :=
  withClk160m 50 0
    (transaction 100 [false, false, false, false, false, false, true, true, false])

/-- Without its first bit it is the opcode 06. -/
theorem lostRun_kept :
    let b := (run Bench.step (Bench.start 0) lostRun).sys
    (125, .both false 0 0) ∈ lostRun ∧ b.bus.frame.bits.length = 9 ∧
      b.trg.arInstChk = pWriteenable := by
  have hrun : OnTime 0 lostRun := by decide +kernel
  have hkept := run_eq_keptEvents hrun
  refine ⟨by decide +kernel, by decide +kernel, ?_⟩
  rw [hkept.2.2.2.2 (by decide +kernel)]
  decide +kernel

end Ptmch
