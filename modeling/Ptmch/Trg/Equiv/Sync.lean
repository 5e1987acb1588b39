import Ptmch.Trg.Frame
import Ptmch.Trg.Step
import Ptmch.Trg.Torn

/-!
# The synchroniser of `SPI_CS`

With `SPI_CS` high for at least five edges of `CLK160M` before every fall, the five registers behind
`SPI_CS` hold the last five samples of the current frame (`SyncRefines`), and `c_spi_reset_n` is low
exactly while the frame is `Clearing` (`SyncRefines.cSpiResetN`).  Nothing is assumed here on when
`SPI_CLK` toggles while `SPI_CS` is low.
-/

namespace Ptmch

open Trg

namespace Frame

theorem csAt_fresh (i : ℕ) : fresh.csAt i = true := by simp [csAt, fresh]

theorem csAt_of_highs {f : Frame} {i : ℕ} (h : f.lows + i < f.clks) : f.csAt i = true := by
  simp only [csAt, Bool.not_eq_true', decide_eq_false_iff_not]
  omega

/-- An edge of `CLK160M` shifts the samples. -/
theorem csAt_tick_succ {f : Frame} {cs : Bool} (h : cs = false → f.lows = f.clks) (i : ℕ) :
    (f.tick cs).csAt (i + 1) = f.csAt i := by
  unfold csAt tick
  congr 1
  cases cs with
  | true => simp
  | false =>
    have := h rfl
    simp only [Bool.false_eq_true, if_false, decide_eq_decide]
    omega

theorem csAt_tick_zero {f : Frame} {cs : Bool} (hle : f.lows ≤ f.clks)
    (h : cs = false → f.lows = f.clks) : (f.tick cs).csAt 0 = cs := by
  unfold csAt tick
  cases cs with
  | true =>
    simp only [if_true, Bool.not_eq_true', decide_eq_false_iff_not]
    omega
  | false => simp [h rfl]

/-- `c_cs_edge` is high exactly while the frame clears. -/
theorem csEdge_iff_clearing (f : Frame) : (!f.csAt 2 && f.csAt 4) = decide f.Clearing := by
  rw [Bool.eq_iff_iff, decide_eq_true_eq]
  simp only [csAt, Clearing, window, Bool.and_eq_true, Bool.not_not, Bool.not_eq_true',
    decide_eq_true_eq, decide_eq_false_iff_not]
  omega

end Frame

namespace Bus

variable {r : Rules} {b : Bus}

/-- An edge of `SPI_CLK` that coincides with one of `CLK160M` may also come after it. -/
theorem allowed_both {mosi : Bool} (hok : b.Allowed r (.spiClk mosi)) :
    (b.step .clk160m).Allowed r (.spiClk mosi) :=
  ⟨hok.1, Nat.le_succ_of_le hok.2⟩

theorem placed_stepTorn (h : b.Placed) {e : TornEvent} (hok : b.AllowedTorn r e) :
    (b.stepTorn e).Placed := by
  match e, hok with
  | .single e, hok => exact placed_step h hok
  | .both mosi cntSel shtSel, hok =>
    have hclk : (b.step .clk160m).Placed := placed_step (r := r) (e := .clk160m) h trivial
    exact placed_step hclk (allowed_both hok)

end Bus

/-- The registers behind `SPI_CS` hold the last five samples of the frame. -/
structure SyncRefines (b : Bus) (s : Trg) : Prop where
  resetN : s.resetN = true
  spiCs : s.spiCs = b.spiCs
  spiCs1d : s.arSpiCs1d = b.frame.csAt 0
  spiCs2d : s.srSpiCs2d = b.frame.csAt 1
  sync : s.srCsSync = b.frame.csAt 2
  sft1 : s.srCsSyncSft1 = b.frame.csAt 3
  sft2 : s.srCsSyncSft2 = b.frame.csAt 4

namespace SyncRefines

variable {b : Bus} {s : Trg} {r : Rules} {e : Event}

theorem start : SyncRefines Bus.start Trg.start := ⟨rfl, rfl, rfl, rfl, rfl, rfl, rfl⟩

/-- **The clear**: `c_spi_reset_n` is low exactly while the frame is clearing. -/
theorem cSpiResetN (h : SyncRefines b s) : s.cSpiResetN = !decide b.frame.Clearing := by
  rw [cSpiResetN_eq h.resetN, h.sync, h.sft2, Frame.csEdge_iff_clearing]

/-- A fall of `SPI_CS` after five high samples finds the synchroniser high throughout. -/
theorem csAt_of_fall (h5 : 5 ≤ r.first ∧ 5 ≤ r.gap) (hok : b.Allowed r (.spiCs false)) {i : ℕ}
    (hi : i < 5) : b.frame.csAt i = true := by
  obtain ⟨-, hgap⟩ := hok
  refine Frame.csAt_of_highs ?_
  unfold Bus.highs at hgap
  split_ifs at hgap <;> omega

theorem step (h5 : 5 ≤ r.first ∧ 5 ≤ r.gap) (hb : b.Placed) (h : SyncRefines b s)
    (hok : b.Allowed r e) : SyncRefines (b.step e) (s.step e) := by
  match e, hok with
  | .spiClk mosi, _ =>
    obtain ⟨h1, h2, h3, h4, h5, h6, h7, -⟩ := step_spiClk_free h.resetN mosi
    exact ⟨h1, h2.trans h.spiCs, h3.trans h.spiCs1d, h4.trans h.spiCs2d, h5.trans h.sync,
      h6.trans h.sft1, h7.trans h.sft2⟩
  | .clk160m, _ =>
    have hlow : b.spiCs = false → b.frame.lows = b.frame.clks := hb.lows_eq
    obtain ⟨h1, h2, h3, h4, h5, h6, h7, -⟩ := step_clk_free h.resetN
    refine ⟨h1, h2.trans h.spiCs, ?_, ?_, ?_, ?_, ?_⟩
    · rw [h3, h.spiCs]; exact (Frame.csAt_tick_zero hb.lows_le hlow).symm
    · rw [h4, h.spiCs1d]; exact (Frame.csAt_tick_succ hlow 0).symm
    · rw [h5, h.spiCs2d]; exact (Frame.csAt_tick_succ hlow 1).symm
    · rw [h6, h.sync]; exact (Frame.csAt_tick_succ hlow 2).symm
    · rw [h7, h.sft1]; exact (Frame.csAt_tick_succ hlow 3).symm
  | .spiCs true, _ =>
    obtain ⟨h1, h2, h3, h4, h5, h6, h7, -⟩ := step_spiCs_free h.resetN true
    exact ⟨h1, h2, h3.trans h.spiCs1d, h4.trans h.spiCs2d, h5.trans h.sync, h6.trans h.sft1,
      h7.trans h.sft2⟩
  | .spiCs false, hok =>
    obtain ⟨h1, h2, h3, h4, h5', h6, h7, -⟩ := step_spiCs_free h.resetN false
    have hall : ∀ i < 5, b.frame.csAt i = true := fun i hi => csAt_of_fall h5 hok hi
    have hbus : b.step (.spiCs false) = ⟨false, Frame.fresh, b.frame :: b.earlier⟩ := by
      simp [Bus.step, hok.1]
    rw [hbus]
    refine ⟨h1, h2, ?_, ?_, ?_, ?_, ?_⟩
    · rw [h3, h.spiCs1d, hall 0 (by omega), Frame.csAt_fresh]
    · rw [h4, h.spiCs2d, hall 1 (by omega), Frame.csAt_fresh]
    · rw [h5', h.sync, hall 2 (by omega), Frame.csAt_fresh]
    · rw [h6, h.sft1, hall 3 (by omega), Frame.csAt_fresh]
    · rw [h7, h.sft2, hall 4 (by omega), Frame.csAt_fresh]

/-- With coinciding edges: the `CLK160M` side takes its samples as it does alone. -/
theorem stepTorn (h5 : 5 ≤ r.first ∧ 5 ≤ r.gap) (hb : b.Placed) (h : SyncRefines b s)
    {e : TornEvent} (hok : b.AllowedTorn r e) : SyncRefines (b.stepTorn e) (s.stepTorn e) := by
  match e, hok with
  | .single e, hok => exact h.step h5 hb hok
  | .both mosi cntSel shtSel, _ =>
    have hclk : SyncRefines (b.step .clk160m) (s.step .clk160m) :=
      step (r := r) (e := .clk160m) h5 hb h trivial
    obtain ⟨g1, g2, g3, g4, g5, g6, g7⟩ := stepTorn_both_sync h.resetN mosi cntSel shtSel
    exact ⟨g1.trans hclk.resetN, g2.trans hclk.spiCs, g3.trans hclk.spiCs1d,
      g4.trans hclk.spiCs2d, g5.trans hclk.sync, g6.trans hclk.sft1, g7.trans hclk.sft2⟩

end SyncRefines

end Ptmch
