import Mathlib.Tactic.IntervalCases
import Ptmch.Trg.Basic

/-!
# What one event does to each register

With `RESET_N` high, an edge of `CLK160M` loads each register of that clock.  The registers under
`c_spi_reset_n` load only if `c_spi_reset_n` is high before the edge and still high after it
(`spiResetNNext`); otherwise they are `0`.
-/

namespace Ptmch.Trg

variable {s : Trg}

/-! ### Wires -/

theorem cInstMch_eq (s : Trg) :
    s.cInstMch = decide (s.srInstChk3d = pPageprogram ∨ s.srInstChk3d = pWriteenable) := by
  unfold cInstMch
  by_cases h2 : s.srInstChk3d = pPageprogram <;> by_cases h6 : s.srInstChk3d = pWriteenable <;>
    simp [h2, h6]

theorem nTrgPls_eq (s : Trg) : s.nTrgPls = decide (s.srPlsCnt.toNat < 15) := by
  unfold nTrgPls
  have := s.srPlsCnt.isLt
  generalize s.srPlsCnt.toNat = n at *
  interval_cases n <;> rfl

/-- The pulse counter restarts, or counts up to 15 and stays there. -/
theorem srPlsCntNext_toNat (s : Trg) :
    s.srPlsCntNext.toNat = if s.cInstEdge then 0 else min 15 (s.srPlsCnt.toNat + 1) := by
  have hlt := s.srPlsCnt.isLt
  unfold srPlsCntNext
  split_ifs with he h15
  · rfl
  · rw [h15]
    rfl
  · have hne : s.srPlsCnt.toNat ≠ 15 := fun h => h15 (BitVec.eq_of_toNat_eq h)
    rw [BitVec.toNat_add, show (1 : BitVec 4).toNat = 1 from rfl]
    omega

/-- `c_spi_reset_n` after the next edge of `CLK160M`, while `RESET_N` is high. -/
def spiResetNNext (s : Trg) : Bool := !(!s.srSpiCs2d && s.srCsSyncSft1)

theorem cSpiResetN_eq (h : s.resetN = true) :
    s.cSpiResetN = !(!s.srCsSync && s.srCsSyncSft2) := by
  simp [cSpiResetN, cCsEdge, h]

theorem cSpiResetN_eq_false_iff (h : s.resetN = true) :
    s.cSpiResetN = false ↔ s.srCsSync = false ∧ s.srCsSyncSft2 = true := by
  rw [cSpiResetN_eq h]
  simp

/-! ### An edge of `CLK160M` -/

theorem clear_eq (h : s.resetN = true) : s.clear = s.negedgeSpiResetN := by
  rw [clear, negedgeResetN, if_pos h]

theorem cSpiResetN_posedgeClk160m (h : s.resetN = true) (cnt : BitVec 4) (sht : BitVec 8) :
    (s.posedgeClk160m cnt sht).cSpiResetN = s.spiResetNNext := by
  simp [cSpiResetN, cCsEdge, posedgeClk160m, ff, h, spiResetNNext]

/-- The registers that `RESET_N` alone resets. -/
theorem step_clk_free (h : s.resetN = true) :
    (s.step .clk160m).resetN = true ∧
    (s.step .clk160m).spiCs = s.spiCs ∧
    (s.step .clk160m).arSpiCs1d = s.spiCs ∧
    (s.step .clk160m).srSpiCs2d = s.arSpiCs1d ∧
    (s.step .clk160m).srCsSync = s.srSpiCs2d ∧
    (s.step .clk160m).srCsSyncSft1 = s.srCsSync ∧
    (s.step .clk160m).srCsSyncSft2 = s.srCsSyncSft1 ∧
    (s.step .clk160m).arInstChk = s.arInstChkNext s.srInstCnt s.srInstSht ∧
    (s.step .clk160m).srPlsCnt = s.srPlsCntNext := by
  have hr : (s.posedgeClk160m s.srInstCnt s.srInstSht).resetN = true := h
  rw [step, edge, clear_eq hr, negedgeSpiResetN]
  split_ifs <;> simp [posedgeClk160m, ff, h]

/-- The registers under `c_spi_reset_n`. -/
theorem step_clk_gated (h : s.resetN = true) :
    (s.step .clk160m).srInstSht = (if s.spiResetNNext then s.srInstSht else 0) ∧
    (s.step .clk160m).srInstCnt = (if s.spiResetNNext then s.srInstCnt else 0) ∧
    (s.step .clk160m).srInstChk1d
      = (if s.cSpiResetN && s.spiResetNNext then s.arInstChk else 0) ∧
    (s.step .clk160m).srInstChk2d
      = (if s.cSpiResetN && s.spiResetNNext then s.srInstChk1d else 0) ∧
    (s.step .clk160m).srInstChk3d
      = (if s.cSpiResetN && s.spiResetNNext then s.srInstChk3dNext else 0) ∧
    (s.step .clk160m).arInstMchSft1
      = (if s.cSpiResetN && s.spiResetNNext then s.cInstMch else false) ∧
    (s.step .clk160m).srInstMchSft2
      = (if s.cSpiResetN && s.spiResetNNext then s.arInstMchSft1 else false) := by
  have hr : (s.posedgeClk160m s.srInstCnt s.srInstSht).resetN = true := h
  rw [step, edge, clear_eq hr, negedgeSpiResetN, cSpiResetN_posedgeClk160m h]
  cases s.spiResetNNext <;> cases hc : s.cSpiResetN <;> simp [posedgeClk160m, ff, hc]

theorem step_clk_cSpiResetN (h : s.resetN = true) :
    (s.step .clk160m).cSpiResetN = s.spiResetNNext := by
  obtain ⟨hr, -, -, -, hs, -, hf, -⟩ := step_clk_free h
  rw [cSpiResetN_eq hr, hs, hf, spiResetNNext]

/-! ### The other events -/

/-- An edge of `SPI_CLK` changes no register of the other clock. -/
theorem step_spiClk_free (h : s.resetN = true) (mosi : Bool) :
    (s.step (.spiClk mosi)).resetN = true ∧
    (s.step (.spiClk mosi)).spiCs = s.spiCs ∧
    (s.step (.spiClk mosi)).arSpiCs1d = s.arSpiCs1d ∧
    (s.step (.spiClk mosi)).srSpiCs2d = s.srSpiCs2d ∧
    (s.step (.spiClk mosi)).srCsSync = s.srCsSync ∧
    (s.step (.spiClk mosi)).srCsSyncSft1 = s.srCsSyncSft1 ∧
    (s.step (.spiClk mosi)).srCsSyncSft2 = s.srCsSyncSft2 ∧
    (s.step (.spiClk mosi)).arInstChk = s.arInstChk ∧
    (s.step (.spiClk mosi)).srPlsCnt = s.srPlsCnt := by
  have hr : (s.posedgeSpiClk mosi).resetN = true := h
  rw [step, edge, clear_eq hr, negedgeSpiResetN]
  split_ifs <;> simp [posedgeSpiClk, h]

theorem step_spiClk_gated (h : s.resetN = true) (mosi : Bool) :
    (s.step (.spiClk mosi)).srInstSht = (if s.cSpiResetN then s.srInstShtNext mosi else 0) ∧
    (s.step (.spiClk mosi)).srInstCnt = (if s.cSpiResetN then s.srInstCntNext else 0) ∧
    (s.step (.spiClk mosi)).srInstChk1d = (if s.cSpiResetN then s.srInstChk1d else 0) ∧
    (s.step (.spiClk mosi)).srInstChk2d = (if s.cSpiResetN then s.srInstChk2d else 0) ∧
    (s.step (.spiClk mosi)).srInstChk3d = (if s.cSpiResetN then s.srInstChk3d else 0) ∧
    (s.step (.spiClk mosi)).arInstMchSft1 = (if s.cSpiResetN then s.arInstMchSft1 else false) ∧
    (s.step (.spiClk mosi)).srInstMchSft2 = (if s.cSpiResetN then s.srInstMchSft2 else false) := by
  have hr : (s.posedgeSpiClk mosi).resetN = true := h
  have hc : (s.posedgeSpiClk mosi).cSpiResetN = s.cSpiResetN := rfl
  rw [step, edge, clear_eq hr, negedgeSpiResetN, hc]
  cases hc' : s.cSpiResetN <;> simp [posedgeSpiClk, ff, hc']

theorem step_spiClk_cSpiResetN (h : s.resetN = true) (mosi : Bool) :
    (s.step (.spiClk mosi)).cSpiResetN = s.cSpiResetN := by
  obtain ⟨hr, -, -, -, hs, -, hf, -⟩ := step_spiClk_free h mosi
  rw [cSpiResetN_eq hr, cSpiResetN_eq h, hs, hf]

/-- A change of `SPI_CS` changes no register. -/
theorem step_spiCs_free (h : s.resetN = true) (level : Bool) :
    (s.step (.spiCs level)).resetN = true ∧
    (s.step (.spiCs level)).spiCs = level ∧
    (s.step (.spiCs level)).arSpiCs1d = s.arSpiCs1d ∧
    (s.step (.spiCs level)).srSpiCs2d = s.srSpiCs2d ∧
    (s.step (.spiCs level)).srCsSync = s.srCsSync ∧
    (s.step (.spiCs level)).srCsSyncSft1 = s.srCsSyncSft1 ∧
    (s.step (.spiCs level)).srCsSyncSft2 = s.srCsSyncSft2 ∧
    (s.step (.spiCs level)).arInstChk = s.arInstChk ∧
    (s.step (.spiCs level)).srPlsCnt = s.srPlsCnt := by
  have hr : ({ s with spiCs := level } : Trg).resetN = true := h
  rw [step, edge, clear_eq hr, negedgeSpiResetN]
  split_ifs <;> simp [h]

/-- The registers under `c_spi_reset_n` stay `0` where it is low. -/
theorem step_spiCs_gated (h : s.resetN = true) (level : Bool) :
    (s.step (.spiCs level)).srInstSht = (if s.cSpiResetN then s.srInstSht else 0) ∧
    (s.step (.spiCs level)).srInstCnt = (if s.cSpiResetN then s.srInstCnt else 0) ∧
    (s.step (.spiCs level)).srInstChk1d = (if s.cSpiResetN then s.srInstChk1d else 0) ∧
    (s.step (.spiCs level)).srInstChk2d = (if s.cSpiResetN then s.srInstChk2d else 0) ∧
    (s.step (.spiCs level)).srInstChk3d = (if s.cSpiResetN then s.srInstChk3d else 0) ∧
    (s.step (.spiCs level)).arInstMchSft1 = (if s.cSpiResetN then s.arInstMchSft1 else false) ∧
    (s.step (.spiCs level)).srInstMchSft2 = (if s.cSpiResetN then s.srInstMchSft2 else false) := by
  have hr : ({ s with spiCs := level } : Trg).resetN = true := h
  have hc : ({ s with spiCs := level } : Trg).cSpiResetN = s.cSpiResetN := rfl
  rw [step, edge, clear_eq hr, negedgeSpiResetN, hc]
  cases s.cSpiResetN <;> simp

theorem step_spiCs_cSpiResetN (h : s.resetN = true) (level : Bool) :
    (s.step (.spiCs level)).cSpiResetN = s.cSpiResetN := by
  obtain ⟨hr, -, -, -, hs, -, hf, -⟩ := step_spiCs_free h level
  rw [cSpiResetN_eq hr, cSpiResetN_eq h, hs, hf]

/-! ### The whole state -/

theorem step_clk_eq (h : s.resetN = true) :
    s.step .clk160m =
      let gate := s.cSpiResetN && s.spiResetNNext
      { s with
        srInstSht := if s.spiResetNNext then s.srInstSht else 0
        srInstCnt := if s.spiResetNNext then s.srInstCnt else 0
        arInstCnt1d := if gate then s.srInstCnt else 0
        srInstCnt2d := if gate then s.arInstCnt1d else 0
        srInstCnt3d := if gate then s.srInstCnt2d else 0
        srInstCnt4d := if gate then s.srInstCnt4dNext else 0
        arInstChk := s.arInstChkNext s.srInstCnt s.srInstSht
        srInstChk1d := if gate then s.arInstChk else 0
        srInstChk2d := if gate then s.srInstChk1d else 0
        srInstChk3d := if gate then s.srInstChk3dNext else 0
        arInstMchSft1 := if gate then s.cInstMch else false
        srInstMchSft2 := if gate then s.arInstMchSft1 else false
        srPlsCnt := s.srPlsCntNext
        arSpiCs1d := s.spiCs
        srSpiCs2d := s.arSpiCs1d
        srCsSync := s.srSpiCs2d
        srCsSyncSft1 := s.srCsSync
        srCsSyncSft2 := s.srCsSyncSft1 } := by
  have hr : (s.posedgeClk160m s.srInstCnt s.srInstSht).resetN = true := h
  rw [step, edge, clear_eq hr, negedgeSpiResetN, cSpiResetN_posedgeClk160m h]
  cases s.spiResetNNext <;> cases hc : s.cSpiResetN <;> simp [posedgeClk160m, ff, hc, h]

/-- The registers under `c_spi_reset_n` at `0`. -/
def spiCleared (s : Trg) : Trg :=
  { s with
    srInstSht := 0
    srInstCnt := 0
    arInstCnt1d := 0
    srInstCnt2d := 0
    srInstCnt3d := 0
    srInstCnt4d := 0
    srInstChk1d := 0
    srInstChk2d := 0
    srInstChk3d := 0
    arInstMchSft1 := false
    srInstMchSft2 := false }

/-- An edge of `SPI_CLK` or a change of `SPI_CS`. -/
theorem step_other_eq (h : s.resetN = true) {e : Event} (hclk : e ≠ .clk160m)
    (hreset : ∀ level, e ≠ .resetN level) :
    s.step e = if s.cSpiResetN then s.edge e else (s.edge e).spiCleared := by
  have hr : (s.edge e).resetN = true := by
    cases e with
    | clk160m => exact absurd rfl hclk
    | resetN level => exact absurd rfl (hreset level)
    | _ => exact h
  have hc : (s.edge e).cSpiResetN = s.cSpiResetN := by
    cases e with
    | clk160m => exact absurd rfl hclk
    | resetN level => exact absurd rfl (hreset level)
    | _ => rfl
  rw [step, clear_eq hr, negedgeSpiResetN, hc]
  rfl

/-! ### Coinciding edges -/

/-- Both clock edges at once load the registers behind `SPI_CS` as an edge of `CLK160M` does. -/
theorem stepTorn_both_sync (h : s.resetN = true) (mosi : Bool) (cntSel : BitVec 4)
    (shtSel : BitVec 8) :
    (s.stepTorn (.both mosi cntSel shtSel)).resetN = (s.step .clk160m).resetN ∧
    (s.stepTorn (.both mosi cntSel shtSel)).spiCs = (s.step .clk160m).spiCs ∧
    (s.stepTorn (.both mosi cntSel shtSel)).arSpiCs1d = (s.step .clk160m).arSpiCs1d ∧
    (s.stepTorn (.both mosi cntSel shtSel)).srSpiCs2d = (s.step .clk160m).srSpiCs2d ∧
    (s.stepTorn (.both mosi cntSel shtSel)).srCsSync = (s.step .clk160m).srCsSync ∧
    (s.stepTorn (.both mosi cntSel shtSel)).srCsSyncSft1 = (s.step .clk160m).srCsSyncSft1 ∧
    (s.stepTorn (.both mosi cntSel shtSel)).srCsSyncSft2 = (s.step .clk160m).srCsSyncSft2 := by
  obtain ⟨g1, g2, g3, g4, g5, g6, g7, -⟩ := step_clk_free h
  rw [g1, g2, g3, g4, g5, g6, g7]
  have hr : (s.posedgeBoth mosi cntSel shtSel).resetN = true := h
  rw [stepTorn, clear_eq hr, negedgeSpiResetN]
  split_ifs <;> simp [posedgeBoth, posedgeClk160m, ff, h]

/-- Where nothing is cleared, both clock edges at once do what an edge of `CLK160M` and then one of
`SPI_CLK` do, except for the two registers that load torn values. -/
theorem stepTorn_both (h : s.resetN = true) (hc : s.cSpiResetN = true)
    (hn : s.spiResetNNext = true) (mosi : Bool) (cntSel : BitVec 4) (shtSel : BitVec 8) :
    s.stepTorn (.both mosi cntSel shtSel)
      = { (s.step .clk160m).step (.spiClk mosi) with
          arInstCnt1d := torn cntSel s.srInstCnt s.srInstCntNext
          arInstChk := s.arInstChkNext (torn cntSel s.srInstCnt s.srInstCntNext)
            (torn shtSel s.srInstSht (s.srInstShtNext mosi)) } := by
  have hboth : s.stepTorn (.both mosi cntSel shtSel) = s.posedgeBoth mosi cntSel shtSel := by
    have hr : (s.posedgeBoth mosi cntSel shtSel).resetN = true := h
    have hc' : (s.posedgeBoth mosi cntSel shtSel).cSpiResetN = true := by
      rw [← hn, ← cSpiResetN_posedgeClk160m h s.srInstCnt s.srInstSht]
      rfl
    rw [stepTorn, clear_eq hr, negedgeSpiResetN, if_pos hc']
  have hclk : s.step .clk160m = s.posedgeClk160m s.srInstCnt s.srInstSht := by
    have hr : (s.posedgeClk160m s.srInstCnt s.srInstSht).resetN = true := h
    rw [step, edge, clear_eq hr, negedgeSpiResetN, cSpiResetN_posedgeClk160m h, if_pos hn]
  have hspi : (s.step .clk160m).step (.spiClk mosi)
      = (s.posedgeClk160m s.srInstCnt s.srInstSht).posedgeSpiClk mosi := by
    have hr : ((s.posedgeClk160m s.srInstCnt s.srInstSht).posedgeSpiClk mosi).resetN = true := h
    have hc' : ((s.posedgeClk160m s.srInstCnt s.srInstSht).posedgeSpiClk mosi).cSpiResetN
        = true := by
      rw [← hn, ← cSpiResetN_posedgeClk160m h s.srInstCnt s.srInstSht]
      rfl
    rw [hclk, step, edge, clear_eq hr, negedgeSpiResetN, if_pos hc']
  have hhigh : (s.posedgeClk160m s.srInstCnt s.srInstSht).cSpiResetN = true := by
    rw [cSpiResetN_posedgeClk160m h, hn]
  rw [hboth, hspi, posedgeBoth, posedgeSpiClk, posedgeSpiClk, hhigh]
  simp only [posedgeClk160m, ff, h, hc, if_true]
  rfl

end Ptmch.Trg
