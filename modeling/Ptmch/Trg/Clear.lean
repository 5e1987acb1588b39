import Ptmch.Trg.Step

/-!
# Clears

What holds of the registers under `c_spi_reset_n` in every run from reset, with nothing assumed on
the bus or on `RESET_N`: they are cleared while `c_spi_reset_n` is low (`cleared_of_low`), still
cleared after the event that makes it high again (`Cleared.step`), and load as their clocks say from
then on (`step_high`).  A release of `RESET_N` finds all registers at their reset values
(`run_release`).
-/

namespace Ptmch

open Machine

namespace Trg

/-! ### The clear -/

/-- The registers from `sr_inst_cnt` to `sr_inst_mch_sft2` hold their reset values. -/
structure Cleared (s : Trg) : Prop where
  cnt : s.srInstCnt = 0
  chk1d : s.srInstChk1d = 0
  chk2d : s.srInstChk2d = 0
  chk3d : s.srInstChk3d = 0
  mchSft1 : s.arInstMchSft1 = false
  mchSft2 : s.srInstMchSft2 = false

variable {s : Trg} {e : Event}

theorem cleared_clear (h : s.clear.cSpiResetN = false) : s.clear.Cleared := by
  have hlow : s.negedgeResetN.cSpiResetN = false := by
    by_contra hhigh
    rw [clear, negedgeSpiResetN, if_pos (by simpa using hhigh)] at h
    exact hhigh h
  rw [clear, negedgeSpiResetN, if_neg (by simp [hlow])]
  exact ⟨rfl, rfl, rfl, rfl, rfl, rfl⟩

/-- Whatever happened since reset: while `c_spi_reset_n` is low its registers are cleared. -/
theorem cleared_of_low {resetN cs : Bool} (es : List Event)
    (h : (run step (reset resetN cs) es).cSpiResetN = false) :
    (run step (reset resetN cs) es).Cleared := by
  induction es using List.reverseRecOn with
  | nil => exact ⟨rfl, rfl, rfl, rfl, rfl, rfl⟩
  | append_singleton es e _ =>
    rw [run_concat] at h ⊢
    exact cleared_clear h

theorem resetN_of_high (h : s.cSpiResetN = true) : s.resetN = true :=
  (Bool.and_eq_true_iff.mp h).2

theorem step_resetN (s : Trg) : ∀ e, (∀ level, e ≠ .resetN level) → (s.step e).resetN = s.resetN
  | .spiClk _, _ => by
    rw [step, clear, negedgeSpiResetN, negedgeResetN]
    split_ifs <;> rfl
  | .clk160m, _ => by
    rw [step, clear, negedgeSpiResetN, negedgeResetN]
    split_ifs <;> rfl
  | .spiCs _, _ => by
    rw [step, clear, negedgeSpiResetN, negedgeResetN]
    split_ifs <;> rfl
  | .resetN level, h => absurd rfl (h level)

theorem step_resetN_level (s : Trg) (level : Bool) : (s.step (.resetN level)).resetN = level := by
  rw [step, clear, negedgeSpiResetN, negedgeResetN]
  split_ifs <;> rfl

/-! ### Release of `RESET_N` -/

/-- While `RESET_N` is low all registers hold their reset values. -/
theorem clear_of_resetN_low (h : s.clear.resetN = false) : s.clear = reset false s.clear.spiCs := by
  have hlow : s.resetN = false := by
    rw [clear, negedgeSpiResetN, negedgeResetN] at h
    split_ifs at h <;> exact h
  have hc : s.negedgeResetN.cSpiResetN = false := by
    rw [negedgeResetN, if_neg (by simp [hlow])]
    simp [cSpiResetN, hlow]
  rw [clear, negedgeSpiResetN, if_neg (by simp [hc]), negedgeResetN, if_neg (by simp [hlow])]
  simp [reset, hlow]

/-- **Release of reset**, whatever happened before it. -/
theorem run_release {resetN cs : Bool} (pre : List Event)
    (hlow : (run step (reset resetN cs) pre).resetN = false) :
    run step (reset resetN cs) (pre ++ [.resetN true]) =
      reset true (run step (reset resetN cs) pre).spiCs := by
  have hreset : run step (reset resetN cs) pre =
      reset false (run step (reset resetN cs) pre).spiCs := by
    induction pre using List.reverseRecOn with
    | nil =>
      obtain rfl : resetN = false := hlow
      rfl
    | append_singleton pre e _ =>
      rw [run_concat] at hlow ⊢
      exact clear_of_resetN_low hlow
  rw [run_concat, hreset]
  cases (run step (reset resetN cs) pre).spiCs <;> rfl

/-! ### Steps that do not clear -/

/-- What an event does to the registers between the counter and `c_inst_edge`, if `c_spi_reset_n` is
high before it and after it. -/
theorem step_high (h : s.cSpiResetN = true) (h' : (s.step e).cSpiResetN = true) :
    match e with
    | .spiClk mosi =>
      (s.step e).srInstSht = s.srInstShtNext mosi ∧ (s.step e).srInstCnt = s.srInstCntNext ∧
      (s.step e).arInstChk = s.arInstChk ∧ (s.step e).srInstChk1d = s.srInstChk1d ∧
      (s.step e).srInstChk2d = s.srInstChk2d ∧ (s.step e).srInstChk3d = s.srInstChk3d ∧
      (s.step e).arInstMchSft1 = s.arInstMchSft1 ∧ (s.step e).srInstMchSft2 = s.srInstMchSft2
    | .clk160m =>
      (s.step e).srInstSht = s.srInstSht ∧ (s.step e).srInstCnt = s.srInstCnt ∧
      (s.step e).arInstChk = s.arInstChkNext s.srInstCnt s.srInstSht ∧
      (s.step e).srInstChk1d = s.arInstChk ∧
      (s.step e).srInstChk2d = s.srInstChk1d ∧ (s.step e).srInstChk3d = s.srInstChk3dNext ∧
      (s.step e).arInstMchSft1 = s.cInstMch ∧ (s.step e).srInstMchSft2 = s.arInstMchSft1
    | _ =>
      (s.step e).srInstSht = s.srInstSht ∧ (s.step e).srInstCnt = s.srInstCnt ∧
      (s.step e).arInstChk = s.arInstChk ∧ (s.step e).srInstChk1d = s.srInstChk1d ∧
      (s.step e).srInstChk2d = s.srInstChk2d ∧ (s.step e).srInstChk3d = s.srInstChk3d ∧
      (s.step e).arInstMchSft1 = s.arInstMchSft1 ∧ (s.step e).srInstMchSft2 = s.srInstMchSft2 := by
  have hr := resetN_of_high h
  match e, h' with
  | .spiClk mosi, _ =>
    obtain ⟨-, -, -, -, -, -, -, hchk, -⟩ := step_spiClk_free hr mosi
    obtain ⟨hsht, hcnt, h1, h2, h3, hs1, hs2⟩ := step_spiClk_gated hr mosi
    rw [if_pos h] at hsht hcnt h1 h2 h3 hs1 hs2
    exact ⟨hsht, hcnt, hchk, h1, h2, h3, hs1, hs2⟩
  | .clk160m, h' =>
    rw [step_clk_cSpiResetN hr] at h'
    obtain ⟨-, -, -, -, -, -, -, hchk, -⟩ := step_clk_free hr
    obtain ⟨hsht, hcnt, h1, h2, h3, hs1, hs2⟩ := step_clk_gated hr
    rw [h'] at hsht hcnt
    rw [h, h'] at h1 h2 h3 hs1 hs2
    exact ⟨hsht, hcnt, hchk, h1, h2, h3, hs1, hs2⟩
  | .spiCs level, _ =>
    obtain ⟨-, -, -, -, -, -, -, hchk, -⟩ := step_spiCs_free hr level
    obtain ⟨hsht, hcnt, h1, h2, h3, hs1, hs2⟩ := step_spiCs_gated hr level
    rw [if_pos h] at hsht hcnt h1 h2 h3 hs1 hs2
    exact ⟨hsht, hcnt, hchk, h1, h2, h3, hs1, hs2⟩
  | .resetN level, h' =>
    -- `RESET_N` cannot fall in a step that leaves `c_spi_reset_n` high
    obtain rfl : level = true := step_resetN_level s level ▸ resetN_of_high h'
    have hsame : s.step (.resetN true) = s := by
      have he : ({ s with resetN := true } : Trg) = s := by rw [← hr]
      rw [step, edge, he, clear_eq hr, negedgeSpiResetN, if_pos h]
    rw [hsame]
    exact ⟨rfl, rfl, rfl, rfl, rfl, rfl, rfl, rfl⟩

/-- The event that ends a clear leaves the registers cleared. -/
theorem Cleared.step (hs : s.Cleared) (h : s.cSpiResetN = false)
    (h' : (s.step e).cSpiResetN = true) : (s.step e).Cleared := by
  obtain ⟨hcnt, h1, h2, h3, hs1, hs2⟩ := hs
  match e, h' with
  | .spiClk mosi, h' =>
    have hr : s.resetN = true := by
      rw [← step_resetN s (.spiClk mosi) (by simp)]
      exact resetN_of_high h'
    obtain ⟨-, gcnt, g1, g2, g3, gs1, gs2⟩ := step_spiClk_gated hr mosi
    rw [h] at gcnt g1 g2 g3 gs1 gs2
    exact ⟨gcnt, g1, g2, g3, gs1, gs2⟩
  | .clk160m, h' =>
    have hr : s.resetN = true := by
      rw [← step_resetN s .clk160m (by simp)]
      exact resetN_of_high h'
    obtain ⟨-, gcnt, g1, g2, g3, gs1, gs2⟩ := step_clk_gated hr
    rw [h] at g1 g2 g3 gs1 gs2
    exact ⟨by rw [gcnt, hcnt, ite_self], g1, g2, g3, gs1, gs2⟩
  | .spiCs level, h' =>
    have hr : s.resetN = true := by
      rw [← step_resetN s (.spiCs level) (by simp)]
      exact resetN_of_high h'
    obtain ⟨-, gcnt, g1, g2, g3, gs1, gs2⟩ := step_spiCs_gated hr level
    rw [h] at gcnt g1 g2 g3 gs1 gs2
    exact ⟨gcnt, g1, g2, g3, gs1, gs2⟩
  | .resetN level, h' =>
    rw [Trg.step, clear, negedgeSpiResetN, negedgeResetN]
    split_ifs <;> first | exact ⟨rfl, rfl, rfl, rfl, rfl, rfl⟩ | exact ⟨hcnt, h1, h2, h3, hs1, hs2⟩

/-! ### Steps in any state -/

/-- The level of `SPI_CS` is an input. -/
theorem step_spiCs (s : Trg) (e : Event) : (s.step e).spiCs = csAfter s.spiCs e := by
  rw [step, clear, negedgeSpiResetN, negedgeResetN]
  cases e <;> split_ifs <;> rfl

/-- The synchroniser while `RESET_N` is low. -/
theorem step_sync_low (h' : (s.step e).resetN = false) :
    (s.step e).arSpiCs1d = false ∧ (s.step e).srSpiCs2d = false ∧ (s.step e).srCsSync = false ∧
    (s.step e).srCsSyncSft1 = false ∧ (s.step e).srCsSyncSft2 = false := by
  rw [step, clear, negedgeSpiResetN, negedgeResetN] at h' ⊢
  split_ifs at h' ⊢ with hr
  all_goals first | exact ⟨rfl, rfl, rfl, rfl, rfl⟩ | simp [hr] at h'

/-- The synchroniser while `RESET_N` is high. -/
theorem step_sync_high (h' : (s.step e).resetN = true) :
    match e with
    | .clk160m =>
      (s.step e).arSpiCs1d = s.spiCs ∧ (s.step e).srSpiCs2d = s.arSpiCs1d ∧
      (s.step e).srCsSync = s.srSpiCs2d ∧ (s.step e).srCsSyncSft1 = s.srCsSync ∧
      (s.step e).srCsSyncSft2 = s.srCsSyncSft1
    | _ =>
      (s.step e).arSpiCs1d = s.arSpiCs1d ∧ (s.step e).srSpiCs2d = s.srSpiCs2d ∧
      (s.step e).srCsSync = s.srCsSync ∧ (s.step e).srCsSyncSft1 = s.srCsSyncSft1 ∧
      (s.step e).srCsSyncSft2 = s.srCsSyncSft2 := by
  cases e with
  | spiClk mosi =>
    rw [step_resetN s _ (by simp)] at h'
    obtain ⟨-, -, h1, h2, h3, h4, h5, -⟩ := step_spiClk_free h' mosi
    exact ⟨h1, h2, h3, h4, h5⟩
  | clk160m =>
    rw [step_resetN s _ (by simp)] at h'
    obtain ⟨-, -, h1, h2, h3, h4, h5, -⟩ := step_clk_free h'
    exact ⟨h1, h2, h3, h4, h5⟩
  | spiCs level =>
    rw [step_resetN s _ (by simp)] at h'
    obtain ⟨-, -, h1, h2, h3, h4, h5, -⟩ := step_spiCs_free h' level
    exact ⟨h1, h2, h3, h4, h5⟩
  | resetN level =>
    show _ ∧ _
    rw [step, clear, negedgeSpiResetN, negedgeResetN] at h' ⊢
    split_ifs at h' ⊢ with hr
    all_goals first | exact ⟨rfl, rfl, rfl, rfl, rfl⟩ | simp [hr] at h'

/-- `sr_inst_cnt` counts the edges of `SPI_CLK` up to 8 and starts again at a clear. -/
theorem step_cnt (hs : s.cSpiResetN = false → s.Cleared) :
    (s.step e).srInstCnt =
      if (s.step e).cSpiResetN = false then 0
      else match e with
        | .spiClk _ => s.srInstCntNext
        | _ => s.srInstCnt := by
  split_ifs with h'
  · exact (cleared_clear h').cnt
  rw [Bool.not_eq_false] at h'
  cases hlow : s.cSpiResetN with
  | false =>
    rw [((hs hlow).step hlow h').cnt]
    cases e with
    | spiClk mosi =>
      -- an edge of `SPI_CLK` does not end a clear
      have hr : s.resetN = true := by
        rw [← step_resetN s (.spiClk mosi) (by simp)]
        exact resetN_of_high h'
      rw [step_spiClk_cSpiResetN hr, hlow] at h'
      cases h'
    | clk160m => exact (hs hlow).cnt.symm
    | spiCs level => exact (hs hlow).cnt.symm
    | resetN level => exact (hs hlow).cnt.symm
  | true =>
    cases e with
    | spiClk mosi => exact (step_high hlow h').2.1
    | clk160m => exact (step_high hlow h').2.1
    | spiCs level => exact (step_high hlow h').2.1
    | resetN level => exact (step_high hlow h').2.1

end Trg

end Ptmch
