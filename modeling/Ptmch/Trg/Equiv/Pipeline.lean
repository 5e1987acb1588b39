import Ptmch.Trg.Equiv.Frame
import Ptmch.Trg.Equiv.Shift

/-!
# `ptmch_trg` refines the frame functions

`Refines b s` says that every register of `s` is what `Trg/Frame.lean` computes from the bus `b`.
It holds when reset is released and every event that the discipline of the testbench allows keeps
it (`Refines.step`), so it holds after every well-formed run (`refines_after`).
-/

namespace Ptmch

open Machine Trg

/-- The registers of `s` are the functions of the bus `b`. -/
structure Refines (b : Bus) (s : Trg) : Prop extends ShiftRefines b s where
  paced : b.frame.Paced
  /-- before the clear the shift register is still that of an earlier frame -/
  shtEarly : b.frame.Untouched b.frame.clks → s.srInstCnt = 8 → s.srInstSht = b.stale
  chk : s.arInstChk = b.frame.chk b.stale b.frame.clks
  chk1d : s.srInstChk1d = b.frame.chk1d b.stale b.frame.clks
  chk2d : s.srInstChk2d = b.frame.chk2d b.stale b.frame.clks
  chk3d : s.srInstChk3d = b.frame.chk3d b.stale b.frame.clks
  mchSft1 : s.arInstMchSft1 = b.frame.mchSft1 b.stale b.frame.clks
  mchSft2 : s.srInstMchSft2 = b.frame.mchSft2 b.stale b.frame.clks
  plsCnt : s.srPlsCnt.toNat = min 15 b.pulse

namespace Refines

variable {b : Bus} {s : Trg} {e : Event}

theorem start : Refines Bus.start Trg.start where
  toShiftRefines := ShiftRefines.start
  paced := Frame.paced_atReset
  shtEarly := by decide
  chk := by decide
  chk1d := by decide
  chk2d := by decide
  chk3d := by decide
  mchSft1 := by decide
  mchSft2 := by decide
  plsCnt := by decide

/-! ### Reading the wires -/

theorem cInstMch (h : Refines b s) : s.cInstMch = b.frame.mch b.stale b.frame.clks := by
  rw [cInstMch_eq, h.chk3d, Frame.mch]
  rfl

theorem cInstEdge (h : Refines b s) :
    s.cInstEdge
      = (b.frame.mch b.stale b.frame.clks && !b.frame.mchSft2 b.stale b.frame.clks) := by
  rw [Trg.cInstEdge, h.cInstMch, h.mchSft2]

/-- While `c_spi_reset_n` is low the pipeline holds `0`. -/
theorem pipeline_cleared (h : Refines b s) (hc : s.cSpiResetN = false) :
    s.srInstChk1d = 0 ∧ s.srInstChk2d = 0 ∧ s.srInstChk3d = 0 ∧
    s.arInstMchSft1 = false ∧ s.srInstMchSft2 = false := by
  have hcl : b.frame.Clearing := by simpa [h.sync.cSpiResetN] using hc
  have hu := hcl.not_untouched
  have h3 : b.frame.clks < 3 + b.frame.window := hcl.2
  refine ⟨?_, ?_, ?_, ?_, ?_⟩
  · rw [h.chk1d, Frame.chk1d, if_neg hu, if_pos (by omega)]
  · rw [h.chk2d, Frame.chk2d, if_neg hu, if_pos (by omega)]
  · rw [h.chk3d, Frame.chk3d, if_neg hu, if_pos (by omega)]
  · rw [h.mchSft1, Frame.mchSft1, if_neg hu, if_pos (by omega)]
  · rw [h.mchSft2, Frame.mchSft2, if_neg hu, if_pos (by omega)]

/-! ### An edge of `CLK160M` -/

/-- What `ar_inst_chk` loads. -/
theorem arInstChkNext_eq (h : Refines b s) :
    s.arInstChkNext s.srInstCnt s.srInstSht
      = if b.frame.Complete then opcode b.frame.bits else b.stale := by
  rw [arInstChkNext, h.chk, Frame.chk]
  by_cases hu : b.frame.Untouched b.frame.clks
  · -- what the counter has stopped at is still the opcode of an earlier frame
    have hnc := h.paced.not_complete hu
    have hsht := h.shtEarly hu
    grind
  · have height := h.cnt_eq_eight hu
    have hsht := h.sht hu
    grind

/-- The pulse counter of the bus restarts where `c_inst_edge` is high. -/
theorem pulse_clk (h : Refines b s) :
    (b.step .clk160m).pulse = if s.cInstEdge then 0 else b.pulse + 1 := by
  rw [h.cInstEdge]
  exact Frame.pulse_tick h.paced h.placed.lows_eq (pulseCount b.earlier)

theorem step_clk (h : Refines b s) : Refines (b.step .clk160m) (s.step .clk160m) := by
  have hlow := h.placed.lows_eq
  have hshift : ShiftRefines (b.step .clk160m) (s.step .clk160m) :=
    h.toShiftRefines.step (r := Rules.bench) (by decide) (by decide) trivial
  have hr := h.sync.resetN
  have hnow : s.cSpiResetN = !decide b.frame.Clearing := h.sync.cSpiResetN
  have hnext : s.spiResetNNext = !decide (b.frame.tick b.spiCs).Clearing := by
    rw [← step_clk_cSpiResetN hr, hshift.sync.cSpiResetN]
    rfl
  have hgate : (s.cSpiResetN && s.spiResetNNext) = true ↔
      ¬ b.frame.Clearing ∧ ¬ (b.frame.tick b.spiCs).Clearing := by
    simp [hnow, hnext]
  obtain ⟨-, -, -, -, -, -, -, hchk, hpls⟩ := step_clk_free hr
  obtain ⟨hsht, hcnt, hchk1d, hchk2d, hchk3d, hsft1, hsft2⟩ := step_clk_gated hr
  have hfr : (b.step .clk160m).frame = b.frame.tick b.spiCs := rfl
  have hst : (b.step .clk160m).stale = b.stale := rfl
  refine
    { toShiftRefines := hshift
      paced := h.paced.tick hlow
      shtEarly := ?_
      chk := ?_
      chk1d := ?_
      chk2d := ?_
      chk3d := ?_
      mchSft1 := ?_
      mchSft2 := ?_
      plsCnt := ?_ }
  · -- the old opcode stays in the shift register until the clear
    intro hu h8
    have hu' : b.frame.Untouched b.frame.clks := by
      by_contra hnot
      exact Frame.not_untouched_tick hnot hu
    rw [hcnt] at h8
    rw [hsht, hst]
    split_ifs at h8 ⊢ with hn
    · exact h.shtEarly hu' h8
    · exact absurd h8 (by decide)
  · rw [hchk, hst, h.arInstChkNext_eq]
    exact (Frame.chk_tick h.paced).symm
  · rw [hchk1d, hst, if_congr hgate h.chk rfl]
    exact (Frame.chk1d_tick h.paced hlow).symm
  · rw [hchk2d, hst, if_congr hgate h.chk1d rfl]
    exact (Frame.chk2d_tick hlow).symm
  · rw [hchk3d, hst, srInstChk3dNext, h.chk1d, h.chk2d, h.chk3d, if_congr hgate rfl rfl]
    exact (Frame.chk3d_tick h.paced hlow).symm
  · rw [hsft1, hst, if_congr hgate h.cInstMch rfl]
    exact (Frame.mchSft1_tick hlow).symm
  · rw [hsft2, hst, if_congr hgate h.mchSft1 rfl]
    exact (Frame.mchSft2_tick hlow).symm
  · rw [hpls, srPlsCntNext_toNat, h.plsCnt, h.pulse_clk]
    split_ifs <;> omega

/-! ### The other events -/

theorem step_spiClk (h : Refines b s) (mosi : Bool) (hok : b.Allowed Rules.bench (.spiClk mosi)) :
    Refines (b.step (.spiClk mosi)) (s.step (.spiClk mosi)) := by
  obtain ⟨hcs, hset⟩ := id hok
  have hset : 5 ≤ b.frame.clks := hset
  have hlow := h.placed.lows_eq hcs
  have h5 : 5 ≤ b.frame.lows := hlow ▸ hset
  have hr := h.sync.resetN
  have hnc : ¬ b.frame.Clearing := Frame.not_clearing hset
  have hu : ¬ b.frame.Untouched b.frame.clks :=
    Frame.not_untouched_iff.mpr ⟨by omega, by omega⟩
  have hc : s.cSpiResetN = true := by simp [h.sync.cSpiResetN, hnc]
  have hfr : (b.step (.spiClk mosi)).frame = b.frame.bit mosi := rfl
  have hst : (b.step (.spiClk mosi)).stale = b.stale := rfl
  have hmch : ∀ {t}, t ≤ b.frame.clks →
      (b.frame.bit mosi).mch b.stale t = b.frame.mch b.stale t :=
    fun ht => Frame.mch_bit h5 mosi ht
  obtain ⟨-, -, -, -, -, -, -, hchk, hpls⟩ := step_spiClk_free hr mosi
  obtain ⟨hsht, hcnt, hchk1d, hchk2d, hchk3d, hsft1, hsft2⟩ := step_spiClk_gated hr mosi
  rw [if_pos hc] at hsht hcnt hchk1d hchk2d hchk3d hsft1 hsft2
  refine
    { toShiftRefines := h.toShiftRefines.step (by decide) (by decide) hok
      paced := h.paced.bit hlow hset mosi
      shtEarly := fun hu' => absurd hu' hu
      chk := ?_
      chk1d := ?_
      chk2d := ?_
      chk3d := ?_
      mchSft1 := ?_
      mchSft2 := ?_
      plsCnt := ?_ }
  · rw [hchk, hst, hfr, Frame.bit_clks, Frame.chk_bit mosi le_rfl, h.chk]
  · rw [hchk1d, hst, hfr, Frame.bit_clks, Frame.chk1d, Frame.chk_bit mosi (Nat.sub_le ..), h.chk1d]
    rfl
  · rw [hchk2d, hst, hfr, Frame.bit_clks, Frame.chk2d, Frame.chk_bit mosi (Nat.sub_le ..), h.chk2d]
    rfl
  · rw [hchk3d, hst, hfr, Frame.bit_clks, Frame.chk3d_bit h5 mosi le_rfl, h.chk3d]
  · rw [hsft1, hst, hfr, Frame.bit_clks, Frame.mchSft1, hmch (Nat.sub_le ..), h.mchSft1]
    rfl
  · rw [hsft2, hst, hfr, Frame.bit_clks, Frame.mchSft2, hmch (Nat.sub_le ..), h.mchSft2]
    rfl
  · rw [hpls, h.plsCnt]
    exact congrArg _ (Frame.pulse_bit hlow hset mosi _).symm

/-- A change of `SPI_CS` leaves the pipeline as it is. -/
theorem pipeline_kept (h : Refines b s) (level : Bool) :
    (s.step (.spiCs level)).srInstChk1d = s.srInstChk1d ∧
    (s.step (.spiCs level)).srInstChk2d = s.srInstChk2d ∧
    (s.step (.spiCs level)).srInstChk3d = s.srInstChk3d ∧
    (s.step (.spiCs level)).arInstMchSft1 = s.arInstMchSft1 ∧
    (s.step (.spiCs level)).srInstMchSft2 = s.srInstMchSft2 := by
  obtain ⟨-, -, h3, h4, h5, h6, h7⟩ := step_spiCs_gated h.sync.resetN level
  cases hc : s.cSpiResetN with
  | true => simp_all
  | false =>
    -- clearing what is cleared changes nothing
    obtain ⟨z3, z4, z5, z6, z7⟩ := h.pipeline_cleared hc
    simp_all

theorem step_rise (h : Refines b s) (hok : b.Allowed Rules.bench (.spiCs true)) :
    Refines (b.step (.spiCs true)) (s.step (.spiCs true)) := by
  obtain ⟨-, -, -, -, -, -, -, hchk, hpls⟩ := step_spiCs_free h.sync.resetN true
  obtain ⟨hsht, hcnt⟩ := h.spiCs_kept true
  obtain ⟨hchk1d, hchk2d, hchk3d, hsft1, hsft2⟩ := h.pipeline_kept true
  exact
    { toShiftRefines := h.toShiftRefines.step (by decide) (by decide) hok
      paced := h.paced
      shtEarly := fun hu => by rw [hcnt, hsht]; exact h.shtEarly hu
      chk := hchk.trans h.chk
      chk1d := hchk1d.trans h.chk1d
      chk2d := hchk2d.trans h.chk2d
      chk3d := hchk3d.trans h.chk3d
      mchSft1 := hsft1.trans h.mchSft1
      mchSft2 := hsft2.trans h.mchSft2
      plsCnt := by rw [hpls]; exact h.plsCnt }

/-- A fall of `SPI_CS` finds the pipeline settled. -/
theorem settled_of_fall (h : Refines b s) (hok : b.Allowed Rules.bench (.spiCs false)) :
    b.frame.Settled := by
  obtain ⟨-, hgap⟩ := hok
  have hle := h.paced.lows_le
  unfold Bus.highs at hgap
  by_cases he : b.earlier = []
  · obtain ⟨-, hl, hbits⟩ := h.placed.first he
    rw [if_pos he] at hgap
    have hgap : 5 ≤ b.frame.clks - b.frame.lows := hgap
    exact Or.inr ⟨hbits, hl, by omega⟩
  · rw [if_neg he] at hgap
    have hgap : 8 ≤ b.frame.clks - b.frame.lows := hgap
    exact Or.inl (by omega)

theorem step_fall (h : Refines b s) (hok : b.Allowed Rules.bench (.spiCs false)) :
    Refines (b.step (.spiCs false)) (s.step (.spiCs false)) := by
  have hs := h.settled_of_fall hok
  have hbus : b.step (.spiCs false) = ⟨false, Frame.fresh, b.frame :: b.earlier⟩ := by
    simp [Bus.step, hok.1]
  have hst : (b.step (.spiCs false)).stale = b.frame.left b.stale := by
    rw [hbus, Bus.stale, latestOpcode_cons]
    rfl
  have hu0 : Frame.fresh.Untouched 0 := Or.inl (by omega)
  obtain ⟨-, -, -, -, -, -, -, hchk, hpls⟩ := step_spiCs_free h.sync.resetN false
  obtain ⟨hsht, hcnt⟩ := h.spiCs_kept false
  obtain ⟨hchk1d, hchk2d, hchk3d, hsft1, hsft2⟩ := h.pipeline_kept false
  have hfr : (b.step (.spiCs false)).frame = Frame.fresh := by rw [hbus]
  have hcl : Frame.fresh.clks = 0 := rfl
  refine
    { toShiftRefines := h.toShiftRefines.step (by decide) (by decide) hok
      paced := by rw [hfr]; exact Frame.paced_fresh
      shtEarly := fun _ => ?_
      chk := ?_
      chk1d := ?_
      chk2d := ?_
      chk3d := ?_
      mchSft1 := ?_
      mchSft2 := ?_
      plsCnt := ?_ }
  · -- what this frame leaves in the shift register is the old opcode of the next one
    rw [hcnt, hsht, hst]
    intro h8
    by_cases hu : b.frame.Untouched b.frame.clks
    · rw [h.shtEarly hu h8, Frame.left, if_neg (h.paced.not_complete hu)]
    · rw [h.sht hu, Frame.left, if_pos ((h.cnt_eq_eight hu).mp h8)]
  · rw [hchk, hst, hfr, h.chk, Frame.chk_of_settled h.paced hs (Nat.le_add_right _ 2)]
    rfl
  · rw [hchk1d, hst, hfr, h.chk1d, Frame.chk1d_of_settled h.paced hs, hcl, Frame.chk1d, if_pos hu0]
  · rw [hchk2d, hst, hfr, h.chk2d, Frame.chk2d_of_settled h.paced hs, hcl, Frame.chk2d, if_pos hu0]
  · rw [hchk3d, hst, hfr, h.chk3d, Frame.chk3d_of_settled h.paced hs (by omega), hcl, Frame.chk3d,
      if_pos hu0]
  · rw [hsft1, hst, hfr, h.mchSft1, Frame.mchSft1_of_settled h.paced hs, hcl, Frame.mchSft1,
      if_pos hu0]
  · rw [hsft2, hst, hfr, h.mchSft2, Frame.mchSft2_of_settled h.paced hs, hcl, Frame.mchSft2,
      if_pos hu0]
  · rw [hpls, h.plsCnt, hbus]
    exact congrArg _ (Frame.pulse_fresh _).symm

/-- **Step lemma**: every event that the discipline allows keeps the refinement. -/
theorem step (h : Refines b s) (hok : b.Allowed Rules.bench e) :
    Refines (b.step e) (s.step e) := by
  match e, hok with
  | .spiClk mosi, hok => exact h.step_spiClk mosi hok
  | .clk160m, _ => exact h.step_clk
  | .spiCs true, hok => exact h.step_rise hok
  | .spiCs false, hok => exact h.step_fall hok

end Refines

/-- **Run lemma**: after every well-formed run the registers are the functions of the bus. -/
theorem refines_after {es : List Event} (hwf : WellFormed Rules.bench es) :
    Refines (Sys.after es).bus (Sys.after es).trg :=
  run_invariant (I := fun y : Sys => Refines y.bus y.trg)
    (fun _ _ h hok => h.step hok) Refines.start ((Sys.along_bus _ es).mpr hwf)

end Ptmch
