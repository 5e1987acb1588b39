import Ptmch.Machine.Agree
import Ptmch.Trg.Equiv.Shift

/-!
# Registers of unknown contents

`ptmch_trg` beside a copy of itself whose registers held anything at all when the run began, with
the same events for both.  Five edges of `CLK160M` fill the synchroniser (`SameSamples`); the clear
of the first frame makes the shift registers equal (`Heard`); and with its first complete frame the
new opcode, which is the same in both, drives the difference through the pipeline and out of the
pulse counter (`SameAfter`).  From the 21st edge of `CLK160M` after the eighth bit on, the two are
equal (`run_eq_of_powerUp`): `RESET_N` is not needed for more than that.
-/

namespace Ptmch

open Machine Trg

/-! ### The synchroniser -/

/-- After `n` edges of `CLK160M` the first `n` registers behind `SPI_CS` are the same. -/
structure SameSamples (n : ℕ) (s s' : Trg) : Prop where
  resetN : s.resetN = true
  resetN' : s'.resetN = true
  spiCs : s'.spiCs = s.spiCs
  spiCs1d : 1 ≤ n → s'.arSpiCs1d = s.arSpiCs1d
  spiCs2d : 2 ≤ n → s'.srSpiCs2d = s.srSpiCs2d
  sync : 3 ≤ n → s'.srCsSync = s.srCsSync
  sft1 : 4 ≤ n → s'.srCsSyncSft1 = s.srCsSyncSft1
  sft2 : 5 ≤ n → s'.srCsSyncSft2 = s.srCsSyncSft2

namespace SameSamples

variable {n m : ℕ} {s s' : Trg} {e : Event}

theorem mono (h : SameSamples n s s') (hle : m ≤ n) : SameSamples m s s' :=
  ⟨h.resetN, h.resetN', h.spiCs, fun h1 => h.spiCs1d (h1.trans hle),
    fun h2 => h.spiCs2d (h2.trans hle), fun h3 => h.sync (h3.trans hle),
    fun h4 => h.sft1 (h4.trans hle), fun h5 => h.sft2 (h5.trans hle)⟩

theorem step_clk (h : SameSamples n s s') :
    SameSamples (n + 1) (s.step .clk160m) (s'.step .clk160m) := by
  rw [step_clk_eq h.resetN, step_clk_eq h.resetN']
  exact ⟨h.resetN, h.resetN', h.spiCs, fun _ => h.spiCs,
    fun h2 => h.spiCs1d (Nat.le_of_succ_le_succ h2),
    fun h3 => h.spiCs2d (Nat.le_of_succ_le_succ h3),
    fun h4 => h.sync (Nat.le_of_succ_le_succ h4), fun h5 => h.sft1 (Nat.le_of_succ_le_succ h5)⟩

theorem step_spiClk (h : SameSamples n s s') (mosi : Bool) :
    SameSamples n (s.step (.spiClk mosi)) (s'.step (.spiClk mosi)) := by
  obtain ⟨hr, h0, h1, h2, h3, h4, h5, -⟩ := step_spiClk_free h.resetN mosi
  obtain ⟨hr', h0', h1', h2', h3', h4', h5', -⟩ := step_spiClk_free h.resetN' mosi
  refine ⟨hr, hr', ?_, ?_, ?_, ?_, ?_, ?_⟩
  · rw [h0, h0', h.spiCs]
  · rw [h1, h1']
    exact h.spiCs1d
  · rw [h2, h2']
    exact h.spiCs2d
  · rw [h3, h3']
    exact h.sync
  · rw [h4, h4']
    exact h.sft1
  · rw [h5, h5']
    exact h.sft2

theorem step_spiCs (h : SameSamples n s s') (level : Bool) :
    SameSamples n (s.step (.spiCs level)) (s'.step (.spiCs level)) := by
  obtain ⟨hr, h0, h1, h2, h3, h4, h5, -⟩ := step_spiCs_free h.resetN level
  obtain ⟨hr', h0', h1', h2', h3', h4', h5', -⟩ := step_spiCs_free h.resetN' level
  refine ⟨hr, hr', ?_, ?_, ?_, ?_, ?_, ?_⟩
  · rw [h0, h0']
  · rw [h1, h1']
    exact h.spiCs1d
  · rw [h2, h2']
    exact h.spiCs2d
  · rw [h3, h3']
    exact h.sync
  · rw [h4, h4']
    exact h.sft1
  · rw [h5, h5']
    exact h.sft2

/-- With the whole synchroniser, `c_spi_reset_n` is the same now and after the next edge. -/
theorem cSpiResetN (h : SameSamples 5 s s') :
    s'.cSpiResetN = s.cSpiResetN ∧ s'.spiResetNNext = s.spiResetNNext := by
  rw [cSpiResetN_eq h.resetN, cSpiResetN_eq h.resetN', h.sync (by decide), h.sft2 le_rfl]
  refine ⟨rfl, ?_⟩
  rw [spiResetNNext, spiResetNNext, h.spiCs2d (by decide), h.sft1 (by decide)]

end SameSamples

/-! ### The shift register -/

/-- `y` has been reset, the registers of `y'` held anything, and both have seen the same bus. -/
structure Heard (y y' : Sys) : Prop where
  bus : y'.bus = y.bus
  shift : ShiftRefines y.bus y.trg
  samples : SameSamples (if y.bus.earlier = [] then y.bus.highs else 5) y.trg y'.trg
  /-- the first frame has cleared both -/
  shiftRegister : y.bus.earlier ≠ [] → ¬ y.bus.frame.Untouched y.bus.frame.clks →
    y'.trg.srInstSht = y.trg.srInstSht ∧ y'.trg.srInstCnt = y.trg.srInstCnt

namespace Heard

variable {r : Rules} {y y' : Sys} {e : Event}

theorem start {s' : Trg} (hr : s'.resetN = true) (hcs : s'.spiCs = true) :
    Heard Sys.start ⟨Bus.start, s'⟩ where
  bus := rfl
  shift := ShiftRefines.start
  samples :=
    { resetN := rfl
      resetN' := hr
      spiCs := hcs
      spiCs1d := nofun
      spiCs2d := nofun
      sync := nofun
      sft1 := nofun
      sft2 := nofun }
  shiftRegister := fun hne => absurd rfl hne

theorem same (h : Heard y y') (hne : y.bus.earlier ≠ []) : SameSamples 5 y.trg y'.trg := by
  have hsamples := h.samples
  rwa [if_neg hne] at hsamples

theorem step_clk (h : Heard y y')
    (hshift : ShiftRefines (y.bus.step .clk160m) (y.trg.step .clk160m)) :
    Heard (y.step .clk160m) (y'.step .clk160m) := by
  have hr := h.shift.sync.resetN
  have hsamples := h.samples.step_clk
  refine ⟨congrArg (fun b => b.step .clk160m) h.bus, hshift, ?_, fun hne hu => ?_⟩
  · show SameSamples (if y.bus.earlier = [] then (y.bus.step .clk160m).highs else 5) _ _
    split_ifs at hsamples ⊢ with hfirst
    · -- before the first frame every edge samples `SPI_CS` high
      obtain ⟨hcs, hlows, -⟩ := h.shift.placed.first hfirst
      have hle := h.shift.placed.lows_le
      have hhighs : (y.bus.step .clk160m).highs = y.bus.highs + 1 := by
        simp only [Bus.highs, Bus.step, Frame.tick_clks, Frame.tick_lows, hcs, if_true]
        omega
      rw [hhighs]
      exact hsamples
    · exact hsamples.mono (by decide)
  · obtain ⟨-, hnext⟩ := (h.same hne).cSpiResetN
    have hkeep : y'.trg.srInstSht = y.trg.srInstSht ∧ y'.trg.srInstCnt = y.trg.srInstCnt ∨
        y.trg.spiResetNNext = false := by
      rcases h.shift.cleared_or_kept hu with ⟨hclear, -⟩ | ⟨-, hu'⟩
      · right
        have hclear : (y.bus.step .clk160m).frame.Clearing := hclear
        rw [← step_clk_cSpiResetN hr, hshift.sync.cSpiResetN, decide_eq_true hclear]
        rfl
      · exact Or.inl (h.shiftRegister hne hu')
    show (y'.trg.step .clk160m).srInstSht = (y.trg.step .clk160m).srInstSht ∧
      (y'.trg.step .clk160m).srInstCnt = (y.trg.step .clk160m).srInstCnt
    rw [step_clk_eq hr, step_clk_eq h.samples.resetN']
    show (if _ then _ else _) = (if _ then _ else _) ∧ (if _ then _ else _) = (if _ then _ else _)
    rw [hnext]
    rcases hkeep with ⟨hsht, hcnt⟩ | hlow
    · rw [hsht, hcnt]
      exact ⟨rfl, rfl⟩
    · rw [hlow]
      exact ⟨rfl, rfl⟩

theorem step_spiClk (h : Heard y y') (mosi : Bool) (hcs : y.bus.spiCs = false)
    (hshift : ShiftRefines (y.bus.step (.spiClk mosi)) (y.trg.step (.spiClk mosi))) :
    Heard (y.step (.spiClk mosi)) (y'.step (.spiClk mosi)) := by
  have hne : y.bus.earlier ≠ [] := by
    intro hfirst
    rw [(h.shift.placed.first hfirst).1] at hcs
    cases hcs
  have hsame := h.same hne
  refine ⟨congrArg (fun b => b.step (.spiClk mosi)) h.bus, hshift, ?_, fun _ hu => ?_⟩
  · show SameSamples (if y.bus.earlier = [] then _ else 5) _ _
    rw [if_neg hne]
    exact hsame.step_spiClk mosi
  · obtain ⟨hsht, hcnt⟩ := h.shiftRegister hne hu
    obtain ⟨h1, h2, -⟩ := step_spiClk_gated hsame.resetN mosi
    obtain ⟨h1', h2', -⟩ := step_spiClk_gated hsame.resetN' mosi
    show (y'.trg.step (.spiClk mosi)).srInstSht = (y.trg.step (.spiClk mosi)).srInstSht ∧
      (y'.trg.step (.spiClk mosi)).srInstCnt = (y.trg.step (.spiClk mosi)).srInstCnt
    rw [h1, h2, h1', h2', hsame.cSpiResetN.1, srInstShtNext, srInstShtNext, srInstCntNext,
      srInstCntNext, hsht, hcnt]
    exact ⟨rfl, rfl⟩

theorem step_rise (h : Heard y y')
    (hshift : ShiftRefines (y.bus.step (.spiCs true)) (y.trg.step (.spiCs true))) :
    Heard (y.step (.spiCs true)) (y'.step (.spiCs true)) := by
  refine ⟨congrArg (fun b => b.step (.spiCs true)) h.bus, hshift, h.samples.step_spiCs true,
    fun hne hu => ?_⟩
  have hsame := h.same hne
  obtain ⟨hsht, hcnt⟩ := h.shiftRegister hne hu
  obtain ⟨h1, h2, -⟩ := step_spiCs_gated hsame.resetN true
  obtain ⟨h1', h2', -⟩ := step_spiCs_gated hsame.resetN' true
  show (y'.trg.step (.spiCs true)).srInstSht = (y.trg.step (.spiCs true)).srInstSht ∧
    (y'.trg.step (.spiCs true)).srInstCnt = (y.trg.step (.spiCs true)).srInstCnt
  rw [h1, h2, h1', h2', hsame.cSpiResetN.1, hsht, hcnt]
  exact ⟨rfl, rfl⟩

/-- A new frame has not been cleared yet. -/
theorem step_fall (hfirst : 5 ≤ r.first) (h : Heard y y') (hok : y.bus.Allowed r (.spiCs false))
    (hshift : ShiftRefines (y.bus.step (.spiCs false)) (y.trg.step (.spiCs false))) :
    Heard (y.step (.spiCs false)) (y'.step (.spiCs false)) := by
  obtain ⟨hcs, hgap⟩ := hok
  have hbus : y.bus.step (.spiCs false) = ⟨false, Frame.fresh, y.bus.frame :: y.bus.earlier⟩ := by
    simp [Bus.step, hcs]
  refine ⟨congrArg (fun b => b.step (.spiCs false)) h.bus, hshift, ?_, fun _ hu => ?_⟩
  · have hsame : SameSamples 5 y.trg y'.trg := by
      by_cases hne : y.bus.earlier = []
      · rw [if_pos hne] at hgap
        have hsamples := h.samples
        rw [if_pos hne] at hsamples
        exact hsamples.mono (hfirst.trans hgap)
      · exact h.same hne
    show SameSamples (if (y.bus.step (.spiCs false)).earlier = [] then _ else 5) _ _
    rw [hbus, if_neg (List.cons_ne_nil _ _)]
    exact hsame.step_spiCs false
  · have hfresh : (y.step (.spiCs false)).bus.frame = Frame.fresh := congrArg Bus.frame hbus
    rw [hfresh] at hu
    exact absurd (Or.inl (by decide : Frame.fresh.clks < 3)) hu

theorem step (h5 : 5 ≤ r.first ∧ 5 ≤ r.gap) (hset : 5 ≤ r.setup) (h : Heard y y')
    (hok : y.bus.Allowed r e) : Heard (y.step e) (y'.step e) := by
  have hshift := h.shift.step h5 hset hok
  match e, hok with
  | .clk160m, _ => exact h.step_clk hshift
  | .spiClk mosi, ⟨hcs, _⟩ => exact h.step_spiClk mosi hcs hshift
  | .spiCs true, _ => exact h.step_rise hshift
  | .spiCs false, hok => exact h.step_fall h5.1 hok hshift

/-- **Run lemma**: in a well-formed run the shift registers are the same once the first frame has
been cleared. -/
theorem after {s' : Trg} {es : List Event} (h5 : 5 ≤ r.first ∧ 5 ≤ r.gap) (hset : 5 ≤ r.setup)
    (hr : s'.resetN = true) (hcs : s'.spiCs = true) (hwf : WellFormed r es) :
    Heard (Sys.after es) (run Sys.step ⟨Bus.start, s'⟩ es) :=
  run_rel (fun _ _ _ h hok => h.step h5 hset hok) (start hr hcs) ((Sys.along_bus _ es).mpr hwf)

end Heard

/-! ### The pipeline -/

/-- Since the eighth bit `n` edges of `CLK160M` have come and no clear: the new opcode has reached
the registers on its way. -/
structure Held (n : ℕ) (s : Trg) : Prop where
  cSpiResetN : s.cSpiResetN = true
  cnt : s.srInstCnt = 8
  chk : 1 ≤ n → s.arInstChk = s.srInstSht
  chk1d : 2 ≤ n → s.srInstChk1d = s.srInstSht
  chk2d : 3 ≤ n → s.srInstChk2d = s.srInstSht
  cnt1d : 1 ≤ n → s.arInstCnt1d = 8
  cnt2d : 2 ≤ n → s.srInstCnt2d = 8
  cnt3d : 3 ≤ n → s.srInstCnt3d = 8

/-- The opcode and the count are the same in all the registers that they pass. -/
structure SamePipeline (s s' : Trg) : Prop where
  chk : s'.arInstChk = s.arInstChk
  chk1d : s'.srInstChk1d = s.srInstChk1d
  chk2d : s'.srInstChk2d = s.srInstChk2d
  chk3d : s'.srInstChk3d = s.srInstChk3d
  cnt1d : s'.arInstCnt1d = s.arInstCnt1d
  cnt2d : s'.srInstCnt2d = s.srInstCnt2d
  cnt3d : s'.srInstCnt3d = s.srInstCnt3d
  cnt4d : s'.srInstCnt4d = s.srInstCnt4d

/-- Both shift registers have held the same eight bits for `n` edges of `CLK160M`, or have been
cleared since. -/
structure SameAfter (n : ℕ) (s s' : Trg) : Prop where
  samples : SameSamples 5 s s'
  sht : s'.srInstSht = s.srInstSht
  cnt : s'.srInstCnt = s.srInstCnt
  pipeline : SamePipeline s s' ∨ n ≤ 3 ∧ Held n s ∧ Held n s'
  sft1 : 5 ≤ n → s'.arInstMchSft1 = s.arInstMchSft1
  sft2 : 6 ≤ n → s'.srInstMchSft2 = s.srInstMchSft2
  /-- the pulse counters are the same, or have not been restarted for `n - 6` edges -/
  plsCnt : s'.srPlsCnt = s.srPlsCnt ∨ n ≤ s.srPlsCnt.toNat + 6 ∧ n ≤ s'.srPlsCnt.toNat + 6

variable {n : ℕ} {s s' : Trg} {e : Event}

theorem Held.step_clk (hr : s.resetN = true) (h : Held n s) (hnext : s.spiResetNNext = true) :
    Held (n + 1) (s.step .clk160m) := by
  have hc : (s.step .clk160m).cSpiResetN = true := (step_clk_cSpiResetN hr).trans hnext
  have hload : s.arInstChkNext s.srInstCnt s.srInstSht = s.srInstSht := by
    rw [arInstChkNext, if_pos h.cnt]
  refine ⟨hc, ?_, ?_, ?_, ?_, ?_, ?_, ?_⟩ <;>
    rw [step_clk_eq hr] <;> simp only [hnext, h.cSpiResetN, Bool.and_self, if_true, hload]
  · exact h.cnt
  · exact fun _ => trivial
  · exact fun h2 => h.chk (Nat.le_of_succ_le_succ h2)
  · exact fun h3 => h.chk1d (Nat.le_of_succ_le_succ h3)
  · exact fun _ => h.cnt
  · exact fun h2 => h.cnt1d (Nat.le_of_succ_le_succ h2)
  · exact fun h3 => h.cnt2d (Nat.le_of_succ_le_succ h3)

/-- The counter is at 8, so bits do not shift the opcode away. -/
theorem Held.step_spiClk (hr : s.resetN = true) (h : Held n s) (mosi : Bool) :
    s.step (.spiClk mosi) = s := by
  have hsht : s.srInstShtNext mosi = s.srInstSht := if_pos h.cnt
  have hcnt : s.srInstCntNext = s.srInstCnt := if_pos h.cnt
  rw [step_other_eq hr (by simp) (by simp), if_pos h.cSpiResetN]
  show s.posedgeSpiClk mosi = s
  rw [posedgeSpiClk, h.cSpiResetN, hsht, hcnt]
  rfl

theorem Held.step_spiCs (hr : s.resetN = true) (h : Held n s) (level : Bool) :
    s.step (.spiCs level) = { s with spiCs := level } := by
  rw [step_other_eq hr (by simp) (by simp), if_pos h.cSpiResetN]
  rfl

/-- The two registers of a filter that agree fill it. -/
theorem Held.filters (h : Held 3 s) :
    s.srInstChk3dNext = s.srInstSht ∧ s.srInstCnt4dNext = 8 := by
  rw [srInstChk3dNext, srInstCnt4dNext, h.chk1d (by decide), h.chk2d le_rfl, h.cnt2d (by decide),
    h.cnt3d le_rfl]
  exact ⟨if_pos rfl, if_pos rfl⟩

namespace SamePipeline

theorem cInstMch (h : SamePipeline s s') : s'.cInstMch = s.cInstMch := by
  rw [cInstMch_eq, cInstMch_eq, h.chk3d]

theorem step_clk (h : SamePipeline s s') (hs : SameSamples 5 s s')
    (hsht : s'.srInstSht = s.srInstSht) (hcnt : s'.srInstCnt = s.srInstCnt) :
    SamePipeline (s.step .clk160m) (s'.step .clk160m) := by
  obtain ⟨hc, hn⟩ := hs.cSpiResetN
  rw [step_clk_eq hs.resetN, step_clk_eq hs.resetN', hc, hn, srInstChk3dNext, srInstChk3dNext,
    srInstCnt4dNext, srInstCnt4dNext, arInstChkNext, arInstChkNext, h.chk, h.chk1d, h.chk2d,
    h.chk3d, h.cnt1d, h.cnt2d, h.cnt3d, h.cnt4d, hsht, hcnt]
  exact ⟨rfl, rfl, rfl, rfl, rfl, rfl, rfl, rfl⟩

/-- The edge that captures the opcode of both clears them. -/
theorem step_clk_of_held (h : Held n s) (h' : Held n s') (hs : SameSamples 5 s s')
    (hsht : s'.srInstSht = s.srInstSht) (hnext : s.spiResetNNext = false) :
    SamePipeline (s.step .clk160m) (s'.step .clk160m) := by
  obtain ⟨hc, hn⟩ := hs.cSpiResetN
  have hchk : s'.arInstChkNext s'.srInstCnt s'.srInstSht
      = s.arInstChkNext s.srInstCnt s.srInstSht := by
    rw [arInstChkNext, arInstChkNext, if_pos h.cnt, if_pos h'.cnt, hsht]
  rw [step_clk_eq hs.resetN, step_clk_eq hs.resetN', hchk, hn, hnext, Bool.and_false,
    Bool.and_false]
  exact ⟨rfl, rfl, rfl, rfl, rfl, rfl, rfl, rfl⟩

/-- The fourth edge: the filters of both take the opcode. -/
theorem step_clk_of_held_three (h : Held 3 s) (h' : Held 3 s') (hs : SameSamples 5 s s')
    (hsht : s'.srInstSht = s.srInstSht) :
    SamePipeline (s.step .clk160m) (s'.step .clk160m) := by
  obtain ⟨hc, hn⟩ := hs.cSpiResetN
  obtain ⟨hfilter, hcount⟩ := h.filters
  obtain ⟨hfilter', hcount'⟩ := h'.filters
  rw [step_clk_eq hs.resetN, step_clk_eq hs.resetN', hc, hn, hfilter, hfilter', hcount, hcount',
    arInstChkNext, arInstChkNext, if_pos h.cnt, if_pos h'.cnt, h.chk (by decide),
    h'.chk (by decide), h.chk1d (by decide), h'.chk1d (by decide), h.cnt, h'.cnt,
    h.cnt1d (by decide), h'.cnt1d (by decide), h.cnt2d (by decide), h'.cnt2d (by decide), hsht]
  exact ⟨rfl, rfl, rfl, rfl, rfl, rfl, rfl, rfl⟩

/-- An edge of `SPI_CLK` or a change of `SPI_CS` clears both or neither. -/
theorem step_other (h : SamePipeline s s') (hs : SameSamples 5 s s') (hclk : e ≠ .clk160m)
    (hreset : ∀ level, e ≠ .resetN level) : SamePipeline (s.step e) (s'.step e) := by
  rw [step_other_eq hs.resetN hclk hreset, step_other_eq hs.resetN' hclk hreset, hs.cSpiResetN.1]
  cases e with
  | clk160m => exact absurd rfl hclk
  | resetN level => exact absurd rfl (hreset level)
  | _ =>
    split_ifs
    · exact ⟨h.chk, h.chk1d, h.chk2d, h.chk3d, h.cnt1d, h.cnt2d, h.cnt3d, h.cnt4d⟩
    · exact ⟨h.chk, rfl, rfl, rfl, rfl, rfl, rfl, rfl⟩

end SamePipeline

namespace SameAfter

/-- After the eighth bit the shift registers hold still, up to the next clear. -/
theorem zero (hs : SameSamples 5 s s') (hsht : s'.srInstSht = s.srInstSht)
    (hcnt : s'.srInstCnt = s.srInstCnt) (hc : s.cSpiResetN = true) (h8 : s.srInstCnt = 8) :
    SameAfter 0 s s' where
  samples := hs
  sht := hsht
  cnt := hcnt
  pipeline := by
    right
    refine ⟨Nat.zero_le 3, ?_, ?_⟩
    · exact ⟨hc, h8, nofun, nofun, nofun, nofun, nofun, nofun⟩
    · exact ⟨hs.cSpiResetN.1.trans hc, hcnt.trans h8, nofun, nofun, nofun, nofun, nofun, nofun⟩
  sft1 := nofun
  sft2 := nofun
  plsCnt := Or.inr ⟨Nat.zero_le _, Nat.zero_le _⟩

/-- After the fourth edge the pipelines are the same. -/
theorem samePipeline (h : SameAfter n s s') (h4 : 4 ≤ n) : SamePipeline s s' := by
  rcases h.pipeline with hsame | ⟨h3, -⟩
  · exact hsame
  · exact absurd (h4.trans h3) (by decide)

theorem pipeline_clk (h : SameAfter n s s') :
    SamePipeline (s.step .clk160m) (s'.step .clk160m) ∨
      n + 1 ≤ 3 ∧ Held (n + 1) (s.step .clk160m) ∧ Held (n + 1) (s'.step .clk160m) := by
  rcases h.pipeline with hsame | ⟨h3, hheld, hheld'⟩
  · left
    exact hsame.step_clk h.samples h.sht h.cnt
  · cases hnext : s.spiResetNNext with
    | false =>
      left
      exact SamePipeline.step_clk_of_held hheld hheld' h.samples h.sht hnext
    | true =>
      rcases Nat.lt_or_eq_of_le h3 with hlt | rfl
      · right
        have hnext' : s'.spiResetNNext = true := h.samples.cSpiResetN.2.trans hnext
        exact ⟨hlt, hheld.step_clk h.samples.resetN hnext,
          hheld'.step_clk h.samples.resetN' hnext'⟩
      · left
        exact SamePipeline.step_clk_of_held_three hheld hheld' h.samples h.sht

/-- Two counters that are restarted at the same edges meet at 15. -/
theorem plsCnt_clk (h : SameAfter n s s') :
    s'.srPlsCntNext = s.srPlsCntNext ∨
      n + 1 ≤ s.srPlsCntNext.toNat + 6 ∧ n + 1 ≤ s'.srPlsCntNext.toNat + 6 := by
  by_cases h6 : 6 ≤ n
  · have hedge : s'.cInstEdge = s.cInstEdge := by
      rw [cInstEdge, cInstEdge, (h.samePipeline (by omega)).cInstMch, h.sft2 h6]
    have hnext := srPlsCntNext_toNat s
    have hnext' := srPlsCntNext_toNat s'
    have hlt := s.srPlsCnt.isLt
    have hlt' := s'.srPlsCnt.isLt
    rw [hedge] at hnext'
    rw [← BitVec.toNat_inj]
    rcases h.plsCnt with heq | ⟨hle, hle'⟩
    · left
      rw [hnext, hnext', heq]
    · split_ifs at hnext hnext' <;> omega
  · right
    omega

theorem step_clk (h : SameAfter n s s') :
    SameAfter (n + 1) (s.step .clk160m) (s'.step .clk160m) := by
  obtain ⟨hc, hn⟩ := h.samples.cSpiResetN
  have hr := h.samples.resetN
  have hr' := h.samples.resetN'
  refine ⟨h.samples.step_clk.mono (by decide), ?_, ?_, h.pipeline_clk, fun h5 => ?_, fun h6 => ?_,
    ?_⟩
  · rw [step_clk_eq hr, step_clk_eq hr', hn, h.sht]
  · rw [step_clk_eq hr, step_clk_eq hr', hn, h.cnt]
  · have hsame := h.samePipeline (Nat.le_of_succ_le_succ h5)
    rw [step_clk_eq hr, step_clk_eq hr', hn, hc, hsame.cInstMch]
  · rw [step_clk_eq hr, step_clk_eq hr', hn, hc, h.sft1 (Nat.le_of_succ_le_succ h6)]
  · rw [step_clk_eq hr, step_clk_eq hr']
    exact h.plsCnt_clk

theorem step_spiClk (h : SameAfter n s s') (mosi : Bool) :
    SameAfter n (s.step (.spiClk mosi)) (s'.step (.spiClk mosi)) := by
  have hc := h.samples.cSpiResetN.1
  have hr := h.samples.resetN
  have hr' := h.samples.resetN'
  obtain ⟨-, -, -, -, -, -, -, -, hpls⟩ := step_spiClk_free hr mosi
  obtain ⟨-, -, -, -, -, -, -, -, hpls'⟩ := step_spiClk_free hr' mosi
  obtain ⟨h1, h2, -, -, -, h3, h4⟩ := step_spiClk_gated hr mosi
  obtain ⟨h1', h2', -, -, -, h3', h4'⟩ := step_spiClk_gated hr' mosi
  refine ⟨h.samples.step_spiClk mosi, ?_, ?_, ?_, fun h5 => ?_, fun h6 => ?_, ?_⟩
  · rw [h1, h1', hc, srInstShtNext, srInstShtNext, h.sht, h.cnt]
  · rw [h2, h2', hc, srInstCntNext, srInstCntNext, h.cnt]
  · rcases h.pipeline with hsame | ⟨hle, hheld, hheld'⟩
    · left
      exact hsame.step_other h.samples (by simp) (by simp)
    · right
      rw [hheld.step_spiClk hr, hheld'.step_spiClk hr']
      exact ⟨hle, hheld, hheld'⟩
  · rw [h3, h3', hc, h.sft1 h5]
  · rw [h4, h4', hc, h.sft2 h6]
  · rw [hpls, hpls']
    exact h.plsCnt

theorem step_spiCs (h : SameAfter n s s') (level : Bool) :
    SameAfter n (s.step (.spiCs level)) (s'.step (.spiCs level)) := by
  have hc := h.samples.cSpiResetN.1
  have hr := h.samples.resetN
  have hr' := h.samples.resetN'
  obtain ⟨-, -, -, -, -, -, -, -, hpls⟩ := step_spiCs_free hr level
  obtain ⟨-, -, -, -, -, -, -, -, hpls'⟩ := step_spiCs_free hr' level
  obtain ⟨h1, h2, -, -, -, h3, h4⟩ := step_spiCs_gated hr level
  obtain ⟨h1', h2', -, -, -, h3', h4'⟩ := step_spiCs_gated hr' level
  refine ⟨h.samples.step_spiCs level, ?_, ?_, ?_, fun h5 => ?_, fun h6 => ?_, ?_⟩
  · rw [h1, h1', hc, h.sht]
  · rw [h2, h2', hc, h.cnt]
  · rcases h.pipeline with hsame | ⟨hle, hheld, hheld'⟩
    · left
      exact hsame.step_other h.samples (by simp) (by simp)
    · right
      rw [hheld.step_spiCs hr, hheld'.step_spiCs hr']
      -- the level itself is none of the registers
      have hkeep : ∀ {t : Trg}, Held n t → Held n { t with spiCs := level } := fun ht =>
        ⟨ht.cSpiResetN, ht.cnt, ht.chk, ht.chk1d, ht.chk2d, ht.cnt1d, ht.cnt2d, ht.cnt3d⟩
      exact ⟨hle, hkeep hheld, hkeep hheld'⟩
  · rw [h3, h3', hc, h.sft1 h5]
  · rw [h4, h4', hc, h.sft2 h6]
  · rw [hpls, hpls']
    exact h.plsCnt

/-- `RESET_N` stays high. -/
def NoReset (_ : Trg) (e : Event) : Prop := ∀ level, e ≠ .resetN level

/-- **One step**: every edge of `CLK160M` takes the common opcode one register further. -/
theorem forgets : Forgets Trg.step NoReset (· == .clk160m) SameAfter := by
  intro n s s' e h hok
  cases e with
  | clk160m => exact h.step_clk
  | spiClk mosi => exact h.step_spiClk mosi
  | spiCs level => exact h.step_spiCs level
  | resetN level => exact absurd rfl (hok level)

/-- 21 edges reach the end of the pulse counter. -/
theorem eq (h : SameAfter n s s') (h21 : 21 ≤ n) : s' = s := by
  have hsame := h.samePipeline (by omega)
  have hs := h.samples
  have hpls : s'.srPlsCnt = s.srPlsCnt := by
    rcases h.plsCnt with heq | ⟨hle, hle'⟩
    · exact heq
    · have hlt := s.srPlsCnt.isLt
      have hlt' := s'.srPlsCnt.isLt
      apply BitVec.eq_of_toNat_eq
      omega
  have hreset := hs.resetN'.trans hs.resetN.symm
  have h1 := hs.spiCs1d (by decide)
  have h2 := hs.spiCs2d (by decide)
  have h3 := hs.sync (by decide)
  have h4 := hs.sft1 (by decide)
  have h5 := hs.sft2 le_rfl
  have h6 := h.sft1 (by omega)
  have h7 := h.sft2 (by omega)
  have hcs := hs.spiCs
  have hsht := h.sht
  have hcnt := h.cnt
  obtain ⟨c0, c1, c2, c3, d1, d2, d3, d4⟩ := hsame
  cases s
  cases s'
  simp_all

end SameAfter

/-! ### The run -/

/-- The eighth bit of a frame is the same in both. -/
theorem Heard.sameAfter {y y' : Sys} (h : Heard y y') (h8 : y.bus.frame.bits.length = 8) :
    SameAfter 0 y.trg y'.trg := by
  have hcomplete : y.bus.frame.Complete := h8.ge
  have hlows : 5 ≤ y.bus.frame.lows := h.shift.setup hcomplete.ne_nil
  have hle : y.bus.frame.lows ≤ y.bus.frame.clks := h.shift.placed.lows_le
  have hu : ¬ y.bus.frame.Untouched y.bus.frame.clks :=
    Frame.not_untouched_iff.mpr ⟨by omega, by omega⟩
  have hclear : ¬ y.bus.frame.Clearing := Frame.not_clearing (hlows.trans hle)
  have hne : y.bus.earlier ≠ [] := fun hfirst =>
    hcomplete.ne_nil (h.shift.placed.first hfirst).2.2
  obtain ⟨hsht, hcnt⟩ := h.shiftRegister hne hu
  apply SameAfter.zero (h.same hne) hsht hcnt
  · rw [h.shift.sync.cSpiResetN, decide_eq_false hclear]
    rfl
  · exact (h.shift.cnt_eq_eight hu).mpr hcomplete

/-- **Registers of unknown contents.**  Let `ptmch_trg` start with anything in its registers, and
let `SPI_CS` be high at first for five edges of `CLK160M`.  From the 21st edge after the eighth bit
of a frame on, whatever the bus did before and does then, every register is as it would be had the
circuit been reset at the start. -/
theorem run_eq_of_powerUp {r : Rules} (h5 : 5 ≤ r.first ∧ 5 ≤ r.gap) (hset : 5 ≤ r.setup)
    {s : Trg} (hr : s.resetN = true) (hcs : s.spiCs = true) {pre post : List Event} {mosi : Bool}
    (hwf : WellFormed r (pre ++ .spiClk mosi :: post))
    (h8 : (Sys.after (pre ++ [.spiClk mosi])).bus.frame.bits.length = 8)
    (h21 : 21 ≤ post.count .clk160m) :
    run Trg.step s (pre ++ .spiClk mosi :: post)
      = run Trg.step Trg.start (pre ++ .spiClk mosi :: post) := by
  have hsplit : pre ++ .spiClk mosi :: post = (pre ++ [.spiClk mosi]) ++ post := by simp
  rw [hsplit] at hwf ⊢
  obtain ⟨hpre, hpost⟩ := (along_append _ _ _).mp ((Sys.along_bus _ _).mpr hwf)
  have hheard := Heard.after h5 hset hr hcs ((Sys.along_bus _ _).mp hpre)
  have hready := hheard.sameAfter h8
  -- each step of the rest is one in which `RESET_N` stays high
  have hforgets : Forgets Sys.step (fun y e => y.bus.Allowed r e) (· == .clk160m)
      (fun n y y' => SameAfter n y.trg y'.trg) := by
    intro n y y' e h hok
    refine SameAfter.forgets n y.trg y'.trg e h fun level he => ?_
    rw [he] at hok
    exact hok
  have hafter := hforgets.run hready hpost
  rw [Nat.zero_add] at hafter
  have heq := hafter.eq h21
  rwa [Sys.after, ← run_append, ← run_append, Sys.run_trg, Sys.run_trg] at heq

/-- Registers as a power-up might leave them: two opcodes on their way, and a pulse on. -/
def powerUp : Trg :=
  { Trg.start with
    srInstSht := pWriteenable
    srInstCnt := 0x8
    arInstChk := 0xa5
    srInstChk3d := pPageprogram
    srPlsCnt := 0x3 }

/-- A write enable frame, and `n` edges of `CLK160M` after its last bit. -/
def powerUpRun (n : ℕ) : List Event :=
  (clks 5 ++ .spiCs false :: clks 25 ++ (sendByte pWriteenable).dropLast) ++ .spiClk false :: clks n

theorem powerUp_forgotten :
    run Trg.step powerUp (powerUpRun 21) = run Trg.step Trg.start (powerUpRun 21) :=
  run_eq_of_powerUp (r := Rules.bench) (by decide) (by decide) (by decide) (by decide)
    (by decide +kernel) (by decide +kernel) (by decide)

/-- One edge less is not enough: the opcode that was there already does not fire again. -/
example : run Trg.step powerUp (powerUpRun 20) ≠ run Trg.step Trg.start (powerUpRun 20) := by
  decide +kernel

end Ptmch
