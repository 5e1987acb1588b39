import Ptmch.Trg.Bus

/-!
# What a frame does to the pipeline

For a well-formed run, every register of `ptmch_trg` is a function of the current frame, of the
opcode `v` that earlier frames left in `ar_inst_chk`, and of the time `t` in edges of `CLK160M`
since `SPI_CS` fell.  This module states these functions; they mention the bus only.

The edges of `CLK160M` after a fall are numbered from one.  If `SPI_CS` is sampled low `l` times,
`c_spi_reset_n` is low from edge 3 to edge `3 + min 2 l`.  `ar_inst_chk` is not cleared, so `v` runs
through the cleared pipeline again and reaches `sr_inst_chk_3d` three edges after the clear, unless
the new opcode is right behind it.  The new opcode, loaded at the first edge after the eighth
edge of `SPI_CLK`, reaches `sr_inst_chk_3d` at the fourth.
-/

namespace Ptmch

open Trg

namespace Frame

/-! ### The synchroniser -/

/-- The sample of `SPI_CS` taken `i` edges of `CLK160M` before the latest one. -/
def csAt (f : Frame) (i : ℕ) : Bool := !decide (i < f.clks ∧ f.clks - i ≤ f.lows)

/-- No edge of `SPI_CLK` came before the clear was over, and none after `SPI_CS` rose. -/
structure Paced (f : Frame) : Prop where
  lows_le : f.lows ≤ f.clks
  setup : f.bits ≠ [] → 5 ≤ f.lows
  clksAt8_ge : f.Complete → 5 ≤ f.clksAt8
  clksAt8_le : f.Complete → f.clksAt8 ≤ f.lows

/-- The number of `CLK160M` periods for which the frame holds `c_spi_reset_n` low. -/
def window (f : Frame) : ℕ := min 2 f.lows

/-- The frame holds `c_spi_reset_n` low. -/
def Clearing (f : Frame) : Prop := 3 ≤ f.clks ∧ f.clks < 3 + f.window

instance : DecidablePred Clearing := fun _ => inferInstanceAs (Decidable (_ ∧ _))

/-- At time `t` the frame has not cleared anything. -/
def Untouched (f : Frame) (t : ℕ) : Prop := t < 3 ∨ f.lows = 0

instance (f : Frame) (t : ℕ) : Decidable (f.Untouched t) := inferInstanceAs (Decidable (_ ∨ _))

theorem not_untouched_iff {f : Frame} {t : ℕ} : ¬ f.Untouched t ↔ 3 ≤ t ∧ 1 ≤ f.lows := by
  unfold Untouched
  omega

theorem window_le_two (f : Frame) : f.window ≤ 2 := Nat.min_le_left 2 f.lows

theorem one_le_window {f : Frame} (h : 1 ≤ f.lows) : 1 ≤ f.window := Nat.le_min.mpr ⟨by decide, h⟩

theorem window_eq_two {f : Frame} (h : 2 ≤ f.lows) : f.window = 2 := Nat.min_eq_left h

/-- A frame that is clearing has been sampled low. -/
theorem Clearing.not_untouched {f : Frame} (h : f.Clearing) : ¬ f.Untouched f.clks := by
  obtain ⟨h3, hlt⟩ := h
  have hpos : 1 ≤ f.lows := by
    unfold window at hlt
    omega
  exact not_untouched_iff.mpr ⟨h3, hpos⟩

/-- The clear is over at the fifth edge. -/
theorem not_clearing {f : Frame} (h5 : 5 ≤ f.clks) : ¬ f.Clearing := by
  rintro ⟨-, hlt⟩
  have := f.window_le_two
  omega

theorem Paced.clksAt8_le_clks {f : Frame} (hf : f.Paced) (hc : f.Complete) : f.clksAt8 ≤ f.clks :=
  (hf.clksAt8_le hc).trans hf.lows_le

theorem Paced.lows_of_complete {f : Frame} (hf : f.Paced) (hc : f.Complete) : 5 ≤ f.lows :=
  (hf.clksAt8_ge hc).trans (hf.clksAt8_le hc)

theorem Paced.window_of_complete {f : Frame} (hf : f.Paced) (hc : f.Complete) : f.window = 2 :=
  window_eq_two ((by decide : 2 ≤ 5).trans (hf.lows_of_complete hc))

/-! ### The opcode pipeline -/

/-- `ar_inst_chk` at time `t`. -/
def chk (f : Frame) (v : BitVec 8) (t : ℕ) : BitVec 8 :=
  if f.Complete ∧ f.clksAt8 < t then opcode f.bits else v

/-- `sr_inst_chk_1d` at time `t`. -/
def chk1d (f : Frame) (v : BitVec 8) (t : ℕ) : BitVec 8 :=
  if f.Untouched t then v else if t ≤ 3 + f.window then 0 else f.chk v (t - 1)

/-- `sr_inst_chk_2d` at time `t`. -/
def chk2d (f : Frame) (v : BitVec 8) (t : ℕ) : BitVec 8 :=
  if f.Untouched t then v else if t ≤ 4 + f.window then 0 else f.chk v (t - 2)

/-- The new opcode is so close behind the old one that the two-equal-samples filter never sees
the old one twice. -/
def Overtakes (f : Frame) (v : BitVec 8) : Prop :=
  f.Complete ∧ f.clksAt8 = 5 ∧ opcode f.bits ≠ v

instance (f : Frame) (v : BitVec 8) : Decidable (f.Overtakes v) :=
  inferInstanceAs (Decidable (_ ∧ _))

/-- `sr_inst_chk_3d` at time `t`. -/
def chk3d (f : Frame) (v : BitVec 8) (t : ℕ) : BitVec 8 :=
  if f.Untouched t then v
  else if t < 6 + f.window then 0
  else if f.Complete ∧ f.clksAt8 + 4 ≤ t then opcode f.bits
  else if f.Overtakes v then 0
  else v

/-- `c_inst_mch` at time `t`. -/
def mch (f : Frame) (v : BitVec 8) (t : ℕ) : Bool := decide (IsTrigger (f.chk3d v t))

/-- `ar_inst_mch_sft1` at time `t`. -/
def mchSft1 (f : Frame) (v : BitVec 8) (t : ℕ) : Bool :=
  if f.Untouched t then decide (IsTrigger v)
  else if t ≤ 3 + f.window then false
  else f.mch v (t - 1)

/-- `sr_inst_mch_sft2` at time `t`. -/
def mchSft2 (f : Frame) (v : BitVec 8) (t : ℕ) : Bool :=
  if f.Untouched t then decide (IsTrigger v)
  else if t ≤ 4 + f.window then false
  else f.mch v (t - 2)

/-- The opcode that the frame leaves in `ar_inst_chk`. -/
def left (f : Frame) (v : BitVec 8) : BitVec 8 := if f.Complete then opcode f.bits else v

/-- The whole pipeline shows the opcode that the frame leaves. -/
def Settled (f : Frame) : Prop := f.lows + 8 ≤ f.clks ∨ f.bits = [] ∧ f.lows = 5 ∧ 10 ≤ f.clks

/-! ### The pulse counter -/

/-- The frame starts a pulse on the opcode of an earlier frame. -/
def FiresStale (f : Frame) (v : BitVec 8) : Prop :=
  IsTrigger v ∧ 1 ≤ f.lows ∧ ¬ f.Overtakes v

instance (f : Frame) (v : BitVec 8) : Decidable (f.FiresStale v) :=
  inferInstanceAs (Decidable (_ ∧ _))

/-- The edge of `CLK160M` at which the frame restarts the pulse counter for the last time; the edge
before it restarts the counter too. -/
def firesAt (f : Frame) (v : BitVec 8) : Option ℕ :=
  if f.FiresStale v then some (8 + f.window)
  else if f.Complete ∧ IsTrigger (opcode f.bits) then some (f.clksAt8 + 6)
  else none

/-- The edges of `CLK160M` since the pulse counter was restarted, if it stood at `p` when `SPI_CS`
fell. -/
def pulse (f : Frame) (v : BitVec 8) (p : ℕ) : ℕ :=
  match f.firesAt v with
  | some g => if g ≤ f.clks + 1 then f.clks - g else p + f.clks
  | none => p + f.clks

/-- The output for the opcode `x` is high: `sr_inst_chk_3d` shows `x` while a pulse runs. -/
def Shows (f : Frame) (v : BitVec 8) (p : ℕ) (x : BitVec 8) : Prop :=
  f.chk3d v f.clks = x ∧ f.pulse v p < 15

instance (f : Frame) (v : BitVec 8) (p : ℕ) (x : BitVec 8) : Decidable (f.Shows v p x) :=
  inferInstanceAs (Decidable (_ ∧ _))

/-- The edge of `CLK160M` at which the opcode of an earlier frame raises the output; one edge
earlier if a pulse from an earlier frame still runs then. -/
def staleRiseAt (f : Frame) (p : ℕ) : ℕ :=
  if p + 6 + f.window < 15 then 6 + f.window else 7 + f.window

end Frame

/-- The edges of `CLK160M` since the pulse counter was restarted, over the frames of a run, latest
first; 15 and more stand for a counter at rest. -/
def pulseCount : List Frame → ℕ
  | [] => 15
  | f :: older => f.pulse (latestOpcode older) (pulseCount older)

namespace Bus

/-- `sr_pls_cnt`, not capped at 15. -/
def pulse (b : Bus) : ℕ := pulseCount (b.frame :: b.earlier)

/-- `sr_inst_chk_3d` -/
def chk3d (b : Bus) : BitVec 8 := b.frame.chk3d b.stale b.frame.clks

/-! ### What every discipline keeps -/

/-- The place of the frame among the edges of `CLK160M`. -/
structure Placed (b : Bus) : Prop where
  lows_le : b.frame.lows ≤ b.frame.clks
  lows_eq : b.spiCs = false → b.frame.lows = b.frame.clks
  first : b.earlier = [] → b.spiCs = true ∧ b.frame.lows = 5 ∧ b.frame.bits = []

theorem placed_start : Placed start := ⟨le_rfl, by decide, by decide⟩

theorem placed_step {r : Rules} {b : Bus} {e : Event} (h : b.Placed) (hok : b.Allowed r e) :
    (b.step e).Placed := by
  obtain ⟨hle, heq, hfirst⟩ := h
  match e, hok with
  | .spiClk mosi, ⟨hcs, _⟩ =>
    refine ⟨hle, heq, fun he => ?_⟩
    rw [(hfirst he).1] at hcs
    cases hcs
  | .clk160m, _ =>
    cases hcs : b.spiCs with
    | true =>
      refine ⟨?_, ?_, ?_⟩
      · simpa [step, Frame.tick, hcs] using Nat.le_succ_of_le hle
      · simp [step, hcs]
      · simpa [step, Frame.tick, hcs] using fun he => (hfirst he).2
    | false =>
      refine ⟨?_, ?_, ?_⟩
      · simpa [step, Frame.tick, hcs] using hle
      · simpa [step, Frame.tick, hcs] using heq hcs
      · simp only [step]
        intro he
        rw [(hfirst he).1] at hcs
        cases hcs
  | .spiCs true, hcs =>
    refine ⟨hle, by simp [step], fun he => ?_⟩
    exact ⟨rfl, (hfirst he).2⟩
  | .spiCs false, ⟨hcs, _⟩ => simp [step, hcs, Frame.fresh, Placed.mk]

end Bus

end Ptmch
