import Ptmch.Trg.Equiv.Sync

/-!
# The shift register and its counter

If no edge of `SPI_CLK` comes before the clear of its frame is over, then from the clear on
`sr_inst_sht` and `sr_inst_cnt` are the first bits of the frame and their number
(`ShiftRefines.step`).
-/

namespace Ptmch

open Trg

namespace Trg

variable {s : Trg} {bits : List Bool}

theorem cnt_eq_eight_iff (hcnt : s.srInstCnt = BitVec.ofNat 4 (min 8 bits.length)) :
    s.srInstCnt = 0b1000 ↔ 8 ≤ bits.length := by
  rw [hcnt, ← BitVec.toNat_inj, BitVec.toNat_ofNat, show (0b1000 : BitVec 4).toNat = 8 from rfl]
  omega

/-- The counter counts a bit. -/
theorem srInstCntNext_eq (hcnt : s.srInstCnt = BitVec.ofNat 4 (min 8 bits.length)) (mosi : Bool) :
    s.srInstCntNext = BitVec.ofNat 4 (min 8 (bits ++ [mosi]).length) := by
  have height := cnt_eq_eight_iff hcnt
  rw [srInstCntNext, List.length_append, List.length_singleton]
  split_ifs with h8
  · have := height.mp h8
    rw [hcnt, min_eq_left this, min_eq_left (Nat.le_succ_of_le this)]
  · have hlt : bits.length < 8 := not_le.mp fun hge => h8 (height.mpr hge)
    rw [hcnt, min_eq_right hlt.le, min_eq_right hlt, BitVec.ofNat_add]
    rfl

/-- The shift register takes a bit, unless it has eight. -/
theorem srInstShtNext_eq (hcnt : s.srInstCnt = BitVec.ofNat 4 (min 8 bits.length))
    (hsht : s.srInstSht = opcode bits) (mosi : Bool) :
    s.srInstShtNext mosi = opcode (bits ++ [mosi]) := by
  have height := cnt_eq_eight_iff hcnt
  rw [srInstShtNext, hsht]
  split_ifs with h8
  · exact (opcode_append_of_complete _ _ (height.mp h8)).symm
  · exact (opcode_concat _ _ (not_le.mp fun hge => h8 (height.mpr hge))).symm

end Trg

/-- The shift register and its counter hold the bits of the current frame once it has cleared them.
-/
structure ShiftRefines (b : Bus) (s : Trg) : Prop where
  placed : b.Placed
  setup : b.frame.bits ≠ [] → 5 ≤ b.frame.lows
  sync : SyncRefines b s
  cnt : ¬ b.frame.Untouched b.frame.clks →
    s.srInstCnt = BitVec.ofNat 4 (min 8 b.frame.bits.length)
  sht : ¬ b.frame.Untouched b.frame.clks → s.srInstSht = opcode b.frame.bits

namespace ShiftRefines

variable {b : Bus} {s : Trg} {r : Rules} {e : Event}

theorem start : ShiftRefines Bus.start Trg.start where
  placed := Bus.placed_start
  setup := by decide
  sync := SyncRefines.start
  cnt := by decide
  sht := by decide

/-- The counter says whether the frame is complete. -/
theorem cnt_eq_eight (h : ShiftRefines b s) (hu : ¬ b.frame.Untouched b.frame.clks) :
    s.srInstCnt = 0b1000 ↔ b.frame.Complete := cnt_eq_eight_iff (h.cnt hu)

/-- No bit has come before the clear is over. -/
theorem bits_of_clearing (h : ShiftRefines b s) (hc : b.frame.Clearing) : b.frame.bits = [] := by
  by_contra hne
  exact Frame.not_clearing ((h.setup hne).trans h.placed.lows_le) hc

/-- While `c_spi_reset_n` is low both are `0`. -/
theorem cleared (h : ShiftRefines b s) (hc : s.cSpiResetN = false) :
    s.srInstSht = 0 ∧ s.srInstCnt = 0 := by
  have hcl : b.frame.Clearing := by simpa [h.sync.cSpiResetN] using hc
  have hu := hcl.not_untouched
  rw [h.sht hu, h.cnt hu, h.bits_of_clearing hcl]
  exact ⟨opcode_nil, rfl⟩

/-- After the second edge the shift register and its counter have either been cleared before any bit
came, or stay what they are. -/
theorem cleared_or_kept (h : ShiftRefines b s)
    (hu : ¬ (b.frame.tick b.spiCs).Untouched (b.frame.clks + 1)) :
    (b.frame.tick b.spiCs).Clearing ∧ b.frame.bits = [] ∨
    ¬ (b.frame.tick b.spiCs).Clearing ∧ ¬ b.frame.Untouched b.frame.clks := by
  have hlow := h.placed.lows_eq
  have hle := h.placed.lows_le
  have hsetup := h.setup
  grind [Frame.Untouched, Frame.Clearing, Frame.window]

theorem step_clk (h : ShiftRefines b s) (hsync : SyncRefines (b.step .clk160m) (s.step .clk160m))
    (hplaced : (b.step .clk160m).Placed) :
    ShiftRefines (b.step .clk160m) (s.step .clk160m) := by
  have hr := h.sync.resetN
  have hnext : s.spiResetNNext = !decide (b.frame.tick b.spiCs).Clearing := by
    rw [← step_clk_cSpiResetN hr, hsync.cSpiResetN]
    rfl
  obtain ⟨hsht, hcnt, -⟩ := step_clk_gated hr
  have hfr : (b.step .clk160m).frame = b.frame.tick b.spiCs := rfl
  have hsetup : (b.step .clk160m).frame.bits ≠ [] → 5 ≤ (b.step .clk160m).frame.lows := by
    intro hne
    have := h.setup hne
    rw [hfr, Frame.tick_lows]
    split_ifs <;> omega
  refine ⟨hplaced, hsetup, hsync, fun hu => ?_, fun hu => ?_⟩
  · rw [hcnt, hfr, Frame.tick_bits]
    rcases h.cleared_or_kept hu with ⟨hcl, hbits⟩ | ⟨hcl, hu'⟩
    · rw [if_neg (by simp [hnext, hcl]), hbits]
      rfl
    · rw [if_pos (by simp [hnext, hcl]), h.cnt hu']
  · rw [hsht, hfr, Frame.tick_bits]
    rcases h.cleared_or_kept hu with ⟨hcl, hbits⟩ | ⟨hcl, hu'⟩
    · rw [if_neg (by simp [hnext, hcl]), hbits, opcode_nil]
    · rw [if_pos (by simp [hnext, hcl]), h.sht hu']

theorem step_spiClk (h : ShiftRefines b s) (mosi : Bool) (hcs : b.spiCs = false)
    (hset : 5 ≤ b.frame.clks) (hsync : SyncRefines (b.step (.spiClk mosi)) (s.step (.spiClk mosi)))
    (hplaced : (b.step (.spiClk mosi)).Placed) :
    ShiftRefines (b.step (.spiClk mosi)) (s.step (.spiClk mosi)) := by
  have h5 : 5 ≤ b.frame.lows := h.placed.lows_eq hcs ▸ hset
  have hu : ¬ b.frame.Untouched b.frame.clks :=
    Frame.not_untouched_iff.mpr ⟨by omega, by omega⟩
  have hc : s.cSpiResetN = true := by
    have hnc : ¬ b.frame.Clearing := Frame.not_clearing hset
    simp [h.sync.cSpiResetN, hnc]
  obtain ⟨hsht, hcnt, -⟩ := step_spiClk_gated h.sync.resetN mosi
  rw [if_pos hc] at hsht hcnt
  exact ⟨hplaced, fun _ => h5, hsync, fun _ => hcnt.trans (srInstCntNext_eq (h.cnt hu) mosi),
    fun _ => hsht.trans (srInstShtNext_eq (h.cnt hu) (h.sht hu) mosi)⟩

/-- A change of `SPI_CS` leaves both as they are. -/
theorem spiCs_kept (h : ShiftRefines b s) (level : Bool) :
    (s.step (.spiCs level)).srInstSht = s.srInstSht ∧
    (s.step (.spiCs level)).srInstCnt = s.srInstCnt := by
  obtain ⟨h1, h2, -⟩ := step_spiCs_gated h.sync.resetN level
  rw [h1, h2]
  split_ifs with hc
  · exact ⟨rfl, rfl⟩
  · obtain ⟨z1, z2⟩ := h.cleared (by simpa using hc)
    exact ⟨z1.symm, z2.symm⟩

/-- **Step lemma** for every discipline that lets the clear come first. -/
theorem step (h5 : 5 ≤ r.first ∧ 5 ≤ r.gap) (hset : 5 ≤ r.setup) (h : ShiftRefines b s)
    (hok : b.Allowed r e) : ShiftRefines (b.step e) (s.step e) := by
  have hsync := h.sync.step h5 h.placed hok
  have hplaced := Bus.placed_step h.placed hok
  match e, hok with
  | .clk160m, _ => exact h.step_clk hsync hplaced
  | .spiClk mosi, ⟨hcs, hclks⟩ =>
    exact h.step_spiClk mosi hcs (hset.trans hclks) hsync hplaced
  | .spiCs true, _ =>
    obtain ⟨hsht, hcnt⟩ := h.spiCs_kept true
    exact ⟨hplaced, h.setup, hsync, fun hu => hcnt.trans (h.cnt hu),
      fun hu => hsht.trans (h.sht hu)⟩
  | .spiCs false, hok =>
    have hbus : (b.step (.spiCs false)).frame = Frame.fresh := by simp [Bus.step, hok.1]
    have hu : (b.step (.spiCs false)).frame.Untouched (b.step (.spiCs false)).frame.clks := by
      rw [hbus]
      exact Or.inl (by decide)
    refine ⟨hplaced, ?_, hsync, fun hu' => absurd hu hu', fun hu' => absurd hu hu'⟩
    rw [hbus]
    exact fun hne => absurd rfl hne

end ShiftRefines

end Ptmch
