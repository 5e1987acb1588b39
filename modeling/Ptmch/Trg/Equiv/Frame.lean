import Ptmch.Trg.Frame

/-!
# How the frame functions move with the bus

Each function of `Trg/Frame.lean` under the three things that happen to a frame: an edge of
`CLK160M` shifts the pipeline by one place (`chk1d_tick`, `chk2d_tick`, `chk3d_tick`, …), an edge of
`SPI_CLK` changes nothing that has already been shown (`chk_bit`, …), and eight edges of `CLK160M`
after `SPI_CS` rises the pipeline has settled (`Settled`).
-/

namespace Ptmch

open Trg

namespace Frame

variable {f : Frame} {v : BitVec 8} {cs : Bool} {t : ℕ}

/-! ### The eighth bit -/

/-- A complete frame keeps its opcode. -/
theorem Complete.bit (hc : f.Complete) (mosi : Bool) :
    (f.bit mosi).Complete ∧ opcode (f.bit mosi).bits = opcode f.bits ∧
      (f.bit mosi).clksAt8 = f.clksAt8 := by
  have hlen : 8 ≤ f.bits.length := hc
  refine ⟨?_, opcode_append_of_complete f.bits [mosi] hc, if_neg (by omega)⟩
  rw [Complete, bit_bits, List.length_append]
  exact Nat.le_add_right_of_le hlen

/-- The bit that completes a frame is the eighth. -/
theorem clksAt8_bit {mosi : Bool} (hc : ¬ f.Complete) (hc' : (f.bit mosi).Complete) :
    (f.bit mosi).clksAt8 = f.clks := by
  rw [Complete] at hc
  rw [Complete, bit_bits, List.length_append, List.length_singleton] at hc'
  exact if_pos (by omega)

/-! ### The discipline of the testbench -/

theorem paced_atReset : atReset.Paced := ⟨le_rfl, by decide, by decide, by decide⟩

theorem paced_fresh : fresh.Paced := ⟨le_rfl, by decide, by decide, by decide⟩

theorem Paced.tick (hf : f.Paced) (h : cs = false → f.lows = f.clks) : (f.tick cs).Paced := by
  cases cs with
  | true => exact ⟨Nat.le_succ_of_le hf.lows_le, hf.setup, hf.clksAt8_ge, hf.clksAt8_le⟩
  | false =>
    exact ⟨Nat.succ_le_succ (h rfl).le, fun hne => Nat.le_succ_of_le (hf.setup hne), hf.clksAt8_ge,
      fun hc => Nat.le_succ_of_le (hf.clksAt8_le hc)⟩

theorem Paced.bit (hf : f.Paced) (h : f.lows = f.clks) (h5 : 5 ≤ f.clks) (mosi : Bool) :
    (f.bit mosi).Paced := by
  by_cases hc : f.Complete
  · obtain ⟨-, -, hat8⟩ := hc.bit mosi
    exact ⟨hf.lows_le, fun _ => h ▸ h5, fun _ => hat8 ▸ hf.clksAt8_ge hc,
      fun _ => hat8 ▸ hf.clksAt8_le hc⟩
  · have hat8 : (f.bit mosi).Complete → (f.bit mosi).clksAt8 = f.clks := clksAt8_bit hc
    exact ⟨hf.lows_le, fun _ => h ▸ h5, fun hc' => hat8 hc' ▸ h5, fun hc' => hat8 hc' ▸ h.ge⟩

/-! ### The clear -/

theorem lows_le_tick (f : Frame) (cs : Bool) : f.lows ≤ (f.tick cs).lows := by
  rw [tick_lows]
  split_ifs
  · exact le_rfl
  · exact Nat.le_succ _

/-- After the first edge it is known whether `SPI_CS` was sampled low at all. -/
theorem one_le_lows_of_tick (h : cs = false → f.lows = f.clks) (h1 : 1 ≤ f.clks)
    (hpos : 1 ≤ (f.tick cs).lows) : 1 ≤ f.lows := by
  cases cs with
  | true => exact hpos
  | false => exact h rfl ▸ h1

/-- What has been cleared stays so. -/
theorem not_untouched_tick (hu : ¬ f.Untouched t) : ¬ (f.tick cs).Untouched (t + 1) := by
  obtain ⟨h3, hpos⟩ := not_untouched_iff.mp hu
  exact not_untouched_iff.mpr ⟨Nat.le_succ_of_le h3, hpos.trans (lows_le_tick f cs)⟩

/-- The first edge of the clear is the third one. -/
theorem clks_of_first_clear (h : cs = false → f.lows = f.clks) (hu : f.Untouched f.clks)
    (hu' : ¬ (f.tick cs).Untouched (f.clks + 1)) : f.clks + 1 = 3 := by
  obtain ⟨h3, hpos⟩ := not_untouched_iff.mp hu'
  rw [tick_lows] at hpos
  rcases hu with hlt | hzero
  · omega
  · cases cs with
    | true => exact absurd (hzero ▸ hpos) (by decide)
    | false =>
      have hclks := h rfl
      omega

/-- The edges after it find a frame that has begun to clear. -/
theorem not_untouched_of_tick (h : cs = false → f.lows = f.clks)
    (hu' : ¬ (f.tick cs).Untouched (f.clks + 1)) (h3 : 3 ≤ f.clks) : ¬ f.Untouched f.clks := by
  intro hu
  have hfirst := clks_of_first_clear h hu hu'
  omega

/-- After two edges the length of the clear is known. -/
theorem window_tick (h : cs = false → f.lows = f.clks) (h2 : 2 ≤ f.clks) :
    (f.tick cs).window = f.window := by
  cases cs with
  | true => rfl
  | false =>
    have hlow : 2 ≤ f.lows := h rfl ▸ h2
    rw [window_eq_two hlow, window_eq_two (hlow.trans (lows_le_tick f false))]

/-- Before the clear no edge of `CLK160M` is kept from the pipeline. -/
theorem gate_of_untouched (hu' : (f.tick cs).Untouched (f.clks + 1)) :
    f.Untouched f.clks ∧ ¬ f.Clearing ∧ ¬ (f.tick cs).Clearing := by
  have hu : f.Untouched f.clks := by
    by_contra hnot
    exact not_untouched_tick hnot hu'
  exact ⟨hu, fun hc => hc.not_untouched hu, fun hc => hc.not_untouched hu'⟩

/-- From the clear on the edges up to its end are. -/
theorem gate_iff (h : cs = false → f.lows = f.clks)
    (hu' : ¬ (f.tick cs).Untouched (f.clks + 1)) :
    (¬ f.Clearing ∧ ¬ (f.tick cs).Clearing) ↔ ¬ f.clks + 1 ≤ 3 + f.window := by
  obtain ⟨h3, hpos⟩ := not_untouched_iff.mp hu'
  have hw : (f.tick cs).window = f.window := window_tick h (Nat.le_of_succ_le_succ h3)
  have hone := one_le_window hpos
  rw [Clearing, Clearing, tick_clks, hw]
  omega

theorem Paced.not_complete (hf : f.Paced) (hu : f.Untouched f.clks) : ¬ f.Complete := by
  intro hc
  have h5 := hf.lows_of_complete hc
  have hle := hf.lows_le
  exact not_untouched_iff.mpr ⟨by omega, by omega⟩ hu

/-! ### An edge of `CLK160M` -/

theorem chk_tick (hf : f.Paced) :
    (f.tick cs).chk v (f.clks + 1) = if f.Complete then opcode f.bits else v := by
  have hiff : (f.tick cs).Complete ∧ (f.tick cs).clksAt8 < f.clks + 1 ↔ f.Complete :=
    and_iff_left_of_imp fun hc => Nat.lt_succ_of_le ((hf.clksAt8_le hc).trans hf.lows_le)
  rw [chk, if_congr hiff rfl rfl]
  rfl

theorem chk1d_tick (hf : f.Paced) (h : cs = false → f.lows = f.clks) :
    (f.tick cs).chk1d v (f.clks + 1)
      = if ¬ f.Clearing ∧ ¬ (f.tick cs).Clearing then f.chk v f.clks else 0 := by
  by_cases hu' : (f.tick cs).Untouched (f.clks + 1)
  · obtain ⟨hu, hgate⟩ := gate_of_untouched hu'
    have hnc := hf.not_complete hu
    rw [chk1d, if_pos hu', if_pos hgate, chk, if_neg fun hc => hnc hc.1]
  · have hw : (f.tick cs).window = f.window :=
      window_tick h (Nat.le_of_succ_le_succ (not_untouched_iff.mp hu').1)
    rw [chk1d, if_neg hu', hw, if_congr (gate_iff h hu') rfl rfl, ite_not]
    rfl

theorem chk2d_tick (h : cs = false → f.lows = f.clks) :
    (f.tick cs).chk2d v (f.clks + 1)
      = if ¬ f.Clearing ∧ ¬ (f.tick cs).Clearing then f.chk1d v f.clks else 0 := by
  by_cases hu' : (f.tick cs).Untouched (f.clks + 1)
  · obtain ⟨hu, hgate⟩ := gate_of_untouched hu'
    rw [chk2d, if_pos hu', if_pos hgate, chk1d, if_pos hu]
  · obtain ⟨h3, hpos⟩ := not_untouched_iff.mp hu'
    have hw : (f.tick cs).window = f.window := window_tick h (Nat.le_of_succ_le_succ h3)
    have hone := one_le_window hpos
    rw [chk2d, if_neg hu', hw, if_congr (gate_iff h hu') rfl rfl, ite_not]
    by_cases hclear : f.clks + 1 ≤ 3 + f.window
    · rw [if_pos (by omega), if_pos hclear]
    · have hu : ¬ f.Untouched f.clks := not_untouched_of_tick h hu' (by omega)
      rw [if_neg hclear, chk1d, if_neg hu]
      exact if_congr (by omega) rfl rfl

theorem chk3d_tick_of_touched (h : cs = false → f.lows = f.clks)
    (hu' : ¬ (f.tick cs).Untouched (f.clks + 1)) :
    (f.tick cs).chk3d v (f.clks + 1)
      = if f.clks + 1 < 6 + f.window then 0
        else if f.Complete ∧ f.clksAt8 + 4 ≤ f.clks + 1 then opcode f.bits
        else if f.Overtakes v then 0 else v := by
  have hw : (f.tick cs).window = f.window :=
    window_tick h (Nat.le_of_succ_le_succ (not_untouched_iff.mp hu').1)
  rw [chk3d, if_neg hu', hw]
  rfl

/-- The two-equal-samples filter.  It holds its old value only while the old opcode is in
`sr_inst_chk_2d` and the new one in `sr_inst_chk_1d`. -/
theorem chk3d_tick (hf : f.Paced) (h : cs = false → f.lows = f.clks) :
    (f.tick cs).chk3d v (f.clks + 1)
      = if ¬ f.Clearing ∧ ¬ (f.tick cs).Clearing then
          (if f.chk1d v f.clks = f.chk2d v f.clks then f.chk2d v f.clks else f.chk3d v f.clks)
        else 0 := by
  by_cases hu' : (f.tick cs).Untouched (f.clks + 1)
  · obtain ⟨hu, hgate⟩ := gate_of_untouched hu'
    rw [chk3d, if_pos hu', if_pos hgate, chk1d, chk2d, if_pos hu, if_pos hu, if_pos rfl]
  obtain ⟨h3, hpos⟩ := not_untouched_iff.mp hu'
  have hw : (f.tick cs).window = f.window := window_tick h (Nat.le_of_succ_le_succ h3)
  have hone := one_le_window hpos
  rw [chk3d_tick_of_touched h hu', if_congr (gate_iff h hu') rfl rfl, ite_not]
  by_cases hclear : f.clks + 1 ≤ 3 + f.window
  · rw [if_pos (by omega), if_pos hclear]
  have hu : ¬ f.Untouched f.clks := not_untouched_of_tick h hu' (by omega)
  rw [if_neg hclear, chk1d, chk2d, chk3d, if_neg hu, if_neg hu, if_neg hu]
  by_cases hzero : f.clks + 1 < 6 + f.window
  · -- the second and the third register are still clear
    rw [if_pos hzero, if_pos (show f.clks ≤ 4 + f.window by omega),
      if_pos (show f.clks < 6 + f.window by omega), ite_self]
  rw [if_neg hzero, if_neg (show ¬ f.clks ≤ 3 + f.window by omega),
    if_neg (show ¬ f.clks ≤ 4 + f.window by omega)]
  by_cases hc : f.Complete
  · have hge := hf.clksAt8_ge hc
    have hw2 := hf.window_of_complete hc
    simp only [chk, Overtakes, hc, true_and]
    -- where the new opcode is, seen from the second register
    obtain hin | hat | hnot : f.clksAt8 + 3 ≤ f.clks ∨ f.clksAt8 + 2 = f.clks ∨
        f.clks < f.clksAt8 + 2 := by omega
    · have h1 : f.clksAt8 < f.clks - 1 := by omega
      have h2 : f.clksAt8 < f.clks - 2 := by omega
      rw [if_pos (by omega), if_pos h1, if_pos h2, if_pos rfl]
    · -- the first register has the new opcode and the second the old one: the filter holds
      grind -ext
    · -- neither register has the new opcode
      grind -ext
  · have hov' : ¬ f.Overtakes v := fun h => hc h.1
    simp only [chk, hc, hov', false_and, if_false, if_true]

/-- Later edges do not change what has been shown. -/
theorem chk3d_tick_of_le (h : cs = false → f.lows = f.clks) (ht : t ≤ f.clks) :
    (f.tick cs).chk3d v t = f.chk3d v t := by
  by_cases h3 : t < 3
  · have hu : f.Untouched t := Or.inl h3
    have hu' : (f.tick cs).Untouched t := Or.inl h3
    rw [chk3d, chk3d, if_pos hu', if_pos hu]
  · have hw : (f.tick cs).window = f.window := window_tick h (by omega)
    have hu : (f.tick cs).Untouched t ↔ f.Untouched t := by
      cases cs with
      | true => exact Iff.rfl
      | false =>
        have hlow := h rfl
        have hlow' : (f.tick false).lows = f.lows + 1 := rfl
        rw [Untouched, Untouched, hlow']
        omega
    rw [chk3d, chk3d, if_congr hu rfl rfl, hw]
    rfl

theorem mch_tick_of_le (h : cs = false → f.lows = f.clks) (ht : t ≤ f.clks) :
    (f.tick cs).mch v t = f.mch v t := by
  rw [mch, mch, chk3d_tick_of_le h ht]

theorem mchSft1_tick (h : cs = false → f.lows = f.clks) :
    (f.tick cs).mchSft1 v (f.clks + 1)
      = if ¬ f.Clearing ∧ ¬ (f.tick cs).Clearing then f.mch v f.clks else false := by
  by_cases hu' : (f.tick cs).Untouched (f.clks + 1)
  · obtain ⟨hu, hgate⟩ := gate_of_untouched hu'
    rw [mchSft1, if_pos hu', if_pos hgate, mch, chk3d, if_pos hu]
  · have hw : (f.tick cs).window = f.window :=
      window_tick h (Nat.le_of_succ_le_succ (not_untouched_iff.mp hu').1)
    rw [mchSft1, if_neg hu', hw, if_congr (gate_iff h hu') rfl rfl, ite_not, Nat.add_sub_cancel,
      mch_tick_of_le h le_rfl]

theorem mchSft2_tick (h : cs = false → f.lows = f.clks) :
    (f.tick cs).mchSft2 v (f.clks + 1)
      = if ¬ f.Clearing ∧ ¬ (f.tick cs).Clearing then f.mchSft1 v f.clks else false := by
  by_cases hu' : (f.tick cs).Untouched (f.clks + 1)
  · obtain ⟨hu, hgate⟩ := gate_of_untouched hu'
    rw [mchSft2, if_pos hu', if_pos hgate, mchSft1, if_pos hu]
  · obtain ⟨h3, hpos⟩ := not_untouched_iff.mp hu'
    have hw : (f.tick cs).window = f.window := window_tick h (Nat.le_of_succ_le_succ h3)
    have hone := one_le_window hpos
    have hmch : (f.tick cs).mch v (f.clks + 1 - 2) = f.mch v (f.clks - 1) :=
      mch_tick_of_le h (by omega)
    rw [mchSft2, if_neg hu', hw, if_congr (gate_iff h hu') rfl rfl, ite_not, hmch]
    by_cases hclear : f.clks + 1 ≤ 3 + f.window
    · rw [if_pos (by omega), if_pos hclear]
    · have hu : ¬ f.Untouched f.clks := not_untouched_of_tick h hu' (by omega)
      rw [if_neg hclear, mchSft1, if_neg hu]
      exact if_congr (by omega) rfl rfl

/-! ### An edge of `SPI_CLK` -/

theorem chk_bit (mosi : Bool) (ht : t ≤ f.clks) :
    (f.bit mosi).chk v t = f.chk v t := by
  by_cases hc : f.Complete
  · obtain ⟨hc', hop, hat8⟩ := hc.bit mosi
    simp only [chk, hop, hat8, hc, hc']
  · have hlate : ¬ ((f.bit mosi).Complete ∧ (f.bit mosi).clksAt8 < t) := by
      rintro ⟨hc', hlt⟩
      rw [clksAt8_bit hc hc'] at hlt
      omega
    rw [chk, chk, if_neg hlate, if_neg fun h => hc h.1]

theorem chk3d_bit (h5 : 5 ≤ f.lows) (mosi : Bool) (ht : t ≤ f.clks) :
    (f.bit mosi).chk3d v t = f.chk3d v t := by
  have hu : (f.bit mosi).Untouched t ↔ f.Untouched t := Iff.rfl
  have hw : (f.bit mosi).window = f.window := rfl
  rw [chk3d, chk3d, if_congr hu rfl rfl, hw]
  by_cases hc : f.Complete
  · obtain ⟨hc', hop, hat8⟩ := hc.bit mosi
    simp only [Overtakes, hop, hat8, hc, hc']
  · have hlate : ¬ ((f.bit mosi).Complete ∧ (f.bit mosi).clksAt8 + 4 ≤ t) := by
      rintro ⟨hc', hle⟩
      rw [clksAt8_bit hc hc'] at hle
      omega
    by_cases hzero : t < 6 + f.window
    · rw [if_pos hzero, if_pos hzero]
    · -- the new opcode is too late to overtake what is shown
      have hw2 : f.window = 2 := window_eq_two ((by decide : 2 ≤ 5).trans h5)
      have hov : ¬ (f.bit mosi).Overtakes v := by
        rintro ⟨hc', hat5, -⟩
        rw [clksAt8_bit hc hc'] at hat5
        omega
      have hov' : ¬ f.Overtakes v := fun h => hc h.1
      simp only [if_neg hzero, if_neg hlate, if_neg hov, if_neg hov', hc, false_and, if_false]

theorem mch_bit (h5 : 5 ≤ f.lows) (mosi : Bool) (ht : t ≤ f.clks) :
    (f.bit mosi).mch v t = f.mch v t := by
  rw [mch, mch, chk3d_bit h5 mosi ht]

/-! ### A settled pipeline -/

theorem Settled.window_le (hs : f.Settled) : f.window + 8 ≤ f.clks := by
  have hw : f.window ≤ f.lows := Nat.min_le_right ..
  have hw2 := f.window_le_two
  rcases hs with h | ⟨-, -, h⟩ <;> omega

theorem Settled.clksAt8_le (hs : f.Settled) (hf : f.Paced) (hc : f.Complete) :
    f.clksAt8 + 8 ≤ f.clks := by
  rcases hs with h | ⟨hnil, -⟩
  · exact (Nat.add_le_add_right (hf.clksAt8_le hc) 8).trans h
  · exact absurd hnil hc.ne_nil

theorem left_of_untouched (hf : f.Paced) (hu : f.Untouched f.clks) : f.left v = v :=
  if_neg (hf.not_complete hu)

theorem chk_of_settled (hf : f.Paced) (hs : f.Settled) (ht : f.clks ≤ t + 2) :
    f.chk v t = f.left v := by
  have hiff : f.Complete ∧ f.clksAt8 < t ↔ f.Complete := by
    refine and_iff_left_of_imp fun hc => ?_
    have hat8 := hs.clksAt8_le hf hc
    omega
  exact if_congr hiff rfl rfl

theorem chk1d_of_settled (hf : f.Paced) (hs : f.Settled) : f.chk1d v f.clks = f.left v := by
  have hw := hs.window_le
  by_cases hu : f.Untouched f.clks
  · rw [chk1d, if_pos hu, left_of_untouched hf hu]
  · rw [chk1d, if_neg hu, if_neg (by omega), chk_of_settled hf hs (by omega)]

theorem chk2d_of_settled (hf : f.Paced) (hs : f.Settled) : f.chk2d v f.clks = f.left v := by
  have hw := hs.window_le
  by_cases hu : f.Untouched f.clks
  · rw [chk2d, if_pos hu, left_of_untouched hf hu]
  · rw [chk2d, if_neg hu, if_neg (by omega), chk_of_settled hf hs (by omega)]

theorem chk3d_of_settled (hf : f.Paced) (hs : f.Settled) (ht : f.clks ≤ t + 2) :
    f.chk3d v t = f.left v := by
  have hw := hs.window_le
  by_cases hu : f.Untouched t
  · have hu' : f.Untouched f.clks := by
      rcases hu with h3 | hzero
      · omega
      · exact Or.inr hzero
    rw [chk3d, if_pos hu, left_of_untouched hf hu']
  · rw [chk3d, if_neg hu, if_neg (by omega), left]
    by_cases hc : f.Complete
    · have hat8 := hs.clksAt8_le hf hc
      rw [if_pos ⟨hc, by omega⟩, if_pos hc]
    · rw [if_neg fun h => hc h.1, if_neg fun h => hc h.1, if_neg hc]

theorem mch_of_settled (hf : f.Paced) (hs : f.Settled) (ht : f.clks ≤ t + 2) :
    f.mch v t = decide (IsTrigger (f.left v)) := by
  rw [mch, chk3d_of_settled hf hs ht]

theorem mchSft1_of_settled (hf : f.Paced) (hs : f.Settled) :
    f.mchSft1 v f.clks = decide (IsTrigger (f.left v)) := by
  have hw := hs.window_le
  by_cases hu : f.Untouched f.clks
  · rw [mchSft1, if_pos hu, left_of_untouched hf hu]
  · rw [mchSft1, if_neg hu, if_neg (by omega), mch_of_settled hf hs (by omega)]

theorem mchSft2_of_settled (hf : f.Paced) (hs : f.Settled) :
    f.mchSft2 v f.clks = decide (IsTrigger (f.left v)) := by
  have hw := hs.window_le
  by_cases hu : f.Untouched f.clks
  · rw [mchSft2, if_pos hu, left_of_untouched hf hu]
  · rw [mchSft2, if_neg hu, if_neg (by omega), mch_of_settled hf hs (by omega)]

/-! ### The pulse counter -/

/-- Where the frame shows a trigger opcode once it has cleared. -/
theorem mch_iff (hf : f.Paced) (hl : 1 ≤ f.lows) (h3 : 3 ≤ t) :
    f.mch v t = true ↔
      if f.FiresStale v then
        6 + f.window ≤ t ∧ (f.Complete → f.clksAt8 + 4 ≤ t → IsTrigger (opcode f.bits))
      else f.Complete ∧ IsTrigger (opcode f.bits) ∧ f.clksAt8 + 4 ≤ t := by
  have hge := hf.clksAt8_ge
  have hat8 := hf.clksAt8_le
  have h0 := not_isTrigger_zero
  rw [mch, decide_eq_true_eq]
  grind -ext [chk3d, Untouched, window, Overtakes, FiresStale]

/-- `c_inst_edge` is high before exactly two edges of `CLK160M`, one after the other. -/
theorem instEdge_iff (hf : f.Paced) :
    (f.mch v f.clks && !f.mchSft2 v f.clks) = true ↔
      ∃ g, f.firesAt v = some g ∧ (f.clks + 2 = g ∨ f.clks + 1 = g) := by
  have hat8 := hf.clksAt8_le
  have hge := hf.clksAt8_ge
  have hsetup := hf.setup
  have hle := hf.lows_le
  have hne := @Complete.ne_nil f
  rw [Bool.and_eq_true, Bool.not_eq_true']
  by_cases hu : f.Untouched f.clks
  · -- before the clear all the registers show the old opcode, so there is no edge
    have hm : f.mch v f.clks = f.mchSft2 v f.clks := by
      rw [mch, mchSft2, chk3d, if_pos hu, if_pos hu]
    grind [firesAt, FiresStale, Untouched, window]
  · obtain ⟨h3, hl⟩ := not_untouched_iff.mp hu
    have hnow := mch_iff (v := v) hf hl h3
    have hpast := mch_iff (v := v) (t := f.clks - 2) hf hl
    have hw : 1 ≤ f.window := one_le_window hl
    -- `sr_inst_mch_sft2` is what was shown two edges before
    rw [mchSft2, if_neg hu, hnow]
    by_cases hs : f.FiresStale v
    · rw [firesAt, if_pos hs]
      grind [FiresStale, Overtakes, window]
    · rw [firesAt, if_neg hs]
      grind [window]

/-- A frame fires on an old opcode or on its own. -/
theorem firesAt_cases {g : ℕ} (hg : f.firesAt v = some g) :
    f.FiresStale v ∧ g = 8 + f.window ∨
    ¬ f.FiresStale v ∧ f.Complete ∧ IsTrigger (opcode f.bits) ∧ g = f.clksAt8 + 6 := by
  rw [firesAt] at hg
  split_ifs at hg with hs hc
  · exact Or.inl ⟨hs, (Option.some.inj hg).symm⟩
  · exact Or.inr ⟨hs, hc.1, hc.2, (Option.some.inj hg).symm⟩

theorem firesAt_ge (hf : f.Paced) {g : ℕ} (hg : f.firesAt v = some g) : 9 ≤ g := by
  rcases firesAt_cases hg with ⟨hs, rfl⟩ | ⟨-, hc, -, rfl⟩
  · have hw := one_le_window hs.2.1
    omega
  · have hge := hf.clksAt8_ge hc
    omega

theorem pulse_early (hf : f.Paced) (h : f.clks < 8) (p : ℕ) : f.pulse v p = p + f.clks := by
  rw [pulse]
  cases hg : f.firesAt v with
  | none => rfl
  | some g =>
    have := firesAt_ge hf hg
    exact if_neg (by omega)

/-- Late edges of `CLK160M` do not change where the frame fires. -/
theorem firesAt_tick (h : cs = false → f.lows = f.clks) (h3 : 3 ≤ f.clks) :
    (f.tick cs).firesAt v = f.firesAt v := by
  have hw : (f.tick cs).window = f.window := window_tick h ((by decide : 2 ≤ 3).trans h3)
  have hs : (f.tick cs).FiresStale v ↔ f.FiresStale v := by
    have hlows : 1 ≤ (f.tick cs).lows ↔ 1 ≤ f.lows :=
      ⟨one_le_lows_of_tick h (by omega), fun hl => hl.trans (lows_le_tick f cs)⟩
    rw [FiresStale, FiresStale, hlows]
    exact Iff.rfl
  rw [firesAt, firesAt, hw, if_congr hs rfl rfl]
  rfl

theorem pulse_tick (hf : f.Paced) (h : cs = false → f.lows = f.clks) (p : ℕ) :
    (f.tick cs).pulse v p
      = if f.mch v f.clks && !f.mchSft2 v f.clks then 0 else f.pulse v p + 1 := by
  have hedge := instEdge_iff (v := v) hf
  by_cases h3 : 3 ≤ f.clks
  · -- where the frame fires is known, up to a frame that completes later
    rw [pulse, pulse, firesAt_tick h h3, tick_clks]
    cases hg : f.firesAt v with
    | none => grind
    | some g => grind
  · -- nothing fires before the ninth edge
    have hno : ¬ (f.mch v f.clks && !f.mchSft2 v f.clks) = true := by
      rw [hedge]
      rintro ⟨g, hg, hcl⟩
      have := firesAt_ge hf hg
      omega
    rw [if_neg hno, pulse_early hf (by omega), pulse_early (hf.tick h) (by simp; omega), tick_clks]
    omega

theorem firesStale_iff (hl : 1 ≤ f.lows) (hov : ¬ f.Overtakes v) : f.FiresStale v ↔ IsTrigger v :=
  ⟨fun h => h.1, fun h => ⟨h, hl, hov⟩⟩

theorem firesAt_of_not_complete (hl : 1 ≤ f.lows) (hc : ¬ f.Complete) :
    f.firesAt v = if IsTrigger v then some (8 + f.window) else none := by
  have hov : ¬ f.Overtakes v := fun h => hc h.1
  have hnew : ¬ (f.Complete ∧ IsTrigger (opcode f.bits)) := fun h => hc h.1
  rw [firesAt, if_congr (firesStale_iff hl hov) rfl rfl, if_neg hnew]

/-- A bit does not change where the frame fires before the fifth next edge of `CLK160M`. -/
theorem firesAt_bit (h5 : 5 ≤ f.lows) (mosi : Bool) {g : ℕ} (hg : g < f.clks + 5) :
    (f.bit mosi).firesAt v = some g ↔ f.firesAt v = some g := by
  have hl : 1 ≤ f.lows := (by decide : 1 ≤ 5).trans h5
  have hw : (f.bit mosi).window = f.window := rfl
  have hw2 : f.window = 2 := window_eq_two ((by decide : 2 ≤ 5).trans h5)
  by_cases hc : f.Complete
  · obtain ⟨hc', hop, hat8⟩ := hc.bit mosi
    simp only [firesAt, FiresStale, Overtakes, bit_lows, hw, hop, hat8, hc, hc']
  by_cases hc' : (f.bit mosi).Complete
  · have hat8 := clksAt8_bit hc hc'
    -- the new opcode fires at the sixth edge after it
    have hnew : ¬ (f.bit mosi).FiresStale v → (f.bit mosi).firesAt v ≠ some g := by
      intro hs hfires
      rw [firesAt, if_neg hs, hat8] at hfires
      split_ifs at hfires
      have := Option.some.inj hfires
      omega
    rw [firesAt_of_not_complete hl hc, hw2]
    by_cases hov : (f.bit mosi).Overtakes v
    · -- and overtakes the old one only if that would fire at the fifth
      have hclks : f.clks = 5 := hat8.symm.trans hov.2.1
      refine iff_of_false (hnew fun hs => hs.2.2 hov) ?_
      split_ifs
      · rw [Option.some.injEq]
        omega
      · exact not_false
    · have hstale := firesStale_iff (f := f.bit mosi) hl hov
      by_cases hv : IsTrigger v
      · rw [firesAt, if_pos (hstale.mpr hv), hw, hw2, if_pos hv]
      · rw [if_neg hv]
        exact iff_of_false (hnew fun hs => hv (hstale.mp hs)) (Option.some_ne_none g).symm
  · rw [firesAt_of_not_complete (f := f.bit mosi) hl hc', firesAt_of_not_complete hl hc, hw]

theorem pulse_bit (h : f.lows = f.clks) (h5 : 5 ≤ f.clks) (mosi : Bool) (p : ℕ) :
    (f.bit mosi).pulse v p = f.pulse v p := by
  have hfires : ∀ g, g ≤ f.clks + 1 → ((f.bit mosi).firesAt v = some g ↔ f.firesAt v = some g) :=
    fun g hg => firesAt_bit (h ▸ h5) mosi (by omega)
  by_cases hfired : ∃ g, f.firesAt v = some g ∧ g ≤ f.clks + 1
  · obtain ⟨g, hg, hle⟩ := hfired
    rw [pulse, pulse, hg, (hfires g hle).mpr hg]
    rfl
  · have hquiet : ∀ f' : Frame, f'.clks = f.clks →
        (∀ g, f'.firesAt v = some g → ¬ g ≤ f.clks + 1) → f'.pulse v p = p + f.clks := by
      intro f' hclks hno
      rw [pulse, hclks]
      cases hg : f'.firesAt v with
      | none => rfl
      | some g => exact if_neg (hno g hg)
    rw [hquiet f rfl fun g hg hle => hfired ⟨g, hg, hle⟩,
      hquiet (f.bit mosi) rfl fun g hg hle => hfired ⟨g, (hfires g hle).mp hg, hle⟩]

theorem firesAt_fresh (v : BitVec 8) : fresh.firesAt v = none := by
  have hs : ¬ fresh.FiresStale v := fun h => absurd h.2.1 (by decide)
  have hc : ¬ fresh.Complete := by decide
  rw [firesAt, if_neg hs, if_neg fun h => hc h.1]

theorem pulse_fresh (p : ℕ) : fresh.pulse v p = p := by
  rw [pulse, firesAt_fresh]
  rfl

end Frame

end Ptmch
