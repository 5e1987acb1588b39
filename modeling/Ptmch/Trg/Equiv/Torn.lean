import Ptmch.Trg.Equiv.Frame
import Ptmch.Trg.Equiv.Shift
import Ptmch.Trg.Torn

/-!
# Torn reads

A torn read of `sr_inst_cnt` gives 8 only where the counter goes from 7 to 8 and all its bits are
read new (`torn_cnt`).  So a byte torn between the old and the new `sr_inst_sht` is in `ar_inst_chk`
for one edge of `CLK160M` only, and never in two registers at once: the two-equal-samples filter
hides it.  `Filtered` says what the pipeline can hold `n` edges after the eighth bit of an opcode;
`TornRefines` carries it over all runs (`chk3d_torn`).
-/

namespace Ptmch

open Machine Trg

/-! ### The filter -/

/-- What `ar_inst_chk` and the three registers behind it can hold `n` edges of `CLK160M` after the
eighth bit of the opcode `p`, the opcode before which was `q`. -/
def Filtered (p q : BitVec 8) (n : ℕ) (chk chk1d chk2d chk3d : BitVec 8) : Prop :=
  match n with
  | 0 => (chk1d = 0 ∨ chk1d = q) ∧ (chk2d = 0 ∨ chk2d = q) ∧ (chk3d = 0 ∨ chk3d = q)
  | 1 => chk = p ∧ (chk2d = 0 ∨ chk2d = q) ∧ (chk3d = 0 ∨ chk3d = q)
  | 2 => chk = p ∧
    (chk1d = p ∧ (chk3d = 0 ∨ chk3d = q) ∨ chk1d = 0 ∧ chk2d = 0 ∧ chk3d = 0)
  | 3 => chk = p ∧
    (chk1d = p ∧ chk2d = p ∧ (chk3d = 0 ∨ chk3d = p ∨ chk3d = q) ∨
      (chk1d = 0 ∨ chk1d = p) ∧ (chk2d = 0 ∨ chk2d = p) ∧ chk3d = 0)
  | _ => chk = p ∧
    (chk1d = 0 ∨ chk1d = p) ∧ (chk2d = 0 ∨ chk2d = p) ∧ (chk3d = 0 ∨ chk3d = p)

namespace Filtered

variable {p q chk chk1d chk2d chk3d : BitVec 8} {n : ℕ}

/-- An edge of `CLK160M` that loads the opcode. -/
theorem step (h : Filtered p q n chk chk1d chk2d chk3d) :
    Filtered p q (n + 1) p chk chk1d (if chk1d = chk2d then chk2d else chk3d) := by
  match n, h with
  | 0, ⟨h1, h2, h3⟩ =>
    refine ⟨rfl, h1, ?_⟩
    split_ifs
    · exact h2
    · exact h3
  | 1, h =>
    grind -ext [Filtered]
  | 2, h => grind -ext [Filtered]
  | 3, h => grind -ext [Filtered]
  | n + 4, ⟨hchk, h1, h2, h3⟩ =>
    -- from here on all three registers are cleared or hold the opcode
    refine ⟨rfl, Or.inr hchk, h1, ?_⟩
    split_ifs
    · exact h2
    · exact h3

/-- A clear. -/
theorem clear (h : Filtered p q n chk chk1d chk2d chk3d) (hn : 2 ≤ n) :
    Filtered p q n chk 0 0 0 := by
  match n, h with
  | 2, h => exact ⟨h.1, Or.inr ⟨rfl, rfl, rfl⟩⟩
  | 3, h => exact ⟨h.1, Or.inr ⟨Or.inl rfl, Or.inl rfl, rfl⟩⟩
  | n + 4, h => exact ⟨h.1, Or.inl rfl, Or.inl rfl, Or.inl rfl⟩

/-- The next opcode, when the last one has come through; it does not matter what `ar_inst_chk`
takes. -/
theorem next (h : Filtered p q n chk chk1d chk2d chk3d) (hn : 4 ≤ n) (p' chk' : BitVec 8) :
    Filtered p' p 0 chk' chk1d chk2d chk3d := by
  match n, h with
  | n + 4, h => exact h.2

theorem chk_eq (h : Filtered p q n chk chk1d chk2d chk3d) (hn : 1 ≤ n) : chk = p := by
  match n, h with
  | 1, h => exact h.1
  | 2, h => exact h.1
  | 3, h => exact h.1
  | n + 4, h => exact h.1

theorem chk3d_eq (h : Filtered p q n chk chk1d chk2d chk3d) :
    chk3d = 0 ∨ chk3d = p ∨ n < 4 ∧ chk3d = q := by
  match n, h with
  | 0, h => exact h.2.2.imp_right fun hq => Or.inr ⟨by omega, hq⟩
  | 1, h => exact h.2.2.imp_right fun hq => Or.inr ⟨by omega, hq⟩
  | 2, h =>
    rcases h.2 with ⟨-, h3⟩ | ⟨-, -, h3⟩
    · exact h3.imp_right fun hq => Or.inr ⟨by omega, hq⟩
    · exact Or.inl h3
  | 3, h =>
    rcases h.2 with ⟨-, -, h3⟩ | ⟨-, -, h3⟩
    · exact h3.imp_right fun h3 => h3.imp_right fun hq => ⟨by omega, hq⟩
    · exact Or.inl h3
  | n + 4, h => exact h.2.2.2.imp_right Or.inl

end Filtered

/-! ### Torn reads of the counter -/

/-- A torn read of a bus that does not change is its value. -/
theorem torn_self {w : ℕ} (sel x : BitVec w) : torn sel x x = x := by
  ext i hi
  simp only [torn, BitVec.getElem_or, BitVec.getElem_and, BitVec.getElem_not]
  cases sel[i] <;> simp

/-- Before it goes to 8 the counter is not read as 8. -/
theorem torn_cnt (sel : BitVec 4) (n : ℕ) (hn : n < 7) :
    torn sel (BitVec.ofNat 4 n) (BitVec.ofNat 4 (n + 1)) ≠ 8 := by
  have hall : ∀ (sel : BitVec 4) (n : Fin 7),
      torn sel (BitVec.ofNat 4 n) (BitVec.ofNat 4 (n + 1)) ≠ 8 := by decide
  exact hall sel ⟨n, hn⟩

/-! ### The samples of `SPI_CS` -/

/-- The sample of `SPI_CS` taken `i` edges of `CLK160M` before the latest one. -/
def Trg.csSample (s : Trg) : ℕ → Bool
  | 0 => s.arSpiCs1d
  | 1 => s.srSpiCs2d
  | 2 => s.srCsSync
  | 3 => s.srCsSyncSft1
  | _ => s.srCsSyncSft2

/-- What the last five samples say about the present level of `SPI_CS` and the one before. -/
structure SampleRefines (b : Bus) (s : Trg) : Prop where
  resetN : s.resetN = true
  spiCs : s.spiCs = b.spiCs
  low : b.spiCs = false → ∀ i < 5, i < b.frame.clks → s.csSample i = false
  /-- two high samples before every fall but the first -/
  beforeLow : b.spiCs = false → 1 < b.earlier.length →
    ∀ i < 5, b.frame.clks ≤ i → i < b.frame.clks + 2 → s.csSample i = true
  high : b.spiCs = true → ∀ i < 5, i < b.highs → s.csSample i = true
  /-- a frame with bits was sampled low five times -/
  beforeHigh : b.spiCs = true → b.frame.bits ≠ [] →
    ∀ i < 5, b.highs ≤ i → s.csSample i = false

namespace SampleRefines

variable {b : Bus} {s s' : Trg}

theorem start : SampleRefines Bus.start Trg.start :=
  ⟨rfl, rfl, nofun, nofun,
    fun _ i _ hi => absurd hi (by simp [Bus.highs, Bus.start, Frame.atReset]),
    fun _ hne => absurd rfl hne⟩

/-- An edge of `CLK160M` shifts the samples. -/
theorem tick (h : SampleRefines b s) (hp : b.Placed) (hr : s'.resetN = true)
    (hcs : s'.spiCs = s.spiCs) (h0 : s'.csSample 0 = s.spiCs)
    (hshift : ∀ i < 4, s'.csSample (i + 1) = s.csSample i) :
    SampleRefines (b.step .clk160m) s' := by
  have hclks : (b.step .clk160m).frame.clks = b.frame.clks + 1 := rfl
  have hhighs : b.spiCs = true → (b.step .clk160m).highs = b.highs + 1 := by
    intro hup
    have := hp.lows_le
    simp only [Bus.highs, Bus.step, Frame.tick, hup, if_true]
    omega
  refine ⟨hr, hcs.trans h.spiCs, fun hdown i hi hlt => ?_, fun hdown he i hi hge hlt => ?_,
    fun hup i hi hlt => ?_, fun hup hne i hi hge => ?_⟩
  · cases i with
    | zero => exact h0.trans (h.spiCs.trans hdown)
    | succ i => exact (hshift i (by omega)).trans (h.low hdown i (by omega) (by omega))
  · cases i with
    | zero => omega
    | succ i =>
      exact (hshift i (by omega)).trans (h.beforeLow hdown he i (by omega) (by omega) (by omega))
  · have hhighs := hhighs hup
    cases i with
    | zero => exact h0.trans (h.spiCs.trans hup)
    | succ i => exact (hshift i (by omega)).trans (h.high hup i (by omega) (by omega))
  · have hhighs := hhighs hup
    cases i with
    | zero => omega
    | succ i => exact (hshift i (by omega)).trans (h.beforeHigh hup hne i (by omega) (by omega))

/-- A rise after a frame with bits finds five low samples. -/
theorem rise (h : SampleRefines b s) (hset : b.frame.bits ≠ [] → 5 ≤ b.frame.clks)
    (hlow : b.frame.lows = b.frame.clks) (hdown : b.spiCs = false) (hr : s'.resetN = true)
    (hcs : s'.spiCs = true) (hkeep : ∀ i, s'.csSample i = s.csSample i) :
    SampleRefines (b.step (.spiCs true)) s' := by
  have hzero : (b.step (.spiCs true)).highs = 0 := by
    simp only [Bus.highs, Bus.step]
    omega
  have hup : (b.step (.spiCs true)).spiCs ≠ false := Bool.false_ne_true.symm
  refine ⟨hr, hcs, fun h => absurd h hup, fun h => absurd h hup, fun _ i _ hlt => by omega,
    fun _ hne i hi _ => ?_⟩
  exact (hkeep i).trans (h.low hdown i hi (lt_of_lt_of_le hi (hset hne)))

/-- A fall after the first frame finds two high samples. -/
theorem fall (h : SampleRefines b s) (hup : b.spiCs = true)
    (hgap : b.earlier ≠ [] → 2 ≤ b.highs) (hr : s'.resetN = true) (hcs : s'.spiCs = false)
    (hkeep : ∀ i, s'.csSample i = s.csSample i) :
    SampleRefines (b.step (.spiCs false)) s' := by
  have hbus : b.step (.spiCs false) = ⟨false, Frame.fresh, b.frame :: b.earlier⟩ := by
    simp [Bus.step, hup]
  rw [hbus]
  have hdown : (false : Bool) ≠ true := Bool.false_ne_true
  refine ⟨hr, hcs, fun _ i _ hlt => absurd hlt (Nat.not_lt_zero i), fun _ he i hi _ hlt => ?_,
    fun h => absurd h hdown, fun h => absurd h hdown⟩
  have he : b.earlier ≠ [] := by
    rintro h0
    simp [h0] at he
  have hgap := hgap he
  have hlt : i < 0 + 2 := hlt
  exact (hkeep i).trans (h.high hup i hi (by omega))

theorem bit (h : SampleRefines b s) (mosi : Bool) (hdown : b.spiCs = false) (hr : s'.resetN = true)
    (hcs : s'.spiCs = s.spiCs) (hkeep : ∀ i, s'.csSample i = s.csSample i) :
    SampleRefines (b.step (.spiClk mosi)) s' := by
  have hdown' : (b.step (.spiClk mosi)).spiCs = false := hdown
  refine ⟨hr, hcs.trans h.spiCs, fun _ i hi hlt => (hkeep i).trans (h.low hdown i hi hlt),
    fun _ he i hi hge hlt => (hkeep i).trans (h.beforeLow hdown he i hi hge hlt),
    fun hup => ?_, fun hup => ?_⟩
  · rw [hdown'] at hup
    cases hup
  · rw [hdown'] at hup
    cases hup

/-! ### When the frame is cleared -/

/-- There is no clear once five samples are low, nor between a frame with bits and the next fall. -/
theorem not_cleared (h : SampleRefines b s)
    (hb : b.spiCs = false ∧ 5 ≤ b.frame.clks ∨ b.spiCs = true ∧ b.frame.bits ≠ []) :
    s.cSpiResetN = true ∧ s.spiResetNNext = true := by
  rw [cSpiResetN_eq h.resetN, spiResetNNext]
  rcases hb with ⟨hdown, h5⟩ | ⟨hup, hne⟩
  · have h1 : s.srSpiCs2d = false := h.low hdown 1 (by omega) (by omega)
    have h3 : s.srCsSyncSft1 = false := h.low hdown 3 (by omega) (by omega)
    have h4 : s.srCsSyncSft2 = false := h.low hdown 4 (by omega) (by omega)
    simp [h3, h4]
  · have hhigh := fun i hi hlt => h.high hup i hi hlt
    have hpast := fun i hi hge => h.beforeHigh hup hne i hi hge
    constructor
    · by_cases h5 : 5 ≤ b.highs
      · have h2 : s.srCsSync = true := hhigh 2 (by omega) (by omega)
        simp [h2]
      · have h4 : s.srCsSyncSft2 = false := hpast 4 (by omega) (by omega)
        simp [h4]
    · by_cases h4 : 4 ≤ b.highs
      · have h1 : s.srSpiCs2d = true := hhigh 1 (by omega) (by omega)
        simp [h1]
      · have h3 : s.srCsSyncSft1 = false := hpast 3 (by omega) (by omega)
        simp [h3]

/-- Every frame but the first is cleared at its third edge. -/
theorem clears_third (h : SampleRefines b s) (hdown : b.spiCs = false) (he : 1 < b.earlier.length)
    (h2 : b.frame.clks = 2) : s.spiResetNNext = false := by
  have h1 : s.srSpiCs2d = false := h.low hdown 1 (by omega) (by omega)
  have h3 : s.srCsSyncSft1 = true := h.beforeLow hdown he 3 (by omega) (by omega) (by omega)
  simp [spiResetNNext, h1, h3]

end SampleRefines

/-! ### The last two opcodes -/

section LastOpcodes

variable (f : Frame) (older : List Frame)

theorem previousOpcode_cons :
    previousOpcode (f :: older) = if f.Complete then latestOpcode older else previousOpcode older :=
  rfl

theorem sinceOpcode_cons :
    sinceOpcode (f :: older) =
      if f.Complete then f.clks - f.clksAt8 else f.clks + sinceOpcode older :=
  rfl

/-- An edge of `CLK160M`. -/
theorem lastOpcodes_tick (cs : Bool) (hat8 : f.Complete → f.clksAt8 ≤ f.clks) :
    latestOpcode (f.tick cs :: older) = latestOpcode (f :: older) ∧
    previousOpcode (f.tick cs :: older) = previousOpcode (f :: older) ∧
    sinceOpcode (f.tick cs :: older) = sinceOpcode (f :: older) + 1 := by
  have hc : (f.tick cs).Complete ↔ f.Complete := Iff.rfl
  rw [latestOpcode_cons, latestOpcode_cons, previousOpcode_cons, previousOpcode_cons,
    sinceOpcode_cons, sinceOpcode_cons, if_congr hc rfl rfl, if_congr hc rfl rfl,
    if_congr hc rfl rfl, Frame.tick_clks, Frame.tick_clksAt8]
  refine ⟨rfl, rfl, ?_⟩
  split_ifs with h
  · have := hat8 h
    omega
  · omega

/-- The eighth bit. -/
theorem lastOpcodes_eighth (mosi : Bool) (h7 : f.bits.length = 7) :
    latestOpcode (f.bit mosi :: older) = opcode (f.bits ++ [mosi]) ∧
    previousOpcode (f.bit mosi :: older) = latestOpcode (f :: older) ∧
    sinceOpcode (f.bit mosi :: older) = 0 := by
  have hc : (f.bit mosi).Complete := by simp [Frame.Complete, h7]
  have hnc : ¬ f.Complete := by simp [Frame.Complete, h7]
  rw [latestOpcode_cons, latestOpcode_cons, previousOpcode_cons, sinceOpcode_cons, if_pos hc,
    if_pos hc, if_pos hc, if_neg hnc, Frame.bit_clksAt8, if_pos h7, Frame.bit_clks]
  exact ⟨rfl, rfl, Nat.sub_self _⟩

/-- Any other bit. -/
theorem lastOpcodes_bit (mosi : Bool) (h7 : f.bits.length ≠ 7) :
    latestOpcode (f.bit mosi :: older) = latestOpcode (f :: older) ∧
    previousOpcode (f.bit mosi :: older) = previousOpcode (f :: older) ∧
    sinceOpcode (f.bit mosi :: older) = sinceOpcode (f :: older) := by
  have hc : (f.bit mosi).Complete ↔ f.Complete := by
    simp only [Frame.Complete, Frame.bit_bits, List.length_append, List.length_singleton]
    omega
  have hop : f.Complete → opcode (f.bit mosi).bits = opcode f.bits :=
    opcode_append_of_complete f.bits [mosi]
  rw [latestOpcode_cons, latestOpcode_cons, previousOpcode_cons, previousOpcode_cons,
    sinceOpcode_cons, sinceOpcode_cons, if_congr hc rfl rfl, if_congr hc rfl rfl,
    if_congr hc rfl rfl, Frame.bit_clksAt8, if_neg h7, Frame.bit_clks]
  refine ⟨?_, rfl, rfl⟩
  split_ifs with h
  · exact hop h
  · rfl

end LastOpcodes

/-! ### The invariant -/

/-- What a well-formed run with torn reads keeps. -/
structure TornRefines (b : Bus) (s : Trg) : Prop where
  placed : b.Placed
  setup : b.frame.bits ≠ [] → 5 ≤ b.frame.lows
  clksAt8_le : b.frame.Complete → b.frame.clksAt8 ≤ b.frame.lows
  samples : SampleRefines b s
  /-- no bit has come since reset -/
  atReset : b.earlier.length ≤ 1 → b.frame.bits = [] → s.srInstCnt = 0 ∧ s.srInstSht = 0
  cleared : b.spiCs = false → b.frame.bits = [] → 3 ≤ b.frame.clks →
    s.srInstCnt = 0 ∧ s.srInstSht = 0
  loaded : b.frame.bits ≠ [] →
    s.srInstCnt = BitVec.ofNat 4 (min 8 b.frame.bits.length) ∧ s.srInstSht = opcode b.frame.bits
  full : s.srInstCnt = 8 → s.srInstSht = latestOpcode (b.frame :: b.earlier)
  /-- the opcode of an earlier frame has had its two edges of `CLK160M` -/
  gap : 2 ≤ sinceOpcode b.earlier
  filtered : Filtered (latestOpcode (b.frame :: b.earlier)) (previousOpcode (b.frame :: b.earlier))
    (sinceOpcode (b.frame :: b.earlier)) s.arInstChk s.srInstChk1d s.srInstChk2d s.srInstChk3d

namespace TornRefines

variable {b : Bus} {s : Trg}

theorem start : TornRefines Bus.start Trg.start where
  placed := Bus.placed_start
  setup := by decide
  clksAt8_le := by decide
  samples := SampleRefines.start
  atReset := by decide
  cleared := by decide
  loaded := by decide
  full := by decide
  gap := by decide
  filtered := ⟨rfl, Or.inl rfl, Or.inl rfl, Or.inl rfl⟩

/-- While `SPI_CLK` may toggle, nothing is cleared and the registers hold the bits so far. -/
theorem ready (h : TornRefines b s) (hdown : b.spiCs = false) (h5 : 5 ≤ b.frame.clks) :
    s.cSpiResetN = true ∧ s.spiResetNNext = true ∧
    s.srInstCnt = BitVec.ofNat 4 (min 8 b.frame.bits.length) ∧
    s.srInstSht = opcode b.frame.bits := by
  obtain ⟨hc, hn⟩ := h.samples.not_cleared (Or.inl ⟨hdown, h5⟩)
  refine ⟨hc, hn, ?_⟩
  by_cases hbits : b.frame.bits = []
  · obtain ⟨hcnt, hsht⟩ := h.cleared hdown hbits (by omega)
    rw [hcnt, hsht, hbits]
    exact ⟨rfl, rfl⟩
  · exact h.loaded hbits

/-- A frame with bits is not cleared. -/
theorem not_cleared (h : TornRefines b s) (hbits : b.frame.bits ≠ []) :
    s.cSpiResetN = true ∧ s.spiResetNNext = true := by
  refine h.samples.not_cleared ?_
  cases hcs : b.spiCs with
  | true => exact Or.inr ⟨rfl, hbits⟩
  | false => exact Or.inl ⟨rfl, h.placed.lows_eq hcs ▸ h.setup hbits⟩

/-- The opcode of an earlier frame has had its two edges of `CLK160M`, wherever the current frame
is. -/
theorem two_le_since (h : TornRefines b s) (hc : ¬ b.frame.Complete) :
    2 ≤ sinceOpcode (b.frame :: b.earlier) := by
  have := h.gap
  rw [sinceOpcode_cons, if_neg hc]
  omega

/-- `ar_inst_chk` takes the latest opcode at an untorn read. -/
theorem arInstChkNext_eq (h : TornRefines b s) :
    s.arInstChkNext s.srInstCnt s.srInstSht = latestOpcode (b.frame :: b.earlier) := by
  rw [arInstChkNext]
  split_ifs with h8
  · exact h.full h8
  · have hnc : ¬ b.frame.Complete := fun hc =>
      h8 ((cnt_eq_eight_iff (h.loaded hc.ne_nil).1).mpr hc)
    have := h.two_le_since hnc
    exact h.filtered.chk_eq (by omega)

/-! ### Steps -/

theorem step_clk (h : TornRefines b s) : TornRefines (b.step .clk160m) (s.step .clk160m) := by
  have hr := h.samples.resetN
  have hplaced := Bus.placed_step (r := Rules.loose) (e := .clk160m) h.placed trivial
  have hat8 : b.frame.Complete → b.frame.clksAt8 ≤ b.frame.clks :=
    fun hc => (h.clksAt8_le hc).trans h.placed.lows_le
  obtain ⟨gr, gcs, g0, g1, g2, g3, g4, gchk, -⟩ := step_clk_free hr
  obtain ⟨gsht, gcnt, gchk1d, gchk2d, gchk3d, -⟩ := step_clk_gated hr
  have hsamples : SampleRefines (b.step .clk160m) (s.step .clk160m) := by
    refine h.samples.tick h.placed gr gcs g0 fun i hi => ?_
    match i, hi with
    | 0, _ => exact g1
    | 1, _ => exact g2
    | 2, _ => exact g3
    | 3, _ => exact g4
  have hlows : b.frame.lows ≤ (b.frame.tick b.spiCs).lows := by
    rw [Frame.tick_lows]
    split_ifs <;> omega
  refine
    { placed := hplaced
      setup := fun hne => (h.setup hne).trans hlows
      clksAt8_le := fun hc => (h.clksAt8_le hc).trans hlows
      samples := hsamples
      atReset := fun he hb => ?_
      cleared := fun hdown hb h3 => ?_
      loaded := fun hne => ?_
      full := fun h8 => ?_
      gap := h.gap
      filtered := ?_ }
  · obtain ⟨hcnt, hsht⟩ := h.atReset he hb
    rw [gcnt, gsht, hcnt, hsht, ite_self, ite_self]
    exact ⟨rfl, rfl⟩
  · -- the third edge clears, and nothing is counted after it
    have hdown : b.spiCs = false := hdown
    have h3 : 3 ≤ b.frame.clks + 1 := h3
    by_cases he : b.earlier.length ≤ 1
    · obtain ⟨hcnt, hsht⟩ := h.atReset he hb
      rw [gcnt, gsht, hcnt, hsht, ite_self, ite_self]
      exact ⟨rfl, rfl⟩
    · by_cases h2 : b.frame.clks = 2
      · rw [gcnt, gsht, h.samples.clears_third hdown (by omega) h2]
        exact ⟨rfl, rfl⟩
      · obtain ⟨hcnt, hsht⟩ := h.cleared hdown hb (by omega)
        rw [gcnt, gsht, hcnt, hsht, ite_self, ite_self]
        exact ⟨rfl, rfl⟩
  · have hn := (h.not_cleared hne).2
    rw [gcnt, gsht, if_pos hn, if_pos hn]
    exact h.loaded hne
  · have hlatest : latestOpcode ((b.step .clk160m).frame :: (b.step .clk160m).earlier)
        = latestOpcode (b.frame :: b.earlier) := (lastOpcodes_tick _ _ _ hat8).1
    rw [gcnt] at h8
    rw [gsht, hlatest]
    split_ifs at h8 ⊢ with hn
    · exact h.full h8
    · exact absurd h8 (by decide)
  · have hstep := h.filtered.step
    obtain ⟨hl, hp, hs⟩ := lastOpcodes_tick b.frame b.earlier b.spiCs hat8
    show Filtered (latestOpcode (b.frame.tick b.spiCs :: b.earlier))
      (previousOpcode (b.frame.tick b.spiCs :: b.earlier))
      (sinceOpcode (b.frame.tick b.spiCs :: b.earlier)) _ _ _ _
    rw [hl, hp, hs, gchk, h.arInstChkNext_eq]
    by_cases hgate : (s.cSpiResetN && s.spiResetNNext) = true
    · rw [gchk1d, gchk2d, gchk3d, if_pos hgate, if_pos hgate, if_pos hgate]
      exact hstep
    · -- only a frame without bits is cleared
      have hbits : b.frame.bits = [] := by
        by_contra hne
        obtain ⟨hc, hn⟩ := h.not_cleared hne
        exact hgate (by rw [hc, hn]; rfl)
      have hnc : ¬ b.frame.Complete := fun hc => hc.ne_nil hbits
      have := h.two_le_since hnc
      rw [gchk1d, gchk2d, gchk3d, if_neg hgate, if_neg hgate, if_neg hgate]
      exact hstep.clear (by omega)

/-- What a bit does to the last two opcodes, in a frame that may have bits. -/
theorem filtered_bit (h : TornRefines b s) (h5 : 5 ≤ b.frame.clks) (mosi : Bool) :
    Filtered (latestOpcode (b.frame.bit mosi :: b.earlier))
      (previousOpcode (b.frame.bit mosi :: b.earlier))
      (sinceOpcode (b.frame.bit mosi :: b.earlier))
      s.arInstChk s.srInstChk1d s.srInstChk2d s.srInstChk3d := by
  by_cases h7 : b.frame.bits.length = 7
  · obtain ⟨hl, hp, hs⟩ := lastOpcodes_eighth b.frame b.earlier mosi h7
    have hnc : ¬ b.frame.Complete := by simp [Frame.Complete, h7]
    have hsince : 4 ≤ sinceOpcode (b.frame :: b.earlier) := by
      rw [sinceOpcode_cons, if_neg hnc]
      omega
    rw [hl, hp, hs]
    exact h.filtered.next hsince _ _
  · obtain ⟨hl, hp, hs⟩ := lastOpcodes_bit b.frame b.earlier mosi h7
    rw [hl, hp, hs]
    exact h.filtered

theorem step_spiClk (h : TornRefines b s) (mosi : Bool)
    (hok : b.Allowed Rules.loose (.spiClk mosi)) :
    TornRefines (b.step (.spiClk mosi)) (s.step (.spiClk mosi)) := by
  have hplaced := Bus.placed_step h.placed hok
  obtain ⟨hdown, h5⟩ := hok
  have h5 : 5 ≤ b.frame.clks := h5
  have hlow := h.placed.lows_eq hdown
  obtain ⟨hc, -, hcnt, hsht⟩ := h.ready hdown h5
  obtain ⟨gr, gcs, g0, g1, g2, g3, g4, gchk, -⟩ := step_spiClk_free h.samples.resetN mosi
  obtain ⟨gsht, gcnt, gchk1d, gchk2d, gchk3d, -⟩ := step_spiClk_gated h.samples.resetN mosi
  rw [if_pos hc] at gsht gcnt gchk1d gchk2d gchk3d
  have hkeep : ∀ i, (s.step (.spiClk mosi)).csSample i = s.csSample i := by
    intro i
    match i with
    | 0 => exact g0
    | 1 => exact g1
    | 2 => exact g2
    | 3 => exact g3
    | _ + 4 => exact g4
  have hne : b.frame.bits ++ [mosi] ≠ [] := by simp
  have hcnt' := gcnt.trans (srInstCntNext_eq hcnt mosi)
  have hsht' := gsht.trans (srInstShtNext_eq hcnt hsht mosi)
  exact
    { placed := hplaced
      setup := fun _ => hlow ▸ h5
      clksAt8_le := fun hc' => by
        have hc' : (b.frame.bit mosi).Complete := hc'
        show (b.frame.bit mosi).clksAt8 ≤ b.frame.lows
        by_cases hc : b.frame.Complete
        · rw [(hc.bit mosi).2.2]
          exact h.clksAt8_le hc
        · exact (Frame.clksAt8_bit hc hc').trans_le hlow.ge
      samples := h.samples.bit mosi hdown gr gcs hkeep
      atReset := fun _ hb => absurd hb hne
      cleared := fun _ hb => absurd hb hne
      loaded := fun _ => ⟨hcnt', hsht'⟩
      full := fun h8 => by
        have hc : (b.frame.bit mosi).Complete := (cnt_eq_eight_iff hcnt').mp h8
        exact hsht'.trans ((latestOpcode_cons _ _).trans (if_pos hc)).symm
      gap := h.gap
      filtered := by
        rw [gchk, gchk1d, gchk2d, gchk3d]
        exact h.filtered_bit h5 mosi }

/-- What a change of `SPI_CS` leaves in the registers. -/
theorem spiCs_regs (h : TornRefines b s) (level : Bool) :
    ((s.step (.spiCs level)).srInstCnt = s.srInstCnt ∧
        (s.step (.spiCs level)).srInstSht = s.srInstSht ∨
      b.frame.bits = [] ∧ (s.step (.spiCs level)).srInstCnt = 0 ∧
        (s.step (.spiCs level)).srInstSht = 0) ∧
    Filtered (latestOpcode (b.frame :: b.earlier)) (previousOpcode (b.frame :: b.earlier))
      (sinceOpcode (b.frame :: b.earlier)) (s.step (.spiCs level)).arInstChk
      (s.step (.spiCs level)).srInstChk1d (s.step (.spiCs level)).srInstChk2d
      (s.step (.spiCs level)).srInstChk3d := by
  obtain ⟨-, -, -, -, -, -, -, gchk, -⟩ := step_spiCs_free h.samples.resetN level
  obtain ⟨gsht, gcnt, gchk1d, gchk2d, gchk3d, -⟩ := step_spiCs_gated h.samples.resetN level
  rw [gchk, gchk1d, gchk2d, gchk3d, gcnt, gsht]
  by_cases hc : s.cSpiResetN = true
  · rw [if_pos hc, if_pos hc, if_pos hc, if_pos hc, if_pos hc]
    exact ⟨Or.inl ⟨rfl, rfl⟩, h.filtered⟩
  · have hbits : b.frame.bits = [] := by
      by_contra hne
      exact hc (h.not_cleared hne).1
    have hnc : ¬ b.frame.Complete := fun hc => hc.ne_nil hbits
    rw [if_neg hc, if_neg hc, if_neg hc, if_neg hc, if_neg hc]
    exact ⟨Or.inr ⟨hbits, rfl, rfl⟩, h.filtered.clear (h.two_le_since hnc)⟩

theorem spiCs_sample (h : TornRefines b s) (level : Bool) (i : ℕ) :
    (s.step (.spiCs level)).csSample i = s.csSample i := by
  obtain ⟨-, -, g0, g1, g2, g3, g4, -⟩ := step_spiCs_free h.samples.resetN level
  match i with
  | 0 => exact g0
  | 1 => exact g1
  | 2 => exact g2
  | 3 => exact g3
  | _ + 4 => exact g4

theorem step_rise (h : TornRefines b s) (hok : b.Allowed Rules.loose (.spiCs true)) :
    TornRefines (b.step (.spiCs true)) (s.step (.spiCs true)) := by
  have hdown : b.spiCs = false := hok
  have hlow := h.placed.lows_eq hdown
  obtain ⟨gr, gcs, -⟩ := step_spiCs_free h.samples.resetN true
  obtain ⟨hregs, hfiltered⟩ := h.spiCs_regs true
  have hset : b.frame.bits ≠ [] → 5 ≤ b.frame.clks := fun hne => hlow ▸ h.setup hne
  refine
    { placed := Bus.placed_step h.placed hok
      setup := h.setup
      clksAt8_le := h.clksAt8_le
      samples := h.samples.rise hset hlow hdown gr gcs (h.spiCs_sample true)
      atReset := fun he hb => ?_
      cleared := nofun
      loaded := fun hne => ?_
      full := fun h8 => ?_
      gap := h.gap
      filtered := hfiltered }
  · rcases hregs with ⟨hcnt, hsht⟩ | ⟨-, hcnt, hsht⟩
    · rw [hcnt, hsht]
      exact h.atReset he hb
    · exact ⟨hcnt, hsht⟩
  · rcases hregs with ⟨hcnt, hsht⟩ | ⟨hb, -⟩
    · rw [hcnt, hsht]
      exact h.loaded hne
    · exact absurd hb hne
  · rcases hregs with ⟨hcnt, hsht⟩ | ⟨-, hcnt, -⟩
    · rw [hcnt] at h8
      exact hsht.trans (h.full h8)
    · rw [hcnt] at h8
      exact absurd h8 (by decide)

/-- The frame that ends has had its two edges of `CLK160M`. -/
theorem gap_of_fall (h : TornRefines b s) (hok : b.Allowed Rules.loose (.spiCs false)) :
    2 ≤ sinceOpcode (b.frame :: b.earlier) := by
  by_cases hc : b.frame.Complete
  · have he : b.earlier ≠ [] := fun h0 => hc.ne_nil (h.placed.first h0).2.2
    obtain ⟨-, hgap⟩ := hok
    rw [if_neg he] at hgap
    have hgap : 2 ≤ b.frame.clks - b.frame.lows := hgap
    have := h.clksAt8_le hc
    rw [sinceOpcode_cons, if_pos hc]
    omega
  · exact h.two_le_since hc

theorem step_fall (h : TornRefines b s) (hok : b.Allowed Rules.loose (.spiCs false)) :
    TornRefines (b.step (.spiCs false)) (s.step (.spiCs false)) := by
  have hgap := h.gap_of_fall hok
  have hplaced := Bus.placed_step h.placed hok
  obtain ⟨gr, gcs, -⟩ := step_spiCs_free h.samples.resetN false
  obtain ⟨hregs, hfiltered⟩ := h.spiCs_regs false
  have hsamples : SampleRefines (b.step (.spiCs false)) (s.step (.spiCs false)) := by
    refine h.samples.fall hok.1 (fun he => ?_) gr gcs (h.spiCs_sample false)
    have hgap := hok.2
    rwa [if_neg he] at hgap
  have hbus : b.step (.spiCs false) = ⟨false, Frame.fresh, b.frame :: b.earlier⟩ := by
    simp [Bus.step, hok.1]
  have hnc : ¬ Frame.fresh.Complete := by decide
  have hlatest : latestOpcode (Frame.fresh :: b.frame :: b.earlier)
      = latestOpcode (b.frame :: b.earlier) := by rw [latestOpcode_cons, if_neg hnc]
  have hprevious : previousOpcode (Frame.fresh :: b.frame :: b.earlier)
      = previousOpcode (b.frame :: b.earlier) := by rw [previousOpcode_cons, if_neg hnc]
  have hsince : sinceOpcode (Frame.fresh :: b.frame :: b.earlier)
      = sinceOpcode (b.frame :: b.earlier) := by
    rw [sinceOpcode_cons, if_neg hnc]
    exact Nat.zero_add _
  rw [hbus] at hplaced hsamples ⊢
  refine
    { placed := hplaced
      setup := fun hne => absurd rfl hne
      clksAt8_le := fun hc => absurd hc hnc
      samples := hsamples
      atReset := fun he _ => ?_
      cleared := fun _ _ h3 => absurd h3 (by simp [Frame.fresh])
      loaded := fun hne => absurd rfl hne
      full := fun h8 => ?_
      gap := hgap
      filtered := by
        rw [hlatest, hprevious, hsince]
        exact hfiltered }
  · have he : b.earlier = [] := by
      have he : b.earlier.length + 1 ≤ 1 := he
      exact List.eq_nil_of_length_eq_zero (by omega)
    rcases hregs with ⟨hcnt, hsht⟩ | ⟨-, hcnt, hsht⟩
    · rw [hcnt, hsht]
      exact h.atReset (by simp [he]) (h.placed.first he).2.2
    · exact ⟨hcnt, hsht⟩
  · rw [hlatest]
    rcases hregs with ⟨hcnt, hsht⟩ | ⟨-, hcnt, -⟩
    · rw [hcnt] at h8
      exact hsht.trans (h.full h8)
    · rw [hcnt] at h8
      exact absurd h8 (by decide)

/-- The registers with torn values matter only at the eighth bit, or not at all. -/
theorem of_torn (h : TornRefines b s) (cnt1d : BitVec 4) (chk : BitVec 8)
    (hchk : sinceOpcode (b.frame :: b.earlier) = 0 ∨ chk = s.arInstChk) :
    TornRefines b { s with arInstCnt1d := cnt1d, arInstChk := chk } := by
  obtain ⟨hplaced, hset, hat8, ⟨hr, hcs, hl, hbl, hh, hbh⟩, hres, hcl, hload, hfull, hgap, hf⟩ := h
  refine ⟨hplaced, hset, hat8, ⟨hr, hcs, hl, hbl, hh, hbh⟩, hres, hcl, hload, hfull, hgap, ?_⟩
  rcases hchk with h0 | rfl
  · rw [h0] at hf ⊢
    exact hf
  · exact hf

theorem step_both (h : TornRefines b s) (mosi : Bool) (cntSel : BitVec 4) (shtSel : BitVec 8)
    (hok : b.Allowed Rules.loose (.spiClk mosi)) :
    TornRefines (b.stepTorn (.both mosi cntSel shtSel))
      (s.stepTorn (.both mosi cntSel shtSel)) := by
  have hok' := Bus.allowed_both hok
  obtain ⟨hdown, h5⟩ := hok
  have h5 : 5 ≤ b.frame.clks := h5
  obtain ⟨hc, hn, hcnt, hsht⟩ := h.ready hdown h5
  have hseq : TornRefines (b.stepTorn (.both mosi cntSel shtSel))
      ((s.step .clk160m).step (.spiClk mosi)) := h.step_clk.step_spiClk mosi hok'
  rw [stepTorn_both h.samples.resetN hc hn]
  refine hseq.of_torn _ _ ?_
  by_cases h7 : b.frame.bits.length = 7
  · left
    exact (lastOpcodes_eighth (b.frame.tick b.spiCs) b.earlier mosi h7).2.2
  · right
    -- the counter is not read as 8 unless it is 8
    have hgchk : ((s.step .clk160m).step (.spiClk mosi)).arInstChk
        = s.arInstChkNext s.srInstCnt s.srInstSht := by
      obtain ⟨gr, -, -, -, -, -, -, gchk, -⟩ := step_clk_free h.samples.resetN
      exact (step_spiClk_free gr mosi).2.2.2.2.2.2.2.1.trans gchk
    have hcnt' := srInstCntNext_eq hcnt mosi
    rw [hgchk, arInstChkNext, arInstChkNext]
    by_cases h8 : 8 ≤ b.frame.bits.length
    · have hfull : s.srInstCnt = 8 := (cnt_eq_eight_iff hcnt).mpr h8
      rw [srInstCntNext, srInstShtNext, if_pos hfull, if_pos hfull, torn_self, torn_self]
    · have hlt : b.frame.bits.length < 7 := by omega
      have hnot : s.srInstCnt ≠ 8 := fun h => h8 ((cnt_eq_eight_iff hcnt).mp h)
      have htorn : torn cntSel s.srInstCnt s.srInstCntNext ≠ 8 := by
        rw [hcnt', hcnt, List.length_append, List.length_singleton, min_eq_right (by omega),
          min_eq_right (by omega)]
        exact torn_cnt cntSel _ hlt
      rw [if_neg htorn, if_neg hnot]

/-- **Step lemma**: every event that the discipline allows keeps the invariant. -/
theorem step (h : TornRefines b s) {e : TornEvent} (hok : b.AllowedTorn Rules.loose e) :
    TornRefines (b.stepTorn e) (s.stepTorn e) := by
  match e, hok with
  | .single (.spiClk mosi), hok => exact h.step_spiClk mosi hok
  | .single .clk160m, _ => exact h.step_clk
  | .single (.spiCs true), hok => exact h.step_rise hok
  | .single (.spiCs false), hok => exact h.step_fall hok
  | .both mosi cntSel shtSel, hok => exact h.step_both mosi cntSel shtSel hok

/-- What `sr_inst_chk_3d` can show. -/
theorem chk3d (h : TornRefines b s) : b.IsOpcode s.srInstChk3d ∨ b.IsLateOpcode s.srInstChk3d := by
  have hchk := h.filtered.chk3d_eq
  rw [latestOpcode_cons, previousOpcode_cons] at hchk
  unfold Bus.IsOpcode Bus.IsLateOpcode Bus.stale
  by_cases hc : b.frame.Complete
  · rw [if_pos hc, if_pos hc] at hchk
    rcases hchk with h0 | hp | ⟨-, hq⟩
    · exact Or.inl (Or.inl h0)
    · exact Or.inl (Or.inr (Or.inl ⟨hc, hp⟩))
    · exact Or.inl (Or.inr (Or.inr hq))
  · rw [if_neg hc, if_neg hc] at hchk
    rcases hchk with h0 | hp | hq
    · exact Or.inl (Or.inl h0)
    · exact Or.inl (Or.inr (Or.inr hp))
    · exact Or.inr ⟨hc, hq⟩

end TornRefines

/-- **The filter hides torn reads.**  In every well-formed run, whatever bits are torn,
`sr_inst_chk_3d` shows zero or a whole opcode: that of the current frame, that of the latest earlier
complete frame or, until the fourth edge of `CLK160M` after the eighth bit of the latter, the opcode
before it. -/
theorem chk3d_torn {es : List TornEvent} (hwf : WellFormedTorn Rules.loose es) :
    (Sys.afterTorn es).bus.IsOpcode (Sys.afterTorn es).trg.srInstChk3d ∨
    (Sys.afterTorn es).bus.IsLateOpcode (Sys.afterTorn es).trg.srInstChk3d :=
  (run_invariant (I := fun y : Sys => TornRefines y.bus y.trg) (fun _ _ h hok => h.step hok)
    TornRefines.start ((Sys.along_busTorn _ es).mpr hwf)).chk3d

/-- Two frames, the second with an eighth bit at coinciding edges, and a fall of `SPI_CS` after the
least gap. -/
def lateRun : List TornEvent :=
  (clks 2 ++ frameEvents 5 (sendByte 0x55 ++ clks 8) ++ clks 2 ++ .spiCs false :: clks 9 ++
      (sendByte 0xAA).dropLast).map .single ++
    [.both false 0xF 0x0F] ++ (Event.spiCs true :: clks 2 ++ [Event.spiCs false]).map .single

/-- **A late opcode**: after `lateRun` the first opcode is shown, though the second frame is the
latest complete one. -/
theorem lateRun_shows :
    WellFormedTorn Rules.loose lateRun ∧
    ¬ (Sys.afterTorn lateRun).bus.IsOpcode (Sys.afterTorn lateRun).trg.srInstChk3d := by
  decide +kernel

/-- The two alternatives of `lateRun`. -/
theorem chk3d_torn_lateRun :
    (Sys.afterTorn lateRun).bus.IsOpcode (Sys.afterTorn lateRun).trg.srInstChk3d ∨
    (Sys.afterTorn lateRun).bus.IsLateOpcode (Sys.afterTorn lateRun).trg.srInstChk3d :=
  chk3d_torn (by decide +kernel)

end Ptmch
