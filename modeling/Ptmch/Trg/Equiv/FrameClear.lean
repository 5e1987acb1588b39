import Ptmch.Trg.Clear
import Ptmch.Trg.Equiv.Shift

/-!
# The clear of a frame

Nothing is assumed here of `SPI_CLK`, and of `SPI_CS` only that it keeps each level for at least two
edges of `CLK160M`.  `ClearWatch` counts, beside the circuit, the edges of `CLK160M` from the one
that has first sampled a fall of `SPI_CS`, and keeps the bits shifted in since `c_spi_reset_n` last
went high.

* `c_spi_reset_n` is low from the third of these edges to the fifth and at no other time.
* While it is high `sr_inst_sht` and `sr_inst_cnt` hold the first eight of the bits and their
  number; while it is low both are `0`.
-/

namespace Ptmch

open Machine Trg

/-- `ptmch_trg` and a record of its run. -/
structure ClearWatch where
  trg : Trg
  /-- the edges of `CLK160M` since `SPI_CS` took its level, or since the release of `RESET_N` -/
  samples : ℕ
  /-- `SPI_CS` has fallen, and no edge of `CLK160M` has sampled it low since -/
  unsampled : Bool
  /-- the edges of `CLK160M` from the first one that sampled the latest sampled fall of `SPI_CS`,
  that one included; `0` before any -/
  edges : ℕ
  /-- the bits on `SPI_MOSI` at the edges of `SPI_CLK` since `c_spi_reset_n` went high -/
  bits : List Bool
  deriving DecidableEq, Repr

namespace ClearWatch

/-- `RESET_N` has just been released. -/
def start (cs : Bool) : ClearWatch := ⟨(reset false cs).step (.resetN true), 0, false, 0, []⟩

def samplesNext (w : ClearWatch) : Event → ℕ
  | .clk160m => w.samples + 1
  | .spiCs level => if level = w.trg.spiCs then w.samples else 0
  | _ => w.samples

def unsampledNext (w : ClearWatch) : Event → Bool
  | .clk160m => w.unsampled && w.trg.spiCs
  | .spiCs level => w.unsampled || w.trg.spiCs && !level
  | _ => w.unsampled

def edgesNext (w : ClearWatch) : Event → ℕ
  | .clk160m =>
    if w.unsampled && !w.trg.spiCs then 1
    else if w.edges = 0 then 0
    else w.edges + 1
  | _ => w.edges

def bitsNext (w : ClearWatch) (e : Event) : List Bool :=
  if (w.trg.step e).cSpiResetN = false then []
  else match e with
    | .spiClk mosi => w.bits ++ [mosi]
    | _ => w.bits

def step (w : ClearWatch) (e : Event) : ClearWatch where
  trg := w.trg.step e
  samples := w.samplesNext e
  unsampled := w.unsampledNext e
  edges := w.edgesNext e
  bits := w.bitsNext e

/-- `RESET_N` stays high, and `SPI_CS` changes its level only after two edges of `CLK160M` at the
old one. -/
def Allowed (w : ClearWatch) : Event → Prop
  | .spiCs level => level = w.trg.spiCs ∨ 2 ≤ w.samples
  | .resetN _ => False
  | _ => True

instance (w : ClearWatch) : ∀ e, Decidable (w.Allowed e)
  | .spiClk _ => inferInstanceAs (Decidable True)
  | .clk160m => inferInstanceAs (Decidable True)
  | .spiCs _ => inferInstanceAs (Decidable (_ ∨ _))
  | .resetN _ => inferInstanceAs (Decidable False)

/-- What `c_spi_reset_n` does to the shift register and its counter. -/
structure Clears (w : ClearWatch) : Prop where
  /-- from the third edge to the fifth and at no other time -/
  low_iff : w.trg.cSpiResetN = false ↔ 3 ≤ w.edges ∧ w.edges < 5
  cleared : w.trg.cSpiResetN = false → w.trg.srInstCnt = 0 ∧ w.trg.srInstSht = 0
  cnt : w.trg.cSpiResetN = true → w.trg.srInstCnt.toNat = min w.bits.length 8
  sht : w.trg.cSpiResetN = true → w.trg.srInstSht = opcode w.bits
  /-- edges after the eighth change nothing -/
  full : w.trg.cSpiResetN = true → 8 ≤ w.bits.length → ∀ mosi,
    (w.trg.step (.spiClk mosi)).srInstCnt = w.trg.srInstCnt ∧
    (w.trg.step (.spiClk mosi)).srInstSht = w.trg.srInstSht

variable {w : ClearWatch} {e : Event}

/-! ### The synchroniser -/

/-- The latest samples of `SPI_CS`, which has kept each level for two of them. -/
structure Held (w : ClearWatch) : Prop where
  resetN : w.trg.resetN = true
  fall : w.unsampled = true → w.trg.spiCs = false ∧ w.samples = 0 ∧
    w.trg.arSpiCs1d = true ∧ w.trg.srSpiCs2d = true
  low : w.unsampled = false → w.trg.spiCs = false → w.trg.arSpiCs1d = false
  high1 : w.trg.spiCs = true → 1 ≤ w.samples → w.trg.arSpiCs1d = true
  high2 : w.trg.spiCs = true → 2 ≤ w.samples → w.trg.srSpiCs2d = true

/-- The fall that is counted passes through the synchroniser: two samples before it are high, and
two from it on are low.  The samples from it on, and before any fall all of them, are ordered: where
one is high, all later ones are. -/
structure Passes (w : ClearWatch) : Prop where
  first : w.edges = 1 → w.trg.spiCs = false ∧ w.samples = 1 ∧
    w.trg.arSpiCs1d = false ∧ w.trg.srSpiCs2d = true ∧ w.trg.srCsSync = true
  second : w.edges = 2 → w.trg.arSpiCs1d = false ∧ w.trg.srSpiCs2d = false ∧
    w.trg.srCsSync = true ∧ w.trg.srCsSyncSft1 = true
  third : w.edges = 3 → w.trg.srSpiCs2d = false ∧ w.trg.srCsSync = false ∧
    w.trg.srCsSyncSft1 = true ∧ w.trg.srCsSyncSft2 = true
  fourth : w.edges = 4 → w.trg.srCsSync = false ∧ w.trg.srCsSyncSft1 = false ∧
    w.trg.srCsSyncSft2 = true
  fifth : w.edges = 5 → w.trg.srCsSyncSft2 = false
  spiCs2d : w.edges ≠ 1 → w.trg.srSpiCs2d = true → w.trg.arSpiCs1d = true
  sync : w.edges = 0 ∨ 3 ≤ w.edges → w.trg.srCsSync = true → w.trg.srSpiCs2d = true
  sft1 : w.edges = 0 ∨ 4 ≤ w.edges → w.trg.srCsSyncSft1 = true → w.trg.srCsSync = true
  sft2 : w.edges = 0 ∨ 5 ≤ w.edges → w.trg.srCsSyncSft2 = true → w.trg.srCsSyncSft1 = true

namespace Held

theorem start (cs : Bool) : Held (start cs) := by
  constructor <;> cases cs <;> decide

/-- An event that leaves the two samples, the level and the record of them. -/
theorem of_eq {w' : ClearWatch} (h : w.Held) (hr : w'.trg.resetN = true)
    (hcs : w'.trg.spiCs = w.trg.spiCs) (h1d : w'.trg.arSpiCs1d = w.trg.arSpiCs1d)
    (h2d : w'.trg.srSpiCs2d = w.trg.srSpiCs2d) (hsamples : w'.samples = w.samples)
    (hunsampled : w'.unsampled = w.unsampled) : w'.Held := by
  refine ⟨hr, ?_, ?_, ?_, ?_⟩
  · rw [hcs, h1d, h2d, hsamples, hunsampled]
    exact h.fall
  · rw [hcs, h1d, hunsampled]
    exact h.low
  · rw [hcs, h1d, hsamples]
    exact h.high1
  · rw [hcs, h2d, hsamples]
    exact h.high2

theorem step_clk (h : w.Held) : (w.step .clk160m).Held := by
  obtain ⟨hr, hcs, h1d, h2d, -⟩ := step_clk_free h.resetN
  refine ⟨hr, fun hfell => ?_, fun _ hlow => ?_, fun hhigh _ => ?_, fun hhigh htwo => ?_⟩
  · -- `SPI_CS` has been low since it fell, so this edge has sampled the fall
    have hfell : (w.unsampled && w.trg.spiCs) = true := hfell
    obtain ⟨hunsampled, hhigh⟩ := Bool.and_eq_true_iff.mp hfell
    exact absurd ((h.fall hunsampled).1.symm.trans hhigh) Bool.false_ne_true
  · exact h1d.trans (hcs.symm.trans hlow)
  · exact h1d.trans (hcs.symm.trans hhigh)
  · exact h2d.trans (h.high1 (hcs.symm.trans hhigh) (Nat.le_of_succ_le_succ htwo))

/-- A level that changes has been sampled twice. -/
theorem step_spiCs (h : w.Held) {level : Bool} (hok : w.Allowed (.spiCs level)) :
    (w.step (.spiCs level)).Held := by
  obtain ⟨hr, hcs, h1d, h2d, -⟩ := step_spiCs_free h.resetN level
  have hunsampled : (w.step (.spiCs level)).unsampled =
      (w.unsampled || w.trg.spiCs && !level) := rfl
  by_cases hsame : level = w.trg.spiCs
  · refine h.of_eq hr (hcs.trans hsame) h1d h2d (if_pos hsame) ?_
    rw [hunsampled, hsame, Bool.and_not_self, Bool.or_false]
  have htwo : 2 ≤ w.samples := hok.resolve_left hsame
  have hzero : (w.step (.spiCs level)).samples = 0 := if_neg hsame
  refine ⟨hr, ?_, ?_, ?_, ?_⟩
  · intro hfell
    have hcs' : w.trg.spiCs = true ∧ level = false := by
      cases hold : w.unsampled with
      | false => simpa [hunsampled, hold] using hfell
      | true =>
        have hnone := (h.fall hold).2.1
        omega
    obtain ⟨hhigh, hlevel⟩ := hcs'
    exact ⟨hcs.trans hlevel, hzero, h1d.trans (h.high1 hhigh (by omega)),
      h2d.trans (h.high2 hhigh htwo)⟩
  · intro hnone hlow
    have hlevel : level = false := hcs.symm.trans hlow
    have hhigh : w.trg.spiCs = true := by simpa [hlevel] using Ne.symm hsame
    rw [hunsampled, hhigh, hlevel] at hnone
    simp at hnone
  · intro _ hone
    omega
  · intro _ htwo'
    omega

theorem step (h : w.Held) (hok : w.Allowed e) : (w.step e).Held := by
  cases e with
  | spiClk mosi =>
    obtain ⟨hr, hcs, h1d, h2d, -⟩ := step_spiClk_free h.resetN mosi
    exact h.of_eq hr hcs h1d h2d rfl rfl
  | clk160m => exact h.step_clk
  | spiCs level => exact h.step_spiCs hok
  | resetN level => exact absurd hok id

end Held

namespace Passes

theorem start (cs : Bool) : Passes (start cs) := by
  constructor <;> cases cs <;> decide

/-- `c_cs_edge` in terms of the count. -/
theorem low_iff (h : w.Passes) (hr : w.trg.resetN = true) :
    w.trg.cSpiResetN = false ↔ 3 ≤ w.edges ∧ w.edges < 5 := by
  rw [cSpiResetN_eq_false_iff hr]
  constructor
  · rintro ⟨hsync, hsft2⟩
    -- the two samples are not ordered, and the fall has reached one of them
    by_contra hedges
    rcases (by omega : w.edges = 1 ∨ w.edges = 2 ∨ w.edges = 5 ∨ w.edges = 0 ∨ 6 ≤ w.edges) with
      h1 | h2 | h5 | hage
    · exact absurd (h.first h1).2.2.2.2 (by simp [hsync])
    · exact absurd (h.second h2).2.2.1 (by simp [hsync])
    · exact absurd (h.fifth h5) (by simp [hsft2])
    · have hsft1 := h.sft2 (by omega) hsft2
      exact absurd (h.sft1 (by omega) hsft1) (by simp [hsync])
  · rintro ⟨hge, hlt⟩
    rcases (by omega : w.edges = 3 ∨ w.edges = 4) with h3 | h4
    · obtain ⟨-, hsync, -, hsft2⟩ := h.third h3
      exact ⟨hsync, hsft2⟩
    · obtain ⟨hsync, -, hsft2⟩ := h.fourth h4
      exact ⟨hsync, hsft2⟩

/-- An event that leaves the samples and the count, and the level after the first low sample. -/
theorem of_eq {w' : ClearWatch} (h : w.Passes) (h1d : w'.trg.arSpiCs1d = w.trg.arSpiCs1d)
    (h2d : w'.trg.srSpiCs2d = w.trg.srSpiCs2d) (hsync : w'.trg.srCsSync = w.trg.srCsSync)
    (hsft1 : w'.trg.srCsSyncSft1 = w.trg.srCsSyncSft1)
    (hsft2 : w'.trg.srCsSyncSft2 = w.trg.srCsSyncSft2) (hedges : w'.edges = w.edges)
    (hkept : w.edges = 1 → w'.trg.spiCs = w.trg.spiCs ∧ w'.samples = w.samples) : w'.Passes := by
  obtain ⟨hfirst, hsecond, hthird, hfourth, hfifth, k2d, ksync, ksft1, ksft2⟩ := h
  constructor <;> simp only [h1d, h2d, hsync, hsft1, hsft2, hedges]
  · intro h1
    rw [(hkept h1).1, (hkept h1).2]
    exact hfirst h1
  all_goals assumption

/-- The edge that samples a fall finds two high samples. -/
theorem step_clk_first (hheld : w.Held) (hfell : w.unsampled = true) :
    (w.step .clk160m).Passes := by
  obtain ⟨-, hcs, h1d, h2d, hsync, -, -, -⟩ := step_clk_free hheld.resetN
  obtain ⟨hlow, hsamples, hspiCs1d, hspiCs2d⟩ := hheld.fall hfell
  have hedges : (w.step .clk160m).edges = 1 := if_pos (by rw [hfell, hlow]; rfl)
  refine
    { first := fun _ => ⟨hcs.trans hlow, congrArg (· + 1) hsamples, h1d.trans hlow,
        h2d.trans hspiCs1d, hsync.trans hspiCs2d⟩
      second := ?_, third := ?_, fourth := ?_, fifth := ?_
      spiCs2d := fun hne => absurd hedges hne
      sync := ?_, sft1 := ?_, sft2 := ?_ }
  all_goals
    intro hage
    omega

/-- Any other edge passes the samples on: each takes the place of the next one. -/
theorem step_clk_next (h : w.Passes) (hheld : w.Held) (hfell : w.unsampled = false) :
    (w.step .clk160m).Passes := by
  obtain ⟨-, -, h1d, h2d, hsync, hsft1, hsft2, -⟩ := step_clk_free hheld.resetN
  have hnext : (w.step .clk160m).edges = if w.edges = 0 then 0 else w.edges + 1 :=
    if_neg (by rw [hfell]; exact Bool.false_ne_true)
  have hedges : w.edges = 0 ∧ (w.step .clk160m).edges = 0 ∨
      0 < w.edges ∧ (w.step .clk160m).edges = w.edges + 1 := by
    split_ifs at hnext <;> omega
  refine
    { first := fun h1 => ?_
      second := fun h2 => ?_
      third := fun h3 => ?_
      fourth := fun h4 => ?_
      fifth := fun h5 => ?_
      spiCs2d := fun _ hhigh => ?_
      sync := fun hage hhigh => ?_
      sft1 := fun hage hhigh => ?_
      sft2 := fun hage hhigh => ?_ }
  · omega
  · have hprev : w.edges = 1 := by omega
    obtain ⟨hlow, -, hspiCs1d, hspiCs2d, hcsSync⟩ := h.first hprev
    exact ⟨h1d.trans hlow, h2d.trans hspiCs1d, hsync.trans hspiCs2d, hsft1.trans hcsSync⟩
  · have hprev : w.edges = 2 := by omega
    obtain ⟨hspiCs1d, hspiCs2d, hcsSync, hcsSft1⟩ := h.second hprev
    exact ⟨h2d.trans hspiCs1d, hsync.trans hspiCs2d, hsft1.trans hcsSync, hsft2.trans hcsSft1⟩
  · have hprev : w.edges = 3 := by omega
    obtain ⟨hspiCs2d, hcsSync, hcsSft1, -⟩ := h.third hprev
    exact ⟨hsync.trans hspiCs2d, hsft1.trans hcsSync, hsft2.trans hcsSft1⟩
  · have hprev : w.edges = 4 := by omega
    exact hsft2.trans (h.fourth hprev).2.1
  · -- a high sample in front of a low level would be that of a fall
    refine h1d.trans ?_
    by_contra hlow
    have hspiCs1d := hheld.low hfell (Bool.eq_false_of_not_eq_true hlow)
    exact absurd (h2d.symm.trans hhigh) (by simp [hspiCs1d])
  · exact h2d.trans (h.spiCs2d (by omega) (hsync.symm.trans hhigh))
  · exact hsync.trans (h.sync (by omega) (hsft1.symm.trans hhigh))
  · exact hsft1.trans (h.sft1 (by omega) (hsft2.symm.trans hhigh))

theorem step (h : w.Passes) (hheld : w.Held) (hok : w.Allowed e) : (w.step e).Passes := by
  cases e with
  | spiClk mosi =>
    obtain ⟨-, hcs, h1d, h2d, hsync, hsft1, hsft2, -⟩ := step_spiClk_free hheld.resetN mosi
    exact h.of_eq h1d h2d hsync hsft1 hsft2 rfl fun _ => ⟨hcs, rfl⟩
  | clk160m =>
    cases hfell : w.unsampled with
    | false => exact h.step_clk_next hheld hfell
    | true => exact step_clk_first hheld hfell
  | spiCs level =>
    obtain ⟨-, hcs, h1d, h2d, hsync, hsft1, hsft2, -⟩ := step_spiCs_free hheld.resetN level
    refine h.of_eq h1d h2d hsync hsft1 hsft2 rfl fun h1 => ?_
    -- after the first low sample `SPI_CS` waits for the second
    have hone := (h.first h1).2.1
    have hsame : level = w.trg.spiCs := hok.resolve_right (by omega)
    exact ⟨hcs.trans hsame, if_pos hsame⟩
  | resetN level => exact absurd hok id

end Passes

/-! ### The shift register and its counter -/

/-- They hold the bits since the clear, of which there are none while it lasts. -/
structure Shifts (w : ClearWatch) : Prop where
  low : w.trg.cSpiResetN = false → w.bits = []
  cnt : w.trg.srInstCnt = BitVec.ofNat 4 (min 8 w.bits.length)
  sht : w.trg.srInstSht = opcode w.bits

namespace Shifts

theorem start (cs : Bool) : Shifts (start cs) := by
  constructor <;> cases cs <;> decide

/-- The registers and the record of the bits are cleared together. -/
theorem of_gated {c : Bool} {bits : List Bool} {cnt : BitVec 4} {sht : BitVec 8}
    (hc : w.trg.cSpiResetN = c) (hbits : w.bits = if c then bits else [])
    (hcnt : w.trg.srInstCnt = if c then cnt else 0) (hsht : w.trg.srInstSht = if c then sht else 0)
    (kcnt : cnt = BitVec.ofNat 4 (min 8 bits.length)) (ksht : sht = opcode bits) : w.Shifts := by
  cases c with
  | false => exact ⟨fun _ => hbits, by rw [hcnt, hbits]; rfl, by rw [hsht, hbits]; rfl⟩
  | true =>
    rw [if_pos rfl] at hbits hcnt hsht
    refine ⟨fun hlow => absurd hlow (by simp [hc]), ?_, ?_⟩
    · rw [hcnt, hbits, kcnt]
    · rw [hsht, hbits, ksht]

theorem step_bits {c : Bool} (hc : (w.trg.step e).cSpiResetN = c) :
    (w.step e).bits =
      if c then
        match e with
        | .spiClk mosi => w.bits ++ [mosi]
        | _ => w.bits
      else [] := by
  subst hc
  show w.bitsNext e = _
  unfold bitsNext
  cases (w.trg.step e).cSpiResetN <;> rfl

theorem step (h : w.Shifts) (hr : w.trg.resetN = true) (hok : w.Allowed e) : (w.step e).Shifts := by
  cases e with
  | spiClk mosi =>
    -- a bit is appended unless the edge comes in the clear
    obtain ⟨hsht, hcnt, -⟩ := step_spiClk_gated hr mosi
    have hc := step_spiClk_cSpiResetN hr mosi
    exact of_gated hc (step_bits hc) hcnt hsht (srInstCntNext_eq h.cnt mosi)
      (srInstShtNext_eq h.cnt h.sht mosi)
  | clk160m =>
    -- the clear may begin or end
    obtain ⟨hsht, hcnt, -⟩ := step_clk_gated hr
    have hc := step_clk_cSpiResetN hr
    exact of_gated hc (step_bits hc) hcnt hsht h.cnt h.sht
  | spiCs level =>
    obtain ⟨hsht, hcnt, -⟩ := step_spiCs_gated hr level
    have hc := step_spiCs_cSpiResetN hr level
    exact of_gated hc (step_bits hc) hcnt hsht h.cnt h.sht
  | resetN level => exact absurd hok id

theorem srInstCnt_toNat (h : w.Shifts) : w.trg.srInstCnt.toNat = min w.bits.length 8 := by
  rw [h.cnt, BitVec.toNat_ofNat, min_comm]
  omega

/-- Edges after the eighth change nothing. -/
theorem full (h : w.Shifts) (hr : w.trg.resetN = true) (hhigh : w.trg.cSpiResetN = true)
    (h8 : 8 ≤ w.bits.length) (mosi : Bool) :
    (w.trg.step (.spiClk mosi)).srInstCnt = w.trg.srInstCnt ∧
    (w.trg.step (.spiClk mosi)).srInstSht = w.trg.srInstSht := by
  obtain ⟨hsht, hcnt, -⟩ := step_spiClk_gated hr mosi
  have height : w.trg.srInstCnt = 0b1000 := (cnt_eq_eight_iff h.cnt).mpr h8
  rw [hcnt, hsht, if_pos hhigh, if_pos hhigh]
  exact ⟨if_pos height, if_pos height⟩

end Shifts

/-! ### Runs -/

/-- The three invariants give the property. -/
theorem Clears.of_invariants (hheld : w.Held) (hpasses : w.Passes) (hshifts : w.Shifts) :
    w.Clears where
  low_iff := hpasses.low_iff hheld.resetN
  cleared hlow := by
    rw [hshifts.cnt, hshifts.sht, hshifts.low hlow]
    exact ⟨rfl, opcode_nil⟩
  cnt _ := hshifts.srInstCnt_toNat
  sht _ := hshifts.sht
  full := hshifts.full hheld.resetN

end ClearWatch

/-- **The clear of a frame.**  In every run from the release of `RESET_N` in which `SPI_CS` keeps
each level for two edges of `CLK160M`, whatever `SPI_CLK` does: `c_spi_reset_n` is low from the
third to the fifth edge from the first that samples a fall low, and only then, and the shift
register and its counter hold the bits since it went high. -/
theorem clearWatch_clears (cs : Bool) (es : List Event)
    (h : Along ClearWatch.step ClearWatch.Allowed (ClearWatch.start cs) es) :
    (run ClearWatch.step (ClearWatch.start cs) es).Clears := by
  have hinv : ∀ w e, w.Held ∧ w.Passes ∧ w.Shifts → w.Allowed e →
      (ClearWatch.step w e).Held ∧ (ClearWatch.step w e).Passes ∧ (ClearWatch.step w e).Shifts :=
    fun w e ⟨hheld, hpasses, hshifts⟩ hok =>
      ⟨hheld.step hok, hpasses.step hheld hok, hshifts.step hheld.resetN hok⟩
  obtain ⟨hheld, hpasses, hshifts⟩ := run_invariant
    (I := fun w => ClearWatch.Held w ∧ ClearWatch.Passes w ∧ ClearWatch.Shifts w) hinv
    ⟨.start cs, .start cs, .start cs⟩ h
  exact .of_invariants hheld hpasses hshifts

/-- Each level of `SPI_CS` lasts for two edges of `CLK160M`, and `SPI_CLK` toggles throughout. -/
def shortPhases : List Event :=
  clks 2 ++ [.spiCs false, .spiClk true] ++ clks 2 ++ [.spiCs true, .spiClk true] ++ clks 2 ++
    [.spiCs false, .spiClk true] ++ clks 1 ++ sendByte pWriteenable ++ [.spiClk true] ++ clks 2

/-- The third edge after the second fall has just come. -/
theorem clearWatch_clears_shortPhases :
    (run ClearWatch.step (ClearWatch.start true) shortPhases).Clears ∧
    (run ClearWatch.step (ClearWatch.start true) shortPhases).trg.cSpiResetN = false :=
  ⟨clearWatch_clears true shortPhases (by decide +kernel), by decide +kernel⟩

end Ptmch
