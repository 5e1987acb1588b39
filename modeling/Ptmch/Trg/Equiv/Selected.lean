import Ptmch.Trg.Bus
import Ptmch.Trg.Clear

/-!
# Which edges of `SPI_CLK` are counted

Nothing in `ptmch_trg` looks at the level of `SPI_CS` when `SPI_CLK` toggles, and `RESET_N` leaves
the synchroniser at the selected level.  `Watch` records beside the circuit which edges of `SPI_CLK`
`sr_inst_cnt` has counted, and what `SPI_CS` was and had been at each (`CountedEdge`).

* The eight edges counted at an opcode are all the edges since `c_spi_reset_n` was last low
  (`countedEdges_atOpcode`).  They came after a fall of `SPI_CS` if that clear was one of
  `c_cs_edge`, or if the master released `RESET_N` and toggled `SPI_CLK` at the right levels of
  `SPI_CS`.
* Without this neither holds (`not_onlySelected`).
-/

namespace Ptmch

open Machine Trg

/-- What `SPI_CS` was and had been at an edge of `SPI_CLK`. -/
structure CountedEdge where
  spiCs : Bool
  /-- `SPI_CS` has fallen since the last release of `RESET_N` -/
  fallen : Bool
  deriving DecidableEq, Repr

/-- `ptmch_trg` and a record of its run. -/
structure Watch where
  trg : Trg
  /-- `SPI_CS` has fallen since the last release of `RESET_N` -/
  fallen : Bool
  /-- the level of `SPI_CS` at the last release of `RESET_N` -/
  csAtRelease : Bool
  /-- `c_spi_reset_n` has been low since the last release of `RESET_N` -/
  csCleared : Bool
  /-- the edges of `SPI_CLK` that have brought `sr_inst_cnt` to its value -/
  counted : List CountedEdge
  /-- the edges of `SPI_CLK` since `c_spi_reset_n` was last low -/
  sinceClear : List CountedEdge
  deriving DecidableEq, Repr

namespace Watch

/-- Power is up and `RESET_N` still low. -/
def start (cs : Bool) : Watch := ⟨reset false cs, false, cs, false, [], []⟩

/-- The record of an edge of `SPI_CLK` now. -/
def edgeNow (w : Watch) : CountedEdge := ⟨w.trg.spiCs, w.fallen⟩

def fallenNext (w : Watch) : Event → Bool
  | .spiCs level => w.fallen || w.trg.resetN && w.trg.spiCs && !level
  | .resetN level => w.fallen && level
  | _ => w.fallen

def csAtReleaseNext (w : Watch) : Event → Bool
  | .resetN true => if w.trg.resetN then w.csAtRelease else w.trg.spiCs
  | _ => w.csAtRelease

def countedNext (w : Watch) (e : Event) : List CountedEdge :=
  if (w.trg.step e).srInstCnt.toNat = 0 then []
  else if (w.trg.step e).srInstCnt.toNat = w.trg.srInstCnt.toNat then w.counted
  else w.counted ++ [w.edgeNow]

def sinceClearNext (w : Watch) (e : Event) : List CountedEdge :=
  if (w.trg.step e).cSpiResetN = false then []
  else match e with
    | .spiClk _ => w.sinceClear ++ [w.edgeNow]
    | _ => w.sinceClear

def step (w : Watch) (e : Event) : Watch where
  trg := w.trg.step e
  fallen := w.fallenNext e
  csAtRelease := w.csAtReleaseNext e
  csCleared := (w.trg.step e).resetN && (w.csCleared || !(w.trg.step e).cSpiResetN)
  counted := w.countedNext e
  sinceClear := w.sinceClearNext e

/-- `sr_inst_cnt` goes from 7 to 8. -/
def AtOpcode (w : Watch) (e : Event) : Prop :=
  w.trg.srInstCnt = 7 ∧ (w.step e).trg.srInstCnt = 8

instance (w : Watch) (e : Event) : Decidable (w.AtOpcode e) := inferInstanceAs (Decidable (_ ∧ _))

end Watch

/-- Every opcode of the run has been counted while `SPI_CS` was low and after a fall of it. -/
def OnlySelected (cs : Bool) (es : List Event) : Prop :=
  Along Watch.step (fun w e => w.AtOpcode e →
    ∀ x ∈ (w.step e).counted, x.spiCs = false ∧ x.fallen = true) (Watch.start cs) es

instance (cs : Bool) (es : List Event) : Decidable (OnlySelected cs es) :=
  inferInstanceAs (Decidable (Along _ _ _ _))

namespace Watch

variable {w : Watch} {e : Event}

/-! ### What is counted -/

/-- The counter and the record agree. -/
structure Counts (w : Watch) : Prop where
  cleared : w.trg.cSpiResetN = false → w.trg.Cleared
  cnt : w.trg.srInstCnt.toNat = min 8 w.sinceClear.length
  counted : w.counted = w.sinceClear.take 8

theorem Counts.start (cs : Bool) : Counts (start cs) :=
  ⟨fun _ => ⟨rfl, rfl, rfl, rfl, rfl, rfl⟩, rfl, rfl⟩

theorem srInstCntNext_toNat (s : Trg) (h : s.srInstCnt.toNat ≤ 8) :
    s.srInstCntNext.toNat = min 8 (s.srInstCnt.toNat + 1) := by
  unfold srInstCntNext
  split_ifs with h8
  · rw [h8]
    rfl
  · have hne : s.srInstCnt.toNat ≠ 8 := fun h => h8 (BitVec.eq_of_toNat_eq h)
    rw [BitVec.toNat_add, show (1 : BitVec 4).toNat = 1 from rfl]
    omega

theorem Counts.step (h : w.Counts) (e : Event) : (w.step e).Counts := by
  have hcnt := step_cnt (e := e) h.cleared
  have hle : w.trg.srInstCnt.toNat ≤ 8 := h.cnt ▸ min_le_left ..
  have htrg : (w.step e).trg = w.trg.step e := rfl
  have hcounted : (w.step e).counted = w.countedNext e := rfl
  by_cases hlow : (w.trg.step e).cSpiResetN = false
  · -- a clear empties the record, and nothing is counted
    rw [if_pos hlow] at hcnt
    have hsince : (w.step e).sinceClear = [] := if_pos hlow
    refine ⟨fun _ => cleared_clear hlow, ?_, ?_⟩
    · rw [htrg, hcnt, hsince]
      rfl
    · rw [hcounted, countedNext, if_pos (by rw [hcnt]; rfl), hsince]
      rfl
  rw [if_neg hlow] at hcnt
  have hcl : (w.step e).trg.cSpiResetN = false → (w.step e).trg.Cleared := fun h => absurd h hlow
  by_cases he : ∃ mosi, e = .spiClk mosi
  · -- an edge of `SPI_CLK` is recorded, and counted up to the eighth
    obtain ⟨mosi, rfl⟩ := he
    have hsince : (w.step (.spiClk mosi)).sinceClear = w.sinceClear ++ [w.edgeNow] := if_neg hlow
    have hnew : (w.trg.step (.spiClk mosi)).srInstCnt.toNat
        = min 8 (w.sinceClear.length + 1) := by
      rw [hcnt, srInstCntNext_toNat w.trg hle, h.cnt]
      omega
    refine ⟨hcl, ?_, ?_⟩
    · rw [htrg, hnew, hsince, List.length_append, List.length_singleton]
    · rw [hcounted, countedNext, hnew, h.cnt, hsince, h.counted, if_neg (by omega)]
      by_cases h8 : 8 ≤ w.sinceClear.length
      · rw [if_pos (by omega), List.take_append_of_le_length h8]
      · rw [if_neg (by omega), List.take_of_length_le (by omega),
          List.take_of_length_le (by simp; omega)]
  · have hkeep : (w.trg.step e).srInstCnt = w.trg.srInstCnt := by
      cases e with
      | spiClk mosi => exact absurd ⟨mosi, rfl⟩ he
      | _ => exact hcnt
    have hsince : (w.step e).sinceClear = w.sinceClear := by
      cases e with
      | spiClk mosi => exact absurd ⟨mosi, rfl⟩ he
      | _ => exact if_neg hlow
    refine ⟨hcl, by rw [htrg, hkeep, hsince, h.cnt], ?_⟩
    rw [hcounted, countedNext, hkeep, h.cnt, hsince, if_pos rfl, h.counted]
    split_ifs with h0
    · have hnil : w.sinceClear = [] := List.eq_nil_of_length_eq_zero (by omega)
      rw [hnil]
      rfl
    · rfl

/-- **The counted edges**: those of an opcode are all the edges since the last clear, eight of them.
-/
theorem Counts.atOpcode (h : w.Counts) (h8 : w.AtOpcode e) :
    (w.step e).counted = (w.step e).sinceClear ∧ (w.step e).sinceClear.length = 8 := by
  have h7 : min 8 w.sinceClear.length = 7 := by
    rw [← h.cnt, h8.1]
    rfl
  have hnew : min 8 (w.step e).sinceClear.length = 8 := by
    rw [← (h.step e).cnt, h8.2]
    rfl
  have hgrow : (w.step e).sinceClear.length ≤ w.sinceClear.length + 1 := by
    show (w.sinceClearNext e).length ≤ _
    unfold sinceClearNext
    split_ifs
    · simp
    · cases e <;> simp
  have hlen : (w.step e).sinceClear.length = 8 := by omega
  exact ⟨by rw [(h.step e).counted, List.take_of_length_le hlen.le], hlen⟩

theorem Counts.sinceClear_eq_nil (h : w.Counts) (hlow : w.trg.cSpiResetN = false) :
    w.sinceClear = [] := by
  have h0 : 0 = min 8 w.sinceClear.length := by
    rw [← h.cnt, (h.cleared hlow).cnt]
    rfl
  exact List.eq_nil_of_length_eq_zero (by omega)

/-! ### What has fallen -/

/-- Without a fall of `SPI_CS` the samples are ordered: where one of them is high, all later ones
are. -/
structure Ordered (w : Watch) : Prop where
  sft2 : w.fallen = false → w.trg.srCsSyncSft2 = true → w.trg.srCsSyncSft1 = true
  sft1 : w.fallen = false → w.trg.srCsSyncSft1 = true → w.trg.srCsSync = true
  sync : w.fallen = false → w.trg.srCsSync = true → w.trg.srSpiCs2d = true
  spiCs2d : w.fallen = false → w.trg.srSpiCs2d = true → w.trg.arSpiCs1d = true
  spiCs1d : w.fallen = false → w.trg.arSpiCs1d = true → w.trg.spiCs = true

namespace Ordered

theorem start (cs : Bool) : Ordered (start cs) := by
  constructor <;> simp [Watch.start, reset]

/-- A clear of `c_cs_edge` comes after a fall. -/
theorem fallen_of_low (h : w.Ordered) (hr : w.trg.resetN = true) (hlow : w.trg.cSpiResetN = false) :
    w.fallen = true := by
  by_contra hf
  rw [Bool.not_eq_true] at hf
  obtain ⟨hsync, hsft2⟩ := (cSpiResetN_eq_false_iff hr).mp hlow
  have hsft1 := h.sft2 hf hsft2
  exact absurd (h.sft1 hf hsft1) (by simp [hsync])

theorem step (h : w.Ordered) (e : Event) : (w.step e).Ordered := by
  suffices hall : (w.step e).fallen = false →
      ((w.trg.step e).srCsSyncSft2 = true → (w.trg.step e).srCsSyncSft1 = true) ∧
      ((w.trg.step e).srCsSyncSft1 = true → (w.trg.step e).srCsSync = true) ∧
      ((w.trg.step e).srCsSync = true → (w.trg.step e).srSpiCs2d = true) ∧
      ((w.trg.step e).srSpiCs2d = true → (w.trg.step e).arSpiCs1d = true) ∧
      ((w.trg.step e).arSpiCs1d = true → (w.trg.step e).spiCs = true) from
    ⟨fun hf => (hall hf).1, fun hf => (hall hf).2.1, fun hf => (hall hf).2.2.1,
      fun hf => (hall hf).2.2.2.1, fun hf => (hall hf).2.2.2.2⟩
  intro hf
  cases hr : (w.trg.step e).resetN with
  | false =>
    obtain ⟨h1, h2, h3, h4, h5⟩ := step_sync_low hr
    simp [h1, h2, h3, h4, h5]
  | true =>
    have hsync := step_sync_high hr
    have hcs := step_spiCs w.trg e
    have hf : w.fallenNext e = false := hf
    obtain ⟨k2, k1, k0, k2d, k1d⟩ := h
    cases e with
    | spiClk mosi =>
      obtain ⟨h1, h2, h3, h4, h5⟩ := hsync
      rw [h1, h2, h3, h4, h5, hcs]
      exact ⟨k2 hf, k1 hf, k0 hf, k2d hf, k1d hf⟩
    | clk160m =>
      obtain ⟨h1, h2, h3, h4, h5⟩ := hsync
      -- each sample takes the place of the next one, and the present level that of the first
      rw [h1, h2, h3, h4, h5, hcs]
      exact ⟨k1 hf, k0 hf, k2d hf, k1d hf, id⟩
    | spiCs level =>
      obtain ⟨h1, h2, h3, h4, h5⟩ := hsync
      rw [step_resetN _ _ (by simp)] at hr
      -- without a fall a high level stays high
      obtain ⟨hf, hfall⟩ : w.fallen = false ∧ (w.trg.spiCs = true → level = true) := by
        simpa [fallenNext, hr] using hf
      rw [h1, h2, h3, h4, h5, hcs]
      exact ⟨k2 hf, k1 hf, k0 hf, k2d hf, fun h => hfall (k1d hf h)⟩
    | resetN level =>
      obtain ⟨h1, h2, h3, h4, h5⟩ := hsync
      obtain rfl : level = true := step_resetN_level w.trg level ▸ hr
      have hf : w.fallen = false := by simpa [fallenNext] using hf
      rw [h1, h2, h3, h4, h5, hcs]
      exact ⟨k2 hf, k1 hf, k0 hf, k2d hf, k1d hf⟩

end Ordered

/-- What the clears and the release of `RESET_N` say about the record. -/
structure Selects (w : Watch) : Prop where
  counts : w.Counts
  ordered : w.Ordered
  atRelease : w.trg.resetN = true → w.csAtRelease = true → w.fallen = false → w.trg.spiCs = true
  csFallen : w.csCleared = true → w.fallen = true
  csSince : w.csCleared = true → ∀ x ∈ w.sinceClear, x.fallen = true
  relSince : w.csAtRelease = true → ∀ x ∈ w.sinceClear, x.spiCs = false → x.fallen = true

namespace Selects

theorem start (cs : Bool) : Selects (start cs) := by
  refine ⟨.start cs, .start cs, ?_, ?_, ?_, ?_⟩ <;> simp [Watch.start, reset]

theorem step_atRelease (h : w.Selects) (hr : (w.trg.step e).resetN = true)
    (hrel : w.csAtReleaseNext e = true) (hf : w.fallenNext e = false) :
    (w.trg.step e).spiCs = true := by
  have hkeep := h.atRelease
  rw [step_spiCs w.trg e]
  cases e with
  | spiClk mosi =>
    rw [step_resetN _ _ (by simp)] at hr
    exact hkeep hr hrel hf
  | clk160m =>
    rw [step_resetN _ _ (by simp)] at hr
    exact hkeep hr hrel hf
  | spiCs level =>
    rw [step_resetN _ _ (by simp)] at hr
    obtain ⟨hf, hfall⟩ : w.fallen = false ∧ (w.trg.spiCs = true → level = true) := by
      simpa [fallenNext, hr] using hf
    exact hfall (hkeep hr hrel hf)
  | resetN level =>
    obtain rfl : level = true := step_resetN_level w.trg level ▸ hr
    have hf : w.fallen = false := by simpa [fallenNext] using hf
    have hrel : (if w.trg.resetN then w.csAtRelease else w.trg.spiCs) = true := hrel
    split_ifs at hrel with hhigh
    · exact hkeep hhigh hrel hf
    · exact hrel

/-- The record of the edges grows by the present one, unless it is emptied. -/
theorem mem_sinceClear {x : CountedEdge} (hx : x ∈ w.sinceClearNext e) :
    (w.trg.step e).cSpiResetN = true ∧
      (x ∈ w.sinceClear ∨ x = w.edgeNow ∧ ∃ mosi, e = .spiClk mosi) := by
  unfold sinceClearNext at hx
  split_ifs at hx with hlow
  · cases hx
  · refine ⟨by simpa using hlow, ?_⟩
    cases e with
    | spiClk mosi =>
      rcases List.mem_append.mp hx with hx | hx
      · exact Or.inl hx
      · exact Or.inr ⟨List.mem_singleton.mp hx, mosi, rfl⟩
    | _ => exact Or.inl hx

theorem step (h : w.Selects) (e : Event) : (w.step e).Selects := by
  have hfallen : (w.step e).csCleared = true → (w.step e).fallen = true := by
    intro hc
    have hc : ((w.trg.step e).resetN && (w.csCleared || !(w.trg.step e).cSpiResetN)) = true := hc
    rw [Bool.and_eq_true, Bool.or_eq_true, Bool.not_eq_true'] at hc
    obtain ⟨hr, hold | hlow⟩ := hc
    · -- the clear is an earlier one, and only `RESET_N` takes the fall back
      have hf := h.csFallen hold
      show w.fallenNext e = true
      cases e with
      | resetN level =>
        obtain rfl : level = true := step_resetN_level w.trg level ▸ hr
        simp [fallenNext, hf]
      | _ => simp [fallenNext, hf]
    · exact (h.ordered.step e).fallen_of_low hr hlow
  refine
    { counts := h.counts.step e
      ordered := h.ordered.step e
      atRelease := fun hr hrel hf => h.step_atRelease hr hrel hf
      csFallen := hfallen
      csSince := fun hc x hx => ?_
      relSince := fun hrel x hx hcs => ?_ }
  · -- an edge that is recorded does not clear, so the clear is an earlier one
    obtain ⟨hhigh, hx⟩ := mem_sinceClear hx
    have hold : w.csCleared = true := by
      have hc : ((w.trg.step e).resetN && (w.csCleared || !(w.trg.step e).cSpiResetN)) = true := hc
      simpa [hhigh, resetN_of_high hhigh] using hc
    rcases hx with hx | ⟨rfl, -⟩
    · exact h.csSince hold x hx
    · exact h.csFallen hold
  · obtain ⟨hhigh, hx⟩ := mem_sinceClear hx
    have hr := resetN_of_high hhigh
    rcases hx with hx | ⟨rfl, mosi, rfl⟩
    · by_cases hlow : w.trg.cSpiResetN = false
      · rw [h.counts.sinceClear_eq_nil hlow] at hx
        cases hx
      · have hr' : w.trg.resetN = true := resetN_of_high (by simpa using hlow)
        refine h.relSince ?_ x hx hcs
        have hrel : w.csAtReleaseNext e = true := hrel
        cases e with
        | resetN level => cases level <;> simpa [csAtReleaseNext, hr'] using hrel
        | _ => exact hrel
    · -- `SPI_CS` was high at the release and is low at the present edge
      rw [step_resetN _ _ (by simp)] at hr
      have hcs : w.trg.spiCs = false := hcs
      by_contra hf
      have hf : w.fallen = false := Bool.not_eq_true _ ▸ hf
      rw [h.atRelease hr hrel hf] at hcs
      cases hcs

end Selects

end Watch

/-- **The counted edges.**  In every run from reset, in which anything may happen, the edges counted
at an opcode are the eight edges of `SPI_CLK` since `c_spi_reset_n` was last low.  They came after a
fall of `SPI_CS` since the release of `RESET_N` if `c_cs_edge` has cleared the counter since then,
and also if `SPI_CS` was high at the release and low at each of them. -/
theorem countedEdges_atOpcode (cs : Bool) (es : List Event) :
    Along Watch.step (fun w e => w.AtOpcode e →
      (w.step e).counted = (w.step e).sinceClear ∧ (w.step e).counted.length = 8 ∧
      ((w.step e).csCleared = true ∨
          (w.step e).csAtRelease = true ∧ (∀ x ∈ (w.step e).counted, x.spiCs = false) →
        ∀ x ∈ (w.step e).counted, x.fallen = true)) (Watch.start cs) es := by
  have htrue : Along Watch.step (fun _ _ => True) (Watch.start cs) es :=
    (along_iff_forall_initial _ _).mpr fun _ _ _ => trivial
  refine along_of_invariant (I := Watch.Selects) (fun _ e h _ => h.step e) ?_ (.start cs) htrue
  intro w e h _ h8
  obtain ⟨hsame, hlen⟩ := h.counts.atOpcode h8
  have h' := h.step e
  rw [hsame]
  refine ⟨rfl, hlen, ?_⟩
  rintro (hc | ⟨hrel, hcs⟩) x hx
  · exact h'.csSince hc x hx
  · exact h'.relSince hrel x hx (hcs x hx)

/-- Reset is released, and `SPI_CLK` toggles while `SPI_CS` is high. -/
def deselectedRun : List Event := .resetN true :: sendByte pWriteenable

/-- Reset is released while `SPI_CS` is low, in the middle of a transfer. -/
def joinedRun : List Event := .resetN true :: clks 5 ++ sendByte pWriteenable

/-- **The traffic of another chip and the tail of a transfer are counted.** -/
theorem not_onlySelected : ¬ OnlySelected true deselectedRun ∧ ¬ OnlySelected false joinedRun := by
  decide +kernel

end Ptmch
