import Ptmch.Trg.Equiv.Pipeline

/-!
# Opcode capture across the clock domains

`ar_inst_chk` loads `sr_inst_sht` at every edge of `CLK160M` that sees `sr_inst_cnt` at 8, so one
frame loads many times.  A capture is the first load of such a series (`captured`).  In every
well-formed run the captured opcodes are those of the complete frames, in order
(`capture_faithful`).
-/

namespace Ptmch

open Machine Trg

/-! ### Captures -/

/-- `ptmch_trg` with a memory: did the latest edge of `CLK160M` load `ar_inst_chk`? -/
structure Loader where
  loaded : Bool
  trg : Trg
  deriving DecidableEq, Repr

namespace Loader

def start : Loader := ⟨false, Trg.start⟩

def step (l : Loader) (e : Event) : Loader :=
  ⟨if e = .clk160m then decide (l.trg.srInstCnt = 0b1000) else l.loaded, l.trg.step e⟩

/-- An edge of `CLK160M` that loads after one that did not. -/
def captured (l : Loader) (e : Event) : Option (BitVec 8) :=
  if e = .clk160m ∧ l.trg.srInstCnt = 0b1000 ∧ l.loaded = false then
    some (l.trg.step e).arInstChk
  else none

end Loader

/-- The opcodes that `ptmch_trg` captures in a run. -/
def captures (es : List Event) : List (BitVec 8) :=
  observe Loader.step Loader.captured Loader.start es

namespace Bus

/-- The opcodes of the complete frames in the order of the frames; that of the current frame counts
from the first edge of `CLK160M` after its eighth bit. -/
def opcodes (b : Bus) : List (BitVec 8) :=
  (b.earlier.reverse.filter (·.Complete)).map (opcode ·.bits) ++
    if b.frame.Complete ∧ b.frame.clksAt8 < b.frame.clks then [opcode b.frame.bits] else []

/-- The first edge of `CLK160M` after the eighth edge of `SPI_CLK` of a frame. -/
def Captures (b : Bus) (e : Event) : Prop :=
  e = .clk160m ∧ b.frame.Complete ∧ b.frame.clksAt8 = b.frame.clks

instance (b : Bus) (e : Event) : Decidable (b.Captures e) := inferInstanceAs (Decidable (_ ∧ _))

end Bus

/-! ### One step -/

/-- Whether the latest edge of `CLK160M` loaded, in terms of the bus.  Edge 3 of a frame may still
load what an earlier frame left; it is also the edge that clears the counter. -/
structure LoadRefines (b : Bus) (l : Loader) : Prop where
  refines : Refines b l.trg
  early : b.frame.Untouched b.frame.clks → (l.loaded = true ↔ l.trg.srInstCnt = 0b1000)
  late : ¬ b.frame.Untouched b.frame.clks → l.loaded = true →
    b.frame.clks = 3 ∨ b.frame.Complete ∧ b.frame.clksAt8 < b.frame.clks
  loads : b.frame.Complete → b.frame.clksAt8 < b.frame.clks → l.loaded = true

namespace Refines

variable {b : Bus} {s : Trg} {e : Event}

/-- `ar_inst_chk` changes only where the bus says that the frame is captured. -/
theorem arInstChk_step (h : Refines b s) (hok : b.Allowed Rules.bench e) :
    (s.arInstChk ≠ (s.step e).arInstChk → b.Captures e) ∧
    (b.Captures e → (s.step e).arInstChk = opcode b.frame.bits) := by
  match e, hok with
  | .spiClk mosi, _ =>
    have hkeep : (s.step (.spiClk mosi)).arInstChk = s.arInstChk :=
      (step_spiClk_free h.sync.resetN mosi).2.2.2.2.2.2.2.1
    exact ⟨fun hne => absurd hkeep.symm hne, fun hc => absurd hc.1 (by simp)⟩
  | .spiCs level, _ =>
    have hkeep : (s.step (.spiCs level)).arInstChk = s.arInstChk :=
      (step_spiCs_free h.sync.resetN level).2.2.2.2.2.2.2.1
    exact ⟨fun hne => absurd hkeep.symm hne, fun hc => absurd hc.1 (by simp)⟩
  | .clk160m, _ =>
    have hload : (s.step .clk160m).arInstChk
        = if b.frame.Complete then opcode b.frame.bits else b.stale :=
      (step_clk_free h.sync.resetN).2.2.2.2.2.2.2.1.trans h.arInstChkNext_eq
    have hat8 := h.paced.clksAt8_le
    have hle := h.paced.lows_le
    rw [hload, h.chk]
    constructor
    · intro hne
      grind [Frame.chk, Bus.Captures]
    · rintro ⟨-, hc, -⟩
      rw [if_pos hc]

end Refines

namespace LoadRefines

variable {b : Bus} {l : Loader} {e : Event}

theorem start : LoadRefines Bus.start Loader.start where
  refines := Refines.start
  early := by decide
  late := by decide
  loads := by decide

/-- An edge of `CLK160M` captures where the bus says so. -/
theorem captured_iff (h : LoadRefines b l) :
    (l.trg.srInstCnt = 0b1000 ∧ l.loaded = false) ↔
      b.frame.Complete ∧ b.frame.clksAt8 = b.frame.clks := by
  by_cases hu : b.frame.Untouched b.frame.clks
  · have hnc := h.refines.paced.not_complete hu
    refine iff_of_false ?_ fun hc => hnc hc.1
    rintro ⟨h8, hno⟩
    rw [(h.early hu).mpr h8] at hno
    cases hno
  · rw [h.refines.cnt_eq_eight hu]
    constructor
    · rintro ⟨hc, hno⟩
      refine ⟨hc, ?_⟩
      by_contra hne
      have hlt := lt_of_le_of_ne (h.refines.paced.clksAt8_le_clks hc) hne
      rw [h.loads hc hlt] at hno
      cases hno
    · rintro ⟨hc, hat⟩
      refine ⟨hc, Bool.eq_false_iff.mpr fun hl => ?_⟩
      have hge := h.refines.paced.clksAt8_ge hc
      rcases h.late hu hl with h3 | ⟨-, hlt⟩ <;> omega

theorem step (h : LoadRefines b l) (hok : b.Allowed Rules.bench e) :
    LoadRefines (b.step e) (l.step e) := by
  have href : Refines (b.step e) (l.trg.step e) := h.refines.step hok
  have hat8 := h.refines.paced.clksAt8_le
  have hle := h.refines.paced.lows_le
  match e, hok with
  | .clk160m, _ =>
    have hloaded : (l.step .clk160m).loaded = decide (l.trg.srInstCnt = 0b1000) := rfl
    refine ⟨href, fun hu' => ?_, fun hu' hl => ?_, fun hc _ => ?_⟩
    · -- the counter is not cleared, and the edge loads what it still holds
      have hncl : ¬ (b.frame.tick b.spiCs).Clearing := fun hcl => hcl.not_untouched hu'
      have hnext : l.trg.spiResetNNext = true := by
        rw [← step_clk_cSpiResetN h.refines.sync.resetN, href.sync.cSpiResetN]
        simp [show ¬ (b.step .clk160m).frame.Clearing from hncl]
      have hcnt := (step_clk_gated h.refines.sync.resetN).2.1
      rw [if_pos hnext] at hcnt
      rw [hloaded, decide_eq_true_eq, ← hcnt]
      rfl
    · rw [hloaded, decide_eq_true_eq] at hl
      by_cases hu : b.frame.Untouched b.frame.clks
      · left
        have hu' : ¬ (b.frame.tick b.spiCs).Untouched (b.frame.clks + 1) := hu'
        have hlow := h.refines.placed.lows_eq
        show b.frame.clks + 1 = 3
        exact Frame.clks_of_first_clear hlow hu hu'
      · have hc := (h.refines.cnt_eq_eight hu).mp hl
        have := hat8 hc
        exact Or.inr ⟨hc, show b.frame.clksAt8 < b.frame.clks + 1 by omega⟩
    · have hc : b.frame.Complete := hc
      have hu : ¬ b.frame.Untouched b.frame.clks :=
        fun hu => h.refines.paced.not_complete hu hc
      rw [hloaded, decide_eq_true_eq, h.refines.cnt_eq_eight hu]
      exact hc
  | .spiClk mosi, hok =>
    have h5 : 5 ≤ b.frame.clks := hok.2
    have hlow := h.refines.placed.lows_eq hok.1
    have hu : ¬ b.frame.Untouched b.frame.clks :=
      Frame.not_untouched_iff.mpr ⟨by omega, by omega⟩
    have hlate := h.late hu
    have hloads := h.loads
    have hloaded : (l.step (.spiClk mosi)).loaded = l.loaded := rfl
    refine ⟨href, fun hu' => absurd hu' hu, fun _ hl => ?_, fun hc hlt => ?_⟩
    · have hfr : (b.step (.spiClk mosi)).frame = b.frame.bit mosi := rfl
      rw [hfr]
      right
      rcases hlate hl with h3 | ⟨hc, hlt⟩
      · omega
      · obtain ⟨hc', -, hat8⟩ := hc.bit mosi
        exact ⟨hc', hat8.symm ▸ hlt⟩
    · have hlt : (b.frame.bit mosi).clksAt8 < b.frame.clks := hlt
      have hc : (b.frame.bit mosi).Complete := hc
      rw [hloaded]
      by_cases hold : b.frame.Complete
      · exact hloads hold ((hold.bit mosi).2.2 ▸ hlt)
      · rw [Frame.clksAt8_bit hold hc] at hlt
        exact absurd hlt (lt_irrefl _)
  | .spiCs true, _ =>
    have hcnt : (l.step (.spiCs true)).trg.srInstCnt = l.trg.srInstCnt :=
      (h.refines.spiCs_kept true).2
    exact ⟨href, fun hu => by rw [hcnt]; exact h.early hu, h.late, h.loads⟩
  | .spiCs false, hok =>
    have hcnt : (l.step (.spiCs false)).trg.srInstCnt = l.trg.srInstCnt :=
      (h.refines.spiCs_kept false).2
    have hloaded : (l.step (.spiCs false)).loaded = l.loaded := rfl
    have hbus : (b.step (.spiCs false)).frame = Frame.fresh := by simp [Bus.step, hok.1]
    have hs := h.refines.settled_of_fall hok
    refine ⟨href, fun _ => ?_, fun hu => ?_, fun hc => ?_⟩
    · rw [hcnt, hloaded]
      by_cases hu : b.frame.Untouched b.frame.clks
      · exact h.early hu
      · rw [h.refines.cnt_eq_eight hu]
        have hlate := h.late hu
        have hloads := h.loads
        grind [Frame.Settled]
    · rw [hbus] at hu
      exact absurd (Or.inl (by decide)) hu
    · rw [hbus] at hc
      exact absurd hc (by decide)

end LoadRefines

/-! ### Runs -/

/-- The opcodes of the bus grow by the captured one. -/
theorem Bus.opcodes_step {b : Bus} {l : Loader} {e : Event} (h : LoadRefines b l)
    (hok : b.Allowed Rules.bench e) :
    (b.step e).opcodes = b.opcodes ++ (l.captured e).toList := by
  match e, hok with
  | .clk160m, hok =>
    have hload := (h.refines.arInstChk_step hok).2
    have hcap : l.captured .clk160m
        = if b.frame.Complete ∧ b.frame.clksAt8 = b.frame.clks then some (opcode b.frame.bits)
          else none := by
      unfold Loader.captured
      by_cases hc : b.frame.Complete ∧ b.frame.clksAt8 = b.frame.clks
      · rw [if_pos hc, if_pos ⟨rfl, h.captured_iff.mpr hc⟩, hload ⟨rfl, hc⟩]
      · rw [if_neg hc, if_neg fun hx => hc (h.captured_iff.mp hx.2)]
    have hnew : (b.step .clk160m).opcodes
        = (b.earlier.reverse.filter (·.Complete)).map (opcode ·.bits) ++
          if b.frame.Complete ∧ b.frame.clksAt8 < b.frame.clks + 1 then [opcode b.frame.bits]
          else [] := rfl
    rw [hcap, hnew, opcodes, List.append_assoc]
    congr 1
    by_cases hc : b.frame.Complete
    · -- the opcode is listed already, or is captured by this edge
      have hle := h.refines.paced.clksAt8_le_clks hc
      have hnext : b.frame.clksAt8 < b.frame.clks + 1 := Nat.lt_succ_of_le hle
      rcases hle.lt_or_eq with hlt | heq
      · rw [if_pos ⟨hc, hnext⟩, if_pos ⟨hc, hlt⟩, if_neg fun hat => hlt.ne hat.2]
        rfl
      · rw [if_pos ⟨hc, hnext⟩, if_neg fun hlt => hlt.2.ne heq, if_pos ⟨hc, heq⟩]
        rfl
    · rw [if_neg fun h => hc h.1, if_neg fun h => hc h.1, if_neg fun h => hc h.1]
      rfl
  | .spiClk mosi, _ =>
    have hnew : (b.step (.spiClk mosi)).opcodes
        = (b.earlier.reverse.filter (·.Complete)).map (opcode ·.bits) ++
          if (b.frame.bit mosi).Complete ∧ (b.frame.bit mosi).clksAt8 < b.frame.clks then
            [opcode (b.frame.bit mosi).bits]
          else [] := rfl
    have hcap : l.captured (.spiClk mosi) = none := by simp [Loader.captured]
    rw [hcap, hnew, opcodes, Option.toList_none, List.append_nil]
    congr 1
    by_cases hc : b.frame.Complete
    · obtain ⟨hc', hop, hat8⟩ := hc.bit mosi
      simp only [hop, hat8, hc, hc']
    · -- an opcode that this bit completes has not been loaded
      have hno : ¬ ((b.frame.bit mosi).Complete ∧ (b.frame.bit mosi).clksAt8 < b.frame.clks) := by
        rintro ⟨hc', hlt⟩
        rw [Frame.clksAt8_bit hc hc'] at hlt
        exact lt_irrefl _ hlt
      rw [if_neg hno, if_neg fun h => hc h.1]
  | .spiCs true, _ =>
    have hcap : l.captured (.spiCs true) = none := by simp [Loader.captured]
    rw [hcap, Option.toList_none, List.append_nil]
    rfl
  | .spiCs false, hok =>
    have hs := h.refines.settled_of_fall hok
    have hcap : l.captured (.spiCs false) = none := by simp [Loader.captured]
    have hbus : b.step (.spiCs false) = ⟨false, Frame.fresh, b.frame :: b.earlier⟩ := by
      simp [step, hok.1]
    have hlast : (b.frame.Complete ∧ b.frame.clksAt8 < b.frame.clks) = b.frame.Complete := by
      refine propext (and_iff_left_of_imp fun hc => ?_)
      have hat8 := hs.clksAt8_le h.refines.paced hc
      omega
    have hfresh : ¬ Frame.fresh.Complete := by decide
    rw [hcap, hbus, opcodes, opcodes, List.reverse_cons, List.filter_append, List.map_append]
    simp only [hlast, hfresh, false_and, if_false, Option.toList_none, List.append_nil]
    congr 1
    by_cases hc : b.frame.Complete <;> simp [hc]

/-- The latest of the opcodes is the one that the frame leaves at this time. -/
theorem Bus.getLastD_opcodes (b : Bus) :
    b.opcodes.getLastD 0 = b.frame.chk b.stale b.frame.clks := by
  unfold opcodes Frame.chk stale latestOpcode
  split_ifs with hc
  · rw [List.getLastD_concat]
  · rw [List.append_nil, List.filter_reverse, List.map_reverse, List.getLastD_eq_getLast?,
      List.getLast?_reverse, List.head?_map, List.head?_filter]
    cases b.earlier.find? (·.Complete) <;> rfl

/-- The circuit with its memory refines the bus after every well-formed run, and has captured the
opcodes of the bus. -/
theorem captures_run {es : List Event} (hwf : WellFormed Rules.bench es) :
    LoadRefines (Sys.after es).bus (run Loader.step Loader.start es) ∧
    captures es = (Sys.after es).bus.opcodes := by
  induction es using List.reverseRecOn with
  | nil => exact ⟨LoadRefines.start, by decide⟩
  | append_singleton es e ih =>
    obtain ⟨hpre, hok⟩ := (along_concat _ _ _).mp hwf
    obtain ⟨hl, hcap⟩ := ih hpre
    rw [← Sys.run_bus ⟨Bus.start, Trg.start⟩] at hok
    have hok : (Sys.after es).bus.Allowed Rules.bench e := hok
    rw [Sys.after_concat, captures, observe_concat, run_concat]
    refine ⟨hl.step hok, ?_⟩
    rw [← captures, hcap]
    exact (Bus.opcodes_step hl hok).symm

/-- **Faithful opcode capture.**  In every well-formed run
* the captured opcodes are the first bytes of the complete frames, in order, that of the current
  frame from the first edge of `CLK160M` after its eighth bit on;
* `ar_inst_chk` is the latest of them, and 0 while there is none;
* it changes at the first edge of `CLK160M` after the eighth bit of a frame only, and then it
  takes the first eight bits of that frame. -/
theorem capture_faithful {es : List Event} (hwf : WellFormed Rules.bench es) :
    captures es = (Sys.after es).bus.opcodes ∧
    (Sys.after es).trg.arInstChk = (captures es).getLastD 0 ∧
    Along Sys.step (fun y e =>
      (y.trg.arInstChk ≠ (y.step e).trg.arInstChk → y.bus.Captures e) ∧
      (y.bus.Captures e → (y.step e).trg.arInstChk = opcode y.bus.frame.bits)) Sys.start es := by
  obtain ⟨hl, hcap⟩ := captures_run hwf
  refine ⟨hcap, ?_, ?_⟩
  · rw [hcap, (refines_after hwf).chk]
    exact (Bus.getLastD_opcodes _).symm
  · exact along_of_invariant (I := fun y : Sys => Refines y.bus y.trg)
      (fun _ _ h hok => h.step hok) (fun _ _ h hok => h.arInstChk_step hok) Refines.start
      ((Sys.along_bus _ es).mpr hwf)

/-- An aborted frame between a write enable frame and a page program frame with a payload byte. -/
def pairRun : List Event :=
  clks 5 ++ frameEvents 5 (sendByte pWriteenable) ++ clks 8 ++
    frameEvents 6 [.spiClk true, .clk160m, .spiClk false] ++ clks 9 ++
    frameEvents 5 (sendByte pPageprogram ++ clks 1 ++ sendByte 0x06) ++ clks 8

/-- `pairRun` captures the two opcodes and nothing else. -/
theorem captures_pairRun : captures pairRun = [pWriteenable, pPageprogram] :=
  (capture_faithful (by decide +kernel : WellFormed Rules.bench pairRun)).1.trans
    (by decide +kernel)

end Ptmch
