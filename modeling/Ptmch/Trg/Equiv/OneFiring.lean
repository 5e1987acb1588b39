import Ptmch.Trg.Bus
import Ptmch.Trg.Clear

/-!
# One firing for each clear

Between two clears `c_inst_edge` is high before at most two edges of `CLK160M`, one after the other
(`atMostOneFiring`).  The edge that opens the next clear is among them: it still finds
`c_spi_reset_n` high.  Nothing is assumed on the bus, on `RESET_N` or on the order of the events.

After a clear the opcode pipeline holds zeros.  The value `v` that was in `ar_inst_chk` follows
them, and then the one byte `w` at which `sr_inst_cnt` stops (`Draining`).  So `sr_inst_chk_3d`
shows zeros, then perhaps `v`, then perhaps `w`; the comparison with the two opcodes is true in one
interval, and `c_inst_edge` before the first two edges of it (`Firing`).
-/

namespace Ptmch

open Machine Trg

namespace Trg

variable {s : Trg} {e : Event}

/-! ### The pipeline after a clear -/

/-- The values that run through the pipeline after a clear, in their order. -/
def drain (v w : BitVec 8) : ℕ → BitVec 8
  | 0 => 0
  | 1 => v
  | _ => w

/-- How far the values have come: `ar_inst_chk` is at value `r`, the three registers behind it are
at `r1`, `r2` and `r3`. -/
structure Draining (v w : BitVec 8) (r r1 r2 r3 : ℕ) (s : Trg) : Prop where
  chk : s.arInstChk = drain v w r
  chk1d : s.srInstChk1d = drain v w r1
  chk2d : s.srInstChk2d = drain v w r2
  chk3d : s.srInstChk3d = drain v w r3
  pos : 1 ≤ r
  le : r ≤ 2
  le1 : r1 ≤ r
  le2 : r2 ≤ r1
  le3 : r3 ≤ r2
  full : r = 2 → s.srInstCnt = 8 ∧ s.srInstSht = w

theorem draining_of_cleared (hs : s.Cleared) : Draining s.arInstChk 0 1 0 0 0 s :=
  ⟨rfl, hs.chk1d, hs.chk2d, hs.chk3d, le_rfl, by omega, by omega, le_rfl, le_rfl, nofun⟩

theorem drain_of_le_one {v w w' : BitVec 8} {r : ℕ} (h : r ≤ 1) : drain v w r = drain v w' r := by
  match r, h with
  | 0, _ => rfl
  | 1, _ => rfl

variable {v w : BitVec 8} {r r1 r2 r3 : ℕ}

/-- An edge of `CLK160M` moves the values by one place. -/
theorem Draining.step_clk (hd : Draining v w r r1 r2 r3 s) (h : s.cSpiResetN = true)
    (h' : (s.step .clk160m).cSpiResetN = true) :
    ∃ w' r' r3', Draining v w' r' r r1 r3' (s.step .clk160m) ∧ r3 ≤ r3' ∧ (r = 2 → w' = w) := by
  obtain ⟨hchk, h1, h2, h3, hpos, hle, hle1, hle2, hle3, hfull⟩ := hd
  obtain ⟨gsht, gcnt, gchk, g1, g2, g3, -, -⟩ := step_high h h'
  -- the two-equal-samples filter
  have hnext : ∃ r3', s.srInstChk3dNext = drain v w r3' ∧ r3 ≤ r3' ∧ r3' ≤ r2 := by
    unfold srInstChk3dNext
    split_ifs
    · exact ⟨r2, h2, hle3, le_rfl⟩
    · exact ⟨r3, h3, le_rfl, hle3⟩
  obtain ⟨r3', hr3', hge3, hle3'⟩ := hnext
  have hle3' : r3' ≤ r1 := hle3'.trans hle2
  rw [arInstChkNext] at gchk
  by_cases hr : r = 2
  · -- the counter has stopped at `w`, which is loaded again
    obtain ⟨hcnt, hsht⟩ := hfull hr
    refine ⟨w, 2, r3', ⟨?_, ?_, ?_, ?_, by omega, le_rfl, hle, hle1, hle3', ?_⟩, hge3, fun _ => rfl⟩
    · rw [gchk, if_pos hcnt, hsht]
      rfl
    · rw [g1, hchk]
    · rw [g2, h1]
    · rw [g3, hr3']
    · exact fun _ => ⟨gcnt.trans hcnt, gsht.trans hsht⟩
  · have hr1 : r ≤ 1 := by omega
    by_cases hcnt : s.srInstCnt = 8
    · -- `w` is fixed by the first edge that finds the counter at 8
      refine ⟨s.srInstSht, 2, r3', ⟨?_, ?_, ?_, ?_, by omega, le_rfl, hle, hle1, hle3', ?_⟩, hge3,
        fun h => absurd h hr⟩
      · rw [gchk, if_pos hcnt]
        rfl
      · rw [g1, hchk, drain_of_le_one hr1]
      · rw [g2, h1, drain_of_le_one (hle1.trans hr1)]
      · rw [g3, hr3', drain_of_le_one (hle3'.trans (hle1.trans hr1))]
      · exact fun _ => ⟨gcnt.trans hcnt, gsht⟩
    · refine ⟨w, r, r3', ⟨?_, ?_, ?_, ?_, hpos, hle, le_rfl, hle1, hle3', ?_⟩, hge3, fun _ => rfl⟩
      · rw [gchk, if_neg hcnt, hchk]
      · rw [g1, hchk]
      · rw [g2, h1]
      · rw [g3, hr3']
      · exact fun h => absurd h hr

/-- The other events do not move them. -/
theorem Draining.step_other (hd : Draining v w r r1 r2 r3 s) (h : s.cSpiResetN = true)
    (h' : (s.step e).cSpiResetN = true) (he : e ≠ .clk160m) :
    Draining v w r r1 r2 r3 (s.step e) ∧ (s.step e).arInstMchSft1 = s.arInstMchSft1 ∧
      (s.step e).srInstMchSft2 = s.srInstMchSft2 := by
  obtain ⟨hchk, h1, h2, h3, hpos, hle, hle1, hle2, hle3, hfull⟩ := hd
  cases e with
  | spiClk mosi =>
    obtain ⟨gsht, gcnt, gchk, g1, g2, g3, gs1, gs2⟩ := step_high h h'
    refine ⟨⟨gchk.trans hchk, g1.trans h1, g2.trans h2, g3.trans h3, hpos, hle, hle1, hle2, hle3,
      fun hr => ?_⟩, gs1, gs2⟩
    -- the counter has stopped
    obtain ⟨hcnt, hsht⟩ := hfull hr
    rw [gsht, gcnt, srInstShtNext, srInstCntNext, if_pos hcnt, if_pos hcnt]
    exact ⟨hcnt, hsht⟩
  | clk160m => exact absurd rfl he
  | spiCs level =>
    obtain ⟨gsht, gcnt, gchk, g1, g2, g3, gs1, gs2⟩ := step_high h h'
    exact ⟨⟨gchk.trans hchk, g1.trans h1, g2.trans h2, g3.trans h3, hpos, hle, hle1, hle2, hle3,
      fun hr => ⟨gcnt.trans (hfull hr).1, gsht.trans (hfull hr).2⟩⟩, gs1, gs2⟩
  | resetN level =>
    obtain ⟨gsht, gcnt, gchk, g1, g2, g3, gs1, gs2⟩ := step_high h h'
    exact ⟨⟨gchk.trans hchk, g1.trans h1, g2.trans h2, g3.trans h3, hpos, hle, hle1, hle2, hle3,
      fun hr => ⟨gcnt.trans (hfull hr).1, gsht.trans (hfull hr).2⟩⟩, gs1, gs2⟩

theorem Draining.cInstMch_iff (hd : Draining v w r r1 r2 r3 s) :
    s.cInstMch = true ↔ IsTrigger (drain v w r3) := by
  rw [cInstMch_eq, decide_eq_true_eq, hd.chk3d]
  rfl

/-- The last register is never ahead. -/
theorem Draining.last_le (hd : Draining v w r r1 r2 r3 s) : r3 ≤ r ∧ r3 ≤ 2 := by
  have hle : r3 ≤ r := (hd.le3.trans hd.le2).trans hd.le1
  exact ⟨hle, hle.trans hd.le⟩

/-- `sr_inst_chk_3d` is at its last value, and this is no trigger opcode. -/
def Spent (w : BitVec 8) (r3 : ℕ) : Prop := r3 = 2 ∧ ¬ IsTrigger w

theorem Draining.cInstMch_of_spent (hd : Draining v w r r1 r2 r3 s) (hs : Spent w r3) :
    s.cInstMch = false := by
  rw [← Bool.not_eq_true, hd.cInstMch_iff, hs.1]
  exact hs.2

/-- **The comparison is true in one interval**: once it is false again it stays false. -/
theorem Draining.match_step {w' : BitVec 8} {r' r3' : ℕ} {s' : Trg}
    (hd : Draining v w r r1 r2 r3 s) (hd' : Draining v w' r' r r1 r3' s') (hge : r3 ≤ r3')
    (hw : r = 2 → w' = w) :
    (s.cInstMch = true → s'.cInstMch = true ∨ Spent w' r3') ∧ (Spent w r3 → Spent w' r3') := by
  obtain ⟨hle, hle2⟩ := hd.last_le
  obtain ⟨-, hle2'⟩ := hd'.last_le
  have hr := hd.le
  have hlast : r3 = 2 → r3' = 2 ∧ w' = w := by
    intro h2
    exact ⟨by omega, hw (by omega)⟩
  constructor
  · rw [hd.cInstMch_iff, hd'.cInstMch_iff]
    intro ht
    obtain h0 | h1 | h2 : r3 = 0 ∨ r3 = 1 ∨ r3 = 2 := by omega
    · rw [h0] at ht
      exact absurd ht not_isTrigger_zero
    · -- `v` is shown, and after the edge it still is or `w'` is
      rw [h1] at ht hge
      obtain h1' | h2' : r3' = 1 ∨ r3' = 2 := by omega
      · rw [h1']
        exact Or.inl ht
      · by_cases ht' : IsTrigger w'
        · rw [h2']
          exact Or.inl ht'
        · exact Or.inr ⟨h2', ht'⟩
    · rw [h2] at ht
      rw [(hlast h2).1, (hlast h2).2]
      exact Or.inl ht
  · rintro ⟨h2, hnot⟩
    exact ⟨(hlast h2).1, (hlast h2).2 ▸ hnot⟩

end Trg

/-! ### The firing -/

/-- `c_inst_edge` at each edge of `CLK160M`, before the edge. -/
def instEdges (s : Trg) (es : List Event) : List Bool :=
  observe Trg.step (fun s e => if e = .clk160m then some s.cInstEdge else none) s es

/-- Whether `sr_pls_cnt` restarts, at each edge of `CLK160M`. -/
def restarts (s : Trg) (es : List Event) : List Bool :=
  observe Trg.step
    (fun s e => if e = .clk160m then some (decide ((s.step e).srPlsCnt = 0)) else none) s es

/-- At most `n` consecutive `true`s, and `false` before and after them. -/
def OneBurst (n : ℕ) (levels : List Bool) : Prop :=
  ∃ a b c, b ≤ n ∧
    levels = List.replicate a false ++ List.replicate b true ++ List.replicate c false

/-- The stages of the firing, given the match and its two delayed copies and what `c_inst_edge` has
been so far. -/
inductive Firing (mch sft1 sft2 : Bool) (spent : Prop) (levels : List Bool) : Prop where
  /-- no match has been delayed yet -/
  | waiting (a : ℕ) (h1 : sft1 = false) (h2 : sft2 = false)
      (hl : levels = List.replicate a false)
  /-- one edge has seen the match -/
  | first (a : ℕ) (h1 : sft1 = true) (h2 : sft2 = false) (hm : mch = true ∨ spent)
      (hl : levels = List.replicate a false ++ [true])
  /-- the match has reached the second copy, or it is over -/
  | past (h : mch = true ∧ sft1 = true ∧ sft2 = true ∨ spent) (hl : OneBurst 2 levels)

theorem OneBurst.concat_false {n : ℕ} {levels : List Bool} (h : OneBurst n levels) :
    OneBurst n (levels ++ [false]) := by
  obtain ⟨a, b, c, hb, rfl⟩ := h
  refine ⟨a, b, c + 1, hb, ?_⟩
  rw [List.replicate_succ', List.append_assoc]

namespace Firing

variable {mch mch' sft1 sft2 : Bool} {spent spent' : Prop} {levels : List Bool}

theorem oneBurst (h : Firing mch sft1 sft2 spent levels) : OneBurst 2 levels := by
  cases h with
  | waiting a _ _ hl => exact ⟨a, 0, 0, by omega, by simp [hl]⟩
  | first a _ _ _ hl => exact ⟨a, 1, 0, by omega, by simp [hl]⟩
  | past _ hl => exact hl

/-- An edge of `CLK160M`, over a match that does not come back. -/
theorem step (h : Firing mch sft1 sft2 spent levels) (hm : mch = true → mch' = true ∨ spent')
    (hs : spent → spent') (hspent : spent → mch = false) :
    Firing mch' mch sft1 spent' (levels ++ [mch && !sft2]) := by
  cases h with
  | waiting a h1 h2 hl =>
    -- the burst begins with the first match
    cases hmch : mch with
    | false =>
      refine .waiting (a + 1) rfl h1 ?_
      rw [hl, h2, List.replicate_succ']
      rfl
    | true =>
      refine .first a rfl h1 (hm hmch) ?_
      rw [hl, h2]
      rfl
  | first a h1 h2 hm1 hl =>
    -- the second edge is the last one, as `sr_inst_mch_sft2` is high after it
    rcases hm1 with hmch | hsp
    · refine .past ((hm hmch).imp (fun h => ⟨h, hmch, h1⟩) id) ⟨a, 2, 0, le_rfl, ?_⟩
      simp [hl, hmch, h2, List.replicate]
    · refine .past (Or.inr (hs hsp)) ?_
      rw [hspent hsp]
      exact OneBurst.concat_false ⟨a, 1, 0, by omega, by simp [hl]⟩
  | past hp hl =>
    rcases hp with ⟨hmch, h1, h2⟩ | hsp
    · refine .past ((hm hmch).imp (fun h => ⟨h, hmch, h1⟩) id) ?_
      rw [h2, Bool.not_true, Bool.and_false]
      exact hl.concat_false
    · refine .past (Or.inr (hs hsp)) ?_
      rw [hspent hsp]
      exact hl.concat_false

end Firing

/-! ### Runs -/

/-- What holds between two clears. -/
def FiresOnce (s : Trg) (levels : List Bool) : Prop :=
  ∃ v w r r1 r2 r3, Draining v w r r1 r2 r3 s ∧
    Firing s.cInstMch s.arInstMchSft1 s.srInstMchSft2 (Spent w r3) levels

namespace FiresOnce

variable {s : Trg} {e : Event} {levels : List Bool}

theorem of_cleared (hs : s.Cleared) {a : ℕ} (hl : levels = List.replicate a false) :
    FiresOnce s levels :=
  ⟨_, _, _, _, _, _, draining_of_cleared hs, .waiting a hs.mchSft1 hs.mchSft2 hl⟩

theorem step (hf : FiresOnce s levels) (h : s.cSpiResetN = true)
    (h' : (s.step e).cSpiResetN = true) :
    FiresOnce (s.step e) (levels ++ instEdges s [e]) := by
  obtain ⟨v, w, r, r1, r2, r3, hd, hfire⟩ := hf
  by_cases he : e = .clk160m
  · subst he
    obtain ⟨w', r', r3', hd', hge, hw⟩ := hd.step_clk h h'
    obtain ⟨hm, hs⟩ := hd.match_step hd' hge hw
    obtain ⟨-, -, -, -, -, -, hs1, hs2⟩ := step_high h h'
    refine ⟨v, w', r', r, r1, r3', hd', ?_⟩
    rw [hs1, hs2]
    exact hfire.step hm hs hd.cInstMch_of_spent
  · obtain ⟨hd', hs1, hs2⟩ := hd.step_other h h' he
    refine ⟨v, w, r, r1, r2, r3, hd', ?_⟩
    have hnone : instEdges s [e] = [] := by simp [instEdges, he]
    have hmch : (s.step e).cInstMch = s.cInstMch := by
      rw [cInstMch_eq, cInstMch_eq, hd'.chk3d, hd.chk3d]
    rw [hs1, hs2, hnone, List.append_nil, hmch]
    exact hfire

end FiresOnce

theorem instEdges_append (s : Trg) (xs ys : List Event) :
    instEdges s (xs ++ ys) = instEdges s xs ++ instEdges (run Trg.step s xs) ys :=
  observe_append ..

/-- **Run lemma**: from the end of a clear on, as long as `c_spi_reset_n` stays high. -/
theorem firesOnce_run {s : Trg} (hs : s.Cleared) (hlow : s.cSpiResetN = false) (seg : List Event)
    (hhigh : ∀ q, q ≠ [] → q <+: seg → (run Trg.step s q).cSpiResetN = true) :
    FiresOnce (run Trg.step s seg) (instEdges s seg) := by
  -- by induction on the segment, with `FiresOnce` after its first event
  induction seg using List.reverseRecOn with
  | nil => exact .of_cleared hs (a := 0) rfl
  | append_singleton seg e ih =>
    have hbegins : seg <+: seg ++ [e] := List.prefix_append _ _
    have hlast := hhigh (seg ++ [e]) (by simp) (List.prefix_refl _)
    rw [run_concat] at hlast ⊢
    rw [instEdges_append]
    by_cases hseg : seg = []
    · -- the event that ends the clear
      subst hseg
      have hcl := hs.step hlow hlast
      have hedge : s.cInstEdge = false := by
        rw [Trg.cInstEdge, cInstMch_eq, hs.chk3d]
        rfl
      by_cases he : e = .clk160m
      · exact .of_cleared hcl (a := 1) (by simp [instEdges, he, hedge])
      · exact .of_cleared hcl (a := 0) (by simp [instEdges, he])
    · have hpre := ih fun q hq hpre => hhigh q hq (hpre.trans hbegins)
      exact hpre.step (hhigh seg hseg hbegins) hlast

/-- The event behind the segment, which may be the edge of `CLK160M` that opens the next clear. -/
theorem FiresOnce.oneBurst_concat {s : Trg} {levels : List Bool} (hf : FiresOnce s levels)
    (e : Event) : OneBurst 2 (levels ++ instEdges s [e]) := by
  obtain ⟨v, w, r, r1, r2, r3, hd, hfire⟩ := hf
  by_cases he : e = .clk160m
  · have hlast : instEdges s [e] = [s.cInstMch && !s.srInstMchSft2] := by
      simp [instEdges, he, cInstEdge]
    have hnext : Firing false s.cInstMch s.arInstMchSft1 True
        (levels ++ [s.cInstMch && !s.srInstMchSft2]) :=
      hfire.step (fun _ => Or.inr trivial) (fun _ => trivial) hd.cInstMch_of_spent
    rw [hlast]
    exact hnext.oneBurst
  · have hnone : instEdges s [e] = [] := by simp [instEdges, he]
    rw [hnone, List.append_nil]
    exact hfire.oneBurst

/-- With `RESET_N` high `sr_pls_cnt` restarts where `c_inst_edge` is high. -/
theorem restarts_single {s : Trg} {e : Event} (hr : e = .clk160m → s.resetN = true) :
    restarts s [e] = instEdges s [e] := by
  by_cases he : e = .clk160m
  · subst he
    obtain ⟨-, -, -, -, -, -, -, -, hcnt⟩ := step_clk_free (hr rfl)
    have hnat := srPlsCntNext_toNat s
    have hzero : decide ((s.step .clk160m).srPlsCnt = 0) = s.cInstEdge := by
      rw [hcnt, Bool.eq_iff_iff, decide_eq_true_eq, ← BitVec.toNat_inj, hnat]
      split_ifs with hedge
      · simp [hedge]
      · simp [hedge]
    show [decide ((s.step .clk160m).srPlsCnt = 0)] = [s.cInstEdge]
    rw [hzero]
  · simp [restarts, instEdges, he]

/-- While `RESET_N` is low neither of them is. -/
theorem restarts_single_of_reset {s : Trg} (hm : s.cInstEdge = false) (hr : s.resetN = false) :
    restarts s [.clk160m] = instEdges s [.clk160m] := by
  have hr' : (s.posedgeClk160m s.srInstCnt s.srInstSht).resetN = false := hr
  have hcnt : (s.step .clk160m).srPlsCnt = 0b1111 := by
    rw [step, edge, clear, negedgeResetN, hr', if_neg Bool.false_ne_true, negedgeSpiResetN]
    split_ifs <;> rfl
  show [decide ((s.step .clk160m).srPlsCnt = 0)] = [s.cInstEdge]
  rw [hcnt, hm]
  rfl

theorem restarts_append (s : Trg) (xs ys : List Event) :
    restarts s (xs ++ ys) = restarts s xs ++ restarts (run Trg.step s xs) ys :=
  observe_append ..

/-- So it does up to the first edge of `CLK160M` behind the segment. -/
theorem restarts_eq {s : Trg} (hs : s.Cleared) (seg : List Event) (e : Event)
    (hhigh : ∀ q, q ≠ [] → q <+: seg → (run Trg.step s q).cSpiResetN = true) :
    restarts s (seg ++ [e]) = instEdges s (seg ++ [e]) := by
  -- by induction on the segment, whose last state is high unless it is empty
  induction seg using List.reverseRecOn generalizing e with
  | nil =>
    by_cases hr : s.resetN = true
    · exact restarts_single fun _ => hr
    · by_cases he : e = .clk160m
      · have hedge : s.cInstEdge = false := by
          rw [Trg.cInstEdge, cInstMch_eq, hs.chk3d]
          rfl
        rw [he]
        exact restarts_single_of_reset hedge (by simpa using hr)
      · exact restarts_single fun h => absurd h he
  | append_singleton seg e' ih =>
    have hbegins : seg <+: seg ++ [e'] := List.prefix_append _ _
    have hlast := hhigh (seg ++ [e']) (by simp) (List.prefix_refl _)
    rw [restarts_append, instEdges_append,
      ih e' fun q hq hpre => hhigh q hq (hpre.trans hbegins)]
    congr 1
    exact restarts_single fun _ => resetN_of_high hlast

/-- **At most one firing for each clear.**  In every run from reset, in which anything may happen:
from a time at which `c_spi_reset_n` is low, as long as every event after that leaves it high, and
at the event that follows them, whatever this does to it, `c_inst_edge` is high at at most two edges
of `CLK160M`, one after the other, and `sr_pls_cnt` restarts at these only. -/
theorem atMostOneFiring {resetN cs : Bool} {pre seg : List Event} {e : Event}
    (hlow : (run Trg.step (reset resetN cs) pre).cSpiResetN = false)
    (hhigh : ∀ q, q ≠ [] → q <+: seg →
      (run Trg.step (run Trg.step (reset resetN cs) pre) q).cSpiResetN = true) :
    OneBurst 2 (instEdges (run Trg.step (reset resetN cs) pre) (seg ++ [e])) ∧
    restarts (run Trg.step (reset resetN cs) pre) (seg ++ [e])
      = instEdges (run Trg.step (reset resetN cs) pre) (seg ++ [e]) := by
  have hcl := cleared_of_low pre hlow
  have hfires := firesOnce_run hcl hlow seg hhigh
  refine ⟨?_, restarts_eq hcl seg e hhigh⟩
  rw [instEdges_append]
  exact hfires.oneBurst_concat e

/-- Reset is released, and the clear of the first frame is on. -/
def clearingRun : List Event := .resetN true :: clks 5 ++ .spiCs false :: clks 4

/-- The frame has two write enable bytes, and `SPI_CS` falls again so early that the next edge of
`CLK160M` opens the next clear. -/
def openingRun : List Event :=
  .clk160m :: sendByte pWriteenable ++ sendByte pWriteenable ++ .spiCs true :: clks 2 ++
    .spiCs false :: clks 2

/-- That edge fires. -/
theorem atMostOneFiring_openingRun :
    let s := run Trg.step (reset false true) clearingRun
    (instEdges s openingRun).count true = 0 ∧
    (instEdges s (openingRun ++ [.clk160m])).count true = 1 ∧
    (run Trg.step s (openingRun ++ [.clk160m])).cSpiResetN = false ∧
    OneBurst 2 (instEdges s (openingRun ++ [.clk160m])) ∧
    restarts s (openingRun ++ [.clk160m]) = instEdges s (openingRun ++ [.clk160m]) := by
  have hhigh : ∀ q ∈ openingRun.inits, q ≠ [] →
      (run Trg.step (run Trg.step (reset false true) clearingRun) q).cSpiResetN = true := by
    decide +kernel
  refine ⟨by decide +kernel, by decide +kernel, by decide +kernel, ?_⟩
  exact atMostOneFiring (by decide +kernel)
    fun q hne hq => hhigh q ((List.mem_inits _ _).mpr hq) hne

end Ptmch
