import Ptmch.Machine.Pulse
import Ptmch.Trg.Equiv.OneFiring

/-!
# The pulse counter is a retriggerable one-shot

`sr_pls_cnt` is no register of `c_spi_reset_n`, so after a release of `RESET_N` it is a function of
what `c_inst_edge` was at the edges of `CLK160M` alone: the edges since it was high last, up to 15.
Neither a clear nor `SPI_CLK` matters to it, but through `c_inst_edge`.
-/

namespace Ptmch

open Machine Trg

namespace Trg

variable {s : Trg} {e : Event}

/-! ### The counter -/

/-- While `RESET_N` is high only an edge of `CLK160M` changes the counter. -/
theorem step_srPlsCnt (h : s.resetN = true) (he : e ≠ .resetN false) :
    (s.step e).resetN = true ∧
    (s.step e).srPlsCnt = if e = .clk160m then s.srPlsCntNext else s.srPlsCnt := by
  cases e with
  | spiClk mosi =>
    obtain ⟨hr, -, -, -, -, -, -, -, hcnt⟩ := step_spiClk_free h mosi
    exact ⟨hr, hcnt⟩
  | clk160m =>
    obtain ⟨hr, -, -, -, -, -, -, -, hcnt⟩ := step_clk_free h
    exact ⟨hr, hcnt⟩
  | spiCs level =>
    obtain ⟨hr, -, -, -, -, -, -, -, hcnt⟩ := step_spiCs_free h level
    exact ⟨hr, hcnt⟩
  | resetN level =>
    obtain rfl : level = true := by
      cases level with
      | true => rfl
      | false => exact absurd rfl he
    have hr : s.edge (.resetN true) = s := by rw [← h]; rfl
    have hclk : Event.resetN true ≠ .clk160m := by simp
    rw [if_neg hclk, step, hr, clear_eq h, negedgeSpiResetN]
    split_ifs with hc
    · exact ⟨h, rfl⟩
    · exact ⟨h, rfl⟩

end Trg

/-- **Run lemma**: the counter measures how long `c_inst_edge` has been low. -/
theorem srPlsCnt_run {s : Trg} (hr : s.resetN = true) (hcnt : s.srPlsCnt = 15) (es : List Event)
    (hes : ∀ e ∈ es, e ≠ .resetN false) :
    (run Trg.step s es).resetN = true ∧
    (run Trg.step s es).srPlsCnt.toNat = sinceHigh 15 (instEdges s es) := by
  induction es using List.reverseRecOn with
  | nil => exact ⟨hr, congrArg BitVec.toNat hcnt⟩
  | append_singleton es e ih =>
    obtain ⟨hr, hold⟩ := ih fun x hx => hes x (List.mem_append_left _ hx)
    have he : e ≠ .resetN false := hes e (List.mem_append_right _ (List.mem_singleton_self e))
    obtain ⟨hr', hnew⟩ := step_srPlsCnt hr he
    rw [run_concat, instEdges_append]
    refine ⟨hr', ?_⟩
    by_cases hclk : e = .clk160m
    · have hedge : instEdges (run Trg.step s es) [e] = [(run Trg.step s es).cInstEdge] := by
        rw [instEdges, observe_cons, if_pos hclk]
        rfl
      rw [hnew, if_pos hclk, hedge, sinceHigh_concat, srPlsCntNext_toNat, hold]
    · have hnone : instEdges (run Trg.step s es) [e] = [] := by
        rw [instEdges, observe_cons, if_neg hclk]
        rfl
      rw [hnew, if_neg hclk, hnone, List.append_nil, hold]

/-- **The pulse counter is a retriggerable one-shot.**  After every release of `RESET_N`, as long as
it stays high: `sr_pls_cnt` is the number of edges of `CLK160M` since the latest one that found
`c_inst_edge` high, up to 15, and `n_trg_pls` is high if and only if one of the last fifteen edges
did. -/
theorem pulseCounter_oneShot {resetN cs : Bool} {pre es : List Event}
    (hlow : (run Trg.step (reset resetN cs) pre).resetN = false)
    (hes : ∀ e ∈ es, e ≠ .resetN false) (s : Trg)
    (hs : s = run Trg.step (reset resetN cs) (pre ++ [.resetN true])) :
    (run Trg.step s es).srPlsCnt.toNat = sinceHigh 15 (instEdges s es) ∧
    ((run Trg.step s es).nTrgPls = true ↔
      ∃ j, (instEdges s es)[j]? = some true ∧ (instEdges s es).length ≤ j + 15) := by
  rw [hs, run_release pre hlow]
  obtain ⟨-, hcnt⟩ := srPlsCnt_run (s := reset true _) rfl rfl es hes
  refine ⟨hcnt, ?_⟩
  rw [nTrgPls_eq, decide_eq_true_eq, hcnt]
  exact sinceHigh_lt_iff _ 15

/-- A write enable byte comes in, and ten edges of `CLK160M` after it. -/
def firedRun : List Event := clks 5 ++ sendByte pWriteenable ++ clks 10

/-- The last edge of `firedRun` but four has restarted the counter. -/
theorem pulseCounter_firedRun :
    sinceHigh 15 (instEdges (reset true true) firedRun) = 4 ∧
    (run Trg.step (reset true true) firedRun).srPlsCnt.toNat
      = sinceHigh 15 (instEdges (reset true true) firedRun) ∧
    ((run Trg.step (reset true true) firedRun).nTrgPls = true ↔
      ∃ j, (instEdges (reset true true) firedRun)[j]? = some true ∧
        (instEdges (reset true true) firedRun).length ≤ j + 15) :=
  ⟨by decide +kernel, @pulseCounter_oneShot false true [] firedRun (by decide) (by decide +kernel)
    (reset true true) (by decide +kernel)⟩

end Ptmch
