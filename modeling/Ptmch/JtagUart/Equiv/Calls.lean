import Ptmch.JtagUart.Equiv.Interrupt

/-!
# The driver: what its calls return

This system has no clock, so the driver never takes the host for absent and a call that may wait
waits: `read` returns at least one byte, `write` takes every byte and `close` returns when the
last one has left `tx_buf` (`Sys.calls_run`).
-/

namespace Ptmch.JtagUart

open CLib Machine

/-- What a call returns. -/
def Return.Ok : Return → Prop
  | .read size nonblock bytes value =>
    bytes.length ≤ size ∧
      (bytes ≠ [] ∧ value = bytes.length ∨
        bytes = [] ∧ nonblock = true ∧ value = -ewouldblock ∨
        bytes = [] ∧ nonblock = false ∧ size = 0 ∧ value = -eio)
  | .write data nonblock value =>
    0 < value ∧ value ≤ data.length ∧ (nonblock = false → value = data.length) ∨
      nonblock = true ∧ value = -ewouldblock ∨
      nonblock = false ∧ data = [] ∧ value = -eio
  | .close nonblock value => value = 0 ∨ nonblock = true ∧ value = -ewouldblock

/-- A call of `read` that has found `rx_buf` empty. -/
structure ReadCall.Waiting (st : State) (c : ReadCall) : Prop where
  size : 0 < c.size
  inp : c.inp = st.rxOut

/-- What holds in the course of a call of `read` besides `ReadCall.Ok`. -/
def ReadCall.Counts (st : State) (c : ReadCall) : ReadPc → Prop
  | .check => c.buffer = [] → c.Waiting st
  | .spinIn | .spinHost => c.buffer = [] ∧ c.nonblock = false ∧ c.Waiting st
  | .recheck => c.buffer = [] ∧ c.nonblock = false ∧ c.Waiting st ∧ st.rxOut ≠ st.rxIn
  | .finish => c.buffer = [] → c.nonblock = true ∨ c.size = 0
  | _ => True

namespace Sys

variable {y y' : Sys} {h₁ h₂ : Host}

/-- What holds of the calls if there is no clock. -/
structure Calls (y : Sys) : Prop where
  sysClk : y.sysClk = false
  hostInactive : y.state.hostInactive = 0
  timeout : y.main ≠ .boot → y.state.timeout = intMax
  size : ∀ {pc c}, y.main = .read pc c → c.buffer.length + c.space = c.size
  counts : ∀ {pc c}, y.main = .read pc c → c.Counts y.state pc
  written : ∀ {pc c}, y.main = .write pc c → c.written ≤ c.data.length
  returns : ∀ r ∈ y.returns, r.Ok

theorem Calls.start : (Sys.start false).Calls where
  sysClk := rfl
  hostInactive := rfl
  timeout h := absurd rfl h
  size h := Main.noConfusion h
  counts h := Main.noConfusion h
  written h := Main.noConfusion h
  returns _ h := absurd h List.not_mem_nil

/-- A step that goes on with a call. -/
theorem Calls.of_main (hy : y.Calls) (hmain : y.main ≠ .boot) (hclk : y'.sysClk = y.sysClk)
    (hhost : y'.state.hostInactive = y.state.hostInactive)
    (htimeout : y'.state.timeout = y.state.timeout) (hreturns : ∀ r ∈ y'.returns, r.Ok)
    (hread : ∀ {pc c}, y'.main = .read pc c →
      c.buffer.length + c.space = c.size ∧ c.Counts y'.state pc)
    (hwrite : ∀ {pc c}, y'.main = .write pc c → c.written ≤ c.data.length) : y'.Calls where
  sysClk := hclk.trans hy.sysClk
  hostInactive := hhost.trans hy.hostInactive
  timeout _ := htimeout.trans (hy.timeout hmain)
  size h := (hread h).1
  counts h := (hread h).2
  written := hwrite
  returns := hreturns

/-- A step in which a call returns. -/
theorem Calls.of_return (hy : y.Calls) (hmain : y.main ≠ .boot) {r : Return} (hr : r.Ok)
    (hclk : y'.sysClk = y.sysClk) (hhost : y'.state.hostInactive = y.state.hostInactive)
    (htimeout : y'.state.timeout = y.state.timeout) (hmain' : y'.main = .idle)
    (hreturns : y'.returns = y.returns ++ [r]) : y'.Calls := by
  refine hy.of_main hmain hclk hhost htimeout ?_ ?_ ?_
  · rw [hreturns]
    intro r' hr'
    rcases List.mem_append.mp hr' with h | h
    · exact hy.returns r' h
    · rw [List.mem_singleton.mp h]
      exact hr
  · intro pc c h
    exact Main.noConfusion (hmain'.symm.trans h)
  · intro pc c h
    exact Main.noConfusion (hmain'.symm.trans h)

theorem Calls.hostInactive_lt (hy : y.Calls) (hmain : y.main ≠ .boot) :
    y.state.hostInactive < y.state.timeout := by
  rw [hy.hostInactive, hy.timeout hmain]
  decide

/-! ### `altera_avalon_jtag_uart_read` -/

section Read

variable {pc : ReadPc} {c : ReadCall}

theorem Calls.of_read (hy : y.Calls) (hmain : y.main = .read pc c) {pc' : ReadPc} {c' : ReadCall}
    {st : State} (hhost : st.hostInactive = y.state.hostInactive)
    (htimeout : st.timeout = y.state.timeout) (hsize : c'.buffer.length + c'.space = c'.size)
    (hcounts : c'.Counts st pc') : Calls { y with state := st, main := .read pc' c' } := by
  refine hy.of_main (hmain ▸ Main.noConfusion) rfl hhost htimeout hy.returns ?_
    (fun h => Main.noConfusion h)
  intro pc'' c'' h
  cases h
  exact ⟨hsize, hcounts⟩

theorem Calls.readReturn (hy : y.Calls) (hmain : y.main = .read .finish c)
    (hclk : y'.sysClk = y.sysClk) (hhost : y'.state.hostInactive = y.state.hostInactive)
    (htimeout : y'.state.timeout = y.state.timeout) (hreturns : y'.returns = y.returns) :
    (y'.readReturn c).Calls := by
  refine hy.of_return (r := .read c.size c.nonblock c.buffer
    (if c.buffer ≠ [] then c.buffer.length else if c.nonblock then -ewouldblock else -eio))
    (hmain ▸ Main.noConfusion) ?_ hclk hhost htimeout rfl ?_
  · have hsize := hy.size hmain
    refine ⟨by omega, ?_⟩
    by_cases hne : c.buffer ≠ []
    · rw [if_pos hne]
      exact Or.inl ⟨hne, rfl⟩
    · rw [if_neg hne]
      have hnil := not_not.mp hne
      cases hnb : c.nonblock with
      | true => exact Or.inr (Or.inl ⟨hnil, rfl, rfl⟩)
      | false =>
        have hzero : c.size = 0 :=
          (hy.counts hmain hnil).resolve_left (hnb ▸ Bool.noConfusion)
        exact Or.inr (Or.inr ⟨hnil, rfl, hzero, rfl⟩)
  · show y'.returns ++ _ = _
    rw [hreturns]

theorem Calls.readStep (hrx : y.Rx) (hy : y.Calls) (hmain : y.main = .read pc c) :
    (y.readStep c h₁ h₂ pc).Calls := by
  have hsize := hy.size hmain
  have hcounts := hy.counts hmain
  cases pc with
  | outer =>
    refine hy.of_read hmain rfl rfl hsize ?_
    split_ifs with hspace
    · exact trivial
    · intro hnil
      rw [hnil, List.length_nil] at hsize
      exact Or.inr (by omega)
  | loadIn => exact hy.of_read hmain rfl rfl hsize trivial
  | loadOut =>
    have hspace := (hrx.call hmain).1
    rw [readStep_loadOut]
    dsimp only
    by_cases h0 : ringAvail bufLen y.state.rxOut c.inp = 0
    · rw [if_pos h0]
      refine hy.of_read hmain rfl rfl hsize fun _ => ⟨?_, ?_⟩
      · show 0 < c.size
        omega
      · exact ((ringAvail_eq_zero_iff hrx.rxOut_lt).mp h0).symm
    · rw [if_neg h0]
      exact hy.of_read hmain rfl rfl hsize trivial
  | copy =>
    simp only [Sys.readStep]
    split_ifs <;> exact hy.of_read hmain rfl rfl hsize trivial
  | advance =>
    obtain ⟨hpiece, hlen⟩ := hrx.call hmain
    have hpos := hpiece.pos
    have hspace := hpiece.space
    refine hy.of_read hmain rfl rfl ?_ ?_
    · show (c.buffer ++ c.copied).length + (c.space - c.n) = c.size
      rw [List.length_append]
      omega
    · split_ifs
      · exact trivial
      · intro hnil
        have hcopied : c.copied = [] := (List.append_eq_nil_iff.mp hnil).2
        rw [hcopied, List.length_nil] at hlen
        omega
  | check =>
    refine hy.of_read hmain rfl rfl hsize ?_
    split_ifs with h
    · exact fun hnil => Or.inl (h.resolve_left (absurd hnil))
    · rw [not_or, not_not] at h
      exact ⟨h.1, Bool.eq_false_iff.mpr h.2, hcounts h.1⟩
  | spinIn =>
    obtain ⟨hnil, hnb, hwait⟩ := hcounts
    refine hy.of_read hmain rfl rfl hsize ?_
    split_ifs with hin
    · exact ⟨hnil, hnb, hwait⟩
    · exact ⟨hnil, hnb, hwait, fun h => hin (hwait.inp.trans h)⟩
  | spinHost =>
    refine hy.of_read hmain rfl rfl hsize ?_
    rw [if_pos (hy.hostInactive_lt (hmain ▸ Main.noConfusion))]
    exact hcounts
  | recheck =>
    obtain ⟨-, -, hwait, hne⟩ := hcounts
    refine hy.of_read hmain rfl rfl hsize ?_
    rw [if_neg fun h : c.inp = y.state.rxIn => hne (hwait.inp.symm.trans h)]
    exact trivial
  | finish =>
    simp only [Sys.readStep]
    split_ifs
    · exact hy.readReturn hmain rfl rfl rfl rfl
    · exact hy.readReturn hmain rfl rfl rfl rfl

end Read

/-! ### `altera_avalon_jtag_uart_write` -/

section Write

variable {pc : WritePc} {c : WriteCall}

theorem Calls.of_write (hy : y.Calls) (hmain : y.main = .write pc c) {pc' : WritePc}
    {c' : WriteCall} {st : State} {l : Line} (hhost : st.hostInactive = y.state.hostInactive)
    (htimeout : st.timeout = y.state.timeout) (hwritten : c'.written ≤ c'.data.length) :
    Calls { y with line := l, state := st, main := .write pc' c' } := by
  refine hy.of_main (hmain ▸ Main.noConfusion) rfl hhost htimeout hy.returns
    (fun h => Main.noConfusion h) ?_
  intro pc'' c'' h
  cases h
  exact hwritten

/-- `write` returns when it has taken everything, or at once. -/
theorem Calls.writeReturn (hy : y.Calls) (hmain : y.main = .write pc c)
    (hend : c.count = 0 ∨ c.nonblock = true) : (y.writeReturn c).Calls := by
  have hle := hy.written hmain
  unfold WriteCall.count at hend
  refine hy.of_return (r := .write c.data c.nonblock
    (if c.written ≠ 0 then c.written else if c.nonblock then -ewouldblock else -eio))
    (hmain ▸ Main.noConfusion) ?_ rfl rfl rfl rfl rfl
  by_cases hne : c.written ≠ 0
  · rw [if_pos hne]
    refine Or.inl ⟨by omega, by omega, fun hnb => ?_⟩
    have hcount := hend.resolve_right (hnb ▸ Bool.noConfusion)
    omega
  · rw [if_neg hne]
    cases hnb : c.nonblock with
    | true => exact Or.inr (Or.inl ⟨rfl, rfl⟩)
    | false =>
      have hcount := hend.resolve_right (hnb ▸ Bool.noConfusion)
      have hnil : c.data = [] := List.length_eq_zero_iff.mp (by omega)
      exact Or.inr (Or.inr ⟨rfl, hnil, rfl⟩)

theorem Calls.writeStep (htx : y.Tx) (hy : y.Calls) (hmain : y.main = .write pc c) :
    (y.writeStep c h₁ h₂ pc).Calls := by
  have hwritten := hy.written hmain
  cases pc with
  | inner | loadIn | enable | spinOut | spinHost => exact hy.of_write hmain rfl rfl hwritten
  | loadOut | copy =>
    simp only [Sys.writeStep]
    split_ifs <;> exact hy.of_write hmain rfl rfl hwritten
  | advance =>
    obtain ⟨hpiece, -⟩ := htx.call hmain
    have hcount := hpiece.count
    unfold WriteCall.count at hcount
    refine hy.of_write hmain rfl rfl ?_
    show c.written + c.n ≤ c.data.length
    omega
  | check =>
    simp only [Sys.writeStep]
    split_ifs with h
    · exact hy.of_write hmain rfl rfl hwritten
    · refine hy.writeReturn hmain ?_
      rcases Nat.eq_zero_or_pos c.count with h0 | hpos
      · exact Or.inl h0
      · exact Or.inr (Bool.not_eq_false _ ▸ fun hnb => h ⟨hpos, hnb⟩)
  | hostCheck =>
    simp only [Sys.writeStep]
    split_ifs with h
    · exact absurd hy.hostInactive h
    · exact hy.of_write hmain rfl rfl hwritten

end Write

/-! ### `altera_avalon_jtag_uart_close` -/

theorem Calls.of_close (hy : y.Calls) (hmain : y.main ≠ .boot) {m : Main}
    (hread : ∀ pc c, m ≠ .read pc c) (hwrite : ∀ pc c, m ≠ .write pc c) :
    Calls { y with main := m } :=
  hy.of_main hmain rfl rfl rfl hy.returns (fun h => absurd h (hread _ _))
    (fun h => absurd h (hwrite _ _))

theorem Calls.closeStep (hy : y.Calls) {nonblock : Bool} (hmain : y.main = .close nonblock) :
    (y.closeStep nonblock).Calls := by
  have hne : y.main ≠ .boot := hmain ▸ Main.noConfusion
  unfold Sys.closeStep
  split_ifs
  · exact hy.of_close hne (fun _ _ => Main.noConfusion) (fun _ _ => Main.noConfusion)
  · exact hy.of_return (r := .close nonblock 0) hne (Or.inl rfl) rfl rfl rfl rfl rfl

theorem Calls.closeHostStep (hy : y.Calls) {nonblock : Bool}
    (hmain : y.main = .closeHost nonblock) : (y.closeHostStep nonblock).Calls := by
  have hne : y.main ≠ .boot := hmain ▸ Main.noConfusion
  unfold Sys.closeHostStep
  rw [if_pos (hy.hostInactive_lt hne)]
  split_ifs with hnb
  · exact hy.of_return (r := .close nonblock (-ewouldblock)) hne (Or.inr ⟨hnb, rfl⟩) rfl rfl rfl
      rfl rfl
  · exact hy.of_close hne (fun _ _ => Main.noConfusion) (fun _ _ => Main.noConfusion)

/-! ### The interrupt routine -/

theorem counts_congr {st st' : State} {c : ReadCall} {pc : ReadPc} (hc : c.Counts st pc)
    (hout : st'.rxOut = st.rxOut) (hin : st.rxOut ≠ st.rxIn → st'.rxOut ≠ st'.rxIn) :
    c.Counts st' pc := by
  have hwait : c.Waiting st → c.Waiting st' := fun h => ⟨h.size, h.inp.trans hout.symm⟩
  cases pc with
  | check => exact fun hnil => hwait (hc hnil)
  | spinIn | spinHost => exact ⟨hc.1, hc.2.1, hwait hc.2.2⟩
  | recheck => exact ⟨hc.1, hc.2.1, hwait hc.2.2.1, hin hc.2.2.2⟩
  | finish => exact hc
  | _ => exact trivial

/-- A step of the interrupt routine. -/
theorem Calls.of_isr (hy : y.Calls) (hmain : y'.main = y.main) (hclk : y'.sysClk = y.sysClk)
    (hhost : y'.state.hostInactive = y.state.hostInactive)
    (htimeout : y'.state.timeout = y.state.timeout) (hreturns : y'.returns = y.returns)
    (hout : y'.state.rxOut = y.state.rxOut)
    (hin : y.state.rxOut ≠ y.state.rxIn → y'.state.rxOut ≠ y'.state.rxIn) : y'.Calls where
  sysClk := hclk.trans hy.sysClk
  hostInactive := hhost.trans hy.hostInactive
  timeout h := htimeout.trans (hy.timeout (hmain ▸ h))
  size h := hy.size (hmain ▸ h)
  counts h := counts_congr (hy.counts (hmain ▸ h)) hout hin
  written h := hy.written (hmain ▸ h)
  returns := hreturns ▸ hy.returns

theorem Calls.isrStep (hy : y.Calls) (h₁ h₂ : Host) (pc : Isr) : (y.isrStep h₁ h₂ pc).Calls := by
  cases pc with
  | control | rxDummy word | txDummy => exact hy.of_isr rfl rfl rfl rfl rfl rfl id
  | rx word data =>
    simp only [Sys.isrStep]
    split_ifs with hfull
    · exact hy.of_isr rfl rfl rfl rfl rfl rfl id
    · exact hy.of_isr rfl rfl rfl rfl rfl rfl id
    · exact hy.of_isr rfl rfl rfl rfl rfl rfl fun _ h => hfull h.symm
  | rxEnd word data | tx word | txLoop space =>
    simp only [Sys.isrStep]
    split_ifs <;> exact hy.of_isr rfl rfl rfl rfl rfl rfl id

/-! ### Runs -/

theorem Calls.next (hrx : y.Rx) (htx : y.Tx) (hy : y.Calls) (hnext : y.Next y') : y'.Calls := by
  cases hnext with
  | stay => exact hy
  | tick h => exact hy.of_isr rfl rfl rfl rfl rfl rfl id
  | boot h₁ h₂ hisr hmain =>
    refine ⟨hy.sysClk, rfl, fun _ => ?_, fun h => Main.noConfusion h, fun h => Main.noConfusion h,
      fun h => Main.noConfusion h, hy.returns⟩
    show (if y.sysClk then y.state.timeout else intMax) = intMax
    rw [hy.sysClk]
    rfl
  | read h₁ h₂ hisr hmain => exact hy.readStep hrx hmain
  | write h₁ h₂ hisr hmain => exact hy.writeStep htx hmain
  | close hisr hmain => exact hy.closeStep hmain
  | closeHost hisr hmain => exact hy.closeHostStep hmain
  | isr h₁ h₂ hisr => exact hy.isrStep h₁ h₂ _
  | irq => exact hy.of_isr rfl rfl rfl rfl rfl rfl id
  | alarm h₁ h₂ h₃ h₄ hisr hmain hclk => exact Bool.noConfusion (hy.sysClk.symm.trans hclk)
  | call c hisr hmain =>
    refine hy.of_main (hmain ▸ Main.noConfusion) rfl rfl rfl hy.returns (fun {pc c'} h => ?_)
      (fun {pc c'} h => ?_)
    · cases c with
      | read size nonblock =>
        cases h
        exact ⟨Nat.zero_add _, trivial⟩
      | _ => exact Main.noConfusion h
    · cases c with
      | write data nonblock =>
        cases h
        exact Nat.zero_le _
      | _ => exact Main.noConfusion h

theorem calls_run (es : List Event) :
    (run step (start false) es).Inv ∧ (run step (start false) es).Calls :=
  run_induction (I := fun y : Sys => y.Inv ∧ y.Calls)
    (fun y e hy => ⟨hy.1.step e, hy.2.next hy.1.rx hy.1.tx (next_step y e)⟩)
    ⟨Inv.start false, Calls.start⟩ es

end Sys

end Ptmch.JtagUart
