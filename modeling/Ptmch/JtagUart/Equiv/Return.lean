import Ptmch.JtagUart.Equiv.Calls
import Ptmch.JtagUart.Equiv.Progress

/-!
# The driver: calls return

A call that has what it waits for (`Sys.CanReturn`: bytes in `rx_buf`, room in `tx_buf`) keeps it
until it returns, and `Sys.toReturn` bounds the steps of the program until then.  Between two of
them only a bounded number of steps of the interrupt routine can come, so the call returns whatever
the host does (`Sys.calls_return`).
-/

namespace Ptmch.JtagUart

open CLib Machine

/-! ### What a call waits for -/

/-- The call that the program is in. -/
def Main.call : Main → Option Sys.Call
  | .read _ c => some (.read c.size c.nonblock)
  | .write _ c => some (.write c.data c.nonblock)
  | .close nonblock | .closeHost nonblock => some (.close nonblock)
  | .boot | .idle => none

/-- The call that has returned. -/
def Return.call : Return → Sys.Call
  | .read size nonblock _ _ => .read size nonblock
  | .write data nonblock _ => .write data nonblock
  | .close nonblock _ => .close nonblock

/-- A call of `read` that does not wait any more, or never does. -/
def ReadCall.Served (c : ReadCall) : Prop := c.buffer ≠ [] ∨ c.nonblock = true ∨ c.size = 0

instance : DecidablePred ReadCall.Served := fun c =>
  inferInstanceAs (Decidable (c.buffer ≠ [] ∨ c.nonblock = true ∨ c.size = 0))

/-- What `write` knows of a full `tx_buf`. -/
def WriteCall.Waits (st : State) (c : WriteCall) : WritePc → Prop
  | .enable | .check => 0 < c.count → c.out = (st.txIn + 1) % bufLen
  | .spinOut | .spinHost | .hostCheck =>
    0 < c.count ∧ c.nonblock = false ∧ c.out = (st.txIn + 1) % bufLen
  | _ => True

/-- A bound on the steps that a call of `read` takes until it returns, once there is a byte.  Each
turn of the loop takes four steps and one for each byte. -/
def ReadCall.toReturn (c : ReadCall) (rxOut : ℕ) : ReadPc → ℕ
  | .outer => 5 * c.space + 10
  | .loadIn => 5 * c.space + 9
  | .loadOut => if c.Served ∨ rxOut ≠ c.inp then 5 * c.space + 8 else 5 * c.space + 16
  | .copy => 5 * (c.space - c.n) + 11 + (c.n - c.copied.length)
  | .advance => 5 * (c.space - c.n) + 10
  | .check => if c.Served then 2 else 5 * c.space + 15
  | .spinIn => 5 * c.space + 13
  | .spinHost => 5 * c.space + 14
  | .recheck => 5 * c.space + 12
  | .finish => 1

/-- The same for `write`, once there is room for all that is left. -/
def WriteCall.toReturn (c : WriteCall) : WritePc → ℕ
  | .inner => 6 * c.count + 3
  | .loadIn => 6 * c.count + 2
  | .loadOut => 6 * c.count + 1
  | .copy => 6 * (c.count - c.n) + 5 + (c.n - c.copied)
  | .advance => 6 * (c.count - c.n) + 4
  | .enable => if 0 < c.count ∧ c.nonblock = false then 6 * c.count + 9 else 2
  | .check => if 0 < c.count ∧ c.nonblock = false then 6 * c.count + 8 else 1
  | .spinOut => 6 * c.count + 6
  | .spinHost => 6 * c.count + 7
  | .hostCheck => 6 * c.count + 5

namespace Sys

/-- The call that the program is in has what it waits for: `read` a byte, `write` room in `tx_buf`
for all that is left, and `close` an empty `tx_buf`. -/
def CanReturn (y : Sys) : Prop :=
  match y.main with
  | .read _ c => c.Served ∨ y.rxRing ≠ []
  | .write _ c => c.nonblock = true ∨ c.count + y.txRing.length < bufLen
  | .close nonblock | .closeHost nonblock => nonblock = true ∨ y.txRing = []
  | .boot | .idle => False

instance : DecidablePred CanReturn := fun y =>
  match h : y.main with
  | .read _ c => decidable_of_iff (c.Served ∨ y.rxRing ≠ []) (by simp only [CanReturn, h])
  | .write _ c =>
    decidable_of_iff (c.nonblock = true ∨ c.count + y.txRing.length < bufLen)
      (by simp only [CanReturn, h])
  | .close nonblock | .closeHost nonblock =>
    decidable_of_iff (nonblock = true ∨ y.txRing = []) (by simp only [CanReturn, h])
  | .boot | .idle => isFalse (by simp only [CanReturn, h, not_false_eq_true])

/-- A bound on the steps of the program until its call returns. -/
def toReturn (y : Sys) : ℕ :=
  match y.main with
  | .read pc c => c.toReturn y.state.rxOut pc
  | .write pc c => c.toReturn pc
  | .close nonblock => if nonblock then 2 else 1
  | .closeHost nonblock => if nonblock then 1 else 2
  | .boot | .idle => 0

/-- What `write` knows. -/
structure Waits (y : Sys) : Prop where
  call : ∀ {pc c}, y.main = .write pc c → c.Waits y.state pc

/-- What a step of the program does to a call that can return. -/
inductive Advances (y y' : Sys) : Prop
  | returns (r : Return) (hreturns : y'.returns = y.returns ++ [r])
      (hcall : y.main.call = some r.call)
  | goes (hreturns : y'.returns = y.returns) (hcall : y'.main.call = y.main.call)
      (hcan : y'.CanReturn) (hlt : y'.toReturn < y.toReturn)

variable {y y' : Sys} {h₁ h₂ : Host}

/-! ### `altera_avalon_jtag_uart_read` -/

section Read

variable {pc pc' : ReadPc} {c c' : ReadCall}

theorem advances_of_read (hmain : y.main = .read pc c) {st : State} (hsize : c'.size = c.size)
    (hnb : c'.nonblock = c.nonblock)
    (hcan : c'.Served ∨ ({ y with state := st, main := .read pc' c' } : Sys).rxRing ≠ [])
    (hlt : c'.toReturn st.rxOut pc' < c.toReturn y.state.rxOut pc) :
    y.Advances { y with state := st, main := .read pc' c' } := by
  refine Advances.goes rfl ?_ hcan ?_
  · rw [hmain]
    show some (Call.read c'.size c'.nonblock) = some (Call.read c.size c.nonblock)
    rw [hsize, hnb]
  · rw [toReturn, toReturn, hmain]
    exact hlt

theorem canReturn_read (hcan : y.CanReturn) (hmain : y.main = .read pc c) :
    c.Served ∨ y.rxRing ≠ [] := by
  rw [CanReturn, hmain] at hcan
  exact hcan

/-- Where `read` waits there are bytes now. -/
theorem ne_of_waiting (hrx : y.Rx) (hcan : y.CanReturn) (hmain : y.main = .read pc c)
    (hnil : c.buffer = []) (hnb : c.nonblock = false) (hwait : c.Waiting y.state) :
    ¬ c.Served ∧ c.inp ≠ y.state.rxIn := by
  have hnot : ¬ c.Served := by
    rintro (h | h | h)
    · exact h hnil
    · exact Bool.noConfusion (h.symm.trans hnb)
    · exact hwait.size.ne' h
  have hring := (canReturn_read hcan hmain).resolve_left hnot
  refine ⟨hnot, fun heq => hring (hrx.rxRing_eq_nil_iff.mpr ?_)⟩
  exact hwait.inp.symm.trans heq

/-- **`read` advances.** -/
theorem advances_readStep (hrx : y.Rx) (hy : y.Calls) (hcan : y.CanReturn)
    (hmain : y.main = .read pc c) : y.Advances (y.readStep c h₁ h₂ pc) := by
  have hserved := canReturn_read hcan hmain
  have hcounts := hy.counts hmain
  have hcall := hrx.call hmain
  cases pc with
  | outer =>
    refine advances_of_read hmain rfl rfl hserved ?_
    split_ifs with hspace
    · exact Nat.lt_succ_self _
    · show 1 < 5 * c.space + 10
      omega
  | loadIn =>
    refine advances_of_read hmain rfl rfl hserved ?_
    have hnew : c.Served ∨ y.state.rxOut ≠ y.state.rxIn :=
      hserved.imp_right fun h heq => h (hrx.rxRing_eq_nil_iff.mpr heq)
    show (if c.Served ∨ y.state.rxOut ≠ y.state.rxIn then 5 * c.space + 8 else _) < _
    rw [if_pos hnew]
    exact Nat.lt_succ_self _
  | loadOut =>
    have hspace := hcall.1
    rw [readStep_loadOut]
    dsimp only
    by_cases h0 : ringAvail bufLen y.state.rxOut c.inp = 0
    · rw [if_pos h0]
      refine advances_of_read hmain rfl rfl hserved ?_
      have heq := (ringAvail_eq_zero_iff hrx.rxOut_lt).mp h0
      show (if c.Served then 2 else 5 * c.space + 15) <
        if c.Served ∨ y.state.rxOut ≠ c.inp then 5 * c.space + 8 else 5 * c.space + 16
      by_cases hs : c.Served
      · rw [if_pos hs, if_pos (Or.inl hs)]
        omega
      · rw [if_neg hs, if_neg (not_or.mpr ⟨hs, not_not.mpr heq⟩)]
        omega
    · rw [if_neg h0]
      refine advances_of_read hmain rfl rfl hserved ?_
      have hpiece : ∀ n, 0 < n → n ≤ c.space → 5 * (c.space - n) + 11 + (n - 0) <
          if c.Served ∨ y.state.rxOut ≠ c.inp then 5 * c.space + 8 else 5 * c.space + 16 := by
        intro n hpos hle
        split_ifs <;> omega
      obtain ⟨hpos, hle, -⟩ := piece_spec hspace h0
      exact hpiece _ hpos hle
  | copy =>
    obtain ⟨hpiece, hlen⟩ := hcall
    simp only [Sys.readStep]
    split_ifs with hlt
    · refine advances_of_read hmain rfl rfl hserved ?_
      show 5 * (c.space - c.n) + 11 + (c.n - (c.copied ++ [_]).length) <
        5 * (c.space - c.n) + 11 + (c.n - c.copied.length)
      rw [List.length_append, List.length_singleton]
      omega
    · refine advances_of_read hmain rfl rfl hserved ?_
      show 5 * (c.space - c.n) + 10 < 5 * (c.space - c.n) + 11 + (c.n - c.copied.length)
      omega
  | advance =>
    obtain ⟨hpiece, hlen⟩ := hcall
    have hpos := hpiece.pos
    have hne : c.buffer ++ c.copied ≠ [] := by
      intro hnil
      rw [(List.append_eq_nil_iff.mp hnil).2, List.length_nil] at hlen
      omega
    refine advances_of_read hmain rfl rfl (Or.inl (Or.inl hne)) ?_
    split_ifs with hspace
    · exact Nat.lt_succ_self _
    · have hlt : 2 < 5 * (c.space - c.n) + 10 := by omega
      exact (if_pos (Or.inl hne)).trans_lt hlt
  | check =>
    refine advances_of_read hmain rfl rfl hserved ?_
    by_cases hs : c.Served
    · -- a call for no bytes does not come here
      have hgo : c.buffer ≠ [] ∨ c.nonblock = true := by
        rcases hs with h | h | h
        · exact Or.inl h
        · exact Or.inr h
        · by_contra hno
          rw [not_or, not_not] at hno
          exact (hcounts hno.1).size.ne' h
      rw [if_pos hgo]
      show 1 < if c.Served then 2 else _
      rw [if_pos hs]
      exact Nat.lt_succ_self 1
    · rw [if_neg fun h => hs (h.imp_right Or.inl)]
      show 5 * c.space + 13 < if c.Served then 2 else 5 * c.space + 15
      rw [if_neg hs]
      omega
  | spinIn =>
    obtain ⟨hnil, hnb, hwait⟩ := hcounts
    refine advances_of_read hmain rfl rfl hserved ?_
    rw [if_neg (ne_of_waiting hrx hcan hmain hnil hnb hwait).2]
    exact Nat.lt_succ_self _
  | spinHost =>
    refine advances_of_read hmain rfl rfl hserved ?_
    rw [if_pos (hy.hostInactive_lt (hmain ▸ Main.noConfusion))]
    exact Nat.lt_succ_self _
  | recheck =>
    obtain ⟨hnil, hnb, hwait, -⟩ := hcounts
    refine advances_of_read hmain rfl rfl hserved ?_
    rw [if_neg (ne_of_waiting hrx hcan hmain hnil hnb hwait).2]
    show 5 * c.space + 10 < 5 * c.space + 12
    omega
  | finish =>
    have hreturn : y.main.call =
        some (Return.read c.size c.nonblock c.buffer
          (if c.buffer ≠ [] then c.buffer.length else if c.nonblock then -ewouldblock
            else -eio)).call := by
      rw [hmain]
      rfl
    simp only [Sys.readStep]
    split_ifs with hne
    · exact .returns _ rfl hreturn
    · exact .returns _ rfl hreturn

end Read

/-! ### `altera_avalon_jtag_uart_write` -/

section Write

variable {pc pc' : WritePc} {c c' : WriteCall}

theorem waits_congr {st st' : State} (hc : c.Waits st pc) (hin : st'.txIn = st.txIn) :
    c.Waits st' pc := by
  cases pc with
  | enable | check | spinOut | spinHost | hostCheck =>
    unfold WriteCall.Waits at hc ⊢
    rw [hin]
    exact hc
  | _ => exact trivial

theorem Waits.of_write {st : State} {l : Line} (hwaits : c'.Waits st pc') :
    Waits { y with line := l, state := st, main := .write pc' c' } := by
  refine ⟨fun h => ?_⟩
  cases h
  exact hwaits

theorem waits_of_ne_write (hne : ∀ pc c, y.main ≠ .write pc c) : y.Waits :=
  ⟨fun h => absurd h (hne _ _)⟩

/-- Where `write` waits, `tx_out` is as it was read from a full `tx_buf`. -/
theorem Waits.writeStep (htx : y.Tx) (hy : y.Waits) (hmain : y.main = .write pc c) :
    (y.writeStep c h₁ h₂ pc).Waits := by
  have hwaits := hy.call hmain
  have hcall := htx.call hmain
  cases pc with
  | inner =>
    refine of_write ?_
    split_ifs with hcount
    · exact trivial
    · exact fun h => absurd h hcount
  | loadIn => exact of_write trivial
  | loadOut =>
    rw [writeStep_loadOut]
    dsimp only
    by_cases h0 : ringFree bufLen y.state.txOut c.inp = 0
    · rw [if_pos h0]
      refine of_write fun _ => ?_
      rw [hcall.2] at h0
      exact ((ringFree_eq_zero_iff htx.txIn_lt htx.txOut_lt).mp h0).symm
    · rw [if_neg h0]
      exact of_write trivial
  | copy =>
    simp only [Sys.writeStep]
    split_ifs <;> exact of_write trivial
  | advance => exact of_write trivial
  | enable => exact of_write hwaits
  | check =>
    simp only [Sys.writeStep]
    split_ifs with h
    · exact of_write ⟨h.1, h.2, hwaits h.1⟩
    · exact waits_of_ne_write fun _ _ => Main.noConfusion
  | spinOut | spinHost =>
    refine of_write ?_
    split_ifs <;> exact hwaits
  | hostCheck =>
    simp only [Sys.writeStep]
    split_ifs
    · exact waits_of_ne_write fun _ _ => Main.noConfusion
    · exact of_write trivial

theorem advances_of_write (hmain : y.main = .write pc c) {st : State} {l : Line}
    (hdata : c'.data = c.data) (hnb : c'.nonblock = c.nonblock)
    (hcan : c'.nonblock = true ∨ c'.count +
      ({ y with line := l, state := st, main := .write pc' c' } : Sys).txRing.length < bufLen)
    (hlt : c'.toReturn pc' < c.toReturn pc) :
    y.Advances { y with line := l, state := st, main := .write pc' c' } := by
  refine Advances.goes rfl ?_ hcan ?_
  · rw [hmain]
    show some (Call.write c'.data c'.nonblock) = some (Call.write c.data c.nonblock)
    rw [hdata, hnb]
  · rw [toReturn, toReturn, hmain]
    exact hlt

theorem canReturn_write (hcan : y.CanReturn) (hmain : y.main = .write pc c) :
    c.nonblock = true ∨ c.count + y.txRing.length < bufLen := by
  rw [CanReturn, hmain] at hcan
  exact hcan

/-- With bytes left and room for them, `tx_buf` is not full. -/
theorem not_full_of_room (htx : y.Tx) (hpos : 0 < c.count)
    (hroom : c.count + y.txRing.length < bufLen) :
    (y.state.txIn + 1) % bufLen ≠ y.state.txOut := by
  intro hfull
  have hlen : y.txRing.length + 1 = bufLen :=
    length_ringContents_of_full htx.txIn_lt hfull y.state.txBuf
  omega

theorem advances_writeReturn (hmain : y.main = .write pc c) : y.Advances (y.writeReturn c) := by
  apply Advances.returns _ rfl
  rw [hmain]
  rfl

/-- **`write` advances.** -/
theorem advances_writeStep (htx : y.Tx) (hy : y.Calls) (hw : y.Waits) (hcan : y.CanReturn)
    (hmain : y.main = .write pc c) : y.Advances (y.writeStep c h₁ h₂ pc) := by
  have hroom := canReturn_write hcan hmain
  have hwaits := hw.call hmain
  have hcall := htx.call hmain
  cases pc with
  | inner =>
    refine advances_of_write hmain rfl rfl hroom ?_
    split_ifs with hcount
    · exact Nat.lt_succ_self _
    · have hdone : ¬(0 < c.count ∧ c.nonblock = false) := fun h => hcount h.1
      show (if _ then _ else 2) < 6 * c.count + 3
      rw [if_neg hdone]
      omega
  | loadIn => exact advances_of_write hmain rfl rfl hroom (Nat.lt_succ_self _)
  | loadOut =>
    obtain ⟨hpos, hinp⟩ := hcall
    rw [writeStep_loadOut]
    dsimp only
    by_cases h0 : ringFree bufLen y.state.txOut c.inp = 0
    · -- only a call that does not wait finds `tx_buf` full
      rw [if_pos h0]
      rw [hinp] at h0
      have hfull := (ringFree_eq_zero_iff htx.txIn_lt htx.txOut_lt).mp h0
      have hnb : c.nonblock = true :=
        hroom.resolve_right fun h => not_full_of_room htx hpos h hfull
      have hdone : ¬(0 < c.count ∧ c.nonblock = false) :=
        fun h => Bool.noConfusion (hnb.symm.trans h.2)
      refine advances_of_write hmain rfl rfl hroom ?_
      have hlt : 2 < 6 * c.count + 1 := by omega
      exact (if_neg hdone).trans_lt hlt
    · rw [if_neg h0]
      refine advances_of_write hmain rfl rfl hroom ?_
      have hpiece : ∀ n, 0 < n → n ≤ c.count →
          6 * (c.count - n) + 5 + (n - 0) < 6 * c.count + 1 := by
        intro n hn hle
        omega
      obtain ⟨hn, hle, -⟩ := piece_spec hpos h0
      exact hpiece _ hn hle
  | copy =>
    simp only [Sys.writeStep]
    split_ifs with hlt
    · refine advances_of_write hmain rfl rfl (hroom.imp_right fun h => ?_) ?_
      · -- a byte in a free cell does not change the number of bytes
        rw [txRing, length_ringContents] at h ⊢
        exact h
      · show 6 * (c.count - c.n) + 5 + (c.n - (c.copied + 1)) <
          6 * (c.count - c.n) + 5 + (c.n - c.copied)
        omega
    · refine advances_of_write hmain rfl rfl hroom ?_
      show 6 * (c.count - c.n) + 4 < 6 * (c.count - c.n) + 5 + (c.n - c.copied)
      omega
  | advance =>
    obtain ⟨hpiece, -⟩ := hcall
    have hcount := hpiece.count
    have hleft : ({ c with written := c.written + c.n } : WriteCall).count = c.count - c.n :=
      Nat.sub_add_eq _ _ _
    refine advances_of_write hmain rfl rfl (hroom.imp_right fun h => ?_) ?_
    · have hring := ringContents_append htx.txIn_lt htx.txOut_lt hpiece.free y.state.txBuf
      have hlen : (ringContents bufLen y.state.txBuf y.state.txOut
          ((c.inp + c.n) % bufLen)).length = y.txRing.length + c.n := by
        rw [hpiece.inp, hring, List.length_append, List.length_map, List.length_range']
        rfl
      show WriteCall.count _ + (ringContents bufLen y.state.txBuf y.state.txOut
        ((c.inp + c.n) % bufLen)).length < bufLen
      rw [hleft, hlen]
      omega
    · show 6 * WriteCall.count _ + 3 < 6 * (c.count - c.n) + 4
      rw [hleft]
      exact Nat.lt_succ_self _
  | enable =>
    refine advances_of_write hmain rfl rfl hroom ?_
    show (if _ then 6 * c.count + 8 else 1) < if _ then 6 * c.count + 9 else 2
    split_ifs
    · exact Nat.lt_succ_self _
    · exact Nat.lt_succ_self _
  | check =>
    simp only [Sys.writeStep]
    split_ifs with h
    · refine advances_of_write hmain rfl rfl hroom ?_
      show 6 * c.count + 6 < if _ then 6 * c.count + 8 else 1
      rw [if_pos h]
      omega
    · exact advances_writeReturn hmain
  | spinOut =>
    obtain ⟨hpos, hnb, hout⟩ := hwaits
    have hfree : c.out ≠ y.state.txOut := by
      rw [hout]
      exact not_full_of_room htx hpos (hroom.resolve_left (hnb ▸ Bool.noConfusion))
    refine advances_of_write hmain rfl rfl hroom ?_
    rw [if_neg hfree]
    exact Nat.lt_succ_self _
  | spinHost =>
    refine advances_of_write hmain rfl rfl hroom ?_
    rw [if_pos (hy.hostInactive_lt (hmain ▸ Main.noConfusion))]
    exact Nat.lt_succ_self _
  | hostCheck =>
    simp only [Sys.writeStep]
    split_ifs
    · exact advances_writeReturn hmain
    · refine advances_of_write hmain rfl rfl hroom ?_
      show 6 * c.count + 3 < 6 * c.count + 5
      omega

end Write

/-! ### `altera_avalon_jtag_uart_close` -/

theorem advances_closeStep (htx : y.Tx) (hcan : y.CanReturn) {nonblock : Bool}
    (hmain : y.main = .close nonblock) : y.Advances (y.closeStep nonblock) := by
  rw [CanReturn, hmain] at hcan
  unfold closeStep
  split_ifs with hne
  · have hring : y.txRing ≠ [] := fun h => hne (htx.txRing_eq_nil_iff.mp h)
    have hnb : nonblock = true := hcan.resolve_right hring
    refine .goes rfl ?_ hcan ?_
    · rw [hmain]
      rfl
    · rw [toReturn, toReturn, hmain, hnb]
      exact Nat.lt_succ_self _
  · apply Advances.returns _ rfl
    rw [hmain]
    rfl

theorem advances_closeHostStep (hy : y.Calls) (hcan : y.CanReturn) {nonblock : Bool}
    (hmain : y.main = .closeHost nonblock) : y.Advances (y.closeHostStep nonblock) := by
  rw [CanReturn, hmain] at hcan
  unfold closeHostStep
  rw [if_pos (hy.hostInactive_lt (hmain ▸ Main.noConfusion))]
  split_ifs with hnb
  · apply Advances.returns _ rfl
    rw [hmain]
    rfl
  · refine .goes rfl ?_ hcan ?_
    · rw [hmain]
      rfl
    · rw [toReturn, toReturn, hmain]
      show (if nonblock = true then 2 else 1) < if nonblock = true then 1 else 2
      rw [if_neg hnb, if_neg hnb]
      exact Nat.lt_succ_self _

/-- A step of the program in a call that can return. -/
theorem advances_mainStep (hrx : y.Rx) (htx : y.Tx) (hy : y.Calls) (hw : y.Waits)
    (hcan : y.CanReturn) : y.Advances (y.mainStep h₁ h₂) := by
  unfold mainStep
  split
  next hmain =>
    rw [CanReturn, hmain] at hcan
    exact hcan.elim
  next hmain =>
    rw [CanReturn, hmain] at hcan
    exact hcan.elim
  next pc c hmain => exact advances_readStep hrx hy hcan hmain
  next pc c hmain => exact advances_writeStep htx hy hw hcan hmain
  next nonblock hmain => exact advances_closeStep htx hcan hmain
  next nonblock hmain => exact advances_closeHostStep hy hcan hmain

/-! ### The interrupt routine leaves a call what it waits for -/

theorem isrStep_state (y : Sys) (h₁ h₂ : Host) (pc : Isr) :
    (y.isrStep h₁ h₂ pc).state.rxOut = y.state.rxOut ∧
      (y.isrStep h₁ h₂ pc).state.txIn = y.state.txIn := by
  cases pc with
  | control | rxDummy word | txDummy => exact ⟨rfl, rfl⟩
  | _ =>
    simp only [isrStep]
    split_ifs <;> exact ⟨rfl, rfl⟩

theorem rxRing_isrStep (hrx : y.Rx) (hne : y.rxRing ≠ []) (pc : Isr) :
    (y.isrStep h₁ h₂ pc).rxRing ≠ [] := by
  cases pc with
  | control | rxDummy word | txDummy => exact hne
  | rx word data =>
    simp only [isrStep]
    split_ifs with hfull
    · exact hne
    · exact hne
    · -- the byte that is stored does not fill `rx_buf`
      intro hnil
      exact hfull ((ringContents_eq_nil_iff hrx.rxOut_lt _).mp hnil).symm
  | _ =>
    simp only [isrStep]
    split_ifs <;> exact hne

theorem length_txRing_isrStep (htx : y.Tx) (pc : Isr) :
    (y.isrStep h₁ h₂ pc).txRing.length ≤ y.txRing.length := by
  cases pc with
  | control | rxDummy word | txDummy => exact Nat.le_refl _
  | txLoop space =>
    simp only [isrStep]
    split_ifs with hsend
    · -- a byte leaves `tx_buf`
      have havail : 1 ≤ ringAvail bufLen y.state.txOut y.state.txIn :=
        Nat.pos_of_ne_zero fun h0 => hsend.2 ((ringAvail_eq_zero_iff htx.txOut_lt).mp h0)
      have hring := congrArg List.length
        (ringContents_split htx.txIn_lt htx.txOut_lt havail y.state.txBuf)
      rw [List.length_append] at hring
      exact Nat.le.intro ((Nat.add_comm _ _).trans hring.symm)
    · exact Nat.le_refl _
    · exact Nat.le_refl _
  | _ =>
    simp only [isrStep]
    split_ifs <;> exact Nat.le_refl _

/-- What a step that is not the program's leaves to a call. -/
structure Leaves (y y' : Sys) : Prop where
  main : y'.main = y.main
  returns : y'.returns = y.returns
  rxOut : y'.state.rxOut = y.state.rxOut
  rxRing : y.rxRing ≠ [] → y'.rxRing ≠ []
  txRing : y'.txRing.length ≤ y.txRing.length

theorem Leaves.refl (y : Sys) : y.Leaves y := ⟨rfl, rfl, rfl, id, Nat.le_refl _⟩

theorem Leaves.canReturn (h : y.Leaves y') (hcan : y.CanReturn) : y'.CanReturn := by
  have htx := h.txRing
  have hempty : y.txRing = [] → y'.txRing = [] := by
    intro hnil
    rw [hnil] at htx
    exact List.length_eq_zero_iff.mp (Nat.le_zero.mp htx)
  unfold CanReturn at hcan ⊢
  rw [h.main]
  cases hmain : y.main with
  | boot | idle =>
    rw [hmain] at hcan
    exact hcan
  | read pc c =>
    rw [hmain] at hcan
    exact hcan.imp_right h.rxRing
  | write pc c =>
    rw [hmain] at hcan
    exact hcan.imp_right fun hroom => Nat.lt_of_le_of_lt (Nat.add_le_add_left htx _) hroom
  | close nonblock | closeHost nonblock =>
    rw [hmain] at hcan
    exact hcan.imp_right hempty

theorem Leaves.toReturn (h : y.Leaves y') : y'.toReturn = y.toReturn := by
  unfold Sys.toReturn
  rw [h.main, h.rxOut]

theorem leaves_step (hrx : y.Rx) (htx : y.Tx) (hy : y.Calls) (hcan : y.CanReturn) (e : Event)
    (hok : e.isCpu = true → y.isr ≠ none) : y.Leaves (y.step e) := by
  cases e with
  | tick h => exact ⟨rfl, rfl, rfl, id, Nat.le_refl _⟩
  | cpu h₁ h₂ =>
    cases hisr : y.isr with
    | none => exact absurd hisr (hok rfl)
    | some pc =>
      have hstep : y.step (.cpu h₁ h₂) = y.isrStep h₁ h₂ pc := by
        simp only [Sys.step, hisr]
      rw [hstep]
      exact ⟨isrStep_main y h₁ h₂ pc, isrStep_returns y h₁ h₂ pc, (isrStep_state y h₁ h₂ pc).1,
        fun hne => rxRing_isrStep hrx hne pc, length_txRing_isrStep htx pc⟩
  | irq =>
    simp only [Sys.step]
    split_ifs
    · exact ⟨rfl, rfl, rfl, id, Nat.le_refl _⟩
    · exact .refl y
  | alarm h₁ h₂ h₃ h₄ =>
    -- there is no clock
    have hno : ¬(y.isr = none ∧ y.main ≠ .boot ∧ y.sysClk = true) :=
      fun h => Bool.noConfusion (hy.sysClk.symm.trans h.2.2)
    simp only [Sys.step]
    rw [if_neg hno]
    exact .refl y
  | call c =>
    -- the program is in a call
    have hno : ¬(y.isr = none ∧ y.main = .idle) := by
      rintro ⟨-, hmain⟩
      rw [CanReturn, hmain] at hcan
      exact hcan
    simp only [Sys.step]
    rw [if_neg hno]
    exact .refl y

/-! ### Runs -/

theorem Waits.next (htx : y.Tx) (hy : y.Waits) (hnext : y.Next y') : y'.Waits := by
  have hsame : y'.main = y.main → y'.state.txIn = y.state.txIn → y'.Waits :=
    fun hmain hin => ⟨fun h => waits_congr (hy.call (hmain.symm.trans h)) hin⟩
  cases hnext with
  | stay => exact hy
  | tick h => exact hsame rfl rfl
  | boot => exact waits_of_ne_write fun _ _ => Main.noConfusion
  | @read pc c h₁ h₂ =>
    apply waits_of_ne_write
    intro pc' c' h
    cases pc with
    | loadOut | copy | finish =>
      simp only [readStep] at h
      split_ifs at h <;> exact Main.noConfusion h
    | _ => exact Main.noConfusion h
  | write h₁ h₂ hisr hmain => exact hy.writeStep htx hmain
  | close =>
    apply waits_of_ne_write
    intro pc' c' h
    unfold closeStep at h
    split_ifs at h
    exact Main.noConfusion h
  | closeHost =>
    apply waits_of_ne_write
    intro pc' c' h
    unfold closeHostStep at h
    split_ifs at h <;> exact Main.noConfusion h
  | isr h₁ h₂ => exact hsame (isrStep_main _ _ _ _) (isrStep_state _ _ _ _).2
  | irq => exact hsame rfl rfl
  | alarm h₁ h₂ h₃ h₄ =>
    refine hsame (timeoutStep_main _ _ _ _ _).1 ?_
    unfold timeoutStep
    dsimp only
    split_ifs
    · rfl
    · rfl
    · rfl
  | call c =>
    cases c with
    | write data nonblock => exact Waits.of_write trivial
    | _ => exact waits_of_ne_write fun _ _ => Main.noConfusion

/-- What the steps of a run keep while a call that can return has not done so. -/
structure Returning (start y : Sys) : Prop where
  inv : y.Inv
  fresh : y.Fresh
  calls : y.Calls
  waits : y.Waits
  canReturn : y.CanReturn
  call : y.main.call = start.main.call
  returns : y.returns = start.returns

/-- A bound on the steps of the processor until the call returns. -/
def untilReturn (y : Sys) : ℕ := y.toReturn * (20 * bufLen + 10) + y.left

/-- **Step lemma**: the call returns, or the bound does not grow, and a step of the processor makes
it smaller. -/
theorem Returning.step {start : Sys} (h : start.Returning y) (e : Event) :
    (∃ r, (y.step e).returns = start.returns ++ [r] ∧ start.main.call = some r.call) ∨
      start.Returning (y.step e) ∧ (y.step e).untilReturn + e.isCpu.toNat ≤ y.untilReturn := by
  have hnext := next_step y e
  have hinv := h.inv.step e
  have hfresh := h.fresh.next h.inv.base hnext
  have hcalls := h.calls.next h.inv.rx h.inv.tx hnext
  have hwaits := h.waits.next h.inv.tx hnext
  by_cases hprogram : e.isCpu = true ∧ y.isr = none
  · obtain ⟨hcpu, hisr⟩ := hprogram
    have hadvances : y.Advances (y.step e) := by
      cases e with
      | cpu h₁ h₂ =>
        have hstep : y.step (.cpu h₁ h₂) = y.mainStep h₁ h₂ := by
          simp only [Sys.step, hisr]
        rw [hstep]
        exact advances_mainStep h.inv.rx h.inv.tx h.calls h.waits h.canReturn
      | _ => exact Bool.noConfusion hcpu
    cases hadvances with
    | returns r hreturns hcall =>
      left
      exact ⟨r, h.returns ▸ hreturns, h.call ▸ hcall⟩
    | goes hreturns hcall hcan hlt =>
      right
      refine ⟨⟨hinv, hfresh, hcalls, hwaits, hcan, hcall.trans h.call,
        hreturns.trans h.returns⟩, ?_⟩
      -- one step of the program less, whatever the interrupt routine may now do
      have hleft := left_le hinv.tx
      have hmul := Nat.mul_le_mul_right (20 * bufLen + 10) (Nat.succ_le_of_lt hlt)
      rw [Nat.succ_mul] at hmul
      rw [hcpu, Bool.toNat_true]
      unfold untilReturn
      omega
  · right
    have hok : e.isCpu = true → y.isr ≠ none := fun hcpu hisr => hprogram ⟨hcpu, hisr⟩
    have hleaves := leaves_step h.inv.rx h.inv.tx h.calls h.canReturn e hok
    have hleft := left_step h.inv h.fresh e hok
    refine ⟨⟨hinv, hfresh, hcalls, hwaits, hleaves.canReturn h.canReturn,
      (congrArg Main.call hleaves.main).trans h.call, hleaves.returns.trans h.returns⟩, ?_⟩
    unfold untilReturn
    rw [hleaves.toReturn]
    omega

theorem waits_run (es : List Event) : (run step (start false) es).Inv ∧
    (run step (start false) es).Fresh ∧ (run step (start false) es).Waits :=
  run_induction (I := fun y : Sys => y.Inv ∧ y.Fresh ∧ y.Waits)
    (fun y e hy => ⟨hy.1.step e, hy.2.1.next hy.1.base (next_step y e),
      hy.2.2.next hy.1.tx (next_step y e)⟩)
    ⟨Inv.start false, Fresh.start false, waits_of_ne_write fun _ _ => Main.noConfusion⟩ es

/-- **What the calls return, and that they do**: in every run, a call of `read` that may wait and
has returned has read a byte and one of `write` has taken every byte, unless it was asked for none;
and a call that has what it waits for returns within a number of steps of the processor, whatever
else happens. -/
theorem calls_return (es : List Event) :
    (∀ r ∈ (run step (start false) es).returns, r.Ok) ∧
    ((run step (start false) es).CanReturn → ∃ n, ∀ more : List Event,
      n < more.countP Event.isCpu → ∃ pre r, pre <+: more ∧
        (run step (start false) (es ++ pre)).returns
          = (run step (start false) es).returns ++ [r] ∧
        (run step (start false) es).main.call = some r.call) := by
  obtain ⟨-, hcalls⟩ := calls_run es
  obtain ⟨hinv, hfresh, hwaits⟩ := waits_run es
  refine ⟨hcalls.returns, fun hcan => ?_⟩
  refine ⟨(run step (start false) es).untilReturn, fun more hmore => ?_⟩
  have hreturning : (run step (start false) es).Returning (run step (start false) es) :=
    ⟨hinv, hfresh, hcalls, hwaits, hcan, rfl, rfl⟩
  obtain ⟨pre, e, hpre, -, r, hreturns, hcall⟩ :=
    exists_of_measure (fun _ e h => h.step e) hreturning hmore
  refine ⟨pre ++ [e], r, hpre, ?_, hcall⟩
  rw [run_append, run_concat]
  exact hreturns

/-- The processor goes on and the host does nothing. -/
def quiet : Event := .cpu ⟨false, false, 0, false⟩ ⟨false, false, 0, false⟩

/-- A call of `read` waits, and the host sends a byte. -/
def waitingRead : List Event :=
  [quiet, .call (.read 4 false)] ++ List.replicate 8 quiet ++
    [.tick ⟨false, true, 0x70, false⟩, .tick ⟨false, false, 0, true⟩, .irq, quiet, quiet]

/-- Then one of `write`, of a byte more than `tx_buf` takes, goes on for `k` steps. -/
def fillingWrite (k : ℕ) : List Event :=
  waitingRead ++ List.replicate 17 quiet ++ [.call (.write (List.replicate bufLen 0x41) false)] ++
    List.replicate k quiet

/-- The interrupt routine comes when `tx_buf` is full. -/
def waitingWrite : List Event := fillingWrite 2060 ++ [.irq] ++ List.replicate 3 quiet

/-- The call of `read` returns the byte and the one of `write` the number of bytes. -/
theorem calls_return_waitingWrite :
    ((run step (start false) (waitingWrite ++ List.replicate 80 quiet)).returns
        = [.read 4 false [0x70] 1, .write (List.replicate bufLen 0x41) false bufLen] ∧
      (Return.read 4 false [0x70] 1).Ok) ∧
    (∃ n, ∀ more : List Event, n < more.countP Event.isCpu → ∃ pre r, pre <+: more ∧
      (run step (start false) (waitingRead ++ pre)).returns = [] ++ [r] ∧
      some (Call.read 4 false) = some r.call) ∧
    ∃ n, ∀ more : List Event, n < more.countP Event.isCpu → ∃ pre r, pre <+: more ∧
      (run step (start false) (waitingWrite ++ pre)).returns = [.read 4 false [0x70] 1] ++ [r] ∧
      some (Call.write (List.replicate bufLen 0x41) false) = some r.call := by
  have hread : (run step (start false) waitingRead).returns = [] ∧
      (run step (start false) waitingRead).main.call = some (.read 4 false) ∧
      (run step (start false) waitingRead).CanReturn := by decide +kernel
  -- the first part has the run evaluated piece by piece
  have hwrite : (∀ k ∈ [500, 1000, 1500, 2000],
      (run step (start false) (fillingWrite k)).isr = none) ∧
      (run step (start false) waitingWrite).returns = [.read 4 false [0x70] 1] ∧
      (run step (start false) waitingWrite).main.call
        = some (.write (List.replicate bufLen 0x41) false) ∧
      (run step (start false) waitingWrite).CanReturn ∧
      (run step (start false) (waitingWrite ++ List.replicate 80 quiet)).returns
        = [.read 4 false [0x70] 1, .write (List.replicate bufLen 0x41) false bufLen] := by
    decide +kernel
  refine ⟨⟨hwrite.2.2.2.2, (calls_return _).1 _ (hwrite.2.2.2.2 ▸ List.mem_cons_self)⟩, ?_, ?_⟩
  · have hlater := (calls_return waitingRead).2 hread.2.2
    rwa [hread.1, hread.2.1] at hlater
  · have hlater := (calls_return waitingWrite).2
    -- the state is only a name from here on: it is not to be evaluated again
    generalize run step (start false) waitingWrite = y at hlater hwrite
    rw [hwrite.2.1, hwrite.2.2.1] at hlater
    exact hlater hwrite.2.2.2.1

end Sys

end Ptmch.JtagUart
