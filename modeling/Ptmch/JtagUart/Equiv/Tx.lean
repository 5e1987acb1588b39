import Ptmch.JtagUart.Equiv.Step
import Ptmch.Machine.Ring

/-!
# The driver: the bytes to the host

A byte that the program writes passes the buffer `tx_buf` and the transmit FIFO.  In every run the
bytes that `write` has taken are those that the host has been given, those on their way to it and
those in `tx_buf`, one after the other, and no byte is ever written to a full FIFO
(`Sys.accepted_eq`).
-/

namespace Ptmch.JtagUart

open CLib Machine

/-! ### What has been written -/

/-- The bytes that a call has taken. -/
def Return.taken : Return → List Byte
  | .write data _ value => data.take value.toNat
  | _ => []

/-- The bytes that the call which is running has taken. -/
def Main.taken : Main → List Byte
  | .write _ c => c.data.take c.written
  | _ => []

/-- The program's bytes. -/
def Sys.accepted (y : Sys) : List Byte := y.returns.flatMap Return.taken ++ y.main.taken

/-- The bytes in `tx_buf`. -/
def Sys.txRing (y : Sys) : List Byte :=
  ringContents bufLen y.state.txBuf y.state.txOut y.state.txIn

/-- The variables of the transmit side. -/
def State.tx (st : State) : ℕ × ℕ × (ℕ → Byte) := (st.txIn, st.txOut, st.txBuf)

/-! ### What `write` relies on -/

/-- A piece of `tx_buf` that is being filled. -/
structure WriteCall.Piece (st : State) (c : WriteCall) : Prop where
  inp : c.inp = st.txIn
  pos : 0 < c.n
  count : c.n ≤ c.count
  free : c.n ≤ ringFree bufLen st.txOut st.txIn
  copied : (List.range' c.inp c.copied).map st.txBuf = (c.data.drop c.written).take c.copied

/-- What holds in the course of a call. -/
def WriteCall.Ok (st : State) (c : WriteCall) : WritePc → Prop
  | .loadIn => 0 < c.count
  | .loadOut => 0 < c.count ∧ c.inp = st.txIn
  | .copy => c.Piece st ∧ c.copied ≤ c.n
  | .advance => c.Piece st ∧ c.copied = c.n
  | _ => True

variable {st st' : State} {c : WriteCall} {pc : WritePc}

theorem WriteCall.Piece.congr (hc : c.Piece st) (h : st'.tx = st.tx) : c.Piece st' := by
  simp only [State.tx, Prod.mk.injEq] at h
  obtain ⟨hin, hout, hbuf⟩ := h
  refine ⟨?_, hc.pos, hc.count, ?_, ?_⟩
  · rw [hin]
    exact hc.inp
  · rw [hout, hin]
    exact hc.free
  · rw [hbuf]
    exact hc.copied

theorem WriteCall.Ok.congr (hc : c.Ok st pc) (h : st'.tx = st.tx) : c.Ok st' pc := by
  cases pc with
  | loadIn => exact hc
  | loadOut =>
    simp only [State.tx, Prod.mk.injEq] at h
    exact ⟨hc.1, hc.2.trans h.1.symm⟩
  | copy => exact ⟨hc.1.congr h, hc.2⟩
  | advance => exact ⟨hc.1.congr h, hc.2⟩
  | _ => exact trivial

/-- The variables after the interrupt routine has sent a byte. -/
def State.send (st : State) : State := { st with txOut := (st.txOut + 1) % bufLen }

/-- The interrupt routine leaves the room that `write` has seen. -/
theorem WriteCall.Piece.send (hc : c.Piece st) (hin : st.txIn < bufLen) (hout : st.txOut < bufLen)
    (hne : st.txOut ≠ st.txIn) : c.Piece st.send where
  inp := hc.inp
  pos := hc.pos
  count := hc.count
  free := Nat.le_trans hc.free (ringFree_pop hin hout hne)
  copied := hc.copied

theorem WriteCall.Ok.send (hc : c.Ok st pc) (hin : st.txIn < bufLen) (hout : st.txOut < bufLen)
    (hne : st.txOut ≠ st.txIn) : c.Ok st.send pc := by
  cases pc with
  | loadIn => exact hc
  | loadOut => exact hc
  | copy => exact ⟨hc.1.send hin hout hne, hc.2⟩
  | advance => exact ⟨hc.1.send hin hout hne, hc.2⟩
  | _ => exact trivial

/-! ### What the interrupt routine relies on -/

/-- `WSPACE` -/
def wspace (control : Word) : ℕ := ((control &&& controlWspaceMsk) >>> 16).toNat

/-- The room in the transmit FIFO that the interrupt routine counts on. -/
def Isr.space : Isr → ℕ
  | .rx word _ | .rxEnd word _ | .rxDummy word | .tx word => wspace word
  | .txLoop space => space
  | .control | .txDummy => 0

/-! ### The transmit side -/

namespace Sys

structure Tx (y : Sys) : Prop where
  txIn_lt : y.state.txIn < bufLen
  txOut_lt : y.state.txOut < bufLen
  call : ∀ {pc c}, y.main = .write pc c → c.Ok y.state pc
  space : ∀ {pc}, y.isr = some pc → pc.space ≤ fifoDepth - y.line.uart.wfifo.length
  woverflow : y.line.uart.woverflow = false
  accepted : y.accepted = y.line.outbound ++ y.txRing

variable {y y' : Sys} {h₁ h₂ : Host}

theorem space_of_isr_eq_none (hisr : y.isr = none) {k : ℕ} {pc : Isr} (h : y.isr = some pc) :
    pc.space ≤ k := by
  rw [hisr] at h
  cases h

theorem Tx.txRing_eq_nil_iff (hy : y.Tx) : y.txRing = [] ↔ y.state.txOut = y.state.txIn :=
  ringContents_eq_nil_iff hy.txOut_lt _

theorem Tx.start (sysClk : Bool) : (Sys.start sysClk).Tx where
  txIn_lt := Nat.two_pow_pos 11
  txOut_lt := Nat.two_pow_pos 11
  call h := Main.noConfusion h
  space := space_of_isr_eq_none rfl
  woverflow := rfl
  accepted := by
    show [] = [] ++ ringContents bufLen _ 0 0
    rw [ringContents_self]
    rfl

/-- A step that leaves the transmit side to the host. -/
theorem Tx.of_txIdle (hy : y.Tx) (hstate : y'.state.tx = y.state.tx)
    (hcall : ∀ {pc c}, y'.main = .write pc c → c.Ok y.state pc)
    (haccepted : y'.accepted = y.accepted) (hline : y.line.TxIdle y'.line)
    (hspace : ∀ {pc}, y'.isr = some pc →
      pc.space ≤ fifoDepth - y'.line.uart.wfifo.length) : y'.Tx := by
  have htx := hstate
  simp only [State.tx, Prod.mk.injEq] at htx
  obtain ⟨hin, hout, hbuf⟩ := htx
  refine ⟨hin ▸ hy.txIn_lt, hout ▸ hy.txOut_lt, fun h => (hcall h).congr hstate, hspace,
    hline.woverflow.trans hy.woverflow, ?_⟩
  rw [haccepted, hy.accepted, hline.outbound, txRing, txRing, hin, hout, hbuf]

theorem le_of_txIdle {l l' : Line} (h : l.TxIdle l') {k : ℕ}
    (hk : k ≤ fifoDepth - l.uart.wfifo.length) : k ≤ fifoDepth - l'.uart.wfifo.length := by
  have hlen := h.length_wfifo
  omega

/-- A step of the interrupt routine or of another part of the driver. -/
theorem Tx.of_main (hy : y.Tx) (hstate : y'.state.tx = y.state.tx) (hmain : y'.main = y.main)
    (hreturns : y'.returns = y.returns) (hline : y.line.TxIdle y'.line)
    (hspace : ∀ {pc}, y'.isr = some pc →
      pc.space ≤ fifoDepth - y'.line.uart.wfifo.length) : y'.Tx := by
  refine hy.of_txIdle hstate (fun h => hy.call (hmain ▸ h)) ?_ hline hspace
  rw [Sys.accepted, Sys.accepted, hmain, hreturns]

/-! ### `altera_avalon_jtag_uart_write` -/

section Write

variable {c : WriteCall} {pc : WritePc}

theorem accepted_of_write (hmain : y.main = .write pc c) :
    y.accepted = y.returns.flatMap Return.taken ++ c.data.take c.written := by
  rw [Sys.accepted, hmain]
  rfl

/-- A step of `write` that takes no byte. -/
theorem Tx.of_write (hy : y.Tx) (hisr : y.isr = none) (hmain : y.main = .write pc c)
    {pc' : WritePc} {c' : WriteCall} (hdata : c'.data = c.data) (hwritten : c'.written = c.written)
    (hok : c'.Ok y.state pc') : Tx { y with main := .write pc' c' } := by
  refine hy.of_txIdle rfl (fun h => ?_) ?_ (Line.TxIdle.refl _) (space_of_isr_eq_none hisr)
  · cases h
    exact hok
  · rw [accepted_of_write hmain, ← hdata, ← hwritten]
    rfl

theorem toNat_writeReturn (c : WriteCall) :
    (if c.written ≠ 0 then (c.written : ℤ) else if c.nonblock then -ewouldblock else -eio).toNat =
      c.written := by
  split_ifs with h
  · exact Int.toNat_natCast _
  · rw [not_not.mp h]
    rfl
  · rw [not_not.mp h]
    rfl

theorem Tx.writeReturn (hy : y.Tx) (hisr : y.isr = none) (hmain : y.main = .write pc c) :
    (y.writeReturn c).Tx := by
  refine hy.of_txIdle rfl (fun h => Main.noConfusion h) ?_ (Line.TxIdle.refl _)
    (space_of_isr_eq_none hisr)
  rw [accepted_of_write hmain]
  show (y.returns ++ [_]).flatMap Return.taken ++ [] = _
  rw [List.append_nil, List.flatMap_append, List.flatMap_singleton, Return.taken,
    toNat_writeReturn]

theorem writeStep_loadOut (y : Sys) (c : WriteCall) (h₁ h₂ : Host) :
    y.writeStep c h₁ h₂ .loadOut =
      let out := y.state.txOut
      let n := ringFree bufLen out c.inp
      if n = 0 then { y with main := .write .enable { c with out := out, n := n } }
      else
        { y with
          main := .write .copy
            { c with out := out, n := if c.count < n then c.count else n, copied := 0 } } := rfl

theorem Tx.loadOut (hy : y.Tx) (hisr : y.isr = none) (hmain : y.main = .write .loadOut c) :
    (y.writeStep c h₁ h₂ .loadOut).Tx := by
  obtain ⟨hcount, hinp⟩ := hy.call hmain
  rw [writeStep_loadOut]
  dsimp only
  by_cases h0 : ringFree bufLen y.state.txOut c.inp = 0
  · rw [if_pos h0]
    exact hy.of_write hisr hmain rfl rfl trivial
  · rw [if_neg h0]
    obtain ⟨hpos, hle, hfree⟩ := piece_spec hcount h0
    refine hy.of_write hisr hmain rfl rfl ⟨⟨hinp, hpos, hle, hinp ▸ hfree, ?_⟩, Nat.zero_le _⟩
    · show (List.range' c.inp 0).map _ = (c.data.drop c.written).take 0
      rw [List.take_zero]
      rfl

/-- **A byte is copied** to a cell that the interrupt routine does not read. -/
theorem Tx.copy (hy : y.Tx) (hisr : y.isr = none) (hmain : y.main = .write .copy c) :
    (y.writeStep c h₁ h₂ .copy).Tx := by
  obtain ⟨hpiece, hlen⟩ := hy.call hmain
  simp only [Sys.writeStep]
  split_ifs with hlt
  · have hfree := hpiece.free
    have hcell : c.inp + c.copied ∉ ringSlots bufLen y.state.txOut y.state.txIn := by
      rw [hpiece.inp]
      exact notMem_ringSlots (Nat.le_add_right _ _) (by omega)
    refine ⟨hy.txIn_lt, hy.txOut_lt, ?_, hy.space, hy.woverflow, ?_⟩
    · intro pc' c' h
      simp only [Main.write.injEq] at h
      obtain ⟨rfl, rfl⟩ := h
      refine ⟨⟨hpiece.inp, hpiece.pos, hpiece.count, hpiece.free, ?_⟩, hlt⟩
      show (List.range' c.inp (c.copied + 1)).map (Function.update y.state.txBuf _ _) =
        (c.data.drop c.written).take (c.copied + 1)
      have hcount := hpiece.count
      unfold WriteCall.count at hcount
      have hget : c.written + c.copied < c.data.length := by omega
      rw [List.range'_concat, List.map_append, Nat.one_mul, List.map_singleton,
        Function.update_self, List.take_add_one, List.getElem?_drop, ← hpiece.copied,
        List.getD_eq_getElem?_getD, List.getElem?_eq_getElem hget]
      congr 1
      refine List.map_congr_left fun j hj => Function.update_of_ne ?_ _ _
      rw [List.mem_range'_1] at hj
      omega
    · show Sys.accepted _ = y.line.outbound ++ ringContents bufLen _ _ _
      rw [ringContents_update hcell, accepted_of_write rfl]
      exact (accepted_of_write hmain).symm.trans hy.accepted
  · exact hy.of_write hisr hmain rfl rfl ⟨hpiece, by omega⟩

/-- **The bytes that have been copied enter `tx_buf`.** -/
theorem Tx.advance (hy : y.Tx) (hmain : y.main = .write .advance c) :
    (y.writeStep c h₁ h₂ .advance).Tx := by
  obtain ⟨hpiece, hlen⟩ := hy.call hmain
  have hring := ringContents_append hy.txIn_lt hy.txOut_lt hpiece.free y.state.txBuf
  refine ⟨Nat.mod_lt _ (Nat.two_pow_pos 11), hy.txOut_lt, ?_, hy.space, hy.woverflow, ?_⟩
  · intro pc' c' h
    simp only [writeStep, Main.write.injEq] at h
    obtain ⟨rfl, rfl⟩ := h
    exact trivial
  · show y.returns.flatMap Return.taken ++ c.data.take (c.written + c.n) =
      y.line.outbound ++ ringContents bufLen y.state.txBuf y.state.txOut ((c.inp + c.n) % bufLen)
    have hacc := hy.accepted
    rw [accepted_of_write hmain] at hacc
    have hcopied := hpiece.copied
    rw [hpiece.inp, hlen] at hcopied
    rw [hpiece.inp, hring, hcopied, List.take_add, ← List.append_assoc, hacc, List.append_assoc]
    rfl

theorem Tx.writeStep (hbase : y.Base) (hy : y.Tx) (hisr : y.isr = none)
    (hmain : y.main = .write pc c) : (y.writeStep c h₁ h₂ pc).Tx := by
  cases pc with
  | inner =>
    refine hy.of_write hisr hmain rfl rfl ?_
    split_ifs with hcount
    · exact hcount
    · exact trivial
  | loadIn => exact hy.of_write hisr hmain rfl rfl ⟨hy.call hmain, rfl⟩
  | loadOut => exact hy.loadOut hisr hmain
  | copy => exact hy.copy hisr hmain
  | advance => exact hy.advance hmain
  | enable =>
    have hset : (y.setIrqEnable (y.state.irqEnable ||| controlWeMsk) h₁ h₂).Tx :=
      hy.of_main rfl rfl rfl (hbase.ready.iowr_control _ h₁ h₂).1
        (space_of_isr_eq_none hisr)
    exact hset.of_write hisr hmain rfl rfl trivial
  | spinOut | spinHost =>
    refine hy.of_write hisr hmain rfl rfl ?_
    split_ifs <;> exact trivial
  | check =>
    simp only [Sys.writeStep]
    split_ifs
    · exact hy.of_write hisr hmain rfl rfl trivial
    · exact hy.writeReturn hisr hmain
  | hostCheck =>
    simp only [Sys.writeStep]
    split_ifs
    · exact hy.writeReturn hisr hmain
    · exact hy.of_write hisr hmain rfl rfl trivial

end Write

/-! ### The rest of the program -/

theorem taken_of_ne_write {m : Main} (hm : ∀ pc c, m ≠ .write pc c) : m.taken = [] := by
  cases m with
  | write pc c => exact absurd rfl (hm pc c)
  | _ => rfl

/-- A step of the program outside `write`. -/
theorem Tx.of_ne_write (hy : y.Tx) (hstate : y'.state.tx = y.state.tx)
    (hmain : ∀ pc c, y.main ≠ .write pc c) (hmain' : ∀ pc c, y'.main ≠ .write pc c)
    (hreturns : y'.returns.flatMap Return.taken = y.returns.flatMap Return.taken)
    (hline : y.line.TxIdle y'.line) (hisr : y'.isr = none) : y'.Tx := by
  refine hy.of_txIdle hstate (fun h => absurd h (hmain' _ _)) ?_ hline (space_of_isr_eq_none hisr)
  rw [Sys.accepted, Sys.accepted, hreturns, taken_of_ne_write hmain, taken_of_ne_write hmain']

theorem flatMap_taken_append {r : Return} (hr : r.taken = []) (rs : List Return) :
    (rs ++ [r]).flatMap Return.taken = rs.flatMap Return.taken := by
  rw [List.flatMap_append, List.flatMap_singleton, hr, List.append_nil]

theorem Tx.readStep (hbase : y.Base) (hy : y.Tx) (hisr : y.isr = none) {pc : ReadPc} {c : ReadCall}
    (hmain : y.main = .read pc c) : (y.readStep c h₁ h₂ pc).Tx := by
  have hne : ∀ pc c, y.main ≠ .write pc c := by
    rw [hmain]
    exact fun _ _ => Main.noConfusion
  have hstep : ∀ {st : State} {pc' c'}, st.tx = y.state.tx →
      Tx { y with state := st, main := .read pc' c' } := fun hst =>
    hy.of_ne_write hst hne (fun _ _ => Main.noConfusion) rfl (Line.TxIdle.refl _) hisr
  cases pc with
  | outer | check | spinIn | spinHost | recheck | loadIn | advance => exact hstep rfl
  | loadOut | copy =>
    simp only [Sys.readStep]
    split_ifs <;> exact hstep rfl
  | finish =>
    simp only [Sys.readStep]
    split_ifs
    · exact hy.of_ne_write rfl hne (fun _ _ => Main.noConfusion) (flatMap_taken_append rfl _)
        (hbase.ready.iowr_control _ h₁ h₂).1 hisr
    · exact hy.of_ne_write rfl hne (fun _ _ => Main.noConfusion) (flatMap_taken_append rfl _)
        (Line.TxIdle.refl _) hisr

theorem Tx.closeReturn (hy : y.Tx) (hisr : y.isr = none) (hne : ∀ pc c, y.main ≠ .write pc c)
    (nonblock : Bool) (value : ℤ) : (y.closeReturn nonblock value).Tx :=
  hy.of_ne_write rfl hne (fun _ _ => Main.noConfusion) (flatMap_taken_append rfl _)
    (Line.TxIdle.refl _) hisr

/-! ### The interrupt routine -/

/-- A step of the interrupt routine that sends no byte and counts on no more room. -/
theorem Tx.of_isr (hy : y.Tx) {pc pc' : Isr} (hisr : y.isr = some pc)
    (hstate : y'.state.tx = y.state.tx) (hmain : y'.main = y.main)
    (hreturns : y'.returns = y.returns) (hline : y.line.TxIdle y'.line) (hisr' : y'.isr = some pc')
    (hspace : pc'.space ≤ pc.space) : y'.Tx := by
  refine hy.of_main hstate hmain hreturns hline fun h => ?_
  cases hisr'.symm.trans h
  exact le_of_txIdle hline (Nat.le_trans hspace (hy.space hisr))

theorem Tx.control (hbase : y.Base) (hy : y.Tx) (h₁ h₂ : Host) :
    (y.isrStep h₁ h₂ .control).Tx := by
  refine hy.of_main rfl rfl rfl (hbase.ready.iord true h₁ h₂).2.1 fun h => ?_
  have hspace := hbase.ready.iord_wspace h₁ h₂
  simp only [Sys.isrStep] at h
  split_ifs at h <;> cases h <;> exact hspace

/-- **A byte is sent** into the room that the interrupt routine counts on. -/
theorem Tx.send (hbase : y.Base) (hy : y.Tx) {space : ℕ} (hisr : y.isr = some (.txLoop space))
    (hpos : 0 < space) (hne : y.state.txOut ≠ y.state.txIn) :
    (y.isrStep h₁ h₂ (.txLoop space)).Tx := by
  have hspace : space ≤ fifoDepth - y.line.uart.wfifo.length := hy.space hisr
  obtain ⟨hout, hlen, hover⟩ := hbase.ready.iowr_data (show y.line.uart.wfifo.length < fifoDepth by
    omega) ((y.state.txBuf y.state.txOut).setWidth 32) h₁ h₂
  simp only [Sys.isrStep]
  rw [if_pos ⟨hpos, hne⟩]
  refine ⟨hy.txIn_lt, Nat.mod_lt _ (Nat.two_pow_pos 11), ?_, ?_, hover, ?_⟩
  · intro pc c h
    exact (hy.call h).send hy.txIn_lt hy.txOut_lt hne
  · intro pc h
    cases h
    show space - 1 ≤ fifoDepth - (Line.iowr _ _ _ _ _).uart.wfifo.length
    omega
  · have hring : y.txRing = y.state.txBuf y.state.txOut ::
        ringContents bufLen y.state.txBuf ((y.state.txOut + 1) % bufLen) y.state.txIn :=
      ringContents_split hy.txIn_lt hy.txOut_lt
        (Nat.pos_of_ne_zero fun h0 => hne ((ringAvail_eq_zero_iff hy.txOut_lt).mp h0)) _
    have hbyte : ((y.state.txBuf y.state.txOut).setWidth 32).setWidth 8 =
        y.state.txBuf y.state.txOut := BitVec.setWidth_setWidth_of_le _ (by decide)
    show y.accepted = Line.outbound _ ++ ringContents bufLen y.state.txBuf _ y.state.txIn
    rw [hout, hbyte, List.append_assoc, List.singleton_append, ← hring]
    exact hy.accepted

theorem Tx.isrStep (hbase : y.Base) (hy : y.Tx) {pc : Isr} (hisr : y.isr = some pc)
    (h₁ h₂ : Host) : (y.isrStep h₁ h₂ pc).Tx := by
  have hctl := (hbase.ready.iord true h₁ h₂).2.1
  cases pc with
  | control => exact hy.control hbase h₁ h₂
  | rx word data =>
    simp only [Sys.isrStep]
    split_ifs
    · exact hy.of_isr hisr rfl rfl rfl (Line.TxIdle.refl _) rfl (Nat.le_refl _)
    · exact hy.of_isr hisr rfl rfl rfl (hbase.ready.iord false h₁ h₂).2.1 rfl (Nat.le_refl _)
    · exact hy.of_isr hisr rfl rfl rfl (hbase.ready.iord false h₁ h₂).2.1 rfl (Nat.le_refl _)
  | rxEnd word data =>
    simp only [Sys.isrStep]
    split_ifs
    · exact hy.of_isr hisr rfl rfl rfl (hbase.ready.iowr_control _ h₁ h₂).1 rfl (Nat.le_refl _)
    · exact hy.of_isr hisr rfl rfl rfl (Line.TxIdle.refl _) rfl (Nat.le_refl _)
  | rxDummy word => exact hy.of_isr hisr rfl rfl rfl hctl rfl (Nat.le_refl _)
  | tx word =>
    simp only [Sys.isrStep]
    split_ifs
    · exact hy.of_isr hisr rfl rfl rfl (Line.TxIdle.refl _) rfl (Nat.le_refl _)
    · exact hy.of_isr hisr rfl rfl rfl (Line.TxIdle.refl _) rfl (Nat.zero_le _)
  | txLoop space =>
    by_cases hsend : 0 < space ∧ y.state.txOut ≠ y.state.txIn
    · exact hy.send hbase hisr hsend.1 hsend.2
    · simp only [Sys.isrStep]
      rw [if_neg hsend]
      split_ifs
      · exact hy.of_isr hisr rfl rfl rfl (hbase.ready.iowr_control _ h₁ h₂).1 rfl (Nat.zero_le _)
      · exact hy.of_isr hisr rfl rfl rfl (Line.TxIdle.refl _) rfl (Nat.zero_le _)
  | txDummy => exact hy.of_isr hisr rfl rfl rfl hctl rfl (Nat.le_refl _)

theorem Tx.timeoutStep (hbase : y.Base) (hy : y.Tx) (hisr : y.isr = none) (h₁ h₂ h₃ h₄ : Host) :
    (y.timeoutStep h₁ h₂ h₃ h₄).Tx := by
  obtain ⟨hready, hctl, -⟩ := hbase.ready.iord true h₁ h₂
  simp only [Sys.timeoutStep]
  split_ifs
  · exact hy.of_main rfl rfl rfl (hctl.trans (hready.iowr_control _ h₃ h₄).1)
      (space_of_isr_eq_none hisr)
  · exact hy.of_main rfl rfl rfl hctl (space_of_isr_eq_none hisr)
  · exact hy.of_main rfl rfl rfl hctl (space_of_isr_eq_none hisr)

/-! ### Runs -/

theorem Tx.next (hbase : y.Base) (hy : y.Tx) (hnext : y.Next y') : y'.Tx := by
  cases hnext with
  | stay => exact hy
  | tick h =>
    have htx := (hbase.ready.tick h).2.2.1
    exact hy.of_main rfl rfl rfl htx fun hisr => le_of_txIdle htx (hy.space hisr)
  | boot h₁ h₂ hisr hmain =>
    refine hy.of_ne_write rfl ?_ (fun _ _ => Main.noConfusion) rfl
      (hbase.ready.iowr_control _ h₁ h₂).1 hisr
    rw [hmain]
    exact fun _ _ => Main.noConfusion
  | read h₁ h₂ hisr hmain => exact hy.readStep hbase hisr hmain
  | write h₁ h₂ hisr hmain => exact hy.writeStep hbase hisr hmain
  | close hisr hmain =>
    have hne : ∀ pc c, y.main ≠ .write pc c := by
      rw [hmain]
      exact fun _ _ => Main.noConfusion
    unfold closeStep
    split_ifs
    · exact hy.of_ne_write rfl hne (fun _ _ => Main.noConfusion) rfl (Line.TxIdle.refl _) hisr
    · exact hy.closeReturn hisr hne _ _
  | closeHost hisr hmain =>
    have hne : ∀ pc c, y.main ≠ .write pc c := by
      rw [hmain]
      exact fun _ _ => Main.noConfusion
    unfold closeHostStep
    split_ifs
    · exact hy.closeReturn hisr hne _ _
    · exact hy.of_ne_write rfl hne (fun _ _ => Main.noConfusion) rfl (Line.TxIdle.refl _) hisr
    · exact hy.closeReturn hisr hne _ _
  | isr h₁ h₂ hisr => exact hy.isrStep hbase hisr h₁ h₂
  | irq =>
    refine hy.of_main rfl rfl rfl (Line.TxIdle.refl _) fun h => ?_
    cases h
    exact Nat.zero_le _
  | alarm h₁ h₂ h₃ h₄ hisr => exact hy.timeoutStep hbase hisr h₁ h₂ h₃ h₄
  | call c hisr hmain =>
    refine hy.of_txIdle rfl (fun {pc c'} h => ?_) ?_ (Line.TxIdle.refl _)
      (space_of_isr_eq_none hisr)
    · cases c with
      | write data nonblock =>
        cases h
        exact trivial
      | _ => exact Main.noConfusion h
    · rw [Sys.accepted, Sys.accepted, hmain]
      cases c <;> rfl

theorem tx_run (sysClk : Bool) (es : List Event) :
    (run step (start sysClk) es).Base ∧ (run step (start sysClk) es).Tx :=
  run_induction (I := fun y : Sys => y.Base ∧ y.Tx)
    (fun y e hy => ⟨hy.1.step e, hy.2.next hy.1 (next_step y e)⟩)
    ⟨Base.start sysClk, Tx.start sysClk⟩ es

/-- **No byte to the host is lost, doubled or moved**: in every run the bytes that `write` has taken
are those that the host has been given, those on their way to it and those in `tx_buf`, and none has
been written to a full FIFO. -/
theorem accepted_eq (sysClk : Bool) (es : List Event) :
    (run step (start sysClk) es).accepted =
        (run step (start sysClk) es).line.outbound ++ (run step (start sysClk) es).txRing ∧
      (run step (start sysClk) es).line.uart.woverflow = false :=
  ⟨(tx_run sysClk es).2.accepted, (tx_run sysClk es).2.woverflow⟩

end Sys

end Ptmch.JtagUart
