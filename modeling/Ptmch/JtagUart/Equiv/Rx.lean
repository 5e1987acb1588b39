import Ptmch.JtagUart.Equiv.Step
import Ptmch.Machine.Ring

/-!
# The driver: the bytes from the host

A byte that the host sends passes the receive FIFO, the buffer `rx_buf` and the buffers of the calls
of `read`.  In every run these hold, one after the other, just the bytes that the host has sent
(`Sys.sent_eq`), although the interrupt routine fills `rx_buf` while `read` copies from it.
-/

namespace Ptmch.JtagUart

open CLib Machine

/-! ### What has been read -/

/-- The bytes that the call which is running has read. -/
def Main.buffer : Main → List Byte
  | .read _ c => c.buffer
  | _ => []

/-- The program's bytes. -/
def Sys.delivered (y : Sys) : List Byte := y.returns.flatMap Return.bytes ++ y.main.buffer

/-- The bytes in `rx_buf`. -/
def Sys.rxRing (y : Sys) : List Byte :=
  ringContents bufLen y.state.rxBuf y.state.rxOut y.state.rxIn

/-- The variables of the receive side. -/
def State.rx (st : State) : ℕ × ℕ × (ℕ → Byte) := (st.rxIn, st.rxOut, st.rxBuf)

/-! ### What `read` relies on -/

/-- A piece of `rx_buf` that is being copied. -/
structure ReadCall.Piece (st : State) (c : ReadCall) : Prop where
  out : c.out = st.rxOut
  pos : 0 < c.n
  space : c.n ≤ c.space
  avail : c.n ≤ ringAvail bufLen st.rxOut st.rxIn
  copied : c.copied = (List.range' c.out c.copied.length).map st.rxBuf

/-- What holds in the course of a call; `rx_in` may have gone on since it was read. -/
def ReadCall.Ok (st : State) (c : ReadCall) : ReadPc → Prop
  | .loadIn => 0 < c.space
  | .loadOut =>
    0 < c.space ∧ ringAvail bufLen st.rxOut c.inp ≤ ringAvail bufLen st.rxOut st.rxIn
  | .copy => c.Piece st ∧ c.copied.length ≤ c.n
  | .advance => c.Piece st ∧ c.copied.length = c.n
  | _ => True

variable {st st' : State} {c : ReadCall} {pc : ReadPc}

theorem ReadCall.Piece.congr (hc : c.Piece st) (h : st'.rx = st.rx) : c.Piece st' := by
  simp only [State.rx, Prod.mk.injEq] at h
  obtain ⟨hin, hout, hbuf⟩ := h
  refine ⟨?_, hc.pos, hc.space, ?_, ?_⟩
  · rw [hout]
    exact hc.out
  · rw [hout, hin]
    exact hc.avail
  · rw [hbuf]
    exact hc.copied

theorem ReadCall.Ok.congr (hc : c.Ok st pc) (h : st'.rx = st.rx) : c.Ok st' pc := by
  cases pc with
  | loadOut =>
    simp only [State.rx, Prod.mk.injEq] at h
    obtain ⟨hin, hout, -⟩ := h
    show 0 < c.space ∧ ringAvail bufLen st'.rxOut c.inp ≤ ringAvail bufLen st'.rxOut st'.rxIn
    rw [hin, hout]
    exact hc
  | loadIn => exact hc
  | copy => exact ⟨hc.1.congr h, hc.2⟩
  | advance => exact ⟨hc.1.congr h, hc.2⟩
  | _ => exact trivial

/-- The variables after the interrupt routine has stored a byte. -/
def State.store (st : State) (x : Byte) : State :=
  { st with
    rxBuf := Function.update st.rxBuf st.rxIn x
    rxIn := (st.rxIn + 1) % bufLen }

/-- The interrupt routine stores nothing where `read` is copying. -/
theorem ReadCall.Piece.store (hc : c.Piece st) (hin : st.rxIn < bufLen) (hout : st.rxOut < bufLen)
    (hroom : (st.rxIn + 1) % bufLen ≠ st.rxOut) (hlen : c.copied.length ≤ c.n) (x : Byte) :
    c.Piece (st.store x) where
  out := hc.out
  pos := hc.pos
  space := hc.space
  avail := Nat.le_trans hc.avail (ringAvail_push hin hout hroom)
  copied := by
    refine hc.copied.trans (List.map_congr_left fun j hj => ?_)
    rw [List.mem_range'_1, hc.out] at hj
    have havail := hc.avail
    have hlt : j < st.rxOut + ringAvail bufLen st.rxOut st.rxIn := by omega
    have hne : j ≠ st.rxIn := ne_of_lt_ringAvail hj.1 hlt
    exact (Function.update_of_ne hne x st.rxBuf).symm

theorem ReadCall.Ok.store (hc : c.Ok st pc) (hin : st.rxIn < bufLen) (hout : st.rxOut < bufLen)
    (hroom : (st.rxIn + 1) % bufLen ≠ st.rxOut) (x : Byte) : c.Ok (st.store x) pc := by
  cases pc with
  | loadIn => exact hc
  | loadOut => exact ⟨hc.1, Nat.le_trans hc.2 (ringAvail_push hin hout hroom)⟩
  | copy => exact ⟨hc.1.store hin hout hroom hc.2 x, hc.2⟩
  | advance => exact ⟨hc.1.store hin hout hroom (Nat.le_of_eq hc.2) x, hc.2⟩
  | _ => exact trivial

/-! ### The receive side -/

namespace Sys

structure Rx (y : Sys) : Prop where
  rxIn_lt : y.state.rxIn < bufLen
  rxOut_lt : y.state.rxOut < bufLen
  call : ∀ {pc c}, y.main = .read pc c → c.Ok y.state pc
  sent : y.line.sent = y.delivered ++ y.rxRing ++ y.line.uart.rfifo

variable {y y' : Sys} {h₁ h₂ : Host}

theorem Rx.rxRing_eq_nil_iff (hy : y.Rx) : y.rxRing = [] ↔ y.state.rxOut = y.state.rxIn :=
  ringContents_eq_nil_iff hy.rxOut_lt _

theorem Rx.start (sysClk : Bool) : (Sys.start sysClk).Rx where
  rxIn_lt := Nat.two_pow_pos 11
  rxOut_lt := Nat.two_pow_pos 11
  call h := Main.noConfusion h
  sent := by
    show [] = [] ++ ringContents bufLen _ 0 0 ++ []
    rw [ringContents_self]
    rfl

/-- A step that leaves the receive side to the host. -/
theorem Rx.of_rxIdle (hy : y.Rx) (hstate : y'.state.rx = y.state.rx)
    (hcall : ∀ {pc c}, y'.main = .read pc c → c.Ok y.state pc)
    (hdelivered : y'.delivered = y.delivered) (hline : y.line.RxIdle y'.line) : y'.Rx := by
  obtain ⟨xs, hsent, hrfifo⟩ := hline
  have hrx := hstate
  simp only [State.rx, Prod.mk.injEq] at hrx
  obtain ⟨hin, hout, hbuf⟩ := hrx
  refine ⟨hin ▸ hy.rxIn_lt, hout ▸ hy.rxOut_lt, fun h => (hcall h).congr hstate, ?_⟩
  rw [hsent, hy.sent, hdelivered, hrfifo, rxRing, rxRing, hin, hout, hbuf]
  exact List.append_assoc _ _ _

/-- A step of another part of the driver. -/
theorem Rx.of_main (hy : y.Rx) (hstate : y'.state.rx = y.state.rx) (hmain : y'.main = y.main)
    (hreturns : y'.returns = y.returns) (hline : y.line.RxIdle y'.line) : y'.Rx := by
  refine hy.of_rxIdle hstate (fun h => hy.call (hmain ▸ h)) ?_ hline
  rw [delivered, delivered, hmain, hreturns]

/-! ### `altera_avalon_jtag_uart_read` -/

section Read

variable {c : ReadCall} {pc : ReadPc}

theorem delivered_of_read (hmain : y.main = .read pc c) :
    y.delivered = y.returns.flatMap Return.bytes ++ c.buffer := by
  rw [delivered, hmain]
  rfl

/-- A step of `read` that moves no byte. -/
theorem Rx.of_read (hy : y.Rx) (hmain : y.main = .read pc c) {pc' : ReadPc} {c' : ReadCall}
    (hbuffer : c'.buffer = c.buffer) (hok : c'.Ok y.state pc') :
    Rx { y with main := .read pc' c' } := by
  refine hy.of_rxIdle rfl (fun h => ?_) ?_ (Line.RxIdle.refl _)
  · cases h
    exact hok
  · rw [delivered_of_read hmain, ← hbuffer]
    rfl

theorem Rx.readReturn (hy : y.Rx) (hmain : y.main = .read pc c) : (y.readReturn c).Rx := by
  refine hy.of_rxIdle rfl (fun h => Main.noConfusion h) ?_ (Line.RxIdle.refl _)
  rw [delivered_of_read hmain]
  show (y.returns ++ [_]).flatMap Return.bytes ++ [] = _
  rw [List.append_nil, List.flatMap_append, List.flatMap_singleton]
  rfl

/-- **The bytes that have been copied leave `rx_buf`.** -/
theorem Rx.advance (hy : y.Rx) (hmain : y.main = .read .advance c) :
    (y.readStep c h₁ h₂ .advance).Rx := by
  obtain ⟨hpiece, hlen⟩ := hy.call hmain
  have hring := ringContents_split hy.rxIn_lt hy.rxOut_lt hpiece.avail y.state.rxBuf
  refine ⟨hy.rxIn_lt, Nat.mod_lt _ (by decide), ?_, ?_⟩
  · intro pc' c' h
    simp only [readStep, Main.read.injEq] at h
    obtain ⟨rfl, rfl⟩ := h
    split_ifs with hspace
    · exact hspace
    · exact trivial
  · show y.line.sent = y.returns.flatMap Return.bytes ++ (c.buffer ++ c.copied) ++
      ringContents bufLen y.state.rxBuf ((c.out + c.n) % bufLen) y.state.rxIn ++ y.line.uart.rfifo
    rw [hy.sent, delivered_of_read hmain, rxRing, hring, hpiece.copied, hlen, hpiece.out]
    simp only [List.append_assoc]

theorem readStep_loadOut (y : Sys) (c : ReadCall) (h₁ h₂ : Host) :
    y.readStep c h₁ h₂ .loadOut =
      let out := y.state.rxOut
      let n := ringAvail bufLen out c.inp
      if n = 0 then { y with main := .read .check { c with out := out, n := n } }
      else
        { y with
          main := .read .copy
            { c with out := out, n := if c.space < n then c.space else n, copied := [] } } := rfl

theorem Rx.loadOut (hy : y.Rx) (hmain : y.main = .read .loadOut c) :
    (y.readStep c h₁ h₂ .loadOut).Rx := by
  obtain ⟨hspace, havail⟩ := hy.call hmain
  rw [readStep_loadOut]
  dsimp only
  by_cases h0 : ringAvail bufLen y.state.rxOut c.inp = 0
  · rw [if_pos h0]
    exact hy.of_read hmain rfl trivial
  · rw [if_neg h0]
    obtain ⟨hpos, hle, hfew⟩ := piece_spec hspace h0
    exact hy.of_read hmain rfl ⟨⟨rfl, hpos, hle, hfew.trans havail, rfl⟩, Nat.zero_le _⟩

theorem Rx.copy (hy : y.Rx) (hmain : y.main = .read .copy c) :
    (y.readStep c h₁ h₂ .copy).Rx := by
  obtain ⟨hpiece, hlen⟩ := hy.call hmain
  simp only [Sys.readStep]
  split_ifs with hlt
  · refine hy.of_read hmain rfl ⟨⟨hpiece.out, hpiece.pos, hpiece.space, hpiece.avail, ?_⟩, ?_⟩
    · show c.copied ++ [_] = (List.range' c.out (c.copied ++ [_]).length).map _
      rw [List.length_append, List.length_singleton, List.range'_concat, List.map_append,
        ← hpiece.copied, Nat.one_mul]
      rfl
    · show (c.copied ++ [_]).length ≤ c.n
      rw [List.length_append]
      exact hlt
  · exact hy.of_read hmain rfl ⟨hpiece, by omega⟩

theorem Rx.finish (hbase : y.Base) (hy : y.Rx) (hmain : y.main = .read .finish c) :
    (y.readStep c h₁ h₂ .finish).Rx := by
  simp only [Sys.readStep]
  split_ifs
  · have hset : (y.setIrqEnable (y.state.irqEnable ||| controlReMsk) h₁ h₂).Rx :=
      hy.of_main rfl rfl rfl (hbase.ready.iowr true _ h₁ h₂).2
    exact hset.readReturn hmain
  · exact hy.readReturn hmain

theorem Rx.readStep (hbase : y.Base) (hy : y.Rx) (hmain : y.main = .read pc c) :
    (y.readStep c h₁ h₂ pc).Rx := by
  cases pc with
  | outer =>
    refine hy.of_read hmain rfl ?_
    split_ifs with hspace
    · exact hspace
    · exact trivial
  | check | spinIn | spinHost | recheck =>
    refine hy.of_read hmain rfl ?_
    split_ifs <;> exact trivial
  | loadIn => exact hy.of_read hmain rfl ⟨hy.call hmain, Nat.le_refl _⟩
  | loadOut => exact hy.loadOut hmain
  | copy => exact hy.copy hmain
  | advance => exact hy.advance hmain
  | finish => exact hy.finish hbase hmain

end Read

/-! ### The rest of the program -/

theorem buffer_of_ne_read {m : Main} (hm : ∀ pc c, m ≠ .read pc c) : m.buffer = [] := by
  cases m with
  | read pc c => exact absurd rfl (hm pc c)
  | _ => rfl

/-- A step of the program outside `read`. -/
theorem Rx.of_ne_read (hy : y.Rx) (hstate : y'.state.rx = y.state.rx)
    (hmain : ∀ pc c, y.main ≠ .read pc c) (hmain' : ∀ pc c, y'.main ≠ .read pc c)
    (hreturns : y'.returns.flatMap Return.bytes = y.returns.flatMap Return.bytes)
    (hline : y.line.RxIdle y'.line) : y'.Rx := by
  refine hy.of_rxIdle hstate (fun h => absurd h (hmain' _ _)) ?_ hline
  rw [delivered, delivered, hreturns, buffer_of_ne_read hmain, buffer_of_ne_read hmain']

theorem flatMap_bytes_append {r : Return} (hr : r.bytes = []) (rs : List Return) :
    (rs ++ [r]).flatMap Return.bytes = rs.flatMap Return.bytes := by
  rw [List.flatMap_append, List.flatMap_singleton, hr, List.append_nil]

theorem Rx.writeStep (hbase : y.Base) (hy : y.Rx) {pc : WritePc} {c : WriteCall}
    (hmain : y.main = .write pc c) : (y.writeStep c h₁ h₂ pc).Rx := by
  have hne : ∀ pc c, y.main ≠ .read pc c := by
    rw [hmain]
    exact fun _ _ => Main.noConfusion
  have hstep : ∀ {st : State} {pc' c'}, st.rx = y.state.rx →
      Rx { y with state := st, main := .write pc' c' } := fun hst =>
    hy.of_ne_read hst hne (fun _ _ => Main.noConfusion) rfl (Line.RxIdle.refl _)
  have hreturn : (y.writeReturn c).Rx :=
    hy.of_ne_read rfl hne (fun _ _ => Main.noConfusion) (flatMap_bytes_append rfl _)
      (Line.RxIdle.refl _)
  cases pc with
  | enable =>
    exact hy.of_ne_read rfl hne (fun _ _ => Main.noConfusion) rfl (hbase.ready.iowr true _ h₁ h₂).2
  | inner | loadIn | advance | spinOut | spinHost => exact hstep rfl
  | loadOut | copy =>
    simp only [Sys.writeStep]
    split_ifs <;> exact hstep rfl
  | check =>
    simp only [Sys.writeStep]
    split_ifs
    · exact hstep rfl
    · exact hreturn
  | hostCheck =>
    simp only [Sys.writeStep]
    split_ifs
    · exact hreturn
    · exact hstep rfl

theorem Rx.closeReturn (hy : y.Rx) (hne : ∀ pc c, y.main ≠ .read pc c) (nonblock : Bool)
    (value : ℤ) : (y.closeReturn nonblock value).Rx :=
  hy.of_ne_read rfl hne (fun _ _ => Main.noConfusion) (flatMap_bytes_append rfl _)
    (Line.RxIdle.refl _)

/-! ### The interrupt routine -/

/-- **A byte is stored.** -/
theorem Rx.store (hbase : y.Base) (hy : y.Rx) (hroom : (y.state.rxIn + 1) % bufLen ≠ y.state.rxOut)
    {x : Byte} {rest : List Byte} (hrfifo : y.line.uart.rfifo = x :: rest)
    (hstate : y'.state.rx = (y.state.store x).rx) (hmain : y'.main = y.main)
    (hreturns : y'.returns = y.returns) (hline : y'.line = (y.line.iord false h₁ h₂).2) :
    y'.Rx := by
  obtain ⟨-, -, xs, hsent, hrest⟩ := hbase.ready.iord_data hrfifo h₁ h₂
  have hrx := hstate
  simp only [State.rx, State.store, Prod.mk.injEq] at hrx
  obtain ⟨hin, hout, hbuf⟩ := hrx
  refine ⟨?_, ?_, ?_, ?_⟩
  · rw [hin]
    exact Nat.mod_lt _ (Nat.two_pow_pos 11)
  · rw [hout]
    exact hy.rxOut_lt
  · intro pc c h
    exact ((hy.call (hmain ▸ h)).store hy.rxIn_lt hy.rxOut_lt hroom x).congr hstate
  · rw [hline, hsent, hrest, hy.sent, hrfifo, delivered, delivered, hmain, hreturns, rxRing, rxRing,
      hin, hout, hbuf, ringContents_push hy.rxIn_lt hy.rxOut_lt hroom]
    simp only [List.append_assoc, List.cons_append, List.nil_append]

theorem Rx.rxStep (hbase : y.Base) (hy : y.Rx) (control data : Word) :
    (y.isrStep h₁ h₂ (.rx control data)).Rx := by
  simp only [Sys.isrStep]
  by_cases hfull : (y.state.rxIn + 1) % bufLen = y.state.rxOut
  · rw [if_pos hfull]
    exact hy.of_main rfl rfl rfl (Line.RxIdle.refl _)
  · rw [if_neg hfull]
    cases hrfifo : y.line.uart.rfifo with
    | nil =>
      obtain ⟨hvalid, hidle⟩ := hbase.ready.iord_data_nil hrfifo h₁ h₂
      rw [if_pos hvalid]
      exact hy.of_main rfl rfl rfl hidle
    | cons x rest =>
      obtain ⟨hvalid, hdata, -⟩ := hbase.ready.iord_data hrfifo h₁ h₂
      rw [if_neg hvalid]
      refine hy.store hbase hfull hrfifo ?_ rfl rfl rfl
      rw [hdata]
      rfl

theorem Rx.isrStep (hbase : y.Base) (hy : y.Rx) (h₁ h₂ : Host) (pc : Isr) :
    (y.isrStep h₁ h₂ pc).Rx := by
  have hctl := hbase.ready.iord_control h₁ h₂
  cases pc with
  | rx control data => exact hy.rxStep hbase control data
  | control | rxDummy control | txDummy => exact hy.of_main rfl rfl rfl hctl
  | rxEnd control data =>
    simp only [Sys.isrStep]
    split_ifs
    · exact hy.of_main rfl rfl rfl (hbase.ready.iowr true _ h₁ h₂).2
    · exact hy.of_main rfl rfl rfl (Line.RxIdle.refl _)
  | tx control =>
    simp only [Sys.isrStep]
    split_ifs <;> exact hy.of_main rfl rfl rfl (Line.RxIdle.refl _)
  | txLoop space =>
    simp only [Sys.isrStep]
    split_ifs
    · exact hy.of_main rfl rfl rfl (hbase.ready.iowr false _ h₁ h₂).2
    · exact hy.of_main rfl rfl rfl (hbase.ready.iowr true _ h₁ h₂).2
    · exact hy.of_main rfl rfl rfl (Line.RxIdle.refl _)

theorem Rx.timeoutStep (hbase : y.Base) (hy : y.Rx) (h₁ h₂ h₃ h₄ : Host) :
    (y.timeoutStep h₁ h₂ h₃ h₄).Rx := by
  have hctl := hbase.ready.iord_control h₁ h₂
  have hready := (hbase.ready.iord true h₁ h₂).1
  simp only [Sys.timeoutStep]
  split_ifs
  · exact hy.of_main rfl rfl rfl (hctl.trans (hready.iowr true _ h₃ h₄).2)
  · exact hy.of_main rfl rfl rfl hctl
  · exact hy.of_main rfl rfl rfl hctl

/-! ### Runs -/

theorem Rx.next (hbase : y.Base) (hy : y.Rx) (hnext : y.Next y') : y'.Rx := by
  cases hnext with
  | stay => exact hy
  | tick h => exact hy.of_main rfl rfl rfl (hbase.ready.tick h).2.1
  | boot h₁ h₂ hisr hmain =>
    refine hy.of_ne_read rfl ?_ (fun _ _ => Main.noConfusion) rfl (hbase.ready.iowr true _ h₁ h₂).2
    rw [hmain]
    exact fun _ _ => Main.noConfusion
  | read h₁ h₂ hisr hmain => exact hy.readStep hbase hmain
  | write h₁ h₂ hisr hmain => exact hy.writeStep hbase hmain
  | close hisr hmain =>
    have hne : ∀ pc c, y.main ≠ .read pc c := by
      rw [hmain]
      exact fun _ _ => Main.noConfusion
    unfold closeStep
    split_ifs
    · exact hy.of_ne_read rfl hne (fun _ _ => Main.noConfusion) rfl (Line.RxIdle.refl _)
    · exact hy.closeReturn hne _ _
  | closeHost hisr hmain =>
    have hne : ∀ pc c, y.main ≠ .read pc c := by
      rw [hmain]
      exact fun _ _ => Main.noConfusion
    unfold closeHostStep
    split_ifs
    · exact hy.closeReturn hne _ _
    · exact hy.of_ne_read rfl hne (fun _ _ => Main.noConfusion) rfl (Line.RxIdle.refl _)
    · exact hy.closeReturn hne _ _
  | isr h₁ h₂ => exact hy.isrStep hbase h₁ h₂ _
  | irq => exact hy.of_main rfl rfl rfl (Line.RxIdle.refl _)
  | alarm h₁ h₂ h₃ h₄ => exact hy.timeoutStep hbase h₁ h₂ h₃ h₄
  | call c hisr hmain =>
    refine hy.of_rxIdle rfl (fun {pc c'} h => ?_) ?_ (Line.RxIdle.refl _)
    · cases c with
      | read size nonblock =>
        cases h
        exact trivial
      | _ => exact Main.noConfusion h
    · rw [delivered, delivered, hmain]
      cases c <;> rfl

theorem rx_run (sysClk : Bool) (es : List Event) :
    (run step (start sysClk) es).Base ∧ (run step (start sysClk) es).Rx :=
  run_induction (I := fun y : Sys => y.Base ∧ y.Rx)
    (fun y e hy => ⟨hy.1.step e, hy.2.next hy.1 (next_step y e)⟩)
    ⟨Base.start sysClk, Rx.start sysClk⟩ es

/-- **No byte from the host is lost, doubled or moved**: in every run the bytes that it has sent are
those that the program has read, those in `rx_buf` and those in the receive FIFO. -/
theorem sent_eq (sysClk : Bool) (es : List Event) :
    (run step (start sysClk) es).line.sent =
      (run step (start sysClk) es).delivered ++ (run step (start sysClk) es).rxRing ++
        (run step (start sysClk) es).line.uart.rfifo :=
  (rx_run sysClk es).2.sent

end Sys

end Ptmch.JtagUart
