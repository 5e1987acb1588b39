import Ptmch.JtagUart.Equiv.Interrupt

/-!
# The driver: progress

The interrupt routine takes bytes from the host as long as there are any in its FIFO, and the
interrupt may come again at once.  Still the program goes on: each pass through the loop of the
routine stores a byte, sends one or switches an interrupt off, and there is no pass without one of
them between two steps of the program, so that only a bounded number of steps can come between them
(`Sys.exists_program_step`).
-/

namespace Ptmch.JtagUart

open CLib Machine

/-! ### Pending interrupts -/

namespace Uart

/-- There is something for the interrupt routine to do. -/
def pending (s : Uart) : Bool :=
  s.ienAE && decide (s.wfifo.length ≤ 8) || s.ienAF && (s.pauseIrq || decide (56 ≤ s.rfifo.length))

/-- `fifo_AE` and `fifo_AF` show the FIFOs as they are. -/
structure Fresh (s : Uart) : Prop where
  fifoAE : s.fifoAE = true → s.wfifo.length ≤ 8
  fifoAF : s.fifoAF = true → 56 ≤ s.rfifo.length

variable {s : Uart} {b : Bus} {h : Host}

theorem Fresh.pending (hs : s.Fresh) (hirq : s.avIrq = true) : s.pending = true := by
  simp only [avIrq, ipenAE, ipenAF, Bool.or_eq_true, Bool.and_eq_true] at hirq
  simp only [Uart.pending, Bool.or_eq_true, Bool.and_eq_true, decide_eq_true_iff]
  rcases hirq with ⟨hae, hfifo⟩ | ⟨haf, hp | hfifo⟩
  · exact Or.inl ⟨hae, hs.fifoAE hfifo⟩
  · exact Or.inr ⟨haf, Or.inl hp⟩
  · exact Or.inr ⟨haf, Or.inr (hs.fifoAF hfifo)⟩

theorem fifoAE_clk (hs : s.wfifo.length ≤ fifoDepth) :
    (s.clk b h).fifoAE = decide (s.wfifo.length ≤ 8) := by
  show decide (s.wfifoUsed.toNat ≤ 8) = _
  rw [toNat_wfifoUsed hs]

theorem fifoAF_clk (hs : s.rfifo.length ≤ fifoDepth) :
    (s.clk b h).fifoAF = decide (56 ≤ s.rfifo.length) := by
  have hused := toNat_rfifoUsed hs
  show decide ((0x40#7 - s.rfifoUsed).toNat ≤ 8) = _
  rw [toNat_room (hused ▸ hs), hused]
  exact decide_eq_decide.mpr (by omega)

theorem pauseIrq_clk (hr : s.read0 = false) (hp : s.pauseIrq = true) :
    (s.clk b h).pauseIrq = true := by
  show (if h.tPause && !s.fifoEF then true else if s.read0 then false else s.pauseIrq) = true
  rw [hr, hp]
  cases h.tPause && !s.fifoEF <;> rfl

end Uart

namespace Line

variable {l l' : Line} {b : Bus} {h h₁ h₂ : Host}

/-- A clock that moves no byte of the processor. -/
theorem fresh_clk (hwf : l.uart.Wf) (hwr : l.uart.fifoWr = false)
    (hrd : l.uart.fifoRd b = false) : (l.clk b h).uart.Fresh := by
  have hwle : l.uart.wfifo.length ≤ fifoDepth := Nat.le_trans (Nat.le_add_right _ _) hwf.wfifo_le
  constructor
  · intro hae
    have hlen : (l.clk b h).uart.wfifo.length ≤ l.uart.wfifo.length := by
      show ((if l.uart.rdWfifo h then l.uart.wfifo.tail else l.uart.wfifo) ++
        if l.uart.fifoWr then [b.writedata.setWidth 8] else []).length ≤ _
      rw [hwr, List.length_append]
      exact Uart.length_ite_tail_le _ _
    have hle := of_decide_eq_true ((Uart.fifoAE_clk hwle).symm.trans hae)
    omega
  · intro haf
    obtain ⟨xs, -, hrfifo⟩ := rxIdle_clk (h := h) hrd
    have hle := of_decide_eq_true ((Uart.fifoAF_clk hwf.rfifo_le).symm.trans haf)
    rw [hrfifo, List.length_append]
    omega

theorem Ready.fresh_tick (hl : l.Ready) (h : Host) : (l.tick h).uart.Fresh :=
  fresh_clk hl.wf hl.fifoWr rfl

theorem Ready.fresh_iord (hl : l.Ready) (address : Bool) (h₁ h₂ : Host) :
    (l.iord address h₁ h₂).2.uart.Fresh := by
  obtain ⟨hwait, -⟩ := ready_clk_clk hl (Bus.read address) h₁ h₂ rfl
  exact fresh_clk hl.wf.clk rfl (fifoRd_eq_false hwait)

theorem Ready.fresh_iowr_control (hl : l.Ready) (data : Word) (h₁ h₂ : Host) :
    (l.iowr true data h₁ h₂).uart.Fresh := by
  refine fresh_clk hl.wf.clk ?_ rfl
  show (if true && !false && l.uart.avWaitrequest && !true then _ else _) = _
  rw [hl.waitrequest]
  rfl

/-- What is pending stays pending while the host works. -/
theorem pending_of_idle (hp : l.uart.pending = true) (hrx : l.RxIdle l') (htx : l.TxIdle l')
    (hien : l.IenIdle l') (hpause : l.uart.pauseIrq = true → l'.uart.pauseIrq = true) :
    l'.uart.pending = true := by
  obtain ⟨xs, -, hrfifo⟩ := hrx
  have hlen := htx.length_wfifo
  simp only [Uart.pending, Bool.or_eq_true, Bool.and_eq_true, decide_eq_true_iff] at hp ⊢
  rw [hien.ienAE, hien.ienAF, hrfifo, List.length_append]
  rcases hp with ⟨hae, hle⟩ | ⟨haf, hp | hle⟩
  · exact Or.inl ⟨hae, by omega⟩
  · exact Or.inr ⟨haf, Or.inl (hpause hp)⟩
  · exact Or.inr ⟨haf, Or.inr (by omega)⟩

theorem Ready.pending_tick (hl : l.Ready) (hp : l.uart.pending = true) (h : Host) :
    (l.tick h).uart.pending = true := by
  obtain ⟨-, hrx, htx, hien⟩ := hl.tick h
  exact pending_of_idle hp hrx htx hien (Uart.pauseIrq_clk hl.read0)

/-- A pending interrupt shows in the control register. -/
theorem Ready.iord_pending (hl : l.Ready) (hp : l.uart.pending = true) :
    (l.iord true h₁ h₂).1 &&& (controlRiMsk ||| controlWiMsk) ≠ 0 := by
  have hirq : (l.clk (Bus.read true) h₁).uart.ipenAE = true ∨
      (l.clk (Bus.read true) h₁).uart.ipenAF = true := by
    obtain ⟨hae, haf⟩ := ienIdle_clk (l := l) (b := Bus.read true) (h := h₁) rfl
    have hfae : (l.clk (Bus.read true) h₁).uart.fifoAE = _ := Uart.fifoAE_clk hl.length_wfifo
    have hfaf : (l.clk (Bus.read true) h₁).uart.fifoAF = _ := Uart.fifoAF_clk hl.wf.rfifo_le
    simp only [Uart.pending, Bool.or_eq_true, Bool.and_eq_true] at hp
    simp only [Uart.ipenAE, Uart.ipenAF, Bool.or_eq_true, Bool.and_eq_true]
    rw [hae, haf, hfae, hfaf]
    rcases hp with h | ⟨haf', hp | hle⟩
    · exact Or.inl h
    · exact Or.inr ⟨haf', Or.inl (Uart.pauseIrq_clk hl.read0 hp)⟩
    · exact Or.inr ⟨haf', Or.inr hle⟩
  intro h0
  have hbit : ∀ i, i < 32 → ((l.iord true h₁ h₂).1).getLsbD i = true →
      (controlRiMsk ||| controlWiMsk).getLsbD i = false := fun i hi hx => by
    have h' := congrArg (BitVec.getLsbD · i) h0
    rw [BitVec.getLsbD_and, hx, Bool.true_and] at h'
    exact h'.trans BitVec.getLsbD_zero
  rcases hirq with hae | haf
  · exact Bool.noConfusion (hbit 9 (by omega) ((Uart.getLsbD_ipenAE _).trans hae))
  · exact Bool.noConfusion (hbit 8 (by omega) ((Uart.getLsbD_ipenAF _).trans haf))

end Line

/-! ### The work of the interrupt routine -/

namespace State

/-- What the interrupt routine can do at most: fill `rx_buf`, empty `tx_buf` and switch the
interrupts off. -/
def work (st : State) : ℕ :=
  bufLen - 1 - (ringContents bufLen st.rxBuf st.rxOut st.rxIn).length +
    (ringContents bufLen st.txBuf st.txOut st.txIn).length +
    (st.irqEnable.getLsbD 0).toNat + (st.irqEnable.getLsbD 1).toNat

variable {st : State}

theorem work_le (hin : st.txIn < bufLen) (hout : st.txOut < bufLen) : st.work ≤ 2 * bufLen := by
  have hlen := length_ringContents_lt hin hout st.txBuf
  have hre : (st.irqEnable.getLsbD 0).toNat ≤ 1 := Bool.toNat_le _
  have hwe : (st.irqEnable.getLsbD 1).toNat ≤ 1 := Bool.toNat_le _
  have hbuf : 1 ≤ bufLen := by decide
  unfold work
  omega

theorem work_store (hin : st.rxIn < bufLen) (hout : st.rxOut < bufLen)
    (hroom : (st.rxIn + 1) % bufLen ≠ st.rxOut) (x : Byte) : (st.store x).work + 1 = st.work := by
  have hring := congrArg List.length (ringContents_push hin hout hroom st.rxBuf x)
  rw [List.length_append, List.length_singleton] at hring
  have hlt := length_ringContents_lt (Nat.mod_lt (st.rxIn + 1) (Nat.two_pow_pos 11)) hout
    (Function.update st.rxBuf st.rxIn x)
  have hlt' : (ringContents bufLen (Function.update st.rxBuf st.rxIn x) st.rxOut
    ((st.rxIn + 1) % bufLen)).length < bufLen := hlt
  unfold work store
  dsimp only
  omega

theorem work_send (hin : st.txIn < bufLen) (hout : st.txOut < bufLen) (hne : st.txOut ≠ st.txIn) :
    st.send.work + 1 = st.work := by
  have havail : 1 ≤ ringAvail bufLen st.txOut st.txIn :=
    Nat.pos_of_ne_zero fun h0 => hne ((ringAvail_eq_zero_iff hout).mp h0)
  have hring := congrArg List.length (ringContents_split hin hout havail st.txBuf)
  rw [List.length_append, List.length_map, List.length_range'] at hring
  unfold work send
  dsimp only
  omega

theorem work_pos_of_re (h : st.irqEnable.getLsbD 0 = true) : 0 < st.work := by
  unfold work
  rw [h, Bool.toNat_true]
  omega

theorem work_pos_of_we (h : st.irqEnable.getLsbD 1 = true) : 0 < st.work := by
  unfold work
  rw [h, Bool.toNat_true]
  omega

/-- The variables after the receive interrupt has been switched off. -/
def reOff (st : State) : State := { st with irqEnable := st.irqEnable &&& ~~~controlReMsk }

/-- The variables after the transmit interrupt has been switched off. -/
def weOff (st : State) : State := { st with irqEnable := st.irqEnable &&& ~~~controlWeMsk }

theorem work_reOff (h : st.irqEnable.getLsbD 0 = true) : st.reOff.work + 1 = st.work := by
  obtain ⟨hre, hwe⟩ := getLsbD_and_not_controlReMsk st.irqEnable
  unfold work reOff
  dsimp only
  rw [hre, hwe, h, Bool.toNat_true, Bool.toNat_false]
  omega

theorem work_weOff (h : st.irqEnable.getLsbD 1 = true) : st.weOff.work + 1 = st.work := by
  obtain ⟨hre, hwe⟩ := getLsbD_and_not_controlWeMsk st.irqEnable
  unfold work weOff
  dsimp only
  rw [hre, hwe, h, Bool.toNat_true, Bool.toNat_false]

end State

namespace Sys

variable {y y' : Sys} {h₁ h₂ : Host}

/-- A bound on the steps of the interrupt routine before the next step of the program, with the work
that is left.  Each pass through its loop does some of it, and starts only if something is
pending. -/
def isrLeft (work : ℕ) (pending : Bool) : Option Isr → ℕ
  | none => 10 * work + if pending then 2 else 3
  | some .control => 10 * work + if pending then 1 else 4
  | some (.rx _ data) => if data &&& dataRvalidMsk = 0 then 10 * work else 10 * work + 9
  | some (.rxEnd _ data) => if data &&& dataRavailMsk ≠ 0 then 10 * work - 1 else 10 * work + 8
  | some (.rxDummy _) => 10 * work + 7
  | some (.tx word) => if word &&& controlRiMsk ≠ 0 then 10 * work + 6 else 10 * work
  | some (.txLoop space) => if 0 < space then 10 * work - 1 else 10 * work + 5
  | some .txDummy => 10 * work + 5

def left (y : Sys) : ℕ := isrLeft y.state.work y.line.uart.pending y.isr

section IsrLeft

variable {w : ℕ} {p : Bool}

theorem isrLeft_le (o : Option Isr) : isrLeft w p o ≤ 10 * w + 9 := by
  unfold isrLeft
  split <;> (try split_ifs) <;> omega

theorem isrLeft_control_le : isrLeft w p (some .control) ≤ 10 * w + 4 := by
  simp only [isrLeft]
  split_ifs <;> omega

theorem isrLeft_none_le : isrLeft w p none ≤ 10 * w + 3 := by
  simp only [isrLeft]
  split_ifs <;> omega

theorem isrLeft_rxEnd_le (word data : Word) :
    isrLeft w p (some (.rxEnd word data)) ≤ 10 * w + 8 := by
  simp only [isrLeft]
  split_ifs <;> omega

/-- As more becomes pending, the bound does not grow. -/
theorem isrLeft_mono {p' : Bool} (h : p = true → p' = true) (o : Option Isr) :
    isrLeft w p' o ≤ isrLeft w p o := by
  unfold isrLeft
  cases p with
  | true =>
    rw [h rfl]
  | false =>
    cases p' with
    | true => split <;> simp
    | false => exact Nat.le_refl _

end IsrLeft

theorem left_le (htx : y.Tx) : y.left ≤ 20 * bufLen + 9 := by
  have hwork := State.work_le htx.txIn_lt htx.txOut_lt
  have hleft := isrLeft_le (w := y.state.work) (p := y.line.uart.pending) y.isr
  unfold left
  omega

/-! ### Its steps -/

theorem left_control (hbase : y.Base) (hisr : y.isr = some .control) :
    (y.isrStep h₁ h₂ .control).left < y.left := by
  have hleft : y.left = 10 * y.state.work + if y.line.uart.pending then 1 else 4 := by
    rw [left, hisr]
    rfl
  have hpos : 10 * y.state.work < y.left := by
    rw [hleft]
    split_ifs <;> omega
  simp only [isrStep, left]
  split_ifs with hnone hri
  · -- nothing was pending
    have hp : y.line.uart.pending = false :=
      Bool.eq_false_iff.mpr fun hp => hbase.ready.iord_pending hp hnone
    rw [hp, if_neg Bool.noConfusion] at hleft
    have hle := isrLeft_none_le (w := y.state.work)
      (p := (y.line.iord true h₁ h₂).2.uart.pending)
    rw [← left, hleft]
    omega
  · rw [isrLeft, if_pos initialData_rvalid]
    exact hpos
  · rw [isrLeft, if_neg hri]
    exact hpos

theorem left_rx (hbase : y.Base) (hrx : y.Rx) (hy : y.Irq) {word data : Word}
    (hisr : y.isr = some (.rx word data)) : (y.isrStep h₁ h₂ (.rx word data)).left < y.left := by
  obtain ⟨-, -, hre, hdata⟩ := hy.isr hisr
  have hpos := State.work_pos_of_re hre
  have hleft : y.left =
      if data &&& dataRvalidMsk = 0 then 10 * y.state.work else 10 * y.state.work + 9 := by
    rw [left, hisr]
    rfl
  simp only [isrStep]
  by_cases hfull : (y.state.rxIn + 1) % bufLen = y.state.rxOut
  · rw [if_pos hfull, hleft]
    rcases hdata with ⟨rfl, -⟩ | ⟨hvalid, -⟩
    · rw [if_pos initialData_rvalid]
      show isrLeft y.state.work _ (some (.rxEnd word _)) < _
      rw [isrLeft, if_pos initialData_ravail]
      omega
    · rw [if_neg hvalid]
      exact Nat.lt_succ_of_le (isrLeft_rxEnd_le word data)
  · rw [if_neg hfull]
    cases hrfifo : y.line.uart.rfifo with
    | nil =>
      rw [if_pos (hbase.ready.iord_data_nil hrfifo h₁ h₂).1, hleft]
      rcases hdata with ⟨-, hne⟩ | ⟨hvalid, -⟩
      · exact absurd hrfifo hne
      · rw [if_neg hvalid]
        exact Nat.lt_succ_of_le (isrLeft_rxEnd_le word _)
    | cons x rest =>
      have hvalid := (hbase.ready.iord_data hrfifo h₁ h₂).1
      rw [if_neg hvalid, hleft]
      show isrLeft (y.state.store _).work _ (some (.rx word _)) < _
      rw [isrLeft, if_neg hvalid]
      have hwork := State.work_store hrx.rxIn_lt hrx.rxOut_lt hfull
        (((y.line.iord false h₁ h₂).1 &&& dataDataMsk).setWidth 8)
      split_ifs <;> omega

theorem left_rxEnd (hy : y.Irq) {word data : Word} (hisr : y.isr = some (.rxEnd word data)) :
    (y.isrStep h₁ h₂ (.rxEnd word data)).left < y.left := by
  obtain ⟨-, hri, hre, -⟩ := hy.isr hisr
  have hleft : y.left =
      if data &&& dataRavailMsk ≠ 0 then 10 * y.state.work - 1 else 10 * y.state.work + 8 := by
    rw [left, hisr]
    rfl
  simp only [isrStep]
  by_cases havail : data &&& dataRavailMsk ≠ 0
  · rw [if_pos havail, hleft, if_pos havail]
    have hwork := State.work_reOff hre
    show 10 * y.state.reOff.work + 7 < _
    omega
  · rw [if_neg havail, hleft, if_neg havail]
    show isrLeft y.state.work _ (some (.tx word)) < _
    rw [isrLeft, if_pos hri]
    omega

theorem left_tx (hy : y.Irq) {word : Word} (hisr : y.isr = some (.tx word)) :
    (y.isrStep h₁ h₂ (.tx word)).left < y.left := by
  obtain ⟨hwi, hor⟩ := hy.isr hisr
  have hleft : y.left =
      if word &&& controlRiMsk ≠ 0 then 10 * y.state.work + 6 else 10 * y.state.work := by
    rw [left, hisr]
    rfl
  simp only [isrStep]
  by_cases hset : word &&& controlWiMsk ≠ 0
  · obtain ⟨hwe, hspace⟩ := hwi hset
    have hpos := State.work_pos_of_we hwe
    rw [if_pos hset, hleft]
    show isrLeft y.state.work _ (some (.txLoop (wspace word))) < _
    rw [isrLeft, if_pos hspace]
    split_ifs <;> omega
  · rw [if_neg hset, hleft, if_pos (hor.resolve_right hset)]
    have hle := isrLeft_control_le (w := y.state.work) (p := y.line.uart.pending)
    show isrLeft y.state.work y.line.uart.pending (some .control) < _
    omega

theorem left_txLoop (htx : y.Tx) (hy : y.Irq) {space : ℕ} (hisr : y.isr = some (.txLoop space)) :
    (y.isrStep h₁ h₂ (.txLoop space)).left < y.left := by
  have hwe : 0 < space → y.we = true := hy.isr hisr
  have hleft : y.left =
      if 0 < space then 10 * y.state.work - 1 else 10 * y.state.work + 5 := by
    rw [left, hisr]
    rfl
  simp only [isrStep]
  by_cases hspace : 0 < space
  · rw [hleft, if_pos hspace, if_pos hspace]
    by_cases hne : y.state.txOut ≠ y.state.txIn
    · rw [if_pos ⟨hspace, hne⟩]
      have hwork := State.work_send htx.txIn_lt htx.txOut_lt hne
      show isrLeft y.state.send.work _ (some (.txLoop (space - 1))) < _
      rw [isrLeft]
      split_ifs <;> omega
    · rw [if_neg fun h => hne h.2]
      have hwork := State.work_weOff (hwe hspace)
      show 10 * y.state.weOff.work + 5 < _
      omega
  · rw [if_neg fun h => hspace h.1, if_neg hspace, hleft, if_neg hspace]
    have hle := isrLeft_control_le (w := y.state.work) (p := y.line.uart.pending)
    show isrLeft y.state.work y.line.uart.pending (some .control) < _
    omega

/-- **A step of the interrupt routine does some of its work.** -/
theorem left_isrStep (hbase : y.Base) (hrx : y.Rx) (htx : y.Tx) (hy : y.Irq) {pc : Isr}
    (hisr : y.isr = some pc) (h₁ h₂ : Host) : (y.isrStep h₁ h₂ pc).left < y.left := by
  cases pc with
  | control => exact left_control hbase hisr
  | rx word data => exact left_rx hbase hrx hy hisr
  | rxEnd word data => exact left_rxEnd hy hisr
  | rxDummy word =>
    obtain ⟨-, hri⟩ := hy.isr hisr
    rw [left, left, hisr]
    show isrLeft y.state.work _ (some (.tx word)) < 10 * y.state.work + 7
    rw [isrLeft, if_pos hri]
    omega
  | tx word => exact left_tx hy hisr
  | txLoop space => exact left_txLoop htx hy hisr
  | txDummy =>
    have hle := isrLeft_control_le (w := y.state.work)
      (p := (y.line.iord true h₁ h₂).2.uart.pending)
    rw [left, left, hisr]
    exact Nat.lt_succ_of_le hle

/-! ### Runs -/

/-- Outside the interrupt routine `fifo_AE` and `fifo_AF` show the FIFOs as they are. -/
def Fresh (y : Sys) : Prop := y.isr = none → y.line.uart.Fresh

theorem Fresh.next (hbase : y.Base) (hy : y.Fresh) (hnext : y.Next y') : y'.Fresh := by
  cases hnext with
  | stay => exact hy
  | tick h => exact fun _ => hbase.ready.fresh_tick h
  | boot h₁ h₂ => exact fun _ => hbase.ready.fresh_iowr_control _ h₁ h₂
  | @read pc c h₁ h₂ =>
    cases pc with
    | finish =>
      simp only [readStep]
      split_ifs
      · exact fun _ => hbase.ready.fresh_iowr_control _ h₁ h₂
      · exact hy
    | loadOut | copy =>
      simp only [readStep]
      split_ifs <;> exact hy
    | _ => exact hy
  | @write pc c h₁ h₂ =>
    cases pc with
    | enable => exact fun _ => hbase.ready.fresh_iowr_control _ h₁ h₂
    | inner | loadIn | advance | spinOut | spinHost => exact hy
    | _ =>
      simp only [writeStep]
      split_ifs <;> exact hy
  | close =>
    unfold closeStep
    split_ifs <;> exact hy
  | closeHost =>
    unfold closeHostStep
    split_ifs <;> exact hy
  | @isr pc h₁ h₂ =>
    -- the routine ends after a read of the control register
    cases pc with
    | control => exact fun _ => hbase.ready.fresh_iord true h₁ h₂
    | rxDummy word => exact fun h => absurd h (Option.some_ne_none _)
    | txDummy => exact fun h => absurd h (Option.some_ne_none _)
    | _ =>
      simp only [isrStep]
      split_ifs <;> exact fun h => absurd h (Option.some_ne_none _)
  | irq => exact fun h => absurd h (Option.some_ne_none _)
  | alarm h₁ h₂ h₃ h₄ =>
    have hready := (hbase.ready.iord true h₁ h₂).1
    unfold timeoutStep
    dsimp only
    split_ifs
    · exact fun _ => hready.fresh_iowr_control _ h₃ h₄
    · exact fun _ => hbase.ready.fresh_iord true h₁ h₂
    · exact fun _ => hbase.ready.fresh_iord true h₁ h₂
  | call c => exact hy

/-- A step of the processor. -/
def Event.isCpu : Event → Bool
  | .cpu _ _ => true
  | _ => false

theorem Fresh.start (sysClk : Bool) : (Sys.start sysClk).Fresh :=
  fun _ => ⟨fun h => Bool.noConfusion h, fun h => Bool.noConfusion h⟩

/-- The alarm leaves what is pending. -/
theorem pending_timeoutStep (hbase : y.Base) (hp : y.line.uart.pending = true)
    (h₁ h₂ h₃ h₄ : Host) : (y.timeoutStep h₁ h₂ h₃ h₄).line.uart.pending = true := by
  obtain ⟨hready, htx, hien⟩ := hbase.ready.iord true h₁ h₂
  have hrx := hbase.ready.iord_control h₁ h₂
  have hpause : y.line.uart.pauseIrq = true →
      (y.line.iord true h₁ h₂).2.uart.pauseIrq = true := fun h => by
    refine Uart.pauseIrq_clk ?_ (Uart.pauseIrq_clk hbase.ready.read0 h)
    show (if true && !false && y.line.uart.avWaitrequest then !true else false) = false
    rw [hbase.ready.waitrequest]
    rfl
  have hread := Line.pending_of_idle hp hrx htx hien hpause
  unfold timeoutStep
  dsimp only
  split_ifs
  · obtain ⟨htx', haf, hae⟩ := hready.iowr_control (y.state.irqEnable ||| controlAcMsk) h₃ h₄
    refine Line.pending_of_idle hread (hready.iowr true _ h₃ h₄).2 htx' ⟨?_, ?_⟩ fun h => ?_
    · rw [hae, getLsbD_or_controlAcMsk _ (by omega), hien.ienAE, hbase.ienAE]
    · rw [haf, getLsbD_or_controlAcMsk _ (by omega), hien.ienAF, hbase.ienAF]
    · refine Uart.pauseIrq_clk ?_ (Uart.pauseIrq_clk hready.read0 h)
      rfl
  · exact hread
  · exact hread

/-- No step but the program's makes the bound larger, and the interrupt routine's make it
smaller. -/
theorem left_step (hy : y.Inv) (hfresh : y.Fresh) (e : Event)
    (hok : e.isCpu = true → y.isr ≠ none) : (y.step e).left + e.isCpu.toNat ≤ y.left := by
  cases e with
  | tick h => exact isrLeft_mono (hy.base.ready.pending_tick · h) y.isr
  | cpu h₁ h₂ =>
    cases hisr : y.isr with
    | none => exact absurd hisr (hok rfl)
    | some pc =>
      have hstep : y.step (.cpu h₁ h₂) = y.isrStep h₁ h₂ pc := by
        simp only [Sys.step, hisr]
      rw [hstep]
      exact left_isrStep hy.base hy.rx hy.tx hy.irq hisr h₁ h₂
  | irq =>
    simp only [Sys.step]
    split_ifs with h
    · have hp := (hfresh h.1).pending h.2.2
      rw [left, left, h.1]
      show isrLeft y.state.work y.line.uart.pending (some .control) ≤ _
      rw [hp]
      exact Nat.le_succ (10 * y.state.work + 1)
    · exact Nat.le_refl _
  | alarm h₁ h₂ h₃ h₄ =>
    simp only [Sys.step]
    split_ifs with h
    · have hsame : (y.timeoutStep h₁ h₂ h₃ h₄).isr = y.isr ∧
          (y.timeoutStep h₁ h₂ h₃ h₄).state.work = y.state.work := by
        unfold timeoutStep
        dsimp only
        split_ifs <;> exact ⟨rfl, rfl⟩
      rw [left, left, hsame.1, hsame.2]
      exact isrLeft_mono (pending_timeoutStep hy.base · h₁ h₂ h₃ h₄) y.isr
    · exact Nat.le_refl _
  | call c =>
    simp only [Sys.step]
    split_ifs <;> exact Nat.le_refl _

/-- **The program goes on**: whatever the host does and however often the interrupt comes, there are
at most `20 * bufLen + 9` steps of the interrupt routine between two steps of the program. -/
theorem exists_program_step (sysClk : Bool) (es es' : List Event)
    (h : 20 * bufLen + 9 < es'.countP Event.isCpu) :
    ∃ pre h₁ h₂, pre ++ [.cpu h₁ h₂] <+: es' ∧
      (run step (start sysClk) (es ++ pre)).isr = none := by
  have hnext : ∀ (y : Sys) e, y.Inv ∧ y.Fresh → (y.step e).Inv ∧ (y.step e).Fresh := fun y e hy =>
    ⟨hy.1.step e, hy.2.next hy.1.base (next_step y e)⟩
  have hinv := run_induction hnext ⟨Inv.start sysClk, Fresh.start sysClk⟩ es
  -- a step is one of the program, or it makes the bound no larger
  have hstep : ∀ (y : Sys) e, y.Inv ∧ y.Fresh → (e.isCpu = true ∧ y.isr = none) ∨
      ((y.step e).Inv ∧ (y.step e).Fresh) ∧ (y.step e).left + e.isCpu.toNat ≤ y.left := by
    intro y e hy
    by_cases hprogram : e.isCpu = true ∧ y.isr = none
    · exact Or.inl hprogram
    · exact Or.inr ⟨hnext y e hy, left_step hy.1 hy.2 e fun hcpu hisr => hprogram ⟨hcpu, hisr⟩⟩
  have hlt : (run step (start sysClk) es).left < es'.countP Event.isCpu :=
    (left_le hinv.1.tx).trans_lt h
  obtain ⟨pre, e, hpre, -, hcpu, hisr⟩ := exists_of_measure hstep hinv hlt
  cases e with
  | cpu h₁ h₂ =>
    refine ⟨pre, h₁, h₂, hpre, ?_⟩
    rw [run_append]
    exact hisr
  | _ => exact Bool.noConfusion hcpu

/-- After the interrupt has come for a byte. -/
theorem exists_program_step_irq :
    ∃ pre h₁ h₂, pre ++ [.cpu h₁ h₂] <+:
        List.replicate 40970 (.cpu ⟨false, true, 0x61, true⟩ ⟨true, true, 0x61, true⟩) ∧
      (run step (start false)
        ([.cpu ⟨false, false, 0, false⟩ ⟨false, false, 0, false⟩, .tick ⟨false, true, 0x61, false⟩,
          .tick ⟨false, false, 0, true⟩, .irq] ++ pre)).isr = none :=
  exists_program_step false _ _ (by
    rw [List.countP_replicate]
    decide)

end Sys

end Ptmch.JtagUart
