import Ptmch.JtagUart.Equiv.Rx
import Ptmch.JtagUart.Equiv.Tx

/-!
# The driver: interrupts

The interrupt routine switches the receive interrupt off when `rx_buf` is full and the transmit
interrupt off when `tx_buf` is empty, and the program switches them on again.  Neither is ever off
while the program needs it (`Sys.ien_of_waiting`), so what it waits for interrupts it
(`Sys.avIrq_of_waiting`).
-/

namespace Ptmch.JtagUart

open CLib Machine

/-! ### Bits of `irq_enable` -/

theorem getLsbD_or_controlReMsk (x : Word) :
    (x ||| controlReMsk).getLsbD 0 = true ∧ (x ||| controlReMsk).getLsbD 1 = x.getLsbD 1 := by
  simp [controlReMsk]

theorem getLsbD_or_controlWeMsk (x : Word) :
    (x ||| controlWeMsk).getLsbD 0 = x.getLsbD 0 ∧ (x ||| controlWeMsk).getLsbD 1 = true := by
  simp [controlWeMsk]

theorem getLsbD_and_not_controlReMsk (x : Word) :
    (x &&& ~~~controlReMsk).getLsbD 0 = false ∧
      (x &&& ~~~controlReMsk).getLsbD 1 = x.getLsbD 1 := by
  simp [controlReMsk]

theorem getLsbD_and_not_controlWeMsk (x : Word) :
    (x &&& ~~~controlWeMsk).getLsbD 0 = x.getLsbD 0 ∧
      (x &&& ~~~controlWeMsk).getLsbD 1 = false := by
  simp [controlWeMsk]

theorem controlWiMsk_of_not_controlRiMsk {word : Word}
    (h : word &&& (controlRiMsk ||| controlWiMsk) ≠ 0) (hri : word &&& controlRiMsk = 0) :
    word &&& controlWiMsk ≠ 0 := by
  intro hwi
  rw [BitVec.and_or_distrib_left, hri, hwi] at h
  exact h rfl

theorem initialData_ravail : (1 <<< 16 : Word) &&& dataRavailMsk ≠ 0 := by decide

theorem initialData_rvalid : (1 <<< 16 : Word) &&& dataRvalidMsk = 0 := by decide

/-! ### What the interrupt routine relies on -/

/-- The program is about to switch the transmit interrupt on. -/
def Main.enables : Main → Bool
  | .write .inner _ | .write .loadIn _ | .write .loadOut _ | .write .copy _
  | .write .advance _ | .write .enable _ => true
  | _ => false

namespace Sys

variable {y y' : Sys} {h₁ h₂ : Host}

/-- `RE` in `irq_enable` -/
def re (y : Sys) : Bool := y.state.irqEnable.getLsbD 0

/-- `WE` in `irq_enable` -/
def we (y : Sys) : Bool := y.state.irqEnable.getLsbD 1

/-- What a word of the control register with `WI` says. -/
def WiOk (y : Sys) (word : Word) : Prop :=
  word &&& controlWiMsk ≠ 0 → y.we = true ∧ 0 < wspace word

/-- What holds in the course of the interrupt routine. -/
def IsrOk (y : Sys) : Isr → Prop
  | .rx word data =>
    y.WiOk word ∧ word &&& controlRiMsk ≠ 0 ∧ y.re = true ∧
      (data = 1 <<< 16 ∧ y.line.uart.rfifo ≠ [] ∨
        data &&& dataRvalidMsk ≠ 0 ∧ y.state.rxOut ≠ y.state.rxIn)
  | .rxEnd word _ =>
    y.WiOk word ∧ word &&& controlRiMsk ≠ 0 ∧ y.re = true ∧ y.state.rxOut ≠ y.state.rxIn
  | .rxDummy word => y.WiOk word ∧ word &&& controlRiMsk ≠ 0
  | .tx word => y.WiOk word ∧ (word &&& controlRiMsk ≠ 0 ∨ word &&& controlWiMsk ≠ 0)
  | .txLoop space => 0 < space → y.we = true
  | .control | .txDummy => True

/-- Which interrupts are on: there are bytes to receive if the receive interrupt is off, and none to
transmit if the transmit interrupt is, but for what the program is about to do. -/
structure Irq (y : Sys) : Prop where
  boot : y.main = .boot → y.isr = none ∧ y.state.txOut = y.state.txIn
  isr : ∀ {pc}, y.isr = some pc → y.IsrOk pc
  rx : y.re = false → y.main = .boot ∨ y.state.rxOut ≠ y.state.rxIn ∨ y.main.buffer ≠ []
  tx : y.state.txOut ≠ y.state.txIn → y.we = true ∨ y.main.enables = true

theorem Irq.start (sysClk : Bool) : (Sys.start sysClk).Irq where
  boot _ := ⟨rfl, rfl⟩
  isr h := by cases h
  rx _ := Or.inl rfl
  tx h := absurd rfl h

theorem isrOk_of_none {o : Option Isr} (ho : o = none) {pc : Isr} (h : o = some pc) :
    y.IsrOk pc := by
  rw [ho] at h
  cases h

theorem Irq.boot_of_ne (hmain : y.main ≠ .boot) (h : y.main = .boot) :
    y.isr = none ∧ y.state.txOut = y.state.txIn := absurd h hmain

/-! ### The program -/

theorem Irq.of_boot (hy : y.Irq) (hmain : y.main = .boot) (h₁ h₂ : Host) : (y.boot h₁ h₂).Irq := by
  obtain ⟨hisr, hring⟩ := hy.boot hmain
  refine ⟨boot_of_ne Main.noConfusion, isrOk_of_none hisr, fun h => ?_, fun h => ?_⟩
  · exact absurd h (show ¬controlReMsk.getLsbD 0 = false by decide)
  · exact absurd hring h

section Read

variable {pc : ReadPc} {c : ReadCall}

/-- A step of `read` that takes nothing from `rx_buf`. -/
theorem Irq.of_read (hy : y.Irq) (hisr : y.isr = none) (hmain : y.main = .read pc c) {pc' : ReadPc}
    {c' : ReadCall} (hbuffer : c'.buffer = c.buffer) : Irq { y with main := .read pc' c' } := by
  refine ⟨boot_of_ne Main.noConfusion, isrOk_of_none hisr, fun h => ?_, fun h => ?_⟩
  · have hrx := hy.rx h
    rw [hmain] at hrx
    rcases hrx with hboot | hring | hne
    · exact Main.noConfusion hboot
    · exact Or.inr (Or.inl hring)
    · refine Or.inr (Or.inr ?_)
      show c'.buffer ≠ []
      rw [hbuffer]
      exact hne
  · have htx := hy.tx h
    rw [hmain] at htx
    exact htx

theorem Irq.finish (hy : y.Irq) (hisr : y.isr = none) (hmain : y.main = .read .finish c) :
    (y.readStep c h₁ h₂ .finish).Irq := by
  simp only [Sys.readStep]
  split_ifs with hne
  · obtain ⟨hre, hwe⟩ := getLsbD_or_controlReMsk y.state.irqEnable
    refine ⟨boot_of_ne Main.noConfusion, isrOk_of_none hisr, fun h => ?_, fun h => ?_⟩
    · exact Bool.noConfusion (hre.symm.trans h)
    · have htx := hy.tx h
      rw [hmain] at htx
      exact htx.imp_left (hwe.trans ·)
  · refine ⟨boot_of_ne Main.noConfusion, isrOk_of_none hisr, fun h => ?_, fun h => ?_⟩
    · have hrx := hy.rx h
      rw [hmain] at hrx
      rcases hrx with hboot | hring | hbuffer
      · exact Main.noConfusion hboot
      · exact Or.inr (Or.inl hring)
      · exact absurd hbuffer hne
    · have htx := hy.tx h
      rw [hmain] at htx
      exact htx

theorem Irq.readStep (hrx : y.Rx) (hy : y.Irq) (hisr : y.isr = none) (hmain : y.main = .read pc c) :
    (y.readStep c h₁ h₂ pc).Irq := by
  cases pc with
  | outer | loadIn | check | spinIn | spinHost | recheck => exact hy.of_read hisr hmain rfl
  | loadOut | copy =>
    simp only [Sys.readStep]
    split_ifs <;> exact hy.of_read hisr hmain rfl
  | advance =>
    -- what has been taken is in the buffer
    obtain ⟨hpiece, hlen⟩ := hrx.call hmain
    have hpos := hpiece.pos
    refine ⟨boot_of_ne Main.noConfusion, isrOk_of_none hisr, fun _ => ?_, fun h => ?_⟩
    · refine Or.inr (Or.inr ?_)
      show c.buffer ++ c.copied ≠ []
      refine List.append_ne_nil_of_right_ne_nil _ fun hnil => ?_
      rw [hnil, List.length_nil] at hlen
      omega
    · have htx := hy.tx h
      rw [hmain] at htx
      exact htx
  | finish => exact hy.finish hisr hmain

end Read

section Write

variable {pc : WritePc} {c : WriteCall}

/-- A step that leaves the receive side alone. -/
theorem Irq.of_tx (hy : y.Irq) (hisr : y'.isr = none) (hmain : y.main ≠ .boot)
    (hmain' : y'.main ≠ .boot) (hbuffer : y'.main.buffer = y.main.buffer)
    (hstate : y'.state.rx = y.state.rx) (hre : y'.re = y.re)
    (htx : y'.state.txOut ≠ y'.state.txIn → y'.we = true ∨ y'.main.enables = true) : y'.Irq := by
  simp only [State.rx, Prod.mk.injEq] at hstate
  obtain ⟨hin, hout, -⟩ := hstate
  refine ⟨boot_of_ne hmain', isrOk_of_none hisr, fun h => ?_, htx⟩
  rcases hy.rx (hre ▸ h) with hboot | hring | hne
  · exact absurd hboot hmain
  · rw [← hin, ← hout] at hring
    exact Or.inr (Or.inl hring)
  · exact Or.inr (Or.inr (hbuffer ▸ hne))

theorem Irq.writeStep (hy : y.Irq) (hisr : y.isr = none) (hmain : y.main = .write pc c) :
    (y.writeStep c h₁ h₂ pc).Irq := by
  have hne : y.main ≠ .boot := by
    rw [hmain]
    exact Main.noConfusion
  have hbuffer : y.main.buffer = [] := by
    rw [hmain]
    rfl
  have htx := hy.tx
  rw [hmain] at htx
  -- before `irq_enable |= ...`
  have hbefore : ∀ {st : State} {pc' c'}, st.rx = y.state.rx → st.irqEnable = y.state.irqEnable →
      (Main.write pc' c').enables = true → Irq { y with state := st, main := .write pc' c' } :=
    fun hst hirq hen => hy.of_tx hisr hne Main.noConfusion hbuffer.symm hst
      (congrArg (BitVec.getLsbD · 0) hirq) fun _ => Or.inr hen
  -- after it
  have hafter : ∀ {m : Main} {rs}, m ≠ .boot → m.buffer = [] →
      (Main.write pc c).enables = false → Irq { y with main := m, returns := rs } :=
    fun hm hbuf hen => by
      refine hy.of_tx hisr hne hm (hbuf.trans hbuffer.symm) rfl rfl fun h => ?_
      rcases htx h with hwe | h'
      · exact Or.inl hwe
      · exact absurd h' (Bool.eq_false_iff.mp hen)
  cases pc with
  | inner =>
    refine hbefore rfl rfl ?_
    split_ifs <;> rfl
  | loadIn | advance => exact hbefore rfl rfl rfl
  | loadOut | copy =>
    simp only [Sys.writeStep]
    split_ifs <;> exact hbefore rfl rfl rfl
  | enable =>
    obtain ⟨hre, hwe⟩ := getLsbD_or_controlWeMsk y.state.irqEnable
    exact hy.of_tx hisr hne Main.noConfusion hbuffer.symm rfl hre fun _ => Or.inl hwe
  | spinOut | spinHost => exact hafter Main.noConfusion rfl rfl
  | check =>
    simp only [Sys.writeStep]
    split_ifs <;> exact hafter Main.noConfusion rfl rfl
  | hostCheck =>
    simp only [Sys.writeStep]
    split_ifs
    · exact hafter Main.noConfusion rfl rfl
    · exact hbefore rfl rfl rfl

end Write

/-! ### The interrupt routine -/

theorem Irq.ne_boot (hy : y.Irq) {pc : Isr} (hisr : y.isr = some pc) : y.main ≠ .boot := by
  intro hmain
  rw [(hy.boot hmain).1] at hisr
  cases hisr

/-- A step of the interrupt routine that changes neither buffer and no interrupt enable. -/
theorem Irq.of_isr (hy : y.Irq) {pc : Isr} (hisr : y.isr = some pc) (hmain : y'.main = y.main)
    (hrxIn : y'.state.rxIn = y.state.rxIn) (hrxOut : y'.state.rxOut = y.state.rxOut)
    (htxIn : y'.state.txIn = y.state.txIn) (htxOut : y'.state.txOut = y.state.txOut)
    (hirq : y'.state.irqEnable = y.state.irqEnable)
    (hok : ∀ {pc}, y'.isr = some pc → y'.IsrOk pc) : y'.Irq := by
  refine ⟨fun h => ?_, hok, fun h => ?_, fun h => ?_⟩
  · rw [hmain] at h
    exact absurd h (hy.ne_boot hisr)
  · rw [hmain, hrxIn, hrxOut]
    exact hy.rx ((congrArg (BitVec.getLsbD · 0) hirq).symm.trans h)
  · rw [hmain]
    rw [htxIn, htxOut] at h
    exact (hy.tx h).imp_left fun hwe => (congrArg (BitVec.getLsbD · 1) hirq).trans hwe

theorem Irq.control (hbase : y.Base) (hy : y.Irq) (hisr : y.isr = some .control) :
    (y.isrStep h₁ h₂ .control).Irq := by
  refine hy.of_isr hisr rfl rfl rfl rfl rfl rfl fun {pc} h => ?_
  have hwi : (y.isrStep h₁ h₂ .control).WiOk (y.line.iord true h₁ h₂).1 := fun hwi => by
    obtain ⟨hae, hspace⟩ := hbase.ready.iord_wi hwi
    exact ⟨hbase.ienAE.symm.trans hae, hspace⟩
  simp only [Sys.isrStep] at h
  split_ifs at h with hnone hri
  · -- `RI`
    obtain ⟨haf, hne⟩ := hbase.ready.iord_ri hri
    cases h
    exact ⟨hwi, hri, hbase.ienAF.symm.trans haf, Or.inl ⟨rfl, hne⟩⟩
  · -- only `WI`
    cases h
    exact ⟨hwi, Or.inr (controlWiMsk_of_not_controlRiMsk hnone (not_not.mp hri))⟩

theorem ne_of_full {inp out : ℕ} (hin : inp < bufLen) (h : (inp + 1) % bufLen = out) :
    out ≠ inp := by
  rw [ring_succ hin] at h
  have hlen : 1 < bufLen := by decide
  split_ifs at h <;> omega

theorem Irq.rxStep (hbase : y.Base) (hrx : y.Rx) (hy : y.Irq) {word data : Word}
    (hisr : y.isr = some (.rx word data)) : (y.isrStep h₁ h₂ (.rx word data)).Irq := by
  obtain ⟨hwi, hri, hre, hdata⟩ := hy.isr hisr
  simp only [Sys.isrStep]
  by_cases hfull : (y.state.rxIn + 1) % bufLen = y.state.rxOut
  · rw [if_pos hfull]
    refine hy.of_isr hisr rfl rfl rfl rfl rfl rfl fun h => ?_
    cases h
    exact ⟨hwi, hri, hre, ne_of_full hrx.rxIn_lt hfull⟩
  · rw [if_neg hfull]
    cases hrfifo : y.line.uart.rfifo with
    | nil =>
      rw [if_pos (hbase.ready.iord_data_nil hrfifo h₁ h₂).1]
      refine hy.of_isr hisr rfl rfl rfl rfl rfl rfl fun h => ?_
      cases h
      rcases hdata with ⟨-, hne⟩ | ⟨-, hne⟩
      · exact absurd hrfifo hne
      · exact ⟨hwi, hri, hre, hne⟩
    | cons x rest =>
      have hvalid := (hbase.ready.iord_data hrfifo h₁ h₂).1
      rw [if_neg hvalid]
      have hne : y.state.rxOut ≠ (y.state.rxIn + 1) % bufLen := fun h => hfull h.symm
      refine ⟨fun h => ?_, fun h => ?_, fun _ => Or.inr (Or.inl hne), hy.tx⟩
      · exact absurd h (hy.ne_boot hisr)
      · cases h
        exact ⟨hwi, hri, hre, Or.inr ⟨hvalid, hne⟩⟩

theorem Irq.rxEnd (hy : y.Irq) {word data : Word} (hisr : y.isr = some (.rxEnd word data)) :
    (y.isrStep h₁ h₂ (.rxEnd word data)).Irq := by
  obtain ⟨hwi, hri, hre, hne⟩ := hy.isr hisr
  simp only [Sys.isrStep]
  split_ifs
  · obtain ⟨-, hwe⟩ := getLsbD_and_not_controlReMsk y.state.irqEnable
    refine ⟨fun h => ?_, fun h => ?_, fun _ => Or.inr (Or.inl hne), fun h => ?_⟩
    · exact absurd h (hy.ne_boot hisr)
    · cases h
      exact ⟨fun h => (hwi h).imp_left hwe.trans, hri⟩
    · exact (hy.tx h).imp_left hwe.trans
  · refine hy.of_isr hisr rfl rfl rfl rfl rfl rfl fun h => ?_
    cases h
    exact ⟨hwi, Or.inl hri⟩

theorem Irq.txStep (hy : y.Irq) {word : Word} (hisr : y.isr = some (.tx word)) :
    (y.isrStep h₁ h₂ (.tx word)).Irq := by
  obtain ⟨hwi, -⟩ := hy.isr hisr
  simp only [Sys.isrStep]
  split_ifs with h
  · refine hy.of_isr hisr rfl rfl rfl rfl rfl rfl fun h' => ?_
    cases h'
    exact fun _ => (hwi h).1
  · refine hy.of_isr hisr rfl rfl rfl rfl rfl rfl fun h' => ?_
    cases h'
    exact trivial

theorem Irq.txLoop (hy : y.Irq) {space : ℕ} (hisr : y.isr = some (.txLoop space)) :
    (y.isrStep h₁ h₂ (.txLoop space)).Irq := by
  have hwe : 0 < space → y.we = true := hy.isr hisr
  have hboot := hy.ne_boot hisr
  simp only [Sys.isrStep]
  split_ifs with hsend hspace
  · refine ⟨fun h => absurd h hboot, fun h => ?_, hy.rx, fun _ => Or.inl (hwe hsend.1)⟩
    cases h
    exact fun _ => hwe hsend.1
  · obtain ⟨hre, -⟩ := getLsbD_and_not_controlWeMsk y.state.irqEnable
    refine ⟨fun h => absurd h hboot, fun h => ?_, fun h => hy.rx (hre.symm.trans h), fun h => ?_⟩
    · cases h
      exact trivial
    · exact absurd ⟨hspace, h⟩ hsend
  · refine hy.of_isr hisr rfl rfl rfl rfl rfl rfl fun h => ?_
    cases h
    exact trivial

theorem Irq.isrStep (hbase : y.Base) (hrx : y.Rx) (hy : y.Irq) {pc : Isr} (hisr : y.isr = some pc)
    (h₁ h₂ : Host) : (y.isrStep h₁ h₂ pc).Irq := by
  cases pc with
  | control => exact hy.control hbase hisr
  | rx word data => exact hy.rxStep hbase hrx hisr
  | rxEnd word data => exact hy.rxEnd hisr
  | rxDummy word =>
    obtain ⟨hwi, hri⟩ := hy.isr hisr
    refine hy.of_isr hisr rfl rfl rfl rfl rfl rfl fun h => ?_
    cases h
    exact ⟨hwi, Or.inl hri⟩
  | tx word => exact hy.txStep hisr
  | txLoop space => exact hy.txLoop hisr
  | txDummy =>
    refine hy.of_isr hisr rfl rfl rfl rfl rfl rfl fun h => ?_
    cases h
    exact trivial

/-! ### Runs -/

/-- The interrupt routine knows as much after a clock. -/
theorem IsrOk.tick {pc : Isr} (hpc : y.IsrOk pc) {l : Line} (hl : y.line.RxIdle l) :
    IsrOk { y with line := l } pc := by
  cases pc with
  | rx word data =>
    obtain ⟨hwi, hri, hre, hdata⟩ := hpc
    obtain ⟨xs, -, hrfifo⟩ := hl
    refine ⟨hwi, hri, hre, hdata.imp_left fun h => ⟨h.1, ?_⟩⟩
    show l.uart.rfifo ≠ []
    rw [hrfifo]
    exact List.append_ne_nil_of_left_ne_nil h.2 xs
  | _ => exact hpc

theorem Irq.next (hbase : y.Base) (hrx : y.Rx) (hy : y.Irq) (hnext : y.Next y') : y'.Irq := by
  cases hnext with
  | stay => exact hy
  | tick h => exact ⟨hy.boot, fun hisr => (hy.isr hisr).tick (hbase.ready.tick h).2.1, hy.rx, hy.tx⟩
  | boot h₁ h₂ hisr hmain => exact hy.of_boot hmain h₁ h₂
  | read h₁ h₂ hisr hmain => exact hy.readStep hrx hisr hmain
  | write h₁ h₂ hisr hmain => exact hy.writeStep hisr hmain
  | close hisr hmain =>
    have htx := hy.tx
    rw [hmain] at htx
    have hstep : ∀ {m : Main} {rs}, m ≠ .boot → m.buffer = [] →
        Irq { y with main := m, returns := rs } := fun hm hbuf =>
      hy.of_tx hisr (hmain ▸ Main.noConfusion) hm (by rw [hmain]; exact hbuf) rfl rfl
        fun h => Or.inl ((htx h).resolve_right Bool.noConfusion)
    unfold closeStep
    split_ifs <;> exact hstep Main.noConfusion rfl
  | closeHost hisr hmain =>
    have htx := hy.tx
    rw [hmain] at htx
    have hstep : ∀ {m : Main} {rs}, m ≠ .boot → m.buffer = [] →
        Irq { y with main := m, returns := rs } := fun hm hbuf =>
      hy.of_tx hisr (hmain ▸ Main.noConfusion) hm (by rw [hmain]; exact hbuf) rfl rfl
        fun h => Or.inl ((htx h).resolve_right Bool.noConfusion)
    unfold closeHostStep
    split_ifs <;> exact hstep Main.noConfusion rfl
  | isr h₁ h₂ hisr => exact hy.isrStep hbase hrx hisr h₁ h₂
  | irq hisr hmain =>
    refine ⟨fun h => absurd h hmain, fun h => ?_, hy.rx, hy.tx⟩
    cases h
    exact trivial
  | alarm h₁ h₂ h₃ h₄ hisr hmain =>
    unfold timeoutStep
    dsimp only
    split_ifs
    · exact ⟨fun h => absurd h hmain, isrOk_of_none hisr, hy.rx, hy.tx⟩
    · exact ⟨fun h => absurd h hmain, isrOk_of_none hisr, hy.rx, hy.tx⟩
    · exact ⟨fun h => absurd h hmain, isrOk_of_none hisr, hy.rx, hy.tx⟩
  | call c hisr hmain =>
    have htx := hy.tx
    rw [hmain] at htx
    refine hy.of_tx hisr (hmain ▸ Main.noConfusion) ?_ ?_ rfl rfl
      fun h => Or.inl ((htx h).resolve_right Bool.noConfusion)
    · cases c <;> exact Main.noConfusion
    · rw [hmain]
      cases c <;> rfl

/-- What the steps of a run keep. -/
structure Inv (y : Sys) : Prop where
  base : y.Base
  rx : y.Rx
  tx : y.Tx
  irq : y.Irq

theorem Inv.start (sysClk : Bool) : (Sys.start sysClk).Inv :=
  ⟨Base.start sysClk, Rx.start sysClk, Tx.start sysClk, Irq.start sysClk⟩

theorem Inv.step (hy : y.Inv) (e : Event) : (y.step e).Inv := by
  have hnext := next_step y e
  exact ⟨hy.base.next hnext, hy.rx.next hy.base hnext, hy.tx.next hy.base hnext,
    hy.irq.next hy.base hy.rx hnext⟩

theorem inv_run (sysClk : Bool) (es : List Event) : (run step (start sysClk) es).Inv :=
  run_induction (fun _ e hy => hy.step e) (Inv.start sysClk) es

/-- While the program waits for a byte the receive interrupt is on. -/
theorem Inv.ienAF (hy : y.Inv) (hmain : y.main ≠ .boot) (hring : y.rxRing = [])
    (hbuffer : y.main.buffer = []) : y.line.uart.ienAF = true := by
  rw [hy.base.ienAF]
  by_contra hre
  rcases hy.irq.rx (Bool.eq_false_iff.mpr hre) with hboot | hne | hbuf
  · exact hmain hboot
  · exact hne (hy.rx.rxRing_eq_nil_iff.mp hring)
  · exact hbuf hbuffer

/-- While bytes wait to be sent the transmit interrupt is on, or `write` is about to switch it
on. -/
theorem Inv.ienAE (hy : y.Inv) (hring : y.txRing ≠ []) (hen : y.main.enables = false) :
    y.line.uart.ienAE = true := by
  rw [hy.base.ienAE]
  have hne : y.state.txOut ≠ y.state.txIn :=
    fun h => hring (hy.tx.txRing_eq_nil_iff.mpr h)
  exact (hy.irq.tx hne).resolve_right (Bool.eq_false_iff.mp hen)

/-- **The enables**: in every run, once the driver is initialized, the receive interrupt is enabled
where the program has no byte and there is none in `rx_buf`, and the transmit interrupt is enabled
where there are bytes in `tx_buf`, unless `write` is about to enable it. -/
theorem ien_of_waiting (sysClk : Bool) (es : List Event) :
    ((run step (start sysClk) es).rxRing = [] → (run step (start sysClk) es).main.buffer = [] →
      (run step (start sysClk) es).main ≠ .boot →
        (run step (start sysClk) es).line.uart.ienAF = true) ∧
      ((run step (start sysClk) es).txRing ≠ [] →
        (run step (start sysClk) es).main.enables = false →
          (run step (start sysClk) es).line.uart.ienAE = true) := by
  have hy := inv_run sysClk es
  constructor
  · intro hring hbuffer hmain
    exact hy.ienAF hmain hring hbuffer
  · intro hring hen
    exact hy.ienAE hring hen

end Sys

/-! ### The interrupt line -/

/-- An enabled interrupt reaches the processor as soon as the peripheral has a reason for it: the
host has paused behind a byte, or the receive FIFO is almost full. -/
theorem Uart.avIrq_of_ienAF {s : Uart} (hen : s.ienAF = true)
    (hreason : s.pauseIrq = true ∨ s.fifoAF = true) : s.avIrq = true := by
  have hpending : s.ipenAF = true := by
    rw [ipenAF, hen]
    simpa using hreason
  rw [avIrq, hpending, Bool.or_true]

/-- So it does where the transmit FIFO is almost empty. -/
theorem Uart.avIrq_of_ienAE {s : Uart} (hen : s.ienAE = true) (hreason : s.fifoAE = true) :
    s.avIrq = true := by
  rw [avIrq, ipenAE, hen, hreason]
  rfl

/-- **No wake-up is lost**: in every run a reason for an interrupt that the program needs raises the
interrupt line. -/
theorem Sys.avIrq_of_waiting (sysClk : Bool) (es : List Event) :
    let y := run step (start sysClk) es
    (y.main ≠ .boot → y.rxRing = [] → y.main.buffer = [] →
      (y.line.uart.pauseIrq = true ∨ y.line.uart.fifoAF = true) → y.line.uart.avIrq = true) ∧
    (y.txRing ≠ [] → y.main.enables = false → y.line.uart.fifoAE = true →
      y.line.uart.avIrq = true) := by
  intro y
  have hy : y.Inv := inv_run sysClk es
  constructor
  · intro hmain hring hbuffer hreason
    exact Uart.avIrq_of_ienAF (hy.ienAF hmain hring hbuffer) hreason
  · intro hring hen hreason
    exact Uart.avIrq_of_ienAE (hy.ienAE hring hen) hreason

end Ptmch.JtagUart
