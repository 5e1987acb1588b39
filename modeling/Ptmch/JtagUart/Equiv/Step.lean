import Ptmch.JtagUart.Equiv.Device

/-!
# The driver: steps

`Sys.Next` is what a step can be.  The program and the interrupt routine leave the peripheral ready
for the next access, and `irq_enable` shows which interrupts it has enabled (`Sys.Base`).
-/

namespace Ptmch.JtagUart

open CLib Machine

/-! ### What the peripheral is left with -/

namespace Line

variable {l l' : Line}

theorem RxIdle.refl (l : Line) : RxIdle l l :=
  ⟨[], (List.append_nil _).symm, (List.append_nil _).symm⟩

theorem TxIdle.refl (l : Line) : TxIdle l l := ⟨rfl, Nat.le_refl _, rfl⟩

theorem IenIdle.refl (l : Line) : IenIdle l l := ⟨rfl, rfl⟩

end Line

namespace Sys

variable {y y' : Sys} {h₁ h₂ h₃ h₄ : Host}

/-! ### The steps -/

/-- What a step can be. -/
inductive Next (y : Sys) : Sys → Prop
  | stay : Next y y
  | tick (h : Host) : Next y { y with line := y.line.tick h }
  | boot (h₁ h₂ : Host) (hisr : y.isr = none) (hmain : y.main = .boot) : Next y (y.boot h₁ h₂)
  | read {pc : ReadPc} {c : ReadCall} (h₁ h₂ : Host) (hisr : y.isr = none)
      (hmain : y.main = .read pc c) : Next y (y.readStep c h₁ h₂ pc)
  | write {pc : WritePc} {c : WriteCall} (h₁ h₂ : Host) (hisr : y.isr = none)
      (hmain : y.main = .write pc c) : Next y (y.writeStep c h₁ h₂ pc)
  | close {nonblock : Bool} (hisr : y.isr = none) (hmain : y.main = .close nonblock) :
      Next y (y.closeStep nonblock)
  | closeHost {nonblock : Bool} (hisr : y.isr = none) (hmain : y.main = .closeHost nonblock) :
      Next y (y.closeHostStep nonblock)
  | isr {pc : Isr} (h₁ h₂ : Host) (hisr : y.isr = some pc) : Next y (y.isrStep h₁ h₂ pc)
  | irq (hisr : y.isr = none) (hmain : y.main ≠ .boot) (hirq : y.line.uart.avIrq = true) :
      Next y { y with isr := some .control }
  | alarm (h₁ h₂ h₃ h₄ : Host) (hisr : y.isr = none) (hmain : y.main ≠ .boot)
      (hclk : y.sysClk = true) : Next y (y.timeoutStep h₁ h₂ h₃ h₄)
  | call (c : Call) (hisr : y.isr = none) (hmain : y.main = .idle) :
      Next y { y with main := c.main }

theorem next_mainStep (y : Sys) (h₁ h₂ : Host) (hisr : y.isr = none) :
    Next y (y.mainStep h₁ h₂) := by
  unfold mainStep
  split
  next hmain => exact .boot h₁ h₂ hisr hmain
  next => exact .stay
  next pc c hmain => exact .read h₁ h₂ hisr hmain
  next pc c hmain => exact .write h₁ h₂ hisr hmain
  next nonblock hmain => exact .close hisr hmain
  next nonblock hmain => exact .closeHost hisr hmain

theorem next_step (y : Sys) (e : Event) : Next y (y.step e) := by
  cases e with
  | tick h => exact .tick h
  | cpu h₁ h₂ =>
    simp only [step]
    split
    next pc hisr => exact .isr h₁ h₂ hisr
    next hisr => exact next_mainStep y h₁ h₂ hisr
  | irq =>
    simp only [step]
    split_ifs with h
    · exact .irq h.1 h.2.1 h.2.2
    · exact .stay
  | alarm h₁ h₂ h₃ h₄ =>
    simp only [step]
    split_ifs with h
    · exact .alarm h₁ h₂ h₃ h₄ h.1 h.2.1 h.2.2
    · exact .stay
  | call c =>
    simp only [step]
    split_ifs with h
    · exact .call c h.1 h.2
    · exact .stay

/-! ### The interrupt routine and the alarm leave the program where it is -/

theorem isrStep_main (y : Sys) (h₁ h₂ : Host) (pc : Isr) : (y.isrStep h₁ h₂ pc).main = y.main := by
  cases pc with
  | control => rfl
  | rx control data =>
    simp only [isrStep]
    split_ifs <;> rfl
  | rxEnd control data =>
    simp only [isrStep]
    split_ifs <;> rfl
  | rxDummy control => rfl
  | tx control =>
    simp only [isrStep]
    split_ifs <;> rfl
  | txLoop space =>
    simp only [isrStep]
    split_ifs <;> rfl
  | txDummy => rfl

theorem isrStep_returns (y : Sys) (h₁ h₂ : Host) (pc : Isr) :
    (y.isrStep h₁ h₂ pc).returns = y.returns := by
  cases pc with
  | control => rfl
  | rx control data =>
    simp only [isrStep]
    split_ifs <;> rfl
  | rxEnd control data =>
    simp only [isrStep]
    split_ifs <;> rfl
  | rxDummy control => rfl
  | tx control =>
    simp only [isrStep]
    split_ifs <;> rfl
  | txLoop space =>
    simp only [isrStep]
    split_ifs <;> rfl
  | txDummy => rfl

theorem timeoutStep_main (y : Sys) (h₁ h₂ h₃ h₄ : Host) :
    (y.timeoutStep h₁ h₂ h₃ h₄).main = y.main ∧
      (y.timeoutStep h₁ h₂ h₃ h₄).returns = y.returns := by
  unfold timeoutStep
  dsimp only
  split_ifs <;> exact ⟨rfl, rfl⟩

/-! ### The peripheral between two steps -/

/-- The peripheral is ready for an access, and `irq_enable` shows its interrupt enables. -/
structure Base (y : Sys) : Prop where
  ready : y.line.Ready
  ienAE : y.line.uart.ienAE = y.state.irqEnable.getLsbD 1
  ienAF : y.line.uart.ienAF = y.state.irqEnable.getLsbD 0

theorem Base.start (sysClk : Bool) : (Sys.start sysClk).Base where
  ready := Line.Ready.reset
  ienAE := BitVec.getLsbD_zero.symm
  ienAF := BitVec.getLsbD_zero.symm

/-- A step that does not access the peripheral. -/
theorem Base.of_eq (hy : y.Base) (hline : y'.line = y.line)
    (hirq : y'.state.irqEnable = y.state.irqEnable) : y'.Base where
  ready := hline ▸ hy.ready
  ienAE := by rw [hline, hirq, hy.ienAE]
  ienAF := by rw [hline, hirq, hy.ienAF]

/-- A step that leaves the interrupt enables alone. -/
theorem Base.of_ienIdle (hy : y.Base) (hready : y'.line.Ready) (hien : y.line.IenIdle y'.line)
    (hirq : y'.state.irqEnable = y.state.irqEnable) : y'.Base where
  ready := hready
  ienAE := by rw [hien.ienAE, hirq, hy.ienAE]
  ienAF := by rw [hien.ienAF, hirq, hy.ienAF]

theorem Base.setIrqEnable (hy : y.Base) (irqEnable : Word) (h₁ h₂ : Host) :
    (y.setIrqEnable irqEnable h₁ h₂).Base := by
  obtain ⟨-, haf, hae⟩ := hy.ready.iowr_control irqEnable h₁ h₂
  exact ⟨(hy.ready.iowr true irqEnable h₁ h₂).1, hae, haf⟩

theorem Base.iord (hy : y.Base) (address : Bool) (h₁ h₂ : Host)
    (hline : y'.line = (y.line.iord address h₁ h₂).2)
    (hirq : y'.state.irqEnable = y.state.irqEnable) : y'.Base := by
  obtain ⟨hready, -, hien⟩ := hy.ready.iord address h₁ h₂
  exact hy.of_ienIdle (hline ▸ hready) (hline ▸ hien) hirq

theorem Base.readStep (hy : y.Base) (c : ReadCall) (h₁ h₂ : Host) (pc : ReadPc) :
    (y.readStep c h₁ h₂ pc).Base := by
  cases pc with
  | loadOut =>
    simp only [Sys.readStep]
    split_ifs <;> exact hy.of_eq rfl rfl
  | copy =>
    simp only [Sys.readStep]
    split_ifs <;> exact hy.of_eq rfl rfl
  | finish =>
    simp only [Sys.readStep]
    split_ifs
    · exact (hy.setIrqEnable _ h₁ h₂).of_eq rfl rfl
    · exact hy.of_eq rfl rfl
  | _ => exact hy.of_eq rfl rfl

theorem Base.writeStep (hy : y.Base) (c : WriteCall) (h₁ h₂ : Host) (pc : WritePc) :
    (y.writeStep c h₁ h₂ pc).Base := by
  cases pc with
  | enable => exact (hy.setIrqEnable _ h₁ h₂).of_eq rfl rfl
  | inner | loadIn | advance | spinOut | spinHost => exact hy.of_eq rfl rfl
  | _ =>
    simp only [Sys.writeStep]
    split_ifs <;> exact hy.of_eq rfl rfl

theorem Base.isrStep (hy : y.Base) (h₁ h₂ : Host) (pc : Isr) : (y.isrStep h₁ h₂ pc).Base := by
  cases pc with
  | control => exact hy.iord true h₁ h₂ rfl rfl
  | rx control data =>
    simp only [Sys.isrStep]
    split_ifs
    · exact hy.of_eq rfl rfl
    · exact hy.iord false h₁ h₂ rfl rfl
    · exact hy.iord false h₁ h₂ rfl rfl
  | rxEnd control data =>
    simp only [Sys.isrStep]
    split_ifs
    · exact (hy.setIrqEnable _ h₁ h₂).of_eq rfl rfl
    · exact hy.of_eq rfl rfl
  | rxDummy control => exact hy.iord true h₁ h₂ rfl rfl
  | tx control =>
    simp only [Sys.isrStep]
    split_ifs <;> exact hy.of_eq rfl rfl
  | txLoop space =>
    simp only [Sys.isrStep]
    split_ifs
    · exact hy.of_ienIdle (hy.ready.iowr false _ h₁ h₂).1 (hy.ready.iowr_data_ien _ h₁ h₂) rfl
    · exact (hy.setIrqEnable _ h₁ h₂).of_eq rfl rfl
    · exact hy.of_eq rfl rfl
  | txDummy => exact hy.iord true h₁ h₂ rfl rfl

theorem getLsbD_or_controlAcMsk (x : Word) {i : ℕ} (hi : i < 2) :
    (x ||| controlAcMsk).getLsbD i = x.getLsbD i := by
  rw [BitVec.getLsbD_or, controlAcMsk_eq, BitVec.getLsbD_twoPow]
  simp [show ¬(10 = i) by omega]

/-- The alarm writes the interrupt enables as they are. -/
theorem Base.timeoutStep (hy : y.Base) (h₁ h₂ h₃ h₄ : Host) :
    (y.timeoutStep h₁ h₂ h₃ h₄).Base := by
  simp only [Sys.timeoutStep]
  obtain ⟨hready, -, hien⟩ := hy.ready.iord true h₁ h₂
  split_ifs
  · obtain ⟨-, haf, hae⟩ := hready.iowr_control (y.state.irqEnable ||| controlAcMsk) h₃ h₄
    refine ⟨(hready.iowr true _ h₃ h₄).1, hae.trans ?_, haf.trans ?_⟩
    · exact getLsbD_or_controlAcMsk _ (by omega)
    · exact getLsbD_or_controlAcMsk _ (by omega)
  · exact hy.of_ienIdle hready hien rfl
  · exact hy.of_ienIdle hready hien rfl

theorem Base.next (hy : y.Base) (hnext : y.Next y') : y'.Base := by
  cases hnext with
  | stay => exact hy
  | tick h =>
    obtain ⟨hready, -, -, hien⟩ := hy.ready.tick h
    exact hy.of_ienIdle hready hien rfl
  | boot h₁ h₂ => exact (hy.setIrqEnable _ h₁ h₂).of_eq rfl rfl
  | read h₁ h₂ => exact hy.readStep _ h₁ h₂ _
  | write h₁ h₂ => exact hy.writeStep _ h₁ h₂ _
  | close =>
    unfold closeStep
    split_ifs <;> exact hy.of_eq rfl rfl
  | closeHost =>
    unfold closeHostStep
    split_ifs <;> exact hy.of_eq rfl rfl
  | isr h₁ h₂ => exact hy.isrStep h₁ h₂ _
  | irq => exact hy.of_eq rfl rfl
  | alarm h₁ h₂ h₃ h₄ => exact hy.timeoutStep h₁ h₂ h₃ h₄
  | call c => exact hy.of_eq rfl rfl

theorem Base.step (hy : y.Base) (e : Event) : (y.step e).Base := hy.next (next_step y e)

end Sys

end Ptmch.JtagUart
