import Ptmch.JtagUart.Equiv.Device

/-!
# The JTAG UART: any traffic

What the peripheral promises to any master, whatever the host does: the reads of the data register
that are valid take the bytes of the host in their order, and the host is given in their order the
bytes of the writes that do not report an overflow (`Line.traffic`).
-/

namespace Ptmch.JtagUart

open CLib Machine

/-- What a master does. -/
inductive Access
  | idle (h : Host)
  | read (address : Bool) (h₁ h₂ : Host)
  | write (address : Bool) (data : Word) (h₁ h₂ : Host)
  deriving DecidableEq, Repr

namespace Line

def access (l : Line) : Access → Line
  | .idle h => l.tick h
  | .read address h₁ h₂ => (l.iord address h₁ h₂).2
  | .write address data h₁ h₂ => l.iowr address data h₁ h₂

/-- The byte that a valid read of the data register takes. -/
def readByte (l : Line) : Access → Option Byte
  | .read false h₁ h₂ =>
    let data := (l.iord false h₁ h₂).1
    if data &&& dataRvalidMsk = 0 then none else some ((data &&& dataDataMsk).setWidth 8)
  | _ => none

/-- The byte of a write of the data register that reports no overflow. -/
def writtenByte (l : Line) : Access → Option Byte
  | .write false data h₁ h₂ =>
    if (l.iowr false data h₁ h₂).uart.woverflow then none else some (data.setWidth 8)
  | _ => none

variable {l : Line}

/-- Writing the data register with no room in the FIFO. -/
theorem Ready.iowr_data_full (hl : l.Ready) (hfull : l.uart.wfifo.length = fifoDepth) (data : Word)
    (h₁ h₂ : Host) :
    (l.iowr false data h₁ h₂).outbound = l.outbound ∧
      (l.iowr false data h₁ h₂).uart.woverflow = true := by
  obtain ⟨hwait, -⟩ := ready_clk_clk hl (Bus.write false data) h₁ h₂ rfl
  have hff : l.uart.fifoFF = true := decide_eq_true hfull
  have hwr : (l.clk (Bus.write false data) h₁).uart.fifoWr = false := by
    show (if true && !false && l.uart.avWaitrequest && !false then !l.uart.fifoFF else _) = _
    rw [hl.waitrequest, hff]
    rfl
  constructor
  · rw [Line.iowr, outbound_clk, hwr, outbound_clk, hl.fifoWr]
    show l.outbound ++ [] ++ [] = _
    rw [List.append_nil, List.append_nil]
  · show (if true && !false && (l.clk (Bus.write false data) h₁).uart.avWaitrequest && !false
      then _ else (if true && !false && l.uart.avWaitrequest && !false then l.uart.fifoFF
        else _)) = _
    rw [hwait, hl.waitrequest, hff]
    rfl

theorem ready_access (hl : l.Ready) (a : Access) : (l.access a).Ready := by
  cases a with
  | idle h => exact (hl.tick h).1
  | read address h₁ h₂ => exact (hl.iord address h₁ h₂).1
  | write address data h₁ h₂ => exact (hl.iowr address data h₁ h₂).1

/-- What an access does to the receive side. -/
theorem rfifo_access (hl : l.Ready) (a : Access) :
    ∃ xs, (l.access a).sent = l.sent ++ xs ∧
      (l.readByte a).toList ++ (l.access a).uart.rfifo = l.uart.rfifo ++ xs := by
  cases a with
  | idle h => exact (hl.tick h).2.1
  | read address h₁ h₂ =>
    cases address with
    | true => exact hl.iord_control h₁ h₂
    | false =>
      cases hr : l.uart.rfifo with
      | nil =>
        obtain ⟨hvalid, xs, hsent, hrfifo⟩ := hl.iord_data_nil hr h₁ h₂
        refine ⟨xs, hsent, ?_⟩
        simp only [readByte]
        rw [if_pos hvalid, ← hr]
        exact hrfifo
      | cons x rest =>
        obtain ⟨hvalid, hdata, xs, hsent, hrfifo⟩ := hl.iord_data hr h₁ h₂
        refine ⟨xs, hsent, ?_⟩
        simp only [readByte]
        rw [if_neg hvalid, hdata]
        exact congrArg (x :: ·) hrfifo
  | write address data h₁ h₂ =>
    exact (hl.iowr address data h₁ h₂).2

/-- What an access does to the transmit side. -/
theorem outbound_access (hl : l.Ready) (a : Access) :
    (l.access a).outbound = l.outbound ++ (l.writtenByte a).toList := by
  cases a with
  | idle h => exact (hl.tick h).2.2.1.outbound.trans (List.append_nil _).symm
  | read address h₁ h₂ =>
    exact (hl.iord address h₁ h₂).2.1.outbound.trans (List.append_nil _).symm
  | write address data h₁ h₂ =>
    cases address with
    | true => exact (hl.iowr_control data h₁ h₂).1.outbound.trans (List.append_nil _).symm
    | false =>
      simp only [writtenByte, access]
      rcases Nat.lt_or_eq_of_le hl.length_wfifo with hroom | hfull
      · obtain ⟨hout, -, hover⟩ := hl.iowr_data hroom data h₁ h₂
        rw [hout, hover]
        rfl
      · obtain ⟨hout, hover⟩ := hl.iowr_data_full hfull data h₁ h₂
        rw [hout, hover]
        exact (List.append_nil _).symm

/-- **Any traffic**: the valid reads and what is left in the receive FIFO are what the host has
sent, and what is on its way to the host are the writes that have reported no overflow. -/
theorem traffic (as : List Access) :
    (run access reset as).sent =
        observe access readByte reset as ++ (run access reset as).uart.rfifo ∧
      (run access reset as).outbound = observe access writtenByte reset as := by
  have h : (run access reset as).Ready ∧
      (run access reset as).sent =
        observe access readByte reset as ++ (run access reset as).uart.rfifo ∧
      (run access reset as).outbound = observe access writtenByte reset as := by
    induction as using List.reverseRecOn with
    | nil => exact ⟨Ready.reset, rfl, rfl⟩
    | append_singleton as a ih =>
      obtain ⟨hready, hsent, hout⟩ := ih
      rw [run_concat, observe_concat, observe_concat]
      obtain ⟨xs, hsent', hrfifo⟩ := rfifo_access hready a
      refine ⟨ready_access hready a, ?_, ?_⟩
      · rw [hsent', hsent, List.append_assoc, List.append_assoc, hrfifo]
      · rw [outbound_access hready, hout]
  exact h.2

end Line

end Ptmch.JtagUart
