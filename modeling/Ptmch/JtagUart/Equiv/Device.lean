import Ptmch.JtagUart.Driver

/-!
# The JTAG UART: what an access does

A clock moves a byte from the host into the receive FIFO and a byte from the transmit FIFO to the
host, if they like.  `RxIdle` and `TxIdle` say that this is all that happens to a FIFO; from them
and the clock in which the peripheral is accessed come the four accesses of the driver.

`Uart.Wf` holds under any traffic on the bus (`Uart.Wf.clk`): in particular the transmit FIFO has
room for the byte that is on its way into it.
-/

namespace Ptmch.JtagUart

open CLib

/-! ### The registers as words -/

theorem and_twoPow_eq_zero_iff (x : Word) {i : ℕ} (hi : i < 32) :
    x &&& BitVec.twoPow 32 i = 0 ↔ x.getLsbD i = false := by
  rw [BitVec.and_twoPow]
  split_ifs with h
  · rw [h]
    refine iff_of_false (fun h0 => ?_) Bool.noConfusion
    have hbit := congrArg (BitVec.getLsbD · i) h0
    simp [hi] at hbit
  · simpa using h

theorem dataRvalidMsk_eq : dataRvalidMsk = BitVec.twoPow 32 15 := rfl

theorem controlRiMsk_eq : controlRiMsk = BitVec.twoPow 32 8 := rfl

theorem controlWiMsk_eq : controlWiMsk = BitVec.twoPow 32 9 := rfl

theorem controlAcMsk_eq : controlAcMsk = BitVec.twoPow 32 10 := rfl

/-- The number of bytes in a FIFO as its 7 bits. -/
theorem toNat_used {n : ℕ} (hn : n ≤ fifoDepth) :
    (BitVec.ofBool (decide (n = fifoDepth)) ++ BitVec.ofNat 6 n).toNat = n := by
  rw [BitVec.toNat_append]
  rcases Nat.lt_or_eq_of_le hn with hlt | rfl
  · rw [decide_eq_false (by omega)]
    show 0 <<< 6 ||| n % 2 ^ 6 = n
    rw [Nat.zero_shiftLeft, Nat.zero_or]
    exact Nat.mod_eq_of_lt hlt
  · rfl

theorem toNat_room {b : BitVec 7} (hb : b.toNat ≤ fifoDepth) :
    (0x40#7 - b).toNat = 64 - b.toNat := by
  have h : b.toNat ≤ 64 := hb
  rw [BitVec.toNat_sub]
  show (2 ^ 7 - b.toNat + 64) % 2 ^ 7 = 64 - b.toNat
  omega

section Word

variable (a : BitVec 16) (f d : BitVec 8)

theorem getLsbD_flags {i : ℕ} (hi : i < 8) :
    (a ++ f ++ d : Word).getLsbD (8 + i) = f.getLsbD i := by
  rw [BitVec.getLsbD_append, if_neg (by omega), BitVec.getLsbD_append, if_pos (by omega),
    Nat.add_sub_cancel_left]

theorem toNat_wspace : (((a ++ f ++ d : Word) &&& controlWspaceMsk) >>> 16).toNat = a.toNat := by
  have hmsk : controlWspaceMsk = (BitVec.allOnes 16 ++ 0#8 ++ 0#8 : Word) := rfl
  rw [hmsk, BitVec.and_append, BitVec.and_append, BitVec.and_allOnes, BitVec.and_zero,
    BitVec.and_zero, BitVec.toNat_ushiftRight, BitVec.toNat_append, BitVec.toNat_append]
  simp [Nat.shiftRight_add _ 8 8]

theorem setWidth_data : ((a ++ f ++ d : Word) &&& dataDataMsk).setWidth 8 = d := by
  rw [BitVec.setWidth_and, BitVec.setWidth_append_eq_right]
  exact BitVec.and_allOnes

end Word

namespace Uart

variable (s : Uart)

theorem getLsbD_avReaddata {i : ℕ} (hi : i < 8) :
    s.avReaddata.getLsbD (8 + i) = s.flags.getLsbD i := by
  unfold avReaddata
  split_ifs
  · exact getLsbD_flags _ _ _ hi
  · exact getLsbD_flags _ _ _ hi

theorem getLsbD_rvalid : s.avReaddata.getLsbD 15 = s.rvalid := by
  rw [s.getLsbD_avReaddata (show 7 < 8 by omega), flags]
  repeat rw [BitVec.getLsbD_append]
  simp

theorem getLsbD_ipenAE : s.avReaddata.getLsbD 9 = s.ipenAE := by
  rw [s.getLsbD_avReaddata (show 1 < 8 by omega), flags]
  repeat rw [BitVec.getLsbD_append]
  simp

theorem getLsbD_ipenAF : s.avReaddata.getLsbD 8 = s.ipenAF := by
  rw [s.getLsbD_avReaddata (show 0 < 8 by omega), flags]
  repeat rw [BitVec.getLsbD_append]
  simp

variable {s}

theorem setWidth_avReaddata (h : s.read0 = true) :
    (s.avReaddata &&& dataDataMsk).setWidth 8 = s.fifoRdata := by
  rw [avReaddata, if_pos h]
  exact setWidth_data _ _ _

theorem toNat_rfifoUsed (h : s.rfifo.length ≤ fifoDepth) : s.rfifoUsed.toNat = s.rfifo.length :=
  toNat_used h

theorem toNat_wfifoUsed (h : s.wfifo.length ≤ fifoDepth) : s.wfifoUsed.toNat = s.wfifo.length :=
  toNat_used h

theorem toNat_wspace_avReaddata (h : s.read0 = false) (hw : s.wfifo.length ≤ fifoDepth) :
    ((s.avReaddata &&& controlWspaceMsk) >>> 16).toNat = fifoDepth - s.wfifo.length := by
  have hused := toNat_wfifoUsed hw
  rw [avReaddata, if_neg (by rw [h]; exact Bool.noConfusion), toNat_wspace, BitVec.toNat_append,
    toNat_room (hused ▸ hw), hused]
  simp [fifoDepth]

/-! ### Any traffic -/

/-- What holds in every clock, whatever the bus and the host do. -/
structure Wf (s : Uart) : Prop where
  rfifo_le : s.rfifo.length ≤ fifoDepth
  /-- the transmit FIFO has room for the byte on its way -/
  wfifo_le : s.wfifo.length + s.fifoWr.toNat ≤ fifoDepth
  /-- a byte is on its way only in the second clock of an access -/
  fifoWr : s.fifoWr = true → s.avWaitrequest = false
  read0 : s.read0 = true → s.avWaitrequest = false
  pauseIrq : s.pauseIrq = true → s.rfifo ≠ [] ∨ s.read0 = true
  fifoAF : s.fifoAF = true → s.rfifo ≠ []

theorem Wf.reset : Wf Uart.reset where
  rfifo_le := Nat.zero_le _
  wfifo_le := Nat.zero_le _
  fifoWr h := Bool.noConfusion h
  read0 h := Bool.noConfusion h
  pauseIrq h := Bool.noConfusion h
  fifoAF h := Bool.noConfusion h

variable {b : Bus} {h : Host}

theorem length_ite_tail_le (c : Bool) (xs : List Byte) :
    (if c then xs.tail else xs).length ≤ xs.length := by
  cases c with
  | false => exact Nat.le_refl _
  | true => exact List.length_tail ▸ Nat.sub_le _ _

theorem length_rfifo_clk (hs : s.Wf) : (s.clk b h).rfifo.length ≤ fifoDepth := by
  have hle := hs.rfifo_le
  show ((if s.fifoRd b then s.rfifo.tail else s.rfifo) ++
    if s.wrRfifo h then [h.tDat] else []).length ≤ fifoDepth
  rw [List.length_append]
  have htail := length_ite_tail_le (s.fifoRd b) s.rfifo
  by_cases hfull : s.rfifo.length = fifoDepth
  · have hwr : s.wrRfifo h = false := by simp [wrRfifo, rfifoFull, hfull]
    rw [hwr]
    exact Nat.le_trans htail hle
  · have hone : (if s.wrRfifo h then [h.tDat] else []).length ≤ 1 := by
      split_ifs <;> simp
    omega

theorem length_wfifo_clk (hs : s.Wf) :
    (s.clk b h).wfifo.length + (s.clk b h).fifoWr.toNat ≤ fifoDepth := by
  have hle := hs.wfifo_le
  have htail := length_ite_tail_le (s.rdWfifo h) s.wfifo
  show ((if s.rdWfifo h then s.wfifo.tail else s.wfifo) ++
    if s.fifoWr then [b.writedata.setWidth 8] else []).length +
      (if b.chipselect && !b.writeN && s.avWaitrequest && !b.address then !s.fifoFF
        else false).toNat ≤ fifoDepth
  rw [List.length_append]
  cases hwr : s.fifoWr with
  | true =>
    -- the second clock of a write: there is no other write in it
    rw [hwr] at hle
    rw [hs.fifoWr hwr]
    simp only [Bool.and_false, Bool.false_and, Bool.false_eq_true, if_false, if_true,
      List.length_cons, List.length_nil]
    exact Nat.le_trans (Nat.add_le_add_right htail 1) hle
  | false =>
    rw [hwr] at hle
    simp only [Bool.false_eq_true, if_false, List.length_nil, Nat.add_zero]
    by_cases hfull : s.wfifo.length = fifoDepth
    · have hff : s.fifoFF = true := by simp [fifoFF, hfull]
      rw [hff]
      simpa using Nat.le_trans htail hle
    · have hone : (if b.chipselect && !b.writeN && s.avWaitrequest && !b.address then !s.fifoFF
          else false).toNat ≤ 1 := Bool.toNat_le _
      simp only [Bool.toNat_false, Nat.add_zero] at hle
      omega

theorem rfifo_clk_ne_nil (hne : s.rfifo ≠ []) (hrd : s.fifoRd b = false) :
    (s.clk b h).rfifo ≠ [] := by
  refine List.append_ne_nil_of_left_ne_nil ?_ _
  rw [hrd]
  exact hne

theorem read0_clk_of_fifoRd (hrd : s.fifoRd b = true) : (s.clk b h).read0 = true := by
  unfold fifoRd at hrd
  split_ifs at hrd with hc
  · simp only [Bool.and_eq_true, Bool.not_eq_true'] at hc
    show (if b.chipselect && !b.readN && s.avWaitrequest then !b.address else false) = true
    simp [hc]

theorem Wf.clk (hs : s.Wf) : (s.clk b h).Wf where
  rfifo_le := length_rfifo_clk hs
  wfifo_le := length_wfifo_clk hs
  fifoWr hwr := by
    have hc : (b.chipselect && !b.writeN && s.avWaitrequest && !b.address) = true := by
      by_contra hc
      have : (s.clk b h).fifoWr = false := if_neg hc
      rw [this] at hwr
      exact Bool.noConfusion hwr
    simp only [Bool.and_eq_true, Bool.not_eq_true'] at hc
    show (!(b.chipselect && (!b.writeN || !b.readN) && s.avWaitrequest)) = false
    simp [hc]
  read0 hr := by
    have hc : (b.chipselect && !b.readN && s.avWaitrequest) = true := by
      by_contra hc
      have : (s.clk b h).read0 = false := if_neg hc
      rw [this] at hr
      exact Bool.noConfusion hr
    simp only [Bool.and_eq_true, Bool.not_eq_true'] at hc
    show (!(b.chipselect && (!b.writeN || !b.readN) && s.avWaitrequest)) = false
    simp [hc]
  pauseIrq hp := by
    have hne : s.rfifo ≠ [] := by
      have hp' : (if h.tPause && !s.fifoEF then true else if s.read0 then false
        else s.pauseIrq) = true := hp
      split_ifs at hp' with h1 h2
      · intro hnil
        simp [fifoEF, hnil] at h1
      · rcases hs.pauseIrq hp' with hne | hr
        · exact hne
        · exact absurd hr h2
    cases hrd : s.fifoRd b with
    | false => exact Or.inl (rfifo_clk_ne_nil hne hrd)
    | true => exact Or.inr (read0_clk_of_fifoRd hrd)
  fifoAF haf := by
    have hroom : (0x40#7 - s.rfifoUsed).toNat ≤ 8 := of_decide_eq_true haf
    have hused := toNat_rfifoUsed hs.rfifo_le
    rw [toNat_room (hused ▸ hs.rfifo_le), hused] at hroom
    have hlong : 56 ≤ s.rfifo.length := by omega
    intro hnil
    have hlen : (s.clk b h).rfifo.length = 0 := by rw [hnil]; rfl
    have hlen' : (if s.fifoRd b then s.rfifo.tail else s.rfifo).length = 0 := by
      have : (s.clk b h).rfifo.length = (if s.fifoRd b then s.rfifo.tail else s.rfifo).length +
        (if s.wrRfifo h then [h.tDat] else []).length := List.length_append
      omega
    split_ifs at hlen'
    · rw [List.length_tail] at hlen'
      omega
    · omega

end Uart

/-! ### What the host does to the FIFOs -/

namespace Line

/-- The bytes that have been written to the transmit FIFO, in their order. -/
def outbound (l : Line) : List Byte :=
  l.received ++ (if l.uart.rVal then [l.uart.rDat] else []) ++ l.uart.wfifo

/-- The processor leaves the receive FIFO alone. -/
def RxIdle (l l' : Line) : Prop :=
  ∃ xs, l'.sent = l.sent ++ xs ∧ l'.uart.rfifo = l.uart.rfifo ++ xs

/-- The processor leaves the transmit FIFO alone. -/
structure TxIdle (l l' : Line) : Prop where
  outbound : l'.outbound = l.outbound
  length_wfifo : l'.uart.wfifo.length ≤ l.uart.wfifo.length
  woverflow : l'.uart.woverflow = l.uart.woverflow

/-- The processor leaves the interrupt enables alone. -/
structure IenIdle (l l' : Line) : Prop where
  ienAE : l'.uart.ienAE = l.uart.ienAE
  ienAF : l'.uart.ienAF = l.uart.ienAF

variable {l l₁ l₂ : Line}

theorem RxIdle.trans (h₁ : RxIdle l l₁) (h₂ : RxIdle l₁ l₂) : RxIdle l l₂ := by
  obtain ⟨xs, hs₁, hr₁⟩ := h₁
  obtain ⟨ys, hs₂, hr₂⟩ := h₂
  refine ⟨xs ++ ys, ?_, ?_⟩
  · rw [hs₂, hs₁, List.append_assoc]
  · rw [hr₂, hr₁, List.append_assoc]

theorem TxIdle.trans (h₁ : TxIdle l l₁) (h₂ : TxIdle l₁ l₂) : TxIdle l l₂ where
  outbound := h₂.outbound.trans h₁.outbound
  length_wfifo := Nat.le_trans h₂.length_wfifo h₁.length_wfifo
  woverflow := h₂.woverflow.trans h₁.woverflow

theorem IenIdle.trans (h₁ : IenIdle l l₁) (h₂ : IenIdle l₁ l₂) : IenIdle l l₂ where
  ienAE := h₂.ienAE.trans h₁.ienAE
  ienAF := h₂.ienAF.trans h₁.ienAF

variable {b : Bus} {h : Host}

/-- A clock leaves the bytes on their way where they are, but for the one that is written. -/
theorem outbound_clk (l : Line) (b : Bus) (h : Host) :
    (l.clk b h).outbound =
      l.outbound ++ if l.uart.fifoWr then [b.writedata.setWidth 8] else [] := by
  have htake : (if (l.clk b h).uart.rVal then [(l.clk b h).uart.rDat] else []) ++
      (if l.uart.rdWfifo h then l.uart.wfifo.tail else l.uart.wfifo) = l.uart.wfifo := by
    show (if h.rEna && !l.uart.wfifoEmpty then
        [if h.rEna && !l.uart.wfifoEmpty then l.uart.wfifo.headD l.uart.rDat else l.uart.rDat]
      else []) ++ (if h.rEna && !l.uart.wfifoEmpty then l.uart.wfifo.tail else l.uart.wfifo) = _
    split_ifs with hc
    · cases hw : l.uart.wfifo with
      | nil => simp [Uart.wfifoEmpty, hw] at hc
      | cons x xs => rfl
    · rfl
  show l.received ++ (if l.uart.rVal then [l.uart.rDat] else []) ++
    (if (l.clk b h).uart.rVal then [(l.clk b h).uart.rDat] else []) ++
    ((if l.uart.rdWfifo h then l.uart.wfifo.tail else l.uart.wfifo) ++
      if l.uart.fifoWr then [b.writedata.setWidth 8] else []) = _
  rw [← List.append_assoc, List.append_assoc (l.received ++ _), htake]
  rfl

theorem rxIdle_clk (hrd : l.uart.fifoRd b = false) : RxIdle l (l.clk b h) := by
  refine ⟨if l.uart.wrRfifo h then [h.tDat] else [], rfl, ?_⟩
  show (if l.uart.fifoRd b then _ else _) ++ _ = _
  rw [hrd]
  rfl

/-- The clock in which a byte leaves the receive FIFO. -/
theorem rfifo_clk_of_fifoRd (hrd : l.uart.fifoRd b = true) :
    ∃ xs, (l.clk b h).sent = l.sent ++ xs ∧ (l.clk b h).uart.rfifo = l.uart.rfifo.tail ++ xs := by
  refine ⟨if l.uart.wrRfifo h then [h.tDat] else [], rfl, ?_⟩
  show (if l.uart.fifoRd b then _ else _) ++ _ = _
  rw [hrd]
  rfl

theorem txIdle_clk (hwr : l.uart.fifoWr = false)
    (hb : (b.chipselect && !b.writeN && l.uart.avWaitrequest && !b.address) = false) :
    TxIdle l (l.clk b h) where
  outbound := by
    rw [outbound_clk, hwr]
    exact List.append_nil _
  length_wfifo := by
    show ((if l.uart.rdWfifo h then l.uart.wfifo.tail else l.uart.wfifo) ++
      if l.uart.fifoWr then [b.writedata.setWidth 8] else []).length ≤ _
    rw [hwr, List.length_append]
    exact Uart.length_ite_tail_le _ _
  woverflow := by
    show (if b.chipselect && !b.writeN && l.uart.avWaitrequest && !b.address then _ else _) = _
    rw [hb]
    rfl

theorem ienIdle_clk
    (hb : (b.chipselect && !b.writeN && l.uart.avWaitrequest && b.address) = false) :
    IenIdle l (l.clk b h) where
  ienAE := by
    show (if b.chipselect && !b.writeN && l.uart.avWaitrequest && b.address then _ else _) = _
    rw [hb]
    rfl
  ienAF := by
    show (if b.chipselect && !b.writeN && l.uart.avWaitrequest && b.address then _ else _) = _
    rw [hb]
    rfl

/-! ### Accesses -/

/-- Between two accesses. -/
structure Ready (l : Line) : Prop where
  wf : l.uart.Wf
  waitrequest : l.uart.avWaitrequest = true

theorem Ready.reset : Line.reset.Ready := ⟨Uart.Wf.reset, rfl⟩

theorem Ready.fifoWr (hl : l.Ready) : l.uart.fifoWr = false := by
  cases hwr : l.uart.fifoWr with
  | false => rfl
  | true => exact absurd hl.waitrequest (by rw [hl.wf.fifoWr hwr]; exact Bool.noConfusion)

theorem Ready.read0 (hl : l.Ready) : l.uart.read0 = false := by
  cases hr : l.uart.read0 with
  | false => rfl
  | true => exact absurd hl.waitrequest (by rw [hl.wf.read0 hr]; exact Bool.noConfusion)

theorem Ready.length_wfifo (hl : l.Ready) : l.uart.wfifo.length ≤ fifoDepth :=
  Nat.le_trans (Nat.le_add_right _ _) hl.wf.wfifo_le

variable {h₁ h₂ : Host}

/-- The second clock of an access. -/
theorem ready_clk_clk (hl : l.Ready) (b : Bus) (h₁ h₂ : Host)
    (hb : (b.chipselect && (!b.writeN || !b.readN)) = true) :
    (l.clk b h₁).uart.avWaitrequest = false ∧ ((l.clk b h₁).clk b h₂).Ready := by
  have hwait : (l.clk b h₁).uart.avWaitrequest = false := by
    show (!(b.chipselect && (!b.writeN || !b.readN) && l.uart.avWaitrequest)) = false
    rw [hb, hl.waitrequest]
    rfl
  refine ⟨hwait, hl.wf.clk.clk, ?_⟩
  show (!(b.chipselect && (!b.writeN || !b.readN) && (l.clk b h₁).uart.avWaitrequest)) = true
  rw [hwait, Bool.and_false]
  rfl

/-- In the second clock the bus moves no byte out of the receive FIFO. -/
theorem fifoRd_eq_false {s : Uart} (hs : s.avWaitrequest = false) : s.fifoRd b = false := by
  unfold Uart.fifoRd
  rw [hs, Bool.and_false]
  rfl

theorem Ready.tick (hl : l.Ready) (h : Host) :
    (l.tick h).Ready ∧ RxIdle l (l.tick h) ∧ TxIdle l (l.tick h) ∧ IenIdle l (l.tick h) :=
  ⟨⟨hl.wf.clk, rfl⟩, rxIdle_clk rfl, txIdle_clk hl.fifoWr rfl, ienIdle_clk rfl⟩

/-- **Reading a register** leaves the transmit side alone. -/
theorem Ready.iord (hl : l.Ready) (address : Bool) (h₁ h₂ : Host) :
    (l.iord address h₁ h₂).2.Ready ∧ TxIdle l (l.iord address h₁ h₂).2 ∧
      IenIdle l (l.iord address h₁ h₂).2 := by
  obtain ⟨-, hready⟩ := ready_clk_clk hl (Bus.read address) h₁ h₂ rfl
  have hwr : (l.clk (Bus.read address) h₁).uart.fifoWr = false := rfl
  exact ⟨hready, (txIdle_clk hl.fifoWr rfl).trans (txIdle_clk hwr rfl),
    (ienIdle_clk rfl).trans (ienIdle_clk rfl)⟩

theorem Ready.iord_control (hl : l.Ready) (h₁ h₂ : Host) : RxIdle l (l.iord true h₁ h₂).2 := by
  obtain ⟨hwait, -⟩ := ready_clk_clk hl (Bus.read true) h₁ h₂ rfl
  refine (rxIdle_clk ?_).trans (rxIdle_clk (fifoRd_eq_false hwait))
  show (if true && !false && l.uart.avWaitrequest && !true then _ else _) = _
  rw [hl.waitrequest]
  rfl

/-- `RI` in the control register -/
theorem Ready.iord_ri (hl : l.Ready) (h : (l.iord true h₁ h₂).1 &&& controlRiMsk ≠ 0) :
    l.uart.ienAF = true ∧ (l.iord true h₁ h₂).2.uart.rfifo ≠ [] := by
  rw [controlRiMsk_eq, Ne, and_twoPow_eq_zero_iff _ (by omega), Bool.not_eq_false] at h
  have hpen : (l.clk (Bus.read true) h₁).uart.ipenAF = true := (Uart.getLsbD_ipenAF _).symm.trans h
  obtain ⟨hwait, -⟩ := ready_clk_clk hl (Bus.read true) h₁ h₂ rfl
  unfold Uart.ipenAF at hpen
  simp only [Bool.and_eq_true, Bool.or_eq_true] at hpen
  refine ⟨hpen.1, Uart.rfifo_clk_ne_nil ?_ (fifoRd_eq_false hwait)⟩
  have hwf := hl.wf.clk (b := Bus.read true) (h := h₁)
  rcases hpen.2 with hp | haf
  · rcases hwf.pauseIrq hp with hne | hr
    · exact hne
    · have : (if true && !false && l.uart.avWaitrequest then !true else false) = true := hr
      rw [hl.waitrequest] at this
      exact Bool.noConfusion this
  · exact hwf.fifoAF haf

/-- `WSPACE` in the control register -/
theorem Ready.iord_wspace (hl : l.Ready) (h₁ h₂ : Host) :
    (((l.iord true h₁ h₂).1 &&& controlWspaceMsk) >>> 16).toNat ≤
      fifoDepth - (l.iord true h₁ h₂).2.uart.wfifo.length := by
  have hr : (l.clk (Bus.read true) h₁).uart.read0 = false := by
    show (if true && !false && l.uart.avWaitrequest then !true else false) = false
    rw [hl.waitrequest]
    rfl
  have hwf := hl.wf.clk (b := Bus.read true) (h := h₁)
  have hle : (l.clk (Bus.read true) h₁).uart.wfifo.length ≤ fifoDepth :=
    Nat.le_trans (Nat.le_add_right _ _) hwf.wfifo_le
  have htx : TxIdle (l.clk (Bus.read true) h₁) (l.iord true h₁ h₂).2 := txIdle_clk rfl rfl
  have hlen := htx.length_wfifo
  show ((Uart.avReaddata _ &&& _) >>> 16).toNat ≤ _
  rw [Uart.toNat_wspace_avReaddata hr hle]
  omega

/-- `WI` in the control register -/
theorem Ready.iord_wi (hl : l.Ready) (h : (l.iord true h₁ h₂).1 &&& controlWiMsk ≠ 0) :
    l.uart.ienAE = true ∧ 0 < (((l.iord true h₁ h₂).1 &&& controlWspaceMsk) >>> 16).toNat := by
  rw [controlWiMsk_eq, Ne, and_twoPow_eq_zero_iff _ (by omega), Bool.not_eq_false] at h
  have hpen : (l.clk (Bus.read true) h₁).uart.ipenAE = true := (Uart.getLsbD_ipenAE _).symm.trans h
  unfold Uart.ipenAE at hpen
  rw [Bool.and_eq_true] at hpen
  refine ⟨hpen.1, ?_⟩
  -- the FIFO was almost empty in the clock before
  have hae : l.uart.wfifoUsed.toNat ≤ 8 := of_decide_eq_true hpen.2
  rw [Uart.toNat_wfifoUsed hl.length_wfifo] at hae
  have hr : (l.clk (Bus.read true) h₁).uart.read0 = false := by
    show (if true && !false && l.uart.avWaitrequest then !true else false) = false
    rw [hl.waitrequest]
    rfl
  have htx : TxIdle l (l.clk (Bus.read true) h₁) := txIdle_clk hl.fifoWr rfl
  have hlen := Nat.le_trans htx.length_wfifo hae
  show 0 < ((Uart.avReaddata _ &&& _) >>> 16).toNat
  rw [Uart.toNat_wspace_avReaddata hr (Nat.le_trans hlen (by decide)), fifoDepth]
  omega

/-- Reading the data register takes the next byte. -/
theorem Ready.iord_data {x : Byte} {rest : List Byte} (hl : l.Ready)
    (hr : l.uart.rfifo = x :: rest) (h₁ h₂ : Host) :
    (l.iord false h₁ h₂).1 &&& dataRvalidMsk ≠ 0 ∧
      ((l.iord false h₁ h₂).1 &&& dataDataMsk).setWidth 8 = x ∧
      ∃ xs, (l.iord false h₁ h₂).2.sent = l.sent ++ xs ∧
        (l.iord false h₁ h₂).2.uart.rfifo = rest ++ xs := by
  obtain ⟨hwait, -⟩ := ready_clk_clk hl (Bus.read false) h₁ h₂ rfl
  have hrd : l.uart.fifoRd (Bus.read false) = true := by
    show (if true && !false && l.uart.avWaitrequest && !false then !l.uart.rfifo.isEmpty
      else false) = true
    rw [hl.waitrequest, hr]
    rfl
  refine ⟨?_, ?_, ?_⟩
  · rw [dataRvalidMsk_eq, Ne, and_twoPow_eq_zero_iff _ (by omega), Bool.not_eq_false]
    refine (Uart.getLsbD_rvalid _).trans ?_
    show (if true && !false && l.uart.avWaitrequest && !false then !l.uart.rfifo.isEmpty
      else l.uart.rvalid) = true
    rw [hl.waitrequest, hr]
    rfl
  · refine (Uart.setWidth_avReaddata (Uart.read0_clk_of_fifoRd hrd)).trans ?_
    show (if l.uart.fifoRd (Bus.read false) then l.uart.rfifo.headD _ else _) = x
    rw [hrd, hr]
    rfl
  · obtain ⟨xs, hs₁, hr₁⟩ := rfifo_clk_of_fifoRd (h := h₁) hrd
    obtain ⟨ys, hs₂, hr₂⟩ := rxIdle_clk (b := Bus.read false) (h := h₂)
      (fifoRd_eq_false hwait)
    refine ⟨xs ++ ys, ?_, ?_⟩
    · rw [← List.append_assoc, ← hs₁]
      exact hs₂
    · rw [hr, List.tail_cons] at hr₁
      rw [← List.append_assoc, ← hr₁]
      exact hr₂

/-- Reading the data register with nothing to take. -/
theorem Ready.iord_data_nil (hl : l.Ready) (hr : l.uart.rfifo = []) (h₁ h₂ : Host) :
    (l.iord false h₁ h₂).1 &&& dataRvalidMsk = 0 ∧ RxIdle l (l.iord false h₁ h₂).2 := by
  obtain ⟨hwait, -⟩ := ready_clk_clk hl (Bus.read false) h₁ h₂ rfl
  constructor
  · rw [dataRvalidMsk_eq, and_twoPow_eq_zero_iff _ (by omega)]
    refine (Uart.getLsbD_rvalid _).trans ?_
    show (if true && !false && l.uart.avWaitrequest && !false then !l.uart.rfifo.isEmpty
      else l.uart.rvalid) = false
    rw [hl.waitrequest, hr]
    rfl
  · refine (rxIdle_clk ?_).trans (rxIdle_clk (fifoRd_eq_false hwait))
    show (if true && !false && l.uart.avWaitrequest && !false then !l.uart.rfifo.isEmpty
      else false) = false
    rw [hl.waitrequest, hr]
    rfl

/-- **Writing a register** leaves the receive side alone. -/
theorem Ready.iowr (hl : l.Ready) (address : Bool) (data : Word) (h₁ h₂ : Host) :
    (l.iowr address data h₁ h₂).Ready ∧ RxIdle l (l.iowr address data h₁ h₂) := by
  obtain ⟨-, hready⟩ := ready_clk_clk hl (Bus.write address data) h₁ h₂ rfl
  exact ⟨hready, (rxIdle_clk rfl).trans (rxIdle_clk rfl)⟩

theorem Ready.iowr_control (hl : l.Ready) (data : Word) (h₁ h₂ : Host) :
    TxIdle l (l.iowr true data h₁ h₂) ∧
      (l.iowr true data h₁ h₂).uart.ienAF = data.getLsbD 0 ∧
      (l.iowr true data h₁ h₂).uart.ienAE = data.getLsbD 1 := by
  obtain ⟨hwait, -⟩ := ready_clk_clk hl (Bus.write true data) h₁ h₂ rfl
  have hwr : (l.clk (Bus.write true data) h₁).uart.fifoWr = false := by
    show (if true && !false && l.uart.avWaitrequest && !true then _ else _) = _
    rw [hl.waitrequest]
    rfl
  have hfst : TxIdle l (l.clk (Bus.write true data) h₁) :=
    txIdle_clk hl.fifoWr (by rw [hl.waitrequest]; rfl)
  have hsnd : IenIdle (l.clk (Bus.write true data) h₁) (l.iowr true data h₁ h₂) :=
    ienIdle_clk (by rw [hwait]; rfl)
  refine ⟨hfst.trans (txIdle_clk hwr (by rw [hwait]; rfl)), ?_, ?_⟩
  · refine hsnd.ienAF.trans ?_
    show (if true && !false && l.uart.avWaitrequest && true then data.getLsbD 0 else _) = _
    rw [hl.waitrequest]
    rfl
  · refine hsnd.ienAE.trans ?_
    show (if true && !false && l.uart.avWaitrequest && true then data.getLsbD 1 else _) = _
    rw [hl.waitrequest]
    rfl

theorem Ready.iowr_data_ien (hl : l.Ready) (data : Word) (h₁ h₂ : Host) :
    IenIdle l (l.iowr false data h₁ h₂) := by
  obtain ⟨hwait, -⟩ := ready_clk_clk hl (Bus.write false data) h₁ h₂ rfl
  have hfst : IenIdle l (l.clk (Bus.write false data) h₁) :=
    ienIdle_clk (by rw [hl.waitrequest]; rfl)
  exact hfst.trans (ienIdle_clk (by rw [hwait]; rfl))

/-- Writing the data register with room in the FIFO. -/
theorem Ready.iowr_data (hl : l.Ready) (hroom : l.uart.wfifo.length < fifoDepth) (data : Word)
    (h₁ h₂ : Host) :
    (l.iowr false data h₁ h₂).outbound = l.outbound ++ [data.setWidth 8] ∧
      (l.iowr false data h₁ h₂).uart.wfifo.length ≤ l.uart.wfifo.length + 1 ∧
      (l.iowr false data h₁ h₂).uart.woverflow = false := by
  obtain ⟨hwait, -⟩ := ready_clk_clk hl (Bus.write false data) h₁ h₂ rfl
  have hff : l.uart.fifoFF = false := decide_eq_false (Nat.ne_of_lt hroom)
  have hwr : (l.clk (Bus.write false data) h₁).uart.fifoWr = true := by
    show (if true && !false && l.uart.avWaitrequest && !false then !l.uart.fifoFF else _) = _
    rw [hl.waitrequest, hff]
    rfl
  refine ⟨?_, ?_, ?_⟩
  · rw [Line.iowr, outbound_clk, hwr, outbound_clk, hl.fifoWr]
    show l.outbound ++ [] ++ _ = _
    rw [List.append_nil]
    rfl
  · have hfst : (l.clk (Bus.write false data) h₁).uart.wfifo.length ≤ l.uart.wfifo.length := by
      show ((if l.uart.rdWfifo h₁ then l.uart.wfifo.tail else l.uart.wfifo) ++
        if l.uart.fifoWr then [data.setWidth 8] else []).length ≤ _
      rw [hl.fifoWr, List.length_append]
      exact Uart.length_ite_tail_le _ _
    refine Nat.le_trans ?_ (Nat.add_le_add_right hfst 1)
    show ((if Uart.rdWfifo _ h₂ then List.tail _ else _) ++
      if (l.clk (Bus.write false data) h₁).uart.fifoWr then [data.setWidth 8] else []).length ≤ _
    rw [hwr, List.length_append]
    exact Nat.add_le_add_right (Uart.length_ite_tail_le _ _) 1
  · show (if true && !false && (l.clk (Bus.write false data) h₁).uart.avWaitrequest && !false
      then _ else (if true && !false && l.uart.avWaitrequest && !false then l.uart.fifoFF
        else _)) = _
    rw [hwait, hl.waitrequest, hff]
    rfl

end Line

end Ptmch.JtagUart
