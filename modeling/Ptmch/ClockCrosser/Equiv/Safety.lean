import Ptmch.ClockCrosser.Device
import Ptmch.Machine.Line

/-!
## Safety of the clock crosser

The registers that a toggle of `in_data_toggle` goes through are one line: the synchronizer to
`out_clk`, `out_data_toggle_flopped`, and the synchronizer back to `in_clk`.  The newest toggle
fills a first part of it (`Inv`), since `in_ready` lets the next one in only when it has reached the
end.
-/

namespace Ptmch.ClockCrosser

open Machine

/-! ### Synchronizers -/

namespace Synchronizer

variable (s : Synchronizer) (din : Bool)

theorem stages_ne_nil : s.stages ≠ [] := List.cons_ne_nil _ _

theorem getLast_stages : s.stages.getLast s.stages_ne_nil = s.dout := List.getLast_cons s.ne_nil

theorem dout_mem_dreg : s.dout ∈ s.dreg := List.getLast_mem s.ne_nil

theorem dout_mem_stages : s.dout ∈ s.stages := List.mem_cons_of_mem _ s.dout_mem_dreg

@[simp] theorem stages_posedge : (s.posedge din).stages = din :: s.stages.dropLast := rfl

theorem length_stages_posedge : (s.posedge din).stages.length = s.stages.length := by
  rw [stages_posedge, List.length_cons, List.length_dropLast, stages, List.length_cons]
  simp

theorem stages_reset (n : ℕ) : (reset n).stages = List.replicate (n + 2) false := rfl

end Synchronizer

namespace Crosser

variable {α : Type*} (x : Crosser α) (e : Event α)

/-! ### What a step does -/

/-- The registers that a toggle goes through. -/
def line : List Bool := x.inToOut.stages ++ x.outDataToggleFlopped :: x.outToIn.stages

theorem line_ne_nil : x.line ≠ [] := List.append_ne_nil_of_right_ne_nil _ (List.cons_ne_nil _ _)

theorem getLast_line : x.line.getLast x.line_ne_nil = x.outToIn.dout :=
  calc x.line.getLast x.line_ne_nil
    _ = (x.outDataToggleFlopped :: x.outToIn.stages).getLast (List.cons_ne_nil _ _) :=
        List.getLast_append_of_ne_nil _ (List.cons_ne_nil _ _)
    _ = x.outToIn.stages.getLast x.outToIn.stages_ne_nil :=
        List.getLast_cons x.outToIn.stages_ne_nil
    _ = x.outToIn.dout := x.outToIn.getLast_stages

theorem inReady_iff : x.inReady = true ↔ x.outToIn.dout = x.inDataToggle := by
  unfold inReady
  simp

theorem outValid_iff : x.outValid = true ↔ x.inToOut.dout ≠ x.outDataToggleFlopped := by
  unfold outValid
  simp

variable {x e}

theorem inReady_of_accepted {d : α} (h : x.accepted e = some d) : x.inReady = true := by
  unfold accepted at h
  split_ifs at h with hr
  exact hr

theorem step_accepted {d : α} (h : x.accepted e = some d) :
    (x.step e).inDataToggle = !x.inDataToggle ∧ (x.step e).inDataBuffer = d := by
  have hr := inReady_of_accepted h
  unfold accepted at h
  rw [if_pos hr] at h
  cases e with
  | outClk r => exact absurd h (by simp [Event.offer])
  | inClk v w =>
    simp only [Event.offer, Option.ite_none_right_eq_some, Option.some.injEq] at h
    simp [step, posedgeIn, takeInData, hr, h]
  | both v w r tn fn seen =>
    simp only [Event.offer, Option.ite_none_right_eq_some, Option.some.injEq] at h
    simp [step, posedgeIn, takeInData, hr, h]

theorem takeInData_of_not_accepted {v : Bool} {d : α} (h : x.accepted (.inClk v d) = none) :
    x.takeInData v = false := by
  unfold takeInData
  cases v with
  | false => exact Bool.false_and _
  | true =>
    unfold accepted at h
    split_ifs at h with hr
    · exact absurd h (by simp [Event.offer])
    · rw [Bool.eq_false_iff.mpr hr, Bool.and_false]

theorem step_not_accepted (h : x.accepted e = none) :
    (x.step e).inDataToggle = x.inDataToggle ∧ (x.step e).inDataBuffer = x.inDataBuffer := by
  cases e with
  | outClk r => exact ⟨rfl, rfl⟩
  | inClk v w =>
    have ht : x.takeInData v = false := takeInData_of_not_accepted h
    simp [step, posedgeIn, ht]
  | both v w r tn fn seen =>
    have ht : x.takeInData v = false := takeInData_of_not_accepted h
    simp [step, posedgeIn, ht]

theorem delivered_eq_none (hv : x.outValid = false) : x.delivered e = none := by
  unfold delivered outDataTaken
  rw [hv, Bool.and_false]
  rfl

/-! ### The invariant -/

/-- The newest toggle leads the line, and where it is about to leave the synchronizer, the word that
came with it has been copied. -/
structure Inv (x : Crosser α) : Prop where
  led : Led x.inDataToggle x.line
  buffer : x.inDataToggle ∈ x.inToOut.dreg → x.outDataBuffer = x.inDataBuffer

theorem Inv.forall_line (h : x.Inv) (hr : x.inReady = true) : ∀ b ∈ x.line, b = x.inDataToggle := by
  apply h.led.eq_of_getLast x.line_ne_nil
  rw [getLast_line]
  exact (inReady_iff x).mp hr

theorem Inv.flopped (h : x.Inv) (hr : x.inReady = true) :
    x.outDataToggleFlopped = x.inDataToggle := h.forall_line hr _ (by simp [line])

theorem Inv.forall_inToOut (h : x.Inv) (hr : x.inReady = true) :
    ∀ b ∈ x.inToOut.stages, b = x.inDataToggle := fun b hb =>
  h.forall_line hr b (List.mem_append_left _ hb)

theorem Inv.forall_outToIn (h : x.Inv) (hr : x.inReady = true) :
    ∀ b ∈ x.outToIn.stages, b = x.inDataToggle := fun b hb =>
  h.forall_line hr b (List.mem_append_right _ (List.mem_cons_of_mem _ hb))

/-- Where `in_ready` is set, nothing is on the way. -/
theorem Inv.outValid_eq_false (h : x.Inv) (hr : x.inReady = true) : x.outValid = false := by
  rw [← Bool.not_eq_true, outValid_iff, not_not, h.flopped hr]
  exact h.forall_inToOut hr _ x.inToOut.dout_mem_stages

/-- Where `out_valid` is set, the newest word is on the way, and `out_data` shows it. -/
theorem Inv.of_outValid (h : x.Inv) (hv : x.outValid = true) :
    x.inToOut.dout = x.inDataToggle ∧ x.outDataToggleFlopped ≠ x.inDataToggle ∧
    x.outDataBuffer = x.inDataBuffer := by
  have hne := (outValid_iff x).mp hv
  have hled := (led_append.mp h.led).2.2
  have hflopped : x.outDataToggleFlopped ≠ x.inDataToggle := by
    intro hf
    apply hne
    rw [hf]
    exact hled (by simp [hf]) _ x.inToOut.dout_mem_stages
  have hdout : x.inToOut.dout = x.inDataToggle := by
    rw [Bool.eq_not_of_ne hne, Bool.eq_not_of_ne hflopped, Bool.not_not]
  exact ⟨hdout, hflopped, h.buffer (hdout ▸ x.inToOut.dout_mem_dreg)⟩

theorem inv_reset (zero : α) (n m : ℕ) : (reset zero n m).Inv where
  led := by
    apply led_of_forall_eq
    unfold line reset
    simp only [Synchronizer.stages_reset, List.mem_append, List.mem_cons, List.mem_replicate]
    rintro b (⟨-, rfl⟩ | rfl | ⟨-, rfl⟩) <;> rfl
  buffer := fun _ => rfl

/-! ### The invariant is kept -/

/-- A step that takes a word finds the line filled with the toggle that it flips. -/
theorem Inv.step_of_accepted (h : x.Inv) {d : α} (hd : x.accepted e = some d) : (x.step e).Inv := by
  have hr := inReady_of_accepted hd
  have htoggle := (step_accepted hd).1
  have hout : ∀ b ∈ x.inToOut.stages, b = x.inDataToggle := h.forall_inToOut hr
  have hback : ∀ b ∈ x.outToIn.stages, b = x.inDataToggle := h.forall_outToIn hr
  have hflopped := h.flopped hr
  have hnew : ∀ l : List Bool, (∀ b ∈ l, b = x.inDataToggle) → (!x.inDataToggle) ∉ l := by
    intro l hl hmem
    exact (Bool.not_eq_self _).mp (hl _ hmem)
  cases e with
  | outClk r =>
    unfold accepted at hd
    rw [if_pos hr] at hd
    exact absurd hd (by simp [Event.offer])
  | inClk v w =>
    constructor
    · rw [htoggle]
      apply led_of_not_mem
      apply hnew
      intro b hb
      simp only [line, step, posedgeIn, Synchronizer.stages_posedge, List.mem_append,
        List.mem_cons] at hb
      rcases hb with hb | rfl | rfl | hb
      · exact hout b hb
      · exact hflopped
      · exact hflopped
      · exact hback b (List.mem_of_mem_dropLast hb)
    · -- The new toggle is not in the synchronizer yet.
      intro hmem
      rw [htoggle] at hmem
      exact absurd hmem (hnew _ fun b hb => hout b (List.mem_cons_of_mem _ hb))
  | both v w r tn fn seen =>
    -- The registers of `out_clk` see the old toggle everywhere, whatever they are ready for.
    have hgiven : (x.posedgeOut r x.inDataToggle x.inDataBuffer).outDataToggleFlopped
        = x.inDataToggle := by
      unfold posedgeOut
      dsimp only
      split_ifs
      · exact hout _ x.inToOut.dout_mem_stages
      · exact hflopped
    constructor
    · rw [htoggle]
      unfold line step
      simp only [Synchronizer.stages_posedge, List.cons_append, hgiven, hflopped, ite_self]
      have htail : (!x.inDataToggle) ∉ x.inToOut.stages.dropLast ++ x.inDataToggle ::
          (x.posedgeIn v w x.inDataToggle).outToIn.stages := by
        apply hnew
        intro b hb
        simp only [posedgeIn, Synchronizer.stages_posedge, List.mem_append, List.mem_cons] at hb
        rcases hb with hb | rfl | rfl | hb
        · exact hout b (List.mem_of_mem_dropLast hb)
        · rfl
        · rfl
        · exact hback b (List.mem_of_mem_dropLast hb)
      exact led_cons.mpr ⟨fun hmem => absurd hmem htail, led_of_not_mem htail⟩
    · intro hmem
      rw [htoggle] at hmem
      exact absurd hmem (hnew _ fun b hb => hout b (List.mem_of_mem_dropLast hb))

/-- A toggle that `out_clk` takes goes from the end of the synchronizer to the next register, from
which the old one goes. -/
theorem posedgeOut_sublist (r toggle : Bool) (buffer : α) (l : List Bool) :
    (x.inToOut.stages.dropLast ++ (x.posedgeOut r toggle buffer).outDataToggleFlopped :: l).Sublist
      (x.inToOut.stages ++ x.outDataToggleFlopped :: l) := by
  unfold posedgeOut
  dsimp only
  split_ifs
  · have hsplit := List.dropLast_append_getLast x.inToOut.stages_ne_nil
    rw [x.inToOut.getLast_stages] at hsplit
    rw [← List.singleton_append, ← List.append_assoc, hsplit]
    exact (List.Sublist.refl _).append (List.sublist_cons_self _ _)
  · exact (List.dropLast_sublist _).append (List.Sublist.refl _)

/-- Otherwise the line is pushed, in part or as a whole. -/
theorem Inv.step_of_not_accepted (h : x.Inv) (hd : x.accepted e = none) : (x.step e).Inv := by
  obtain ⟨htoggle, hbuffer⟩ := step_not_accepted hd
  have hled := h.led
  constructor
  · rw [htoggle]
    cases e with
    | inClk v w =>
      -- `out_data_toggle_flopped` stays, and a copy of it enters the synchronizer behind it.
      apply hled.dup.sublist
      exact (List.Sublist.refl _).append (((List.dropLast_sublist _).cons_cons _).cons_cons _)
    | outClk r => exact (hled.sublist (posedgeOut_sublist r _ x.inDataBuffer _)).cons_self
    | both v w r tn fn seen =>
      have ht : x.takeInData v = false := takeInData_of_not_accepted hd
      have hline : (x.step (.both v w r tn fn seen)).line
          = x.inDataToggle :: (x.inToOut.stages.dropLast ++
            (x.posedgeOut r x.inDataToggle x.inDataBuffer).outDataToggleFlopped ::
            (if fn then (x.posedgeOut r x.inDataToggle x.inDataBuffer).outDataToggleFlopped
              else x.outDataToggleFlopped) :: x.outToIn.stages.dropLast) := by
        simp [line, step, posedgeIn, ht]
      rw [hline]
      apply Led.cons_self
      -- What enters the synchronizer back is the register before or after the same edge.
      have hback := ((List.dropLast_sublist x.outToIn.stages).cons_cons
        x.outDataToggleFlopped).cons_cons x.outDataToggleFlopped
      cases fn with
      | true =>
        apply (hled.sublist (posedgeOut_sublist r x.inDataToggle x.inDataBuffer _)).dup.sublist
        exact (List.Sublist.refl _).append (((List.dropLast_sublist _).cons_cons _).cons_cons _)
      | false =>
        apply hled.dup.sublist
        exact (posedgeOut_sublist r _ _ _).trans ((List.Sublist.refl _).append hback)
  · intro hmem
    cases e with
    | inClk v w =>
      rw [hbuffer]
      rw [htoggle] at hmem
      exact h.buffer hmem
    | outClk r => rfl
    | both v w r tn fn seen =>
      -- No word is taken, so `in_data_buffer` does not change while `out_clk` reads it.
      have ht : x.takeInData v = false := takeInData_of_not_accepted hd
      rw [hbuffer]
      simp [step, ht]

theorem inv_step (h : x.Inv) (e : Event α) : (x.step e).Inv := by
  cases hd : x.accepted e with
  | none => exact h.step_of_not_accepted hd
  | some d => exact h.step_of_accepted hd

/-! ### The words -/

/-- The words that have been taken and not given: one where the newest toggle has not been taken by
`out_clk`. -/
def inFlight (x : Crosser α) : List α :=
  if x.outDataToggleFlopped = x.inDataToggle then [] else [x.inDataBuffer]

theorem inFlight_reset (zero : α) (n m : ℕ) : (reset zero n m).inFlight = [] := if_pos rfl

theorem step_outDataToggleFlopped : (x.step e).outDataToggleFlopped
    = if x.outDataTaken e.outReady then x.inToOut.dout else x.outDataToggleFlopped := by
  cases e <;> simp [step, posedgeIn, posedgeOut, Event.outReady, outDataTaken]

/-- **A word is given once**: what a step takes goes behind what is on the way, and what it gives
comes from the front. -/
theorem Inv.inFlight_step (h : x.Inv) (e : Event α) :
    x.inFlight ++ (x.accepted e).toList = (x.delivered e).toList ++ (x.step e).inFlight := by
  have hflopped := step_outDataToggleFlopped (x := x) (e := e)
  cases hd : x.accepted e with
  | some d =>
    have hr := inReady_of_accepted hd
    have hv := h.outValid_eq_false hr
    obtain ⟨htoggle, hbuffer⟩ := step_accepted hd
    have hf := h.flopped hr
    unfold outDataTaken at hflopped
    rw [hv, Bool.and_false, if_neg Bool.noConfusion, hf] at hflopped
    rw [delivered_eq_none hv]
    unfold inFlight
    rw [htoggle, hbuffer, hflopped, if_pos hf, if_neg (by simp)]
    rfl
  | none =>
    obtain ⟨htoggle, hbuffer⟩ := step_not_accepted hd
    unfold inFlight
    rw [htoggle, hbuffer, hflopped]
    unfold delivered
    by_cases ht : x.outDataTaken e.outReady = true
    · have hv : x.outValid = true := by
        unfold outDataTaken at ht
        exact (Bool.and_eq_true_iff.mp ht).2
      obtain ⟨hdout, hne, hsame⟩ := h.of_outValid hv
      rw [if_pos ht, if_pos ht, if_neg hne, if_pos hdout, hsame]
      rfl
    · rw [if_neg ht, if_neg ht]
      simp

end Crosser

end Ptmch.ClockCrosser
