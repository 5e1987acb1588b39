import Ptmch.ClockCrosser.Equiv.Safety

/-!
## Progress of the clock crosser

A word that is on the way is given within as many edges with a ready receiver as the synchronizer to
`out_clk` has registers, and one more.  After that, the crosser takes another word within as many
edges with a valid word as the synchronizer back has registers, and one more.
-/

namespace Ptmch.ClockCrosser.Crosser

open Machine

variable {α : Type*} {x : Crosser α} {e : Event α} {n m : ℕ}

/-! ### The lengths of the synchronizers -/

/-- The synchronizers have the depths `n` and `m`. -/
def HasDepths (n m : ℕ) (x : Crosser α) : Prop :=
  x.inToOut.stages.length = n ∧ x.outToIn.stages.length = m

theorem hasDepths_reset (zero : α) (n m : ℕ) : HasDepths (n + 2) (m + 2) (reset zero n m) := by
  unfold HasDepths reset
  simp [Synchronizer.stages_reset]

theorem hasDepths_step (h : HasDepths n m x) (e : Event α) : HasDepths n m (x.step e) := by
  obtain ⟨hn, hm⟩ := h
  cases e with
  | inClk v w => exact ⟨hn, (Synchronizer.length_stages_posedge _ _).trans hm⟩
  | outClk r => exact ⟨(Synchronizer.length_stages_posedge _ _).trans hn, hm⟩
  | both v w r tn fn seen =>
    constructor
    · exact (Synchronizer.length_stages_posedge _ _).trans hn
    · exact (Synchronizer.length_stages_posedge _ _).trans hm

/-! ### The word on the way -/

theorem inFlight_eq_nil : x.inFlight = [] ↔ x.outDataToggleFlopped = x.inDataToggle := by
  unfold inFlight
  split_ifs with hf <;> simp [hf]

theorem Inv.not_accepted (h : x.Inv) (hf : x.outDataToggleFlopped ≠ x.inDataToggle) :
    x.accepted e = none := by
  cases hd : x.accepted e with
  | none => rfl
  | some d => exact absurd (h.flopped (inReady_of_accepted hd)) hf

/-- While a word is on the way, an edge of `out_clk` pushes its toggle into the synchronizer. -/
theorem inToOut_step (hd : x.accepted e = none) :
    (x.step e).inToOut.stages = x.inToOut.stages ∧ e.outReady = false ∨
    (x.step e).inToOut.stages = x.inDataToggle :: x.inToOut.stages.dropLast := by
  cases e with
  | inClk v w => exact .inl ⟨rfl, rfl⟩
  | outClk r => exact .inr rfl
  | both v w r tn fn seen =>
    have ht : x.takeInData v = false := takeInData_of_not_accepted hd
    right
    simp [step, posedgeIn, ht]

/-- While none is, an edge of `in_clk` pushes the toggle of the last one into the synchronizer. -/
theorem outToIn_step (hf : x.outDataToggleFlopped = x.inDataToggle) (hv : x.outValid = false) :
    (x.step e).outToIn.stages = x.outToIn.stages ∧ e.offer = none ∨
    (x.step e).outToIn.stages = x.inDataToggle :: x.outToIn.stages.dropLast := by
  cases e with
  | inClk v w =>
    right
    rw [← hf]
    rfl
  | outClk r => exact .inl ⟨rfl, rfl⟩
  | both v w r tn fn seen =>
    right
    simp [step, posedgeIn, posedgeOut, outDataTaken, hv, hf]

/-- How many edges with a ready receiver it takes at most until nothing is on the way. -/
def ahead (x : Crosser α) : ℕ :=
  if x.outDataToggleFlopped = x.inDataToggle then 0
  else lag x.inDataToggle x.inToOut.stages + 1

theorem Inv.ahead_step (h : x.Inv) (hf : x.outDataToggleFlopped ≠ x.inDataToggle)
    (hd : x.delivered e = none) : (x.step e).ahead + e.outReady.toNat ≤ x.ahead := by
  have hacc := h.not_accepted (e := e) hf
  have htoggle := (step_not_accepted hacc).1
  have hflopped : (x.step e).outDataToggleFlopped = x.outDataToggleFlopped := by
    unfold delivered at hd
    rw [step_outDataToggleFlopped]
    split_ifs at hd ⊢
    rfl
  unfold ahead
  rw [htoggle, hflopped, if_neg hf, if_neg hf]
  rcases inToOut_step hacc with ⟨hsame, hr⟩ | hpush
  · rw [hsame, hr]
    exact Nat.le_refl _
  · rw [hpush]
    cases hr : e.outReady with
    | false =>
      have hle := lag_push_le (t := x.inDataToggle) x.inToOut.stages
      simpa using hle
    | true =>
      -- A ready receiver has been given nothing, so the toggle is not at the end yet.
      have hv : x.outValid = false := by
        unfold delivered outDataTaken at hd
        rw [hr, Bool.true_and] at hd
        split_ifs at hd with hv
        exact Bool.eq_false_iff.mpr hv
      have hlast : x.inToOut.dout ≠ x.inDataToggle := by
        rw [← Bool.not_eq_true, outValid_iff, not_not] at hv
        rwa [hv]
      rw [← x.inToOut.getLast_stages] at hlast
      have hlag := lag_push x.inToOut.stages_ne_nil hlast
      rw [← hlag]
      exact Nat.le_refl _

/-- **Delivery**: what is on the way is given within `ahead` edges with a ready receiver. -/
theorem Inv.inFlight_prefix (h : x.Inv) (es : List (Event α))
    (hes : x.ahead ≤ es.countP Event.outReady) : x.inFlight <+: observe step delivered x es := by
  induction es generalizing x with
  | nil =>
    have hf : x.outDataToggleFlopped = x.inDataToggle := by
      unfold ahead at hes
      split_ifs at hes with hf
      · exact hf
      · exact absurd hes (by simp)
    rw [inFlight_eq_nil.mpr hf]
    exact List.nil_prefix
  | cons e es ih =>
    by_cases hf : x.outDataToggleFlopped = x.inDataToggle
    · rw [inFlight_eq_nil.mpr hf]
      exact List.nil_prefix
    · have hacc := h.not_accepted (e := e) hf
      have hstep := h.inFlight_step e
      rw [hacc, Option.toList_none, List.append_nil] at hstep
      rw [observe_cons, hstep]
      cases hd : x.delivered e with
      | some d =>
        -- The one word on the way has been given.
        have hnil : (x.step e).inFlight = [] := by
          have hlen := congrArg List.length hstep
          rw [hd, List.length_append] at hlen
          unfold inFlight at hlen ⊢
          split_ifs at hlen ⊢ with hf'
          · rfl
          · simp at hlen
        rw [hnil, List.append_nil]
        exact List.prefix_append _ _
      | none =>
        have hahead := h.ahead_step hf hd
        rw [List.countP_cons] at hes
        apply ih (inv_step h e)
        have hready : (if e.outReady = true then 1 else 0) = e.outReady.toNat := by
          cases e.outReady <;> rfl
        omega

/-! ### The next word -/

/-- **The way back**: where nothing is on the way, a word is taken within as many edges with a valid
word as its toggle is behind in the synchronizer back, and one more. -/
theorem Inv.observe_accepted_ne_nil (h : x.Inv)
    (hf : x.outDataToggleFlopped = x.inDataToggle) (es : List (Event α))
    (hes : lag x.inDataToggle x.outToIn.stages < es.countP (·.offer.isSome)) :
    observe step accepted x es ≠ [] := by
  induction es generalizing x with
  | nil => exact absurd hes (Nat.not_lt_zero _)
  | cons e es ih =>
    rw [observe_cons]
    cases hd : x.accepted e with
    | some d => simp
    | none =>
      have hv : x.outValid = false := by
        rw [← Bool.not_eq_true, outValid_iff, not_not, hf]
        exact (led_append.mp h.led).2.2 (by simp [hf]) _ x.inToOut.dout_mem_stages
      have htoggle := (step_not_accepted hd).1
      have hf' : (x.step e).outDataToggleFlopped = (x.step e).inDataToggle := by
        rw [htoggle, step_outDataToggleFlopped, outDataTaken, hv, Bool.and_false,
          if_neg Bool.noConfusion, hf]
      rw [Option.toList_none, List.nil_append]
      apply ih (inv_step h e) hf'
      rw [htoggle]
      rw [List.countP_cons] at hes
      rcases outToIn_step (e := e) hf hv with ⟨hsame, hoffer⟩ | hpush
      · rw [hsame]
        simpa [hoffer] using hes
      · rw [hpush]
        by_cases hoffer : e.offer.isSome = true
        · -- The offered word has not been taken, so the toggle is not back yet.
          have hlast : x.outToIn.stages.getLast x.outToIn.stages_ne_nil ≠ x.inDataToggle := by
            rw [x.outToIn.getLast_stages]
            intro hlast
            have hr := (inReady_iff x).mpr hlast
            unfold accepted at hd
            rw [if_pos hr] at hd
            rw [hd] at hoffer
            exact absurd hoffer Bool.noConfusion
          have hlag := lag_push x.outToIn.stages_ne_nil hlast
          rw [if_pos hoffer] at hes
          omega
        · have hlag := lag_push_le (t := x.inDataToggle) x.outToIn.stages
          rw [if_neg hoffer] at hes
          omega

end Ptmch.ClockCrosser.Crosser
