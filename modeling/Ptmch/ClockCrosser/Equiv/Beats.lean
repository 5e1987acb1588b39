import Ptmch.ClockCrosser.Equiv.Progress

/-!
## The beats through the handshake crosser

* `beats_in_order`: every beat that has been taken has been given, but for at most one, in order and
  unchanged, however the edges of the two clocks interleave.
* `beats_arrive`: each taken beat is given after as many edges with a ready receiver as the
  synchronizer is long, and one more, and then another beat is taken after as many edges with a
  valid one.
-/

namespace Ptmch.ClockCrosser

open Machine

/-! ### Payloads -/

theorem Beat.ofPayload_payload {w c : ℕ} (b : Beat w c) : .ofPayload b.payload = b := by
  obtain ⟨data, sop, eop, channel⟩ := b
  unfold ofPayload payload
  congr 1
  · apply BitVec.eq_of_getLsbD_eq
    intro i hi
    have h1 : i < 1 + w := by omega
    have h2 : i < 1 + (1 + w) := by omega
    simp only [BitVec.getLsbD_extractLsb', BitVec.getLsbD_append, hi, h1, h2, Nat.zero_add,
      decide_true, Bool.true_and, if_true]
  · have h1 : ¬w + 1 < 1 + w := by omega
    have h2 : w + 1 < 1 + (1 + w) := by omega
    have h3 : w + 1 - (1 + w) = 0 := by omega
    simp only [BitVec.getLsbD_append, h1, h2, h3, if_true, if_false]
    simp
  · have h1 : w < 1 + w := by omega
    have h2 : w < 1 + (1 + w) := by omega
    simp only [BitVec.getLsbD_append, h1, h2, if_true]
    simp
  · apply BitVec.eq_of_getLsbD_eq
    intro i hi
    have h2 : ¬w + 2 + i < 1 + (1 + w) := by omega
    have h3 : w + 2 + i - (1 + (1 + w)) = i := by omega
    simp only [BitVec.getLsbD_extractLsb', BitVec.getLsbD_append, hi, h2, h3, decide_true,
      Bool.true_and, if_false]

namespace Handshake

variable {w c : ℕ} (x : Crosser (BitVec (c + (1 + (1 + w))))) (e : Event (Beat w c))

/-! ### The crosser inside -/

theorem offer_map : (e.map Beat.payload).offer = e.offer.map Beat.payload := by
  cases e with
  | outClk r => rfl
  | inClk v b => cases v <;> rfl
  | both v b r tn fn seen => cases v <;> rfl

theorem outReady_map : (e.map Beat.payload).outReady = e.outReady := by cases e <;> rfl

theorem accepted_map : x.accepted (e.map Beat.payload) = (accepted x e).map Beat.payload := by
  unfold accepted Crosser.accepted
  rw [offer_map]
  split_ifs <;> rfl

theorem delivered_map : delivered x e = (x.delivered (e.map Beat.payload)).map .ofPayload := by
  unfold delivered Crosser.delivered
  rw [outReady_map]
  split_ifs <;> rfl

variable (es : List (Event (Beat w c)))

theorem run_payload : run Crosser.step x (es.map (Event.map Beat.payload)) = run step x es :=
  List.foldl_map

theorem observe_accepted : observe Crosser.step Crosser.accepted x (es.map (Event.map Beat.payload))
    = (observe step accepted x es).map Beat.payload := by
  rw [observe_comap, ← observe_map]
  congr 1
  funext x e
  exact accepted_map x e

theorem observe_delivered : observe step delivered x es
    = (observe Crosser.step Crosser.delivered x (es.map (Event.map Beat.payload))).map
        .ofPayload := by
  rw [observe_comap, ← observe_map]
  congr 1
  funext x e
  exact delivered_map x e

/-- The beats on the way. -/
def inFlight : List (Beat w c) := x.inFlight.map .ofPayload

variable {x}

/-- What has been taken and what has been given differ in what is on the way. -/
theorem inFlight_append (h : x.Inv) : inFlight x ++ observe step accepted x es
    = observe step delivered x es ++ inFlight (run step x es) := by
  have hround : ∀ l : List (Beat w c), (l.map Beat.payload).map .ofPayload = l := by
    intro l
    rw [List.map_map]
    exact List.map_id'' Beat.ofPayload_payload l
  have hwords := observe_conserve (i := Crosser.accepted) (o := Crosser.delivered)
    (q := Crosser.inFlight) (fun _ e h => Crosser.inv_step h e) (fun _ e h => h.inFlight_step e) h
    (es.map (Event.map Beat.payload))
  have hbeats := congrArg (List.map Beat.ofPayload) hwords
  rw [List.map_append, List.map_append, observe_accepted, hround, run_payload,
    ← observe_delivered] at hbeats
  exact hbeats

theorem inv_run (h : x.Inv) : (run step x es).Inv :=
  run_induction (I := Crosser.Inv) (fun _ _ h => Crosser.inv_step h _) h es

theorem hasDepths_run {n m : ℕ} (h : x.HasDepths n m) : (run step x es).HasDepths n m :=
  run_induction (I := Crosser.HasDepths n m) (fun _ _ h => Crosser.hasDepths_step h _) h es

/-! ### Order -/

variable (n m : ℕ)

theorem observe_reset :
    observe step accepted (.reset 0 n m) es
      = observe step delivered (.reset 0 n m) es ++ inFlight (run step (.reset 0 n m) es) := by
  rw [← inFlight_append es (Crosser.inv_reset 0 n m), inFlight, Crosser.inFlight_reset]
  rfl

/-- **No beat is lost, doubled, changed or overtaken**, in whatever order the edges of the two
clocks come: after every run, the beats that have been taken are those that have been given and at
most one more, none where `in_ready` is set, and the one that the outputs show where `out_valid` is
set. -/
theorem beats_in_order (es : List (Event (Beat w c))) :
    let x := run step (.reset 0 n m) es
    ∃ rest : List (Beat w c), observe step accepted (.reset 0 n m) es
        = observe step delivered (.reset 0 n m) es ++ rest ∧
      rest.length ≤ 1 ∧ (x.inReady = true → rest = []) ∧
      (x.outValid = true → rest = [outBeat x]) := by
  intro x
  have hinv : x.Inv := inv_run es (Crosser.inv_reset 0 n m)
  refine ⟨inFlight x, observe_reset es n m, ?_, ?_, ?_⟩
  · unfold inFlight Crosser.inFlight
    split_ifs <;> simp
  · intro hr
    unfold inFlight
    rw [Crosser.inFlight_eq_nil.mpr (hinv.flopped hr)]
    rfl
  · intro hv
    obtain ⟨-, hf, hsame⟩ := hinv.of_outValid hv
    unfold inFlight Crosser.inFlight outBeat
    rw [if_neg hf, hsame]
    rfl

/-! ### Arrival -/

variable {n m}

theorem inFlight_prefix (h : x.Inv) (hd : x.HasDepths n m)
    (hes : n + 1 ≤ es.countP Event.outReady) : inFlight x <+: observe step delivered x es := by
  rw [observe_delivered]
  apply List.IsPrefix.map
  apply h.inFlight_prefix
  have hcount : (es.map (Event.map Beat.payload)).countP Event.outReady
      = es.countP Event.outReady := by
    rw [List.countP_map]
    exact List.countP_congr fun e _ => by simp [outReady_map]
  rw [hcount]
  apply Nat.le_trans _ hes
  unfold Crosser.ahead
  split_ifs
  · exact Nat.zero_le _
  · rw [← hd.1]
    exact Nat.succ_le_succ lag_le_length

theorem accepted_ne_nil (h : x.Inv) (hd : x.HasDepths n m) (hnil : inFlight x = [])
    (hes : m + 1 ≤ es.countP fun e => e.offer.isSome) : observe step accepted x es ≠ [] := by
  intro hnone
  have hwords := observe_accepted x es
  rw [hnone, List.map_nil] at hwords
  refine h.observe_accepted_ne_nil ?_ _ ?_ hwords
  · exact Crosser.inFlight_eq_nil.mp (List.map_eq_nil_iff.mp hnil)
  · have hcount : (es.map (Event.map Beat.payload)).countP (fun e => e.offer.isSome)
        = es.countP fun e => e.offer.isSome := by
      rw [List.countP_map]
      exact List.countP_congr fun e _ => by simp [offer_map]
    rw [hcount]
    apply Nat.lt_of_le_of_lt _ hes
    rw [← hd.2]
    exact lag_le_length

variable (n m)

/-- **Every beat arrives**: whatever happened before and whatever else happens meanwhile, `n + 3`
edges with a ready receiver, where the synchronizer to it has the depth `n + 2`, give all beats that
were taken before; and if `m + 3` edges with a valid beat follow, another one is taken. -/
theorem beats_arrive (es₁ es₂ : List (Event (Beat w c)))
    (hout : n + 3 ≤ es₁.countP Event.outReady)
    (hin : m + 3 ≤ es₂.countP fun e => e.offer.isSome) :
    observe step accepted (.reset 0 n m) es
        <+: observe step delivered (.reset 0 n m) (es ++ es₁) ∧
      observe step accepted (run step (.reset 0 n m) es) (es₁ ++ es₂) ≠ [] := by
  have hinv : (run step (.reset 0 n m) es).Inv := inv_run es (Crosser.inv_reset 0 n m)
  have hdepths := hasDepths_run es (Crosser.hasDepths_reset (0 : BitVec (c + (1 + (1 + w)))) n m)
  have hprefix := inFlight_prefix es₁ hinv hdepths hout
  constructor
  · rw [observe_reset, observe_append]
    exact (List.prefix_append_right_inj _).mpr hprefix
  · rw [observe_append]
    intro hnone
    obtain ⟨hnone₁, hnone₂⟩ := List.append_eq_nil_iff.mp hnone
    -- Since no other beat has been taken, the one that was on the way has gone.
    have hnil : inFlight (run step (run step (.reset 0 n m) es) es₁) = [] := by
      have hkept := inFlight_append es₁ hinv
      rw [hnone₁, List.append_nil] at hkept
      have hlen := hprefix.length_le
      rw [hkept, List.length_append] at hlen
      exact List.eq_nil_of_length_eq_zero (by omega)
    exact accepted_ne_nil es₂ (inv_run es₁ hinv) (hasDepths_run es₁ hdepths) hnil hin hnone₂

/-- From reset, with the synchronizers of the interconnect, where the receiver is ready at once and
a beat is offered at the edges of the other clock after that. -/
theorem beats_arrive_interconnect :
    let b : Beat 98 7 := ⟨1, true, true, 16⟩
    let seen : Beat 98 7 := ⟨0, false, false, 0⟩
    let es := [.both true b true true false seen]
    let es₁ := List.replicate 3 (Event.outClk true)
    let es₂ := List.replicate 3 (Event.inClk true b)
    0 + 3 ≤ es₁.countP Event.outReady ∧ 0 + 3 ≤ es₂.countP (fun e => e.offer.isSome) ∧
      observe step accepted (.reset 0 0 0) es
        <+: observe step delivered (.reset 0 0 0) (es ++ es₁) ∧
      observe step accepted (run step (.reset 0 0 0) es) (es₁ ++ es₂) ≠ [] :=
  ⟨by decide, by decide, beats_arrive _ 0 0 _ _ (by decide) (by decide)⟩

end Handshake

end Ptmch.ClockCrosser
