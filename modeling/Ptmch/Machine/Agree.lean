import Ptmch.Machine.Run

/-!
# Two runs side by side

A machine that is started in two states and given the same events.  `Forgets step ok p R` says that
what the two states have in common, `R n`, grows with every event that meets `p`: after `n` of them
the machine has forgotten that much of the difference between its starts (`Forgets.run`).  With `p`
false throughout, `R` does not grow and this is an invariant of both runs.

Two machines, the second of which is given what the steps of the first one show: where it shows
nothing the second machine stutters (`simulates_observe`).
-/

namespace Ptmch.Machine

variable {σ τ ε α : Type*}

/-! ### One machine from two states -/

/-- One step brings two states that have `R n` in common to two that have `R (n + 1)` in common, or
`R n` if the event does not meet `p`.  The condition `ok` is on the first of them. -/
def Forgets (step : σ → ε → σ) (ok : σ → ε → Prop) (p : ε → Bool) (R : ℕ → σ → σ → Prop) : Prop :=
  ∀ n s s' e, R n s s' → ok s e → R (n + (p e).toNat) (step s e) (step s' e)

variable {step : σ → ε → σ} {ok : σ → ε → Prop} {p : ε → Bool} {R : ℕ → σ → σ → Prop}

/-- **Step lemma to run lemma**, for two runs. -/
theorem Forgets.run (hstep : Forgets step ok p R) {n : ℕ} {s s' : σ} {es : List ε}
    (h : R n s s') (hok : Along step ok s es) :
    R (n + es.countP p) (Machine.run step s es) (Machine.run step s' es) := by
  induction es generalizing n s s' with
  | nil => exact h
  | cons e es ih =>
    -- the first event adds one or nothing to what is left to the others
    have hrest := ih (hstep n s s' e h hok.1) hok.2
    have hcount : n + (e :: es).countP p = n + (p e).toNat + es.countP p := by
      rw [List.countP_cons, Nat.add_assoc, Nat.add_comm (es.countP p)]
      cases p e <;> rfl
    rw [run_cons, run_cons, hcount]
    exact hrest

/-- An invariant of two runs. -/
theorem run_rel {I : σ → σ → Prop} (hstep : ∀ s s' e, I s s' → ok s e → I (step s e) (step s' e))
    {s s' : σ} {es : List ε} (h : I s s') (hok : Along step ok s es) :
    I (Machine.run step s es) (Machine.run step s' es) := by
  have hforgets : Forgets step ok (fun _ => false) (fun _ => I) :=
    fun _ s s' e h hok => hstep s s' e h hok
  exact hforgets.run (n := 0) h hok

/-! ### A machine behind another one -/

/-- **Simulation with stuttering**: if every allowed step of the first machine is matched by an
allowed step of the second one on what it shows, or by none where it shows nothing, so are runs. -/
theorem simulates_observe {step' : τ → α → τ} {o : σ → ε → Option α} {ok' : τ → α → Prop}
    {I : σ → τ → Prop}
    (hsilent : ∀ s t e, I s t → ok s e → o s e = none → I (step s e) t)
    (hshown : ∀ s t e a, I s t → ok s e → o s e = some a → ok' t a ∧ I (step s e) (step' t a))
    {s : σ} {t : τ} {es : List ε} (h : I s t) (hok : Along step ok s es) :
    Along step' ok' t (observe step o s es) ∧
      I (Machine.run step s es) (Machine.run step' t (observe step o s es)) := by
  induction es generalizing s t with
  | nil => exact ⟨trivial, h⟩
  | cons e es ih =>
    rw [observe_cons]
    cases hshow : o s e with
    | none => exact ih (hsilent s t e h hok.1 hshow) hok.2
    | some a =>
      obtain ⟨hallowed, hnext⟩ := hshown s t e a h hok.1 hshow
      obtain ⟨halong, hrun⟩ := ih hnext hok.2
      exact ⟨⟨hallowed, halong⟩, hrun⟩

end Ptmch.Machine
