import Mathlib.Data.List.Basic
import Mathlib.Data.List.Infix

/-!
# Runs of a deterministic machine

A machine is a step function `step : σ → ε → σ` on states and events.  `run` folds it over a list
of events, `Along` says that every event of a run meets a condition in the state which that event
finds, and `observe` collects what the steps of a run show.

A condition on the environment is an `Along` too, so an assume–guarantee statement reads
`Along step ok s es → Along step good s es`.  Step lemmas become run lemmas through
`run_invariant`, `along_of_invariant` and `along_congr`.
-/

namespace Ptmch.Machine

variable {σ ε α : Type*}

/-! ### Runs -/

/-- The state reached from `s` by the events `es`, earliest first. -/
def run (step : σ → ε → σ) (s : σ) (es : List ε) : σ := es.foldl step s

variable (step : σ → ε → σ)

@[simp] theorem run_nil (s : σ) : run step s [] = s := rfl

@[simp] theorem run_cons (s : σ) (e : ε) (es : List ε) :
    run step s (e :: es) = run step (step s e) es := rfl

theorem run_append (s : σ) (xs ys : List ε) :
    run step s (xs ++ ys) = run step (run step s xs) ys := List.foldl_append

theorem run_concat (s : σ) (es : List ε) (e : ε) :
    run step s (es ++ [e]) = step (run step s es) e := by
  rw [run_append, run_cons, run_nil]

/-- A machine that is a projection of another runs as its projection. -/
theorem run_map {τ : Type*} {step' : τ → ε → τ} (f : σ → τ)
    (h : ∀ s e, f (step s e) = step' (f s) e) (s : σ) (es : List ε) :
    f (run step s es) = run step' (f s) es := by
  induction es generalizing s with
  | nil => rfl
  | cons e es ih => rw [run_cons, run_cons, ih, h]

/-! ### Conditions along a run -/

/-- Every event of the run meets `P` in the state that it finds. -/
def Along (P : σ → ε → Prop) : σ → List ε → Prop
  | _, [] => True
  | s, e :: es => P s e ∧ Along P (step s e) es

instance Along.decidable (P : σ → ε → Prop) [∀ s e, Decidable (P s e)] :
    ∀ (s : σ) (es : List ε), Decidable (Along step P s es)
  | _, [] => inferInstanceAs (Decidable True)
  | s, e :: es =>
    have := Along.decidable P (step s e) es
    inferInstanceAs (Decidable (P s e ∧ Along step P (step s e) es))

variable {step} {P Q ok : σ → ε → Prop} {I : σ → Prop}

@[simp] theorem along_nil (s : σ) : Along step P s [] := trivial

@[simp] theorem along_cons (s : σ) (e : ε) (es : List ε) :
    Along step P s (e :: es) ↔ P s e ∧ Along step P (step s e) es := Iff.rfl

theorem along_append (s : σ) (xs ys : List ε) :
    Along step P s (xs ++ ys) ↔ Along step P s xs ∧ Along step P (run step s xs) ys := by
  induction xs generalizing s with
  | nil => simp
  | cons x xs ih => simp only [List.cons_append, along_cons, ih, run_cons, and_assoc]

theorem along_concat (s : σ) (es : List ε) (e : ε) :
    Along step P s (es ++ [e]) ↔ Along step P s es ∧ P (run step s es) e := by
  rw [along_append, along_cons, and_iff_left (along_nil _)]

/-- `Along` in terms of the prefixes of the run. -/
theorem along_iff_forall_initial (s : σ) (es : List ε) :
    Along step P s es ↔ ∀ pre e, pre ++ [e] <+: es → P (run step s pre) e := by
  constructor
  · rintro h pre e ⟨post, rfl⟩
    rw [along_append, along_concat] at h
    exact h.1.2
  · intro h
    induction es using List.reverseRecOn with
    | nil => exact trivial
    | append_singleton es e ih =>
      rw [along_concat]
      refine ⟨ih fun pre x hpre => h pre x ?_, h es e (List.prefix_refl _)⟩
      exact hpre.trans (List.prefix_append es [e])

theorem along_and (s : σ) (es : List ε) :
    Along step (fun s e => P s e ∧ Q s e) s es ↔ Along step P s es ∧ Along step Q s es := by
  induction es generalizing s with
  | nil => simp
  | cons e es ih =>
    rw [along_cons, along_cons, along_cons, ih]
    exact and_and_and_comm

/-- A condition on the events alone. -/
theorem along_const (step : σ → ε → σ) (s : σ) {p : ε → Prop} {es : List ε} :
    Along step (fun _ e => p e) s es ↔ ∀ e ∈ es, p e := by
  induction es generalizing s with
  | nil => simp
  | cons e es ih => rw [along_cons, ih, List.forall_mem_cons]

theorem Along.mono_run {s : σ} {xs ys : List ε} (h : Along step P s ys) (hp : xs <+: ys) :
    Along step P s xs := by
  obtain ⟨zs, rfl⟩ := hp
  exact ((along_append s xs zs).mp h).1

/-! ### From steps to runs -/

/-- **Step lemma to run lemma**: a property kept by every allowed step holds after every run of
allowed steps. -/
theorem run_invariant (hstep : ∀ s e, I s → ok s e → I (step s e)) {s : σ} {es : List ε}
    (hs : I s) (hok : Along step ok s es) : I (run step s es) := by
  induction es generalizing s with
  | nil => exact hs
  | cons e es ih => exact ih (hstep s e hs hok.1) hok.2

/-- A property kept by every step holds after every run. -/
theorem run_induction (hstep : ∀ s e, I s → I (step s e)) {s : σ} (hs : I s) (es : List ε) :
    I (run step s es) := by
  induction es generalizing s with
  | nil => exact hs
  | cons e es ih => exact ih (hstep s e hs)

/-- A property that the invariant gives each allowed step holds along every allowed run. -/
theorem along_of_invariant (hstep : ∀ s e, I s → ok s e → I (step s e))
    (hP : ∀ s e, I s → ok s e → P s e) {s : σ} {es : List ε} (hs : I s)
    (hok : Along step ok s es) : Along step P s es := by
  induction es generalizing s with
  | nil => exact trivial
  | cons e es ih => exact ⟨hP s e hs hok.1, ih (hstep s e hs hok.1) hok.2⟩

/-- **Progress**: if every step either meets the goal `Q` or increases the measure by nothing, and
the events meeting `p` decrease it, the goal is met before more of these have come than the measure
allows. -/
theorem exists_of_measure {m : σ → ℕ} {p : ε → Bool}
    (hstep : ∀ s e, I s → Q s e ∨ I (step s e) ∧ m (step s e) + (p e).toNat ≤ m s) {s : σ}
    {es : List ε} (hs : I s) (hlt : m s < es.countP p) :
    ∃ pre e, pre ++ [e] <+: es ∧ I (run step s pre) ∧ Q (run step s pre) e := by
  induction es generalizing s with
  | nil => exact absurd hlt (Nat.not_lt_zero _)
  | cons e es ih =>
    rcases hstep s e hs with hgoal | ⟨hnext, hm⟩
    · exact ⟨[], e, ⟨es, rfl⟩, hs, hgoal⟩
    · have hrest : m (step s e) < es.countP p := by
        rw [List.countP_cons] at hlt
        cases hp : p e with
        | false =>
          rw [hp, Bool.toNat_false] at hm
          rw [hp, if_neg Bool.noConfusion] at hlt
          exact Nat.lt_of_le_of_lt hm hlt
        | true =>
          rw [hp, Bool.toNat_true] at hm
          rw [hp, if_pos rfl] at hlt
          exact Nat.lt_of_succ_lt_succ (Nat.lt_of_le_of_lt hm hlt)
      obtain ⟨pre, e', hpre, hinv, hgoal⟩ := ih hnext hrest
      exact ⟨e :: pre, e', List.cons_prefix_cons.mpr ⟨rfl, hpre⟩, hinv, hgoal⟩

/-- Two properties that the invariant makes equivalent at each allowed step are equivalent along
every allowed run. -/
theorem along_congr (hstep : ∀ s e, I s → ok s e → I (step s e))
    (hPQ : ∀ s e, I s → ok s e → (P s e ↔ Q s e)) {s : σ} {es : List ε} (hs : I s)
    (hok : Along step ok s es) : Along step P s es ↔ Along step Q s es := by
  induction es generalizing s with
  | nil => exact Iff.rfl
  | cons e es ih =>
    rw [along_cons, along_cons, hPQ s e hs hok.1, ih (hstep s e hs hok.1) hok.2]

/-- `Along` of a projection is `Along` on the projected machine. -/
theorem along_map {τ : Type*} {step' : τ → ε → τ} (f : σ → τ)
    (h : ∀ s e, f (step s e) = step' (f s) e) (R : τ → ε → Prop) (s : σ) (es : List ε) :
    Along step (fun s e => R (f s) e) s es ↔ Along step' R (f s) es := by
  induction es generalizing s with
  | nil => exact Iff.rfl
  | cons e es ih => rw [along_cons, along_cons, ih, h]

/-! ### Observations -/

/-- What the steps of a run show, in order; a step shows at most one value. -/
def observe (step : σ → ε → σ) (o : σ → ε → Option α) : σ → List ε → List α
  | _, [] => []
  | s, e :: es => (o s e).toList ++ observe step o (step s e) es

variable {o : σ → ε → Option α}

@[simp] theorem observe_nil (s : σ) : observe step o s [] = [] := rfl

@[simp] theorem observe_cons (s : σ) (e : ε) (es : List ε) :
    observe step o s (e :: es) = (o s e).toList ++ observe step o (step s e) es := rfl

theorem observe_append (s : σ) (xs ys : List ε) :
    observe step o s (xs ++ ys) = observe step o s xs ++ observe step o (run step s xs) ys := by
  induction xs generalizing s with
  | nil => rfl
  | cons x xs ih => simp only [List.cons_append, observe_cons, ih, run_cons, List.append_assoc]

theorem observe_concat (s : σ) (es : List ε) (e : ε) :
    observe step o s (es ++ [e]) = observe step o s es ++ (o (run step s es) e).toList := by
  rw [observe_append, observe_cons, observe_nil, List.append_nil]

/-- **Conservation**: where each step puts what it takes behind a queue, and gives what comes from
the front of it, so does each run. -/
theorem observe_conserve {i : σ → ε → Option α} {q : σ → List α}
    (hstep : ∀ s e, I s → I (step s e))
    (hq : ∀ s e, I s → q s ++ (i s e).toList = (o s e).toList ++ q (step s e)) {s : σ} (hs : I s)
    (es : List ε) : q s ++ observe step i s es = observe step o s es ++ q (run step s es) := by
  induction es generalizing s with
  | nil => simp
  | cons e es ih =>
    calc q s ++ ((i s e).toList ++ observe step i (step s e) es)
      _ = (o s e).toList ++ (q (step s e) ++ observe step i (step s e) es) := by
          rw [← List.append_assoc, hq s e hs, List.append_assoc]
      _ = (o s e).toList ++ observe step o (step s e) es ++ q (run step s (e :: es)) := by
          rw [ih (hstep s e hs), run_cons, List.append_assoc]

/-- What is shown in another form. -/
theorem observe_map {β : Type*} (p : α → β) (s : σ) (es : List ε) :
    observe step (fun s e => (o s e).map p) s es = (observe step o s es).map p := by
  induction es generalizing s with
  | nil => rfl
  | cons e es ih =>
    rw [observe_cons, observe_cons, List.map_append, ih]
    cases o s e <;> rfl

/-- Events in another form. -/
theorem observe_comap {ε' : Type*} (f : ε' → ε) (s : σ) (es : List ε') :
    observe step o s (es.map f)
      = observe (fun s e => step s (f e)) (fun s e => o s (f e)) s es := by
  induction es generalizing s with
  | nil => rfl
  | cons e es ih => rw [List.map_cons, observe_cons, observe_cons, ih]

end Ptmch.Machine
