import Ptmch.Hal.Equiv.Alarm

/-!
## Periodic alarms

An alarm whose callback always returns the same period, such as the one with which the JTAG UART
looks for its host, goes off at every multiple of it, however often the tick counter overflows and
whatever the other alarms do (`periodic_calls`).
-/

namespace Ptmch.Hal

open Machine

variable {ρ κ σ : Type*} [DecidableEq ρ]

/-- The callback `k` returns `period`; `counter` tells how often it has been called. -/
structure Counts (call : κ → σ → BitVec 32 × σ) (k : κ) (period : BitVec 32) (counter : σ → ℕ) :
    Prop where
  own : ∀ rest, (call k rest).1 = period ∧ counter (call k rest).2 = counter rest + 1
  other : ∀ k', k' ≠ k → ∀ rest, counter (call k' rest).2 = counter rest

variable {call : κ → σ → BitVec 32 × σ} {k : κ} {period : BitVec 32} {counter : σ → ℕ} {a : ρ}

/-! ### One alarm among others -/

/-- The entry belongs to another alarm, with another callback. -/
def Due.Other (a : ρ) (k : κ) (e : Due ρ κ) : Prop := e.callback ≠ k ∧ e.alarm ≠ a

omit [DecidableEq ρ] in
theorem fire_other (h : Counts call k period counter) (now : ℕ) {es : List (Due ρ κ)}
    (hes : ∀ e ∈ es, e.Other a k) (rest : σ) :
    (∀ e ∈ (Agenda.fire call now es rest).1, e.Other a k) ∧
    counter (Agenda.fire call now es rest).2 = counter rest := by
  induction es generalizing rest with
  | nil => exact ⟨hes, rfl⟩
  | cons e es ih =>
    have he := hes e List.mem_cons_self
    have htail := fun r => ih (fun e' he' => hes e' (List.mem_cons_of_mem _ he')) r
    simp only [Agenda.fire]
    by_cases hd : e.time ≤ now
    · simp only [if_pos hd]
      obtain ⟨hall, hcount⟩ := htail (call e.callback rest).2
      refine ⟨?_, hcount.trans (h.other _ he.1 rest)⟩
      split_ifs
      · exact hall
      · exact List.forall_mem_cons.mpr ⟨he, hall⟩
    · simp only [if_neg hd]
      obtain ⟨hall, hcount⟩ := htail rest
      exact ⟨List.forall_mem_cons.mpr ⟨he, hall⟩, hcount⟩

/-- The alarm `a` is registered for `time` with the callback `k`, which no other alarm has. -/
def Agenda.Has (t : Agenda ρ κ σ) (a : ρ) (k : κ) (time : ℕ) : Prop :=
  ∃ xs ys : List (Due ρ κ), t.due = xs ++ ⟨a, time, k⟩ :: ys ∧ ∀ e ∈ xs ++ ys, e.Other a k

variable {t : Agenda ρ κ σ} {time : ℕ}

omit [DecidableEq ρ] in
theorem fire_own (h : Counts call k period counter) (hp : period ≠ 0) (a : ρ) (now time : ℕ)
    (rest : σ) :
    (Agenda.fire call now [(⟨a, time, k⟩ : Due ρ κ)] rest).1
        = [⟨a, if time ≤ now then time + period.toNat else time, k⟩] ∧
      counter (Agenda.fire call now [(⟨a, time, k⟩ : Due ρ κ)] rest).2
        = counter rest + if time ≤ now then 1 else 0 := by
  simp only [Agenda.fire]
  by_cases hd : time ≤ now
  · simp only [if_pos hd]
    rw [(h.own rest).1, if_neg hp]
    exact ⟨rfl, (h.own rest).2⟩
  · simp [if_neg hd]

theorem Agenda.Has.tick (ht : t.Has a k time) (h : Counts call k period counter)
    (hp : period ≠ 0) :
    (t.step call .tick).Has a k
        (if time ≤ t.now + 1 then time + period.toNat else time) ∧
      counter (t.step call .tick).rest
        = counter t.rest + if time ≤ t.now + 1 then 1 else 0 := by
  obtain ⟨xs, ys, hdue, hother⟩ := ht
  have hfire : Agenda.fire call (t.now + 1) t.due t.rest
      = ((t.step call .tick).due, (t.step call .tick).rest) := rfl
  rw [hdue, fire_append, fire_cons] at hfire
  obtain ⟨hdue', hrest'⟩ := Prod.ext_iff.mp hfire
  -- The alarms before it, the alarm itself, and the alarms after it, in the order of the loop.
  obtain ⟨hxs, hcx⟩ := fire_other h (t.now + 1)
    (fun e he => hother e (List.mem_append_left _ he)) t.rest
  obtain ⟨hown, hcown⟩ := fire_own h hp a (t.now + 1) time
    (Agenda.fire call (t.now + 1) xs t.rest).2
  obtain ⟨hys, hcy⟩ := fire_other h (t.now + 1)
    (fun e he => hother e (List.mem_append_right _ he))
    (Agenda.fire call (t.now + 1) [⟨a, time, k⟩] (Agenda.fire call (t.now + 1) xs t.rest).2).2
  constructor
  · refine ⟨_, _, ?_, List.forall_mem_append.mpr ⟨hxs, hys⟩⟩
    have hstep : (t.step call .tick).due = _ := hdue'.symm
    rw [hstep, hown]
    rfl
  · have hstep : (t.step call .tick).rest = _ := hrest'.symm
    rw [hstep, hcy, hcown, hcx]

/-- The events that leave the alarm `a` and the callback `k` alone. -/
def LeavesAlone (a : ρ) (k : κ) (e : Alarms.Event ρ κ) : Prop :=
  e ≠ .stop a ∧ ∀ alarm nticks, e ≠ .start alarm nticks k

theorem Agenda.Has.step (ht : t.Has a k time) {e : Alarms.Event ρ κ} (hok : t.Allowed e)
    (he : LeavesAlone a k e) (htick : e.isTick = false) :
    (t.step call e).Has a k time ∧ (t.step call e).rest = t.rest ∧
      (t.step call e).now = t.now := by
  obtain ⟨xs, ys, hdue, hother⟩ := ht
  cases e with
  | tick => exact absurd htick Bool.noConfusion
  | sysclkInit nticks => exact ⟨⟨xs, ys, hdue, hother⟩, rfl, rfl⟩
  | start alarm nticks callback =>
    cases alarm with
    | none => exact ⟨⟨xs, ys, hdue, hother⟩, rfl, rfl⟩
    | some b =>
      have hmem : (⟨a, time, k⟩ : Due ρ κ) ∈ t.due := by
        rw [hdue]
        exact List.mem_append_right _ List.mem_cons_self
      have hab : b ≠ a := fun heq => hok.2 _ hmem heq.symm
      have hk : callback ≠ k := fun heq => he.2 (some b) nticks (heq ▸ rfl)
      unfold Agenda.step
      dsimp only
      split_ifs
      · exact ⟨⟨xs, ys, hdue, hother⟩, rfl, rfl⟩
      · refine ⟨⟨⟨b, t.now + nticks.toNat + 1, callback⟩ :: xs, ys, ?_, ?_⟩, rfl, rfl⟩
        · exact congrArg (List.cons _) hdue
        · exact List.forall_mem_cons.mpr ⟨⟨hk, hab⟩, hother⟩
  | stop b =>
    have hab : a ≠ b := fun heq => he.1 (heq ▸ rfl)
    refine ⟨⟨xs.filter fun e => e.alarm ≠ b, ys.filter fun e => e.alarm ≠ b, ?_, ?_⟩, rfl, rfl⟩
    · show t.due.filter (fun e => decide (e.alarm ≠ b)) = _
      rw [hdue, List.filter_append, List.filter_cons_of_pos (by simpa using hab)]
    · intro e hmem
      rw [← List.filter_append] at hmem
      exact hother e (List.mem_filter.mp hmem).1

/-! ### Periods -/

/-- The alarm `a`, started at the tick `start` for `nticks`, has gone off `n` times, when `counter`
was `count` at first, and goes off next at the multiple of `period` that comes next. -/
structure OnSchedule (t : Agenda ρ κ σ) (a : ρ) (k : κ) (period : BitVec 32) (counter : σ → ℕ)
    (first count n : ℕ) : Prop where
  has : t.Has a k (first + n * period.toNat)
  counted : counter t.rest = count + n
  later : t.now < first + n * period.toNat
  latest : n = 0 ∨ first + n * period.toNat ≤ t.now + period.toNat

variable {first count n : ℕ}

theorem OnSchedule.step (h : OnSchedule t a k period counter first count n)
    (hc : Counts call k period counter) (hp : period ≠ 0) {e : Alarms.Event ρ κ}
    (hok : t.Allowed e) (he : LeavesAlone a k e) :
    ∃ n', OnSchedule (t.step call e) a k period counter first count n' := by
  cases htick : e.isTick with
  | false =>
    obtain ⟨hhas, hrest, hnow⟩ := h.has.step hok he htick
    exact ⟨n, hhas, by rw [hrest, h.counted], by rw [hnow]; exact h.later,
      by rw [hnow]; exact h.latest⟩
  | true =>
    obtain rfl : e = .tick := by
      cases e with
      | tick => rfl
      | _ => exact absurd htick Bool.noConfusion
    have hlater := h.later
    have hlatest := h.latest
    have hpos := BitVec.toNat_pos_of_ne_zero hp
    have hnow : (t.step call .tick).now = t.now + 1 := rfl
    obtain ⟨hhas, hcount⟩ := h.has.tick hc hp
    by_cases hd : first + n * period.toNat ≤ t.now + 1
    · rw [if_pos hd, Nat.add_assoc, ← Nat.succ_mul] at hhas
      rw [if_pos hd, h.counted, Nat.add_assoc] at hcount
      refine ⟨n + 1, hhas, hcount, ?_, ?_⟩
      · rw [hnow, Nat.succ_mul]
        omega
      · rw [hnow, Nat.succ_mul]
        omega
    · rw [if_neg hd] at hhas
      rw [if_neg hd, Nat.add_zero, h.counted] at hcount
      refine ⟨n, hhas, hcount, ?_, ?_⟩
      · rw [hnow]
        omega
      · rw [hnow]
        omega

theorem OnSchedule.run (h : OnSchedule t a k period counter first count n)
    (hc : Counts call k period counter) (hp : period ≠ 0) {es : List (Alarms.Event ρ κ)}
    (hok : Along (Agenda.step call) Agenda.Allowed t es) (hes : ∀ e ∈ es, LeavesAlone a k e) :
    ∃ n', OnSchedule (Machine.run (Agenda.step call) t es) a k period counter first count n' := by
  induction es generalizing t n with
  | nil => exact ⟨n, h⟩
  | cons e es ih =>
    obtain ⟨n₁, h₁⟩ := h.step hc hp hok.1 (hes e List.mem_cons_self)
    exact ih h₁ hok.2 fun e' he' => hes e' (List.mem_cons_of_mem _ he')

theorem now_step (t : Agenda ρ κ σ) (e : Alarms.Event ρ κ) :
    (t.step call e).now = t.now + e.isTick.toNat := by
  cases e with
  | start alarm nticks callback =>
    cases alarm with
    | none => rfl
    | some b =>
      unfold Agenda.step
      dsimp only
      split_ifs <;> rfl
  | _ => rfl

theorem now_run (t : Agenda ρ κ σ) (es : List (Alarms.Event ρ κ)) :
    (Machine.run (Agenda.step call) t es).now = t.now + es.countP Alarms.Event.isTick := by
  induction es generalizing t with
  | nil => rfl
  | cons e es ih =>
    rw [run_cons, ih, now_step, List.countP_cons]
    cases e.isTick <;> simp [Nat.add_assoc, Nat.add_comm]

omit [DecidableEq ρ] in
/-- How often the alarm has gone off follows from the time. -/
theorem OnSchedule.eq_div (h : OnSchedule t a k period counter first count n)
    (hp : 0 < period.toNat) : n = (t.now + period.toNat - first) / period.toNat := by
  have hlater := h.later
  have hlatest := h.latest
  symm
  apply Nat.div_eq_of_lt_le
  · rcases hlatest with rfl | hlatest
    · simp
    · omega
  · rw [Nat.succ_mul]
    omega

/-- **No drift**: let a callback return the same `period` each time, and let an alarm with it be
started for `nticks` and neither stopped nor joined by another one with this callback.  It goes off
at the first tick after `nticks` ticks and then every `period` ticks, as long as the run may be. -/
theorem periodic_calls (hc : Counts call k period counter) (hp : period ≠ 0)
    (llist : ρ → AltLlist (Option ρ)) (alarm : ρ → AltAlarm κ) (rest : σ) (nticks : BitVec 32)
    (es₁ es₂ : List (Alarms.Event ρ κ)) (fuel : ℕ) (hf : es₁.length + es₂.length < fuel)
    (hok : Along (Agenda.step call) Agenda.Allowed (.init rest)
      (es₁ ++ .start (some a) nticks k :: es₂))
    (hrate : (run (Agenda.step call) (.init rest) es₁).tickRate ≠ 0)
    (hnew : ∀ e ∈ (run (Agenda.step call) (.init rest) es₁).due, e.callback ≠ k)
    (hes : ∀ e ∈ es₂, LeavesAlone a k e) :
    ∃ s₁ s₂, (Alarms.init llist alarm rest).run call fuel es₁ = some s₁ ∧
      s₁.run call fuel (.start (some a) nticks k :: es₂) = some s₂ ∧
      counter s₂.rest = counter s₁.rest
        + (es₂.countP Alarms.Event.isTick + period.toNat - (nticks.toNat + 1)) / period.toNat := by
  rw [along_append] at hok
  obtain ⟨hok₁, hok₂⟩ := hok
  have hlen := length_due_run_le call (.init rest) es₁
  obtain ⟨s₁, hrun₁, h₁⟩ := refines_run call llist alarm rest fuel es₁ hok₁ (by omega)
  generalize run (Agenda.step call) (.init rest) es₁ = t₁ at hok₂ hrate hnew hlen h₁
  have hlen' : t₁.due.length + (es₂.length + 1) ≤ fuel := by
    have hzero : (Agenda.init rest : Agenda ρ κ σ).due.length = 0 := rfl
    omega
  obtain ⟨s₂, hrun₂, h₂⟩ := h₁.run hok₂ hlen'
  have hstart : OnSchedule (t₁.step call (.start (some a) nticks k)) a k period counter
      (t₁.now + nticks.toNat + 1) (counter t₁.rest) 0 := by
    have hstep : t₁.step call (.start (some a) nticks k)
        = { t₁ with
            due := ⟨a, t₁.now + nticks.toNat + 1, k⟩ :: t₁.due
            known := a :: t₁.known } := if_neg hrate
    rw [hstep]
    refine ⟨⟨[], t₁.due, ?_, fun e he => ⟨hnew e he, hok₂.1.2 e he⟩⟩, rfl, ?_, .inl rfl⟩
    · simp
    · show t₁.now < _
      omega
  obtain ⟨n, hn⟩ := hstart.run hc hp hok₂.2 hes
  refine ⟨s₁, s₂, hrun₁, hrun₂, ?_⟩
  have heq := hn.eq_div (BitVec.toNat_pos_of_ne_zero hp)
  rw [now_run, now_step] at heq
  rw [h₂.rest, h₁.rest, run_cons, hn.counted, heq]
  congr 2
  show t₁.now + 0 + _ + _ - _ = _
  omega

/-- One callback is called every third tick and counted, the other is called once. -/
def callCounted (counted : Bool) (count : ℕ) : BitVec 32 × ℕ :=
  if counted then (3, count + 1) else (0, count)

theorem counts_callCounted : Counts callCounted true 3 id where
  own _ := ⟨rfl, rfl⟩
  other k' hk' _ := by
    rw [Bool.eq_false_iff.mpr hk']
    rfl

/-- Started for one tick, beside another alarm, the alarm goes off at the ticks 2, 5 and 8. -/
theorem periodic_calls_three :
    ∃ s₁ s₂ : Alarms Bool Bool ℕ,
      (Alarms.init (fun _ => ⟨none, none⟩) (fun _ => ⟨0, false, false⟩) 0).run callCounted 20
          [.sysclkInit 100, .start (some true) 5 false] = some s₁ ∧
        s₁.run callCounted 20 (.start (some false) 1 true :: List.replicate 9 .tick) = some s₂ ∧
        id s₂.rest = id s₁.rest
          + ((List.replicate 9 (.tick : Alarms.Event Bool Bool)).countP Alarms.Event.isTick
            + (3 : BitVec 32).toNat - ((1 : BitVec 32).toNat + 1)) / (3 : BitVec 32).toNat := by
  refine periodic_calls counts_callCounted (by decide) _ _ 0 1 _ _ 20 (by decide) (by decide)
    (by decide) (by decide) fun e he => ?_
  rw [List.eq_of_mem_replicate he]
  exact ⟨by simp, by simp⟩

end Ptmch.Hal
