import Ptmch.Hal.Alarm

/-!
## Alarms and their agenda

`refines_run`: the alarms, in a linked list and with times of 32 bits, do in every run what their
agenda does, in which the times are unbounded.  The invariant `Refines` has each alarm of the list
less than `2 ^ 32` ticks ahead of the counter, so that its time and `rollover` tell when it is due.
-/

namespace Ptmch.Hal

open Machine

/-! ### Linked lists -/

section

variable {ν : Type*} [DecidableEq ν] {m : ν → AltLlist ν} {head entry : ν} {l xs ys : List ν}

@[simp] theorem setNext_next (a b c : ν) :
    (setNext m a b c).next = if c = a then b else (m c).next := by
  unfold setNext
  rw [Function.update_apply]
  split_ifs <;> rfl

@[simp] theorem setNext_previous (a b c : ν) : (setNext m a b c).previous = (m c).previous := by
  unfold setNext
  rw [Function.update_apply]
  split_ifs with hc
  · rw [hc]
  · rfl

@[simp] theorem setPrevious_next (a b c : ν) : (setPrevious m a b c).next = (m c).next := by
  unfold setPrevious
  rw [Function.update_apply]
  split_ifs with hc
  · rw [hc]
  · rfl

@[simp] theorem setPrevious_previous (a b c : ν) :
    (setPrevious m a b c).previous = if c = a then b else (m c).previous := by
  unfold setPrevious
  rw [Function.update_apply]
  split_ifs <;> rfl

theorem altLlistInsert_next (a : ν) : (altLlistInsert m head entry a).next
    = if a = head then entry else if a = entry then (m head).next else (m a).next := by
  unfold altLlistInsert
  simp

theorem altLlistInsert_previous (he : head ≠ entry) (a : ν) :
    (altLlistInsert m head entry a).previous
      = if a = (m head).next then entry else if a = entry then head else (m a).previous := by
  unfold altLlistInsert
  simp [he]

theorem altLlistRemove_next (he : entry ≠ (m entry).next) (a : ν) :
    (altLlistRemove m entry a).next = if a = entry then entry
      else if a = (m entry).previous then (m entry).next else (m a).next := by
  unfold altLlistRemove
  simp [he]

theorem altLlistRemove_previous (a : ν) :
    (altLlistRemove m entry a).previous = if a = entry then entry
      else if a = (m entry).next then (m entry).previous else (m a).previous := by
  unfold altLlistRemove
  simp

omit [DecidableEq ν] in
theorem next_head_mem (hm : Circle m head l) : (m head).next ∈ head :: l :=
  (List.perm_append_singleton head l).mem_iff.mp (List.mem_of_head? hm.next_head)

theorem altLlistInsert_of_not_mem (hm : Circle m head l) (he : head ≠ entry) {a : ν}
    (ha : a ∉ head :: l) (hae : a ≠ entry) : altLlistInsert m head entry a = m a := by
  have hah : a ≠ head := fun heq => ha (heq ▸ List.mem_cons_self)
  have han : a ≠ (m head).next := fun heq => ha (heq ▸ next_head_mem hm)
  apply Links.ext
  · rw [altLlistInsert_next, if_neg hah, if_neg hae]
  · rw [altLlistInsert_previous he, if_neg han, if_neg hae]

theorem altLlistInsert_circle (hm : Circle m head l) (he : entry ∉ head :: l) :
    Circle (altLlistInsert m head entry) head (entry :: l) := by
  have hhead : head ≠ entry := fun heq => he (heq ▸ List.mem_cons_self)
  have hnext : entry ≠ (m head).next := fun heq => he (heq ▸ next_head_mem hm)
  apply hm.insert he
  · apply Links.ext
    · rw [altLlistInsert_next, if_neg hhead.symm, if_pos rfl]
    · rw [altLlistInsert_previous hhead, if_neg hnext, if_pos rfl]
  · rw [altLlistInsert_next, if_pos rfl]
  · rw [altLlistInsert_previous hhead, if_pos rfl]
  · intro a hah hae
    rw [altLlistInsert_next, if_neg hah, if_neg hae]
  · intro a han hae
    rw [altLlistInsert_previous hhead, if_neg han, if_neg hae]

omit [DecidableEq ν] in
/-- The cells on both sides of an entry are other cells. -/
theorem around_mem (hm : Circle m head (xs ++ entry :: ys)) :
    (m entry).previous ∈ head :: (xs ++ ys) ∧ (m entry).next ∈ head :: (xs ++ ys) ∧
    entry ∉ head :: (xs ++ ys) := by
  obtain ⟨-, -, hlast, hfst⟩ := hm.split
  have hp := List.mem_of_getLast? hlast
  have hn := List.mem_of_head? hfst
  refine ⟨?_, ?_, ?_⟩
  · simp only [List.mem_cons, List.mem_append] at hp ⊢
    tauto
  · simp only [List.mem_cons, List.mem_append, List.not_mem_nil, or_false] at hn ⊢
    tauto
  · have hnodup := hm.nodup
    have hperm : (head :: (xs ++ entry :: ys)).Perm (entry :: head :: (xs ++ ys)) :=
      (List.perm_middle.cons head).trans (List.Perm.swap entry head (xs ++ ys))
    exact (List.nodup_cons.mp (hperm.nodup_iff.mp hnodup)).1

theorem altLlistRemove_of_not_mem (hm : Circle m head (xs ++ entry :: ys)) {a : ν}
    (ha : a ∉ head :: (xs ++ ys)) (hae : a ≠ entry) : altLlistRemove m entry a = m a := by
  obtain ⟨hp, hn, he⟩ := around_mem hm
  have hen : entry ≠ (m entry).next := fun heq => he (heq ▸ hn)
  have hap : a ≠ (m entry).previous := fun heq => ha (heq ▸ hp)
  have han : a ≠ (m entry).next := fun heq => ha (heq ▸ hn)
  apply Links.ext
  · rw [altLlistRemove_next hen, if_neg hae, if_neg hap]
  · rw [altLlistRemove_previous, if_neg hae, if_neg han]

theorem altLlistRemove_circle (hm : Circle m head (xs ++ entry :: ys)) :
    Circle (altLlistRemove m entry) head (xs ++ ys) := by
  obtain ⟨hp, hn, he⟩ := around_mem hm
  have hpe : (m entry).previous ≠ entry := fun heq => he (heq ▸ hp)
  have hne : (m entry).next ≠ entry := fun heq => he (heq ▸ hn)
  apply hm.remove
  · rw [altLlistRemove_next hne.symm, if_neg hpe, if_pos rfl]
  · rw [altLlistRemove_previous, if_neg hne, if_pos rfl]
  · intro a hap hae
    rw [altLlistRemove_next hne.symm, if_neg hae, if_neg hap]
  · intro a han hae
    rw [altLlistRemove_previous, if_neg hae, if_neg han]

/-- An entry that has been removed points to itself. -/
theorem altLlistRemove_self : altLlistRemove m entry entry = ⟨entry, entry⟩ := by
  unfold altLlistRemove
  apply Links.ext <;> simp

/-- Further removals are harmless. -/
theorem altLlistRemove_of_self (hm : m entry = ⟨entry, entry⟩) : altLlistRemove m entry = m := by
  funext a
  unfold altLlistRemove
  apply Links.ext
  · by_cases ha : a = entry <;> simp [hm, ha]
  · by_cases ha : a = entry <;> simp [hm, ha]

end

/-! ### Times of 32 bits -/

variable {ρ κ σ : Type*}

/-- The alarm is registered for the time of `e`, which is less than `2 ^ 32` ticks ahead: it comes
after the next overflow of the counter if its time is below it. -/
structure Matches (now : ℕ) (alarm : AltAlarm κ) (e : Due ρ κ) : Prop where
  callback : alarm.callback = e.callback
  time : alarm.time = BitVec.ofNat 32 e.time
  later : now < e.time
  soon : e.time < now + 2 ^ 32
  rollover : alarm.rollover = decide (alarm.time < BitVec.ofNat 32 now)

variable {now : ℕ} {alarm : AltAlarm κ} {e : Due ρ κ}

/-- `rollover`, once the tick counter has been looked at. -/
def rolled (alarm : AltAlarm κ) (nticks : BitVec 32) : Bool :=
  if alarm.rollover && nticks == 0 then false else alarm.rollover

theorem rolled_eq_false (h : Matches now alarm e) :
    rolled alarm (BitVec.ofNat 32 (now + 1)) = false
      ↔ now % 2 ^ 32 ≤ e.time % 2 ^ 32 ∨ (now + 1) % 2 ^ 32 = 0 := by
  have hzero : (BitVec.ofNat 32 (now + 1) == 0) = decide ((now + 1) % 2 ^ 32 = 0) := by
    rw [Bool.eq_iff_iff, beq_iff_eq, ← BitVec.toNat_inj, BitVec.toNat_ofNat, decide_eq_true_iff]
    rfl
  have hlt : alarm.rollover = decide (e.time % 2 ^ 32 < now % 2 ^ 32) := by
    rw [h.rollover, decide_eq_decide, h.time, BitVec.lt_def, BitVec.toNat_ofNat,
      BitVec.toNat_ofNat]
  unfold rolled
  rw [hzero, hlt, ← not_lt]
  by_cases h0 : (now + 1) % 2 ^ 32 = 0
  · simp only [h0, decide_true, Bool.and_true, or_true, iff_true]
    split_ifs with hl
    · rfl
    · exact Bool.eq_false_iff.mpr hl
  · simp only [h0, decide_false, Bool.and_false, or_false, if_false, Bool.false_eq_true,
      decide_eq_false_iff_not]

/-- **When an alarm goes off**: at the first tick that reaches its time. -/
theorem Matches.due_iff (h : Matches now alarm e) :
    (alarm.time ≤ BitVec.ofNat 32 (now + 1) ∧ rolled alarm (BitVec.ofNat 32 (now + 1)) = false)
      ↔ e.time ≤ now + 1 := by
  have hlater := h.later
  have hsoon := h.soon
  -- The counter and the time are less than one overflow apart.
  rw [rolled_eq_false h, h.time, BitVec.le_def, BitVec.toNat_ofNat, BitVec.toNat_ofNat]
  omega

/-- An alarm that does not go off at a tick goes off later. -/
theorem Matches.kept (h : Matches now alarm e) (hdue : ¬e.time ≤ now + 1) :
    Matches (now + 1) { alarm with rollover := rolled alarm (BitVec.ofNat 32 (now + 1)) } e := by
  have hlater := h.later
  have hsoon := h.soon
  refine ⟨h.callback, h.time, by omega, by omega, ?_⟩
  rw [Bool.eq_iff_iff, ← not_iff_not, Bool.not_eq_true, rolled_eq_false h, decide_eq_true_iff,
    h.time, BitVec.lt_def, BitVec.toNat_ofNat, BitVec.toNat_ofNat]
  omega

/-- An alarm that goes off is registered again for as many ticks later as its callback says. -/
theorem Matches.again (h : Matches now alarm e) (hdue : e.time ≤ now + 1) {period : BitVec 32}
    (hp : period ≠ 0) :
    Matches (now + 1)
      { alarm with
        time := alarm.time + period
        rollover := decide (alarm.time + period < BitVec.ofNat 32 (now + 1)) }
      { e with time := e.time + period.toNat } := by
  have hlater := h.later
  have hlt := period.isLt
  have hpos := BitVec.toNat_pos_of_ne_zero hp
  refine ⟨h.callback, ?_, ?_, ?_, rfl⟩
  · show alarm.time + period = BitVec.ofNat 32 (e.time + period.toNat)
    rw [h.time, BitVec.ofNat_add, BitVec.ofNat_toNat, BitVec.setWidth_eq]
  · show now + 1 < e.time + period.toNat
    omega
  · show e.time + period.toNat < now + 1 + 2 ^ 32
    omega

/-- An alarm that is started for `nticks` goes off after `nticks + 1` ticks. -/
theorem matches_start {nticks : BitVec 32} (a : ρ) (callback : κ)
    (hn : nticks.toNat + 1 < 2 ^ 32) :
    Matches now
      ⟨nticks + BitVec.ofNat 32 now + 1, callback,
        decide (nticks + BitVec.ofNat 32 now + 1 < BitVec.ofNat 32 now)⟩
      ⟨a, now + nticks.toNat + 1, callback⟩ := by
  refine ⟨rfl, ?_, ?_, ?_, rfl⟩
  · show nticks + BitVec.ofNat 32 now + 1 = BitVec.ofNat 32 (now + nticks.toNat + 1)
    rw [BitVec.ofNat_add, BitVec.ofNat_add, BitVec.ofNat_toNat, BitVec.setWidth_eq,
      BitVec.add_comm nticks]
    rfl
  · show now < now + nticks.toNat + 1
    omega
  · show now + nticks.toNat + 1 < now + 2 ^ 32
    omega

/-! ### A tick -/

variable [DecidableEq ρ] {call : κ → σ → BitVec 32 × σ}

section

variable {s : Alarms ρ κ σ} {a : ρ} {period : BitVec 32} {rest : σ}

/-- The alarm goes off. -/
def Fires (s : Alarms ρ κ σ) (a : ρ) : Prop :=
  (s.alarm a).time ≤ s.altNticks ∧ rolled (s.alarm a) s.altNticks = false

theorem tickAlarm_quiet (h : ¬Fires s a) : s.tickAlarm call a
    = s.setAlarm a { s.alarm a with rollover := rolled (s.alarm a) s.altNticks } := by
  unfold Alarms.tickAlarm
  exact if_neg h

theorem tickAlarm_fires (h : Fires s a) : s.tickAlarm call a
    = (let r := call (s.alarm a).callback s.rest
      let s' := { s.setAlarm a { s.alarm a with rollover := false } with rest := r.2 }
      if r.1 = 0 then s'.altAlarmStop a
      else s'.setAlarm a
        { s.alarm a with
          time := (s.alarm a).time + r.1
          rollover := decide ((s.alarm a).time + r.1 < s.altNticks) }) := by
  have hrolled := h.2
  unfold rolled at hrolled
  unfold Alarms.tickAlarm
  refine (if_pos h).trans ?_
  dsimp only
  rw [hrolled]
  have hif : decide ((s.alarm a).time + (call (s.alarm a).callback s.rest).1 < s.altNticks)
      = if (s.alarm a).time + (call (s.alarm a).callback s.rest).1 < s.altNticks then true
        else false := by
    split_ifs with hlt
    · exact decide_eq_true hlt
    · exact decide_eq_false hlt
  rw [hif]
  rfl

theorem tickAlarm_stop (h : Fires s a) (hc : call (s.alarm a).callback s.rest = (0, rest)) :
    s.tickAlarm call a
      = ({ s.setAlarm a { s.alarm a with rollover := false } with rest := rest }).altAlarmStop
          a := by
  rw [tickAlarm_fires h, hc]
  exact if_pos rfl

theorem tickAlarm_again (h : Fires s a) (hp : period ≠ 0)
    (hc : call (s.alarm a).callback s.rest = (period, rest)) : s.tickAlarm call a
      = { s.setAlarm a
            { s.alarm a with
              time := (s.alarm a).time + period
              rollover := decide ((s.alarm a).time + period < s.altNticks) } with
          rest := rest } := by
  rw [tickAlarm_fires h, hc]
  refine (if_neg hp).trans ?_
  -- The second write to the alarm covers the first one.
  unfold Alarms.setAlarm
  dsimp only
  rw [Function.update_idem]

end

/-- The entries of an agenda in the linked list. -/
def Due.entry (e : Due ρ κ) : Option ρ := some e.alarm

omit [DecidableEq ρ] in
/-- An alarm that is not registered is not in the list. -/
theorem entry_not_mem {l : List (Due ρ κ)} {a : ρ} (h : ∀ e ∈ l, e.alarm ≠ a) :
    some a ∉ none :: l.map Due.entry := by
  intro hmem
  rcases List.mem_cons.mp hmem with hmem | hmem
  · exact absurd hmem (by simp)
  · obtain ⟨e, he, heq⟩ := List.mem_map.mp hmem
    exact h e he (Option.some.inj heq)

omit [DecidableEq ρ] in
theorem forall_middle {p : Due ρ κ → Prop} {xs ys : List (Due ρ κ)} (he : p e)
    (h : ∀ e' ∈ xs ++ ys, p e') : ∀ e' ∈ xs ++ e :: ys, p e' := by
  intro e' hmem
  rcases List.mem_cons.mp (List.perm_middle.mem_iff.mp hmem) with rfl | hmem
  · exact he
  · exact h e' hmem

section

variable {m : Option ρ → AltLlist (Option ρ)} {xs ys : List (Due ρ κ)}

omit [DecidableEq ρ] in
/-- An alarm is registered once. -/
theorem alarm_ne (hm : Circle m none (xs.map Due.entry ++ e.entry :: ys.map Due.entry)) :
    ∀ e' ∈ xs ++ ys, e'.alarm ≠ e.alarm := by
  intro e' he' heq
  apply (around_mem hm).2.2
  rw [← List.map_append]
  exact List.mem_cons_of_mem _ (List.mem_map.mpr ⟨e', he', congrArg some heq⟩)

/-- After a removal, the alarms that are not registered point to themselves. -/
theorem remove_idle (hm : Circle m none (xs.map Due.entry ++ e.entry :: ys.map Due.entry)) {a : ρ}
    (hne : ∀ e' ∈ xs ++ ys, e'.alarm ≠ a)
    (ha : (∀ e' ∈ xs ++ e :: ys, e'.alarm ≠ a) → m (some a) = ⟨some a, some a⟩) :
    altLlistRemove m e.entry (some a) = ⟨some a, some a⟩ := by
  by_cases hae : a = e.alarm
  · rw [hae]
    exact altLlistRemove_self
  · have hnot_mem : some a ∉ none :: (xs.map Due.entry ++ ys.map Due.entry) := by
      rw [← List.map_append]
      exact entry_not_mem hne
    rw [altLlistRemove_of_not_mem hm hnot_mem fun heq => hae (Option.some.inj heq)]
    exact ha (forall_middle (Ne.symm hae) hne)

end

/-- `alt_tick` is in its loop, with the entries `done` behind it and `todo` before it. -/
structure Looking (known : List ρ) (now : ℕ) (s : Alarms ρ κ σ) (done todo : List (Due ρ κ)) :
    Prop where
  nticks : s.altNticks = BitVec.ofNat 32 (now + 1)
  circle : Circle s.llist none ((done ++ todo).map Due.entry)
  behind : ∀ e ∈ done, Matches (now + 1) (s.alarm e.alarm) e
  before : ∀ e ∈ todo, Matches now (s.alarm e.alarm) e
  idle : ∀ a ∈ known, (∀ e ∈ done ++ todo, e.alarm ≠ a) → s.llist (some a) = ⟨some a, some a⟩

namespace Looking

variable {known : List ρ} {s : Alarms ρ κ σ} {done todo : List (Due ρ κ)}

omit [DecidableEq ρ] in
theorem circle_cons (h : Looking known now s done (e :: todo)) :
    Circle s.llist none (done.map Due.entry ++ e.entry :: todo.map Due.entry) := by
  have hc := h.circle
  rw [List.map_append, List.map_cons] at hc
  exact hc

omit [DecidableEq ρ] in
theorem next (h : Looking known now s done (e :: todo)) :
    (s.llist (some e.alarm)).next = todo.head?.map Due.alarm := by
  obtain ⟨-, -, -, hfst⟩ := h.circle_cons.split
  cases todo with
  | nil => exact (Option.some.inj hfst).symm
  | cons e' todo => exact (Option.some.inj hfst).symm

theorem setAlarm_other (h : Looking known now s done (e :: todo)) (alarm : AltAlarm κ) :
    ∀ e' ∈ done ++ todo, (s.setAlarm e.alarm alarm).alarm e'.alarm = s.alarm e'.alarm := by
  intro e' he'
  exact Function.update_of_ne (alarm_ne h.circle_cons e' he') _ _

/-- The alarm at hand is kept. -/
theorem keep (h : Looking known now s done (e :: todo)) {e' : Due ρ κ} {alarm : AltAlarm κ}
    (hm : Matches (now + 1) alarm e') (he : e'.alarm = e.alarm) (rest : σ) :
    Looking known now { s.setAlarm e.alarm alarm with rest := rest } (done ++ [e']) todo := by
  have hother := h.setAlarm_other alarm
  constructor
  · exact h.nticks
  · have hc := h.circle_cons
    rw [List.append_assoc, List.singleton_append, List.map_append, List.map_cons, Due.entry, he]
    exact hc
  · intro e'' h''
    rcases List.mem_append.mp h'' with hd | hd
    · show Matches (now + 1) ((s.setAlarm e.alarm alarm).alarm e''.alarm) e''
      rw [hother e'' (List.mem_append_left _ hd)]
      exact h.behind e'' hd
    · have hself : (s.setAlarm e.alarm alarm).alarm e.alarm = alarm := Function.update_self _ _ _
      rw [List.mem_singleton.mp hd, he]
      show Matches (now + 1) ((s.setAlarm e.alarm alarm).alarm e.alarm) e'
      rw [hself]
      exact hm
  · intro e'' h''
    show Matches now ((s.setAlarm e.alarm alarm).alarm e''.alarm) e''
    rw [hother e'' (List.mem_append_right _ h'')]
    exact h.before e'' (List.mem_cons_of_mem _ h'')
  · intro a ha hne
    apply h.idle a ha
    apply forall_middle
    · rw [← he]
      exact hne e' (by simp)
    · intro e'' h''
      apply hne e''
      rw [List.append_assoc, List.singleton_append]
      exact List.perm_middle.mem_iff.mpr (List.mem_cons_of_mem _ h'')

/-- The alarm at hand is taken out of the list. -/
theorem stop (h : Looking known now s done (e :: todo)) (alarm : AltAlarm κ) (rest : σ) :
    Looking known now (({ s.setAlarm e.alarm alarm with rest := rest }).altAlarmStop e.alarm)
      done todo := by
  have hother := h.setAlarm_other alarm
  have hcircle := h.circle_cons
  constructor
  · exact h.nticks
  · rw [List.map_append]
    exact altLlistRemove_circle hcircle
  · intro e'' h''
    show Matches (now + 1) ((s.setAlarm e.alarm alarm).alarm e''.alarm) e''
    rw [hother e'' (List.mem_append_left _ h'')]
    exact h.behind e'' h''
  · intro e'' h''
    show Matches now ((s.setAlarm e.alarm alarm).alarm e''.alarm) e''
    rw [hother e'' (List.mem_append_right _ h'')]
    exact h.before e'' (List.mem_cons_of_mem _ h'')
  · intro a ha hne
    exact remove_idle hcircle hne (h.idle a ha)

/-- **The body of the loop** does with an alarm what `Agenda.fire` does with its entry. -/
theorem tickAlarm (h : Looking known now s done (e :: todo))
    (call : κ → σ → BitVec 32 × σ) :
    Looking known now (s.tickAlarm call e.alarm)
      (done ++ (Agenda.fire call (now + 1) [e] s.rest).1) todo ∧
    (s.tickAlarm call e.alarm).rest = (Agenda.fire call (now + 1) [e] s.rest).2 ∧
    (s.tickAlarm call e.alarm).altTickRate = s.altTickRate := by
  have hm := h.before e List.mem_cons_self
  have hdue : Fires s e.alarm ↔ e.time ≤ now + 1 := by
    unfold Fires
    rw [h.nticks]
    exact hm.due_iff
  unfold Agenda.fire Agenda.fire
  by_cases hd : e.time ≤ now + 1
  · rw [if_pos hd]
    have hfires := hdue.mpr hd
    rcases hc : call e.callback s.rest with ⟨period, rest⟩
    rw [← hm.callback] at hc
    dsimp only
    by_cases hp : period = 0
    · subst hp
      rw [tickAlarm_stop hfires hc, if_pos rfl, List.append_nil]
      exact ⟨h.stop _ rest, rfl, rfl⟩
    · rw [tickAlarm_again hfires hp hc, if_neg hp]
      have hagain := h.keep (hm.again hd hp) rfl rest
      rw [← h.nticks] at hagain
      exact ⟨hagain, rfl, rfl⟩
  · rw [if_neg hd, tickAlarm_quiet (mt hdue.mp hd)]
    have hkept := h.keep (hm.kept hd) rfl s.rest
    rw [← h.nticks] at hkept
    exact ⟨hkept, rfl, rfl⟩

end Looking

/-! ### Runs -/

omit [DecidableEq ρ] in
theorem fire_append (now : ℕ) (es es' : List (Due ρ κ)) (rest : σ) :
    Agenda.fire call now (es ++ es') rest
      = ((Agenda.fire call now es rest).1
          ++ (Agenda.fire call now es' (Agenda.fire call now es rest).2).1,
        (Agenda.fire call now es' (Agenda.fire call now es rest).2).2) := by
  induction es generalizing rest with
  | nil => rfl
  | cons e es ih =>
    simp only [List.cons_append, Agenda.fire, ih]
    by_cases hd : e.time ≤ now
    · simp only [if_pos hd]
      by_cases hp : (call e.callback rest).1 = 0
      · simp only [if_pos hp]
      · simp only [if_neg hp, List.cons_append]
    · simp only [if_neg hd, List.cons_append]

omit [DecidableEq ρ] in
theorem fire_cons (now : ℕ) (e : Due ρ κ) (es : List (Due ρ κ)) (rest : σ) :
    Agenda.fire call now (e :: es) rest
      = ((Agenda.fire call now [e] rest).1
          ++ (Agenda.fire call now es (Agenda.fire call now [e] rest).2).1,
        (Agenda.fire call now es (Agenda.fire call now [e] rest).2).2) :=
  fire_append now [e] es rest

/-- The loop does with the list what `Agenda.fire` does with the agenda. -/
theorem Looking.tickFrom {known : List ρ} {s : Alarms ρ κ σ} {done todo : List (Due ρ κ)} {fuel : ℕ}
    (h : Looking known now s done todo) (call : κ → σ → BitVec 32 × σ)
    (hf : todo.length ≤ fuel) :
    ∃ s', s.tickFrom call fuel (todo.head?.map Due.alarm) = some s' ∧
      Looking known now s' (done ++ (Agenda.fire call (now + 1) todo s.rest).1) [] ∧
      s'.rest = (Agenda.fire call (now + 1) todo s.rest).2 ∧ s'.altTickRate = s.altTickRate := by
  induction todo generalizing s done fuel with
  | nil =>
    refine ⟨s, ?_, ?_, rfl, rfl⟩
    · cases fuel <;> rfl
    · rw [Agenda.fire, List.append_nil]
      exact h
  | cons e todo ih =>
    -- Each round of the loop takes one entry, so the fuel lasts.
    cases fuel with
    | zero => exact absurd hf (by simp)
    | succ fuel =>
      obtain ⟨hlook, hrest, hrate⟩ := h.tickAlarm call
      obtain ⟨s', hrun, hlook', hrest', hrate'⟩ := ih hlook (Nat.le_of_succ_le_succ hf)
      refine ⟨s', ?_, ?_, ?_, hrate'.trans hrate⟩
      · -- The next entry has been read before the body.
        rw [← hrun, ← h.next]
        rfl
      · rw [fire_cons, ← List.append_assoc, ← hrest]
        exact hlook'
      · rw [fire_cons, hrest', hrest]

variable {s : Alarms ρ κ σ} {t : Agenda ρ κ σ} {fuel : ℕ}

/-- The linked list holds the entries of the agenda, each alarm with its time and `rollover`.
Alarms that have been started and are not registered point to themselves. -/
structure Refines (s : Alarms ρ κ σ) (t : Agenda ρ κ σ) : Prop where
  tickRate : s.altTickRate = t.tickRate
  nticks : s.altNticks = BitVec.ofNat 32 t.now
  rest : s.rest = t.rest
  circle : Circle s.llist none (t.due.map Due.entry)
  due : ∀ e ∈ t.due, Matches t.now (s.alarm e.alarm) e
  idle : ∀ a ∈ t.known, (∀ e ∈ t.due, e.alarm ≠ a) → s.llist (some a) = ⟨some a, some a⟩

omit [DecidableEq ρ] in
theorem refines_init (llist : ρ → AltLlist (Option ρ)) (alarm : ρ → AltAlarm κ) (rest : σ) :
    Refines (.init llist alarm rest) (.init rest) where
  tickRate := rfl
  nticks := rfl
  rest := rfl
  circle := circle_nil_iff.mpr rfl
  due := fun e he => absurd he (by simp [Agenda.init])
  idle := fun a ha => absurd ha (by simp [Agenda.init])

theorem Refines.tick (h : Refines s t) (hf : t.due.length ≤ fuel) :
    ∃ s', s.step call fuel .tick = some s' ∧ Refines s' (t.step call .tick) := by
  have hlook : Looking t.known t.now { s with altNticks := s.altNticks + 1 } [] t.due := by
    refine ⟨?_, h.circle, fun e he => absurd he (by simp), h.due, h.idle⟩
    show s.altNticks + 1 = _
    rw [h.nticks, BitVec.ofNat_add]
    rfl
  obtain ⟨s', hrun, hlook', hrest, hrate⟩ := hlook.tickFrom call hf
  have hfirst : (s.llist none).next = t.due.head?.map Due.alarm := by
    have hnext := h.circle.next_head
    cases hdue : t.due with
    | nil =>
      rw [hdue] at hnext
      exact (Option.some.inj hnext).symm
    | cons e es =>
      rw [hdue] at hnext
      exact (Option.some.inj hnext).symm
  rw [← hfirst] at hrun
  have hr : ({ s with altNticks := s.altNticks + 1 } : Alarms ρ κ σ).rest = t.rest := h.rest
  rw [List.nil_append, hr] at hlook'
  rw [hr] at hrest
  refine ⟨s', hrun, hrate.trans h.tickRate, hlook'.nticks, hrest, ?_, hlook'.behind, ?_⟩
  · have hcircle := hlook'.circle
    rw [List.append_nil] at hcircle
    exact hcircle
  · intro a ha hne
    apply hlook'.idle a ha
    rw [List.append_nil]
    exact hne

theorem Refines.start (h : Refines s t) {a : ρ} {nticks : BitVec 32} {callback : κ}
    (hok : t.Allowed (.start (some a) nticks callback)) :
    Refines (s.altAlarmStart (some a) nticks callback).2
      (t.step call (.start (some a) nticks callback)) := by
  obtain ⟨hn, hnew⟩ := hok
  unfold Alarms.altAlarmStart Agenda.step
  rw [h.tickRate]
  split_ifs with hrate
  · exact h
  · have hcircle := altLlistInsert_circle h.circle (entry_not_mem hnew)
    refine ⟨h.tickRate, h.nticks, h.rest, hcircle, ?_, ?_⟩
    · intro e he
      rcases List.mem_cons.mp he with rfl | he
      · show Matches t.now (Function.update s.alarm a _ a) _
        rw [Function.update_self, h.nticks]
        exact matches_start a callback hn
      · show Matches t.now (Function.update s.alarm a _ e.alarm) e
        rw [Function.update_of_ne (hnew e he)]
        exact h.due e he
    · intro b hb hne
      have hba : b ≠ a := (hne _ List.mem_cons_self).symm
      show altLlistInsert s.llist none (some a) (some b) = ⟨some b, some b⟩
      have hother : ∀ e ∈ t.due, e.alarm ≠ b := fun e he => hne e (List.mem_cons_of_mem _ he)
      rw [altLlistInsert_of_not_mem h.circle (by simp) (entry_not_mem hother)
        (by simpa using hba)]
      rcases List.mem_cons.mp hb with hb | hb
      · exact absurd hb hba
      · exact h.idle b hb hother

theorem Refines.stop (h : Refines s t) {a : ρ} (hok : t.Allowed (.stop a)) :
    Refines (s.altAlarmStop a) (t.step call (.stop a)) := by
  by_cases hin : ∃ e ∈ t.due, e.alarm = a
  · obtain ⟨e, he, rfl⟩ := hin
    obtain ⟨xs, ys, hsplit⟩ := List.append_of_mem he
    have hcircle := h.circle
    rw [hsplit, List.map_append, List.map_cons] at hcircle
    have hnot := alarm_ne hcircle
    have hdue : (t.step call (.stop e.alarm)).due = xs ++ ys := by
      show t.due.filter (fun e' => decide (e'.alarm ≠ e.alarm)) = xs ++ ys
      rw [hsplit, List.filter_append, List.filter_cons_of_neg (by simp), ← List.filter_append]
      exact List.filter_eq_self.mpr fun e' he' => decide_eq_true (hnot e' he')
    refine ⟨h.tickRate, h.nticks, h.rest, ?_, ?_, ?_⟩
    · rw [hdue, List.map_append]
      exact altLlistRemove_circle hcircle
    · intro e' he'
      exact h.due e' (List.mem_filter.mp he').1
    · intro b hb hne
      rw [hdue] at hne
      exact remove_idle hcircle hne (hsplit ▸ h.idle b hb)
  · -- The alarm has been started and has gone off for the last time, or has been stopped before.
    have hne : ∀ e ∈ t.due, e.alarm ≠ a := fun e he heq => hin ⟨e, he, heq⟩
    have hsame : s.altAlarmStop a = s := by
      unfold Alarms.altAlarmStop
      rw [altLlistRemove_of_self (h.idle a hok hne)]
    have hdue : t.step call (.stop a) = t := by
      unfold Agenda.step
      dsimp only
      rw [List.filter_eq_self.mpr fun e he => decide_eq_true (hne e he)]
    rw [hsame, hdue]
    exact h

/-- **One call**: the alarms do what their agenda does. -/
theorem Refines.step (h : Refines s t) (call : κ → σ → BitVec 32 × σ)
    {e : Alarms.Event ρ κ} (hok : t.Allowed e) (hf : t.due.length ≤ fuel) :
    ∃ s', s.step call fuel e = some s' ∧ Refines s' (t.step call e) := by
  cases e with
  | sysclkInit nticks =>
    refine ⟨_, rfl, ?_⟩
    unfold Alarms.altSysclkInit Agenda.step
    rw [h.tickRate]
    split_ifs with hrate
    · exact ⟨rfl, h.nticks, h.rest, h.circle, h.due, h.idle⟩
    · exact ⟨h.tickRate, h.nticks, h.rest, h.circle, h.due, h.idle⟩
  | start alarm nticks callback =>
    refine ⟨_, rfl, ?_⟩
    cases alarm with
    | none =>
      unfold Alarms.altAlarmStart
      split_ifs
      · exact h
      · exact h
    | some a => exact h.start hok
  | stop a => exact ⟨_, rfl, h.stop hok⟩
  | tick => exact h.tick hf

omit [DecidableEq ρ] in
theorem length_fire_le (now : ℕ) (es : List (Due ρ κ)) (rest : σ) :
    (Agenda.fire call now es rest).1.length ≤ es.length := by
  induction es generalizing rest with
  | nil => exact Nat.le_refl _
  | cons e es ih =>
    have hone : (Agenda.fire call now [e] rest).1.length ≤ 1 := by
      simp only [Agenda.fire]
      split_ifs <;> simp
    rw [fire_cons, List.length_append, List.length_cons]
    have htail := ih (Agenda.fire call now [e] rest).2
    omega

theorem length_due_step_le (call : κ → σ → BitVec 32 × σ) (t : Agenda ρ κ σ)
    (e : Alarms.Event ρ κ) :
    (t.step call e).due.length ≤ t.due.length + 1 := by
  cases e with
  | sysclkInit nticks => exact Nat.le_succ _
  | start alarm nticks callback =>
    cases alarm with
    | none => exact Nat.le_succ _
    | some a =>
      unfold Agenda.step
      dsimp only
      split_ifs
      · exact Nat.le_succ _
      · exact Nat.le_refl _
  | stop a => exact (List.length_filter_le _ _).trans (Nat.le_succ _)
  | tick => exact (length_fire_le _ _ _).trans (Nat.le_succ _)

theorem length_due_run_le (call : κ → σ → BitVec 32 × σ) (t : Agenda ρ κ σ)
    (es : List (Alarms.Event ρ κ)) :
    (Machine.run (Agenda.step call) t es).due.length ≤ t.due.length + es.length := by
  induction es generalizing t with
  | nil => exact Nat.le_refl _
  | cons e es ih =>
    have hstep := length_due_step_le call t e
    have htail := ih (t.step call e)
    rw [run_cons, List.length_cons]
    omega

theorem Refines.run (h : Refines s t) {es : List (Alarms.Event ρ κ)}
    (hok : Along (Agenda.step call) Agenda.Allowed t es) (hf : t.due.length + es.length ≤ fuel) :
    ∃ s', s.run call fuel es = some s' ∧ Refines s' (Machine.run (Agenda.step call) t es) := by
  induction es generalizing s t with
  | nil => exact ⟨s, rfl, h⟩
  | cons e es ih =>
    rw [List.length_cons] at hf
    have hfuel : t.due.length ≤ fuel := by omega
    obtain ⟨s₁, hstep, h₁⟩ := h.step call hok.1 hfuel
    have hlen := length_due_step_le call t e
    obtain ⟨s', hrun, h'⟩ := ih h₁ hok.2 (by omega)
    refine ⟨s', ?_, h'⟩
    unfold Alarms.run at hrun ⊢
    rw [List.foldlM_cons, hstep]
    exact hrun

/-- **The alarms keep their times**: in every run in which the callers keep to `Agenda.Allowed`, the
loop of `alt_tick` comes to its end, and the alarms, with times of 32 bits in a linked list, do what
their agenda does with unbounded times; so the same callbacks are called at the same ticks in the
same order, whatever they do. -/
theorem refines_run (call : κ → σ → BitVec 32 × σ) (llist : ρ → AltLlist (Option ρ))
    (alarm : ρ → AltAlarm κ) (rest : σ) (fuel : ℕ) (es : List (Alarms.Event ρ κ))
    (hok : Along (Agenda.step call) Agenda.Allowed (.init rest) es) (hf : es.length ≤ fuel) :
    ∃ s, (Alarms.init llist alarm rest).run call fuel es = some s ∧
      Refines s (Machine.run (Agenda.step call) (.init rest) es) := by
  apply (refines_init llist alarm rest).run hok
  show 0 + es.length ≤ fuel
  omega

/-- One callback is called every second tick, the other once. -/
def callOnceOrMore (again : Bool) (log : List Bool) : BitVec 32 × List Bool :=
  (if again then 2 else 0, again :: log)

def twoAlarms : List (Alarms.Event Bool Bool) :=
  [.sysclkInit 100, .start (some false) 1 true, .tick, .start (some true) 0 false, .tick, .tick,
    .stop true, .tick, .stop false, .tick]

theorem refines_run_twoAlarms :
    Along (Agenda.step callOnceOrMore) Agenda.Allowed (.init []) twoAlarms ∧
      twoAlarms.length ≤ 10 ∧
      ∃ s, (Alarms.init (fun _ => ⟨none, none⟩) (fun _ => ⟨0, false, false⟩) []).run callOnceOrMore
          10 twoAlarms = some s ∧
        Refines s (Machine.run (Agenda.step callOnceOrMore) (.init []) twoAlarms) :=
  ⟨by decide, by decide, refines_run _ _ _ _ _ _ (by decide) (by decide)⟩

end Ptmch.Hal
