import Ptmch.Hal.File
import Ptmch.Machine.Circular

/-!
# Alarms

The alarms of the HAL, which `alt_tick` looks through at each tick of the system clock, on linked
lists as `alt_llist.h` has them.  The tick counter and the times of the alarms have 32 bits; an
alarm whose time is after the next overflow of the counter is marked with `rollover`.

Interrupts are disabled in all these functions, so that each of them is one step.  What a callback
does is up to the driver, but for the list of alarms, which it leaves alone.
-/

namespace Ptmch.Hal

open Machine

/-! ### Linked lists -/

/-- `alt_llist` -/
abbrev AltLlist (ν : Type*) := Links ν

section

variable {ν : Type*} [DecidableEq ν] (m : ν → AltLlist ν)

def setNext (entry next : ν) : ν → AltLlist ν :=
  Function.update m entry { m entry with next := next }

def setPrevious (entry previous : ν) : ν → AltLlist ν :=
  Function.update m entry { m entry with previous := previous }

/-- The entry becomes the first one. -/
def altLlistInsert (list entry : ν) : ν → AltLlist ν :=
  let m := setPrevious m entry list
  let m := setNext m entry (m list).next
  let m := setPrevious m (m list).next entry
  setNext m list entry

/-- The entry points to itself in the end. -/
def altLlistRemove (entry : ν) : ν → AltLlist ν :=
  let m := setPrevious m (m entry).next (m entry).previous
  let m := setNext m (m entry).previous (m entry).next
  let m := setPrevious m entry entry
  setNext m entry entry

end

/-! ### Alarms -/

def enotsup : ℤ := 134

/-- `alt_alarm`, but for its `llist`; `κ` is the type of the callbacks with their contexts. -/
structure AltAlarm (κ : Type*) where
  time : BitVec 32
  callback : κ
  rollover : Bool

/-- The variables of `alt_tick.c` and the alarms that the drivers hold; `ρ` is the type of pointers
to an alarm. -/
structure Alarms (ρ κ σ : Type*) where
  altTickRate : BitVec 32
  altNticks : BitVec 32
  /-- `alt_alarm_list` and the `llist` of each alarm -/
  llist : Option ρ → AltLlist (Option ρ)
  alarm : ρ → AltAlarm κ
  /-- what the callbacks work on -/
  rest : σ

namespace Alarms

variable {ρ κ σ : Type*} [DecidableEq ρ] (s : Alarms ρ κ σ)

omit [DecidableEq ρ] in
/-- Before the first tick, with an empty list. -/
def init (llist : ρ → AltLlist (Option ρ)) (alarm : ρ → AltAlarm κ) (rest : σ) : Alarms ρ κ σ where
  altTickRate := 0
  altNticks := 0
  llist a := a.elim ⟨none, none⟩ llist
  alarm := alarm
  rest := rest

omit [DecidableEq ρ] in
def altSysclkInit (nticks : BitVec 32) : ℤ × Alarms ρ κ σ :=
  if s.altTickRate = 0 then (0, { s with altTickRate := nticks }) else (-1, s)

def setAlarm (a : ρ) (alarm : AltAlarm κ) : Alarms ρ κ σ :=
  { s with alarm := Function.update s.alarm a alarm }

/-- `none` is a null pointer. -/
def altAlarmStart (alarm : Option ρ) (nticks : BitVec 32) (callback : κ) : ℤ × Alarms ρ κ σ :=
  if s.altTickRate = 0 then (-enotsup, s)
  else match alarm with
    | none => (-einval, s)
    | some a =>
      let time := nticks + s.altNticks + 1
      (0, { s.setAlarm a ⟨time, callback, decide (time < s.altNticks)⟩ with
        llist := altLlistInsert s.llist none (some a) })

def altAlarmStop (a : ρ) : Alarms ρ κ σ := { s with llist := altLlistRemove s.llist (some a) }

variable (call : κ → σ → BitVec 32 × σ)

/-- The body of the loop of `alt_tick`. -/
def tickAlarm (a : ρ) : Alarms ρ κ σ :=
  let alarm := s.alarm a
  let rollover := if alarm.rollover && s.altNticks == 0 then false else alarm.rollover
  let s := s.setAlarm a { alarm with rollover := rollover }
  if alarm.time ≤ s.altNticks ∧ rollover = false then
    let (nextCallback, rest) := call alarm.callback s.rest
    let s := { s with rest := rest }
    if nextCallback = 0 then s.altAlarmStop a
    else
      let time := alarm.time + nextCallback
      let rollover := if time < s.altNticks then true else rollover
      s.setAlarm a { alarm with time := time, rollover := rollover }
  else s

/-- The loop, from an alarm or the end of the list on; `none` where `fuel` does not suffice. -/
def tickFrom : ℕ → Alarms ρ κ σ → Option ρ → Option (Alarms ρ κ σ)
  | _, s, none => some s
  | 0, _, some _ => none
  | fuel + 1, s, some a => tickFrom fuel (s.tickAlarm call a) (s.llist (some a)).next

def altTick (fuel : ℕ) : Option (Alarms ρ κ σ) :=
  let s := { s with altNticks := s.altNticks + 1 }
  tickFrom call fuel s (s.llist none).next

/-! ### Runs -/

inductive Event (ρ κ : Type*)
  | sysclkInit (nticks : BitVec 32)
  | start (alarm : Option ρ) (nticks : BitVec 32) (callback : κ)
  | stop (alarm : ρ)
  | tick

def Event.isTick : Event ρ κ → Bool
  | .tick => true
  | _ => false

/-- A call, with the fuel for the loop of `alt_tick`. -/
def step (fuel : ℕ) : Event ρ κ → Option (Alarms ρ κ σ)
  | .sysclkInit nticks => some (s.altSysclkInit nticks).2
  | .start alarm nticks callback => some (s.altAlarmStart alarm nticks callback).2
  | .stop alarm => some (s.altAlarmStop alarm)
  | .tick => s.altTick call fuel

def run (fuel : ℕ) (es : List (Event ρ κ)) : Option (Alarms ρ κ σ) :=
  es.foldlM (fun s e => s.step call fuel e) s

end Alarms

/-! ### What alarms are for -/

/-- An alarm that is registered, with the tick at which it goes off, counted without an overflow. -/
structure Due (ρ κ : Type*) where
  alarm : ρ
  time : ℕ
  callback : κ

/-- The registered alarms, the latest first. -/
structure Agenda (ρ κ σ : Type*) where
  tickRate : BitVec 32
  now : ℕ
  due : List (Due ρ κ)
  /-- the alarms that have been started -/
  known : List ρ
  rest : σ

namespace Agenda

variable {ρ κ σ : Type*} [DecidableEq ρ] (call : κ → σ → BitVec 32 × σ)

/-- Each alarm that is due goes off, and is due again after as many ticks as its callback says. -/
def fire (now : ℕ) : List (Due ρ κ) → σ → List (Due ρ κ) × σ
  | [], rest => ([], rest)
  | e :: es, rest =>
    if e.time ≤ now then
      let (period, rest) := call e.callback rest
      let (es, rest) := fire now es rest
      (if period = 0 then es else { e with time := e.time + period.toNat } :: es, rest)
    else
      let (es, rest) := fire now es rest
      (e :: es, rest)

omit [DecidableEq ρ] in
def init (rest : σ) : Agenda ρ κ σ := ⟨0, 0, [], [], rest⟩

variable (t : Agenda ρ κ σ)

def step : Alarms.Event ρ κ → Agenda ρ κ σ
  | .sysclkInit nticks => { t with tickRate := if t.tickRate = 0 then nticks else t.tickRate }
  | .start none _ _ => t
  | .start (some a) nticks callback =>
    if t.tickRate = 0 then t
    else { t with
      due := ⟨a, t.now + nticks.toNat + 1, callback⟩ :: t.due
      known := a :: t.known }
  | .stop a => { t with due := t.due.filter fun e => e.alarm ≠ a }
  | .tick =>
    let (due, rest) := fire call (t.now + 1) t.due t.rest
    { t with now := t.now + 1, due := due, rest := rest }

/-- What the callers keep to: an alarm is started while it is not registered, so that it goes off
less than `2 ^ 32` ticks ahead, and it is stopped only if it has been started. -/
def Allowed : Alarms.Event ρ κ → Prop
  | .start (some a) nticks _ => nticks.toNat + 1 < 2 ^ 32 ∧ ∀ e ∈ t.due, e.alarm ≠ a
  | .stop a => a ∈ t.known
  | _ => True

instance : ∀ e, Decidable (t.Allowed e)
  | .start (some _) _ _ => inferInstanceAs (Decidable (_ ∧ _))
  | .stop a => inferInstanceAs (Decidable (a ∈ t.known))
  | .sysclkInit _ | .start none _ _ | .tick => inferInstanceAs (Decidable True)

end Agenda

end Ptmch.Hal
