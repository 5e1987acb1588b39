import Ptmch.JtagUart.Program
import Ptmch.JtagUart.Equiv.Calls

/-!
# The program on the JTAG UART: what the host is answered

Whatever the host sends and when, however the interrupt comes between the steps of the driver, and
however `stdin` and `stdout` cut the bytes into calls: the host is given a beginning of the answer
to what it has sent, and all of it once nothing is on its way (`Prog.received_answer`).
-/

namespace Ptmch.JtagUart

open CLib Machine

/-! ### Where a call goes -/

namespace Sys

variable {y y' : Sys} {h₁ h₂ : Host}

/-- A call of `read` goes on or returns. -/
theorem next_of_read (hnext : y.Next y') {pc : ReadPc} {c : ReadCall}
    (hmain : y.main = .read pc c) :
    (∃ pc' c', y'.main = .read pc' c' ∧ c'.size = c.size ∧ c'.nonblock = c.nonblock ∧
      y'.returns = y.returns) ∨
      ∃ v, y'.main = .idle ∧ y'.returns = y.returns ++ [.read c.size c.nonblock c.buffer v] := by
  have hsame : y'.main = y.main → y'.returns = y.returns →
      (∃ pc' c', y'.main = .read pc' c' ∧ c'.size = c.size ∧ c'.nonblock = c.nonblock ∧
        y'.returns = y.returns) ∨
        ∃ v, y'.main = .idle ∧ y'.returns = y.returns ++ [.read c.size c.nonblock c.buffer v] :=
    fun h hr => Or.inl ⟨pc, c, h.trans hmain, rfl, rfl, hr⟩
  cases hnext with
  | stay => exact hsame rfl rfl
  | tick h => exact hsame rfl rfl
  | @read pc' c' h₁ h₂ hisr hmain' =>
    obtain ⟨rfl, rfl⟩ : pc' = pc ∧ c' = c := by
      rw [hmain', Main.read.injEq] at hmain
      exact hmain
    cases pc' with
    | finish =>
      simp only [readStep]
      split_ifs <;> exact Or.inr ⟨_, rfl, rfl⟩
    | loadOut | copy =>
      simp only [readStep]
      split_ifs <;> exact Or.inl ⟨_, _, rfl, rfl, rfl, rfl⟩
    | _ => exact Or.inl ⟨_, _, rfl, rfl, rfl, rfl⟩
  | isr h₁ h₂ => exact hsame (isrStep_main _ _ _ _) (isrStep_returns _ _ _ _)
  | irq => exact hsame rfl rfl
  | alarm h₁ h₂ h₃ h₄ =>
    exact hsame (timeoutStep_main _ _ _ _ _).1 (timeoutStep_main _ _ _ _ _).2
  | boot _ _ _ h | write _ _ _ h | close _ h | closeHost _ h | call _ _ h =>
    exact Main.noConfusion (h.symm.trans hmain)

/-- A call of `write` goes on or returns. -/
theorem next_of_write (hnext : y.Next y') {pc : WritePc} {c : WriteCall}
    (hmain : y.main = .write pc c) :
    (∃ pc' c', y'.main = .write pc' c' ∧ c'.data = c.data ∧ c'.nonblock = c.nonblock ∧
      y'.returns = y.returns) ∨
      ∃ v, y'.main = .idle ∧ y'.returns = y.returns ++ [.write c.data c.nonblock v] := by
  have hsame : y'.main = y.main → y'.returns = y.returns →
      (∃ pc' c', y'.main = .write pc' c' ∧ c'.data = c.data ∧ c'.nonblock = c.nonblock ∧
        y'.returns = y.returns) ∨
        ∃ v, y'.main = .idle ∧ y'.returns = y.returns ++ [.write c.data c.nonblock v] :=
    fun h hr => Or.inl ⟨pc, c, h.trans hmain, rfl, rfl, hr⟩
  cases hnext with
  | stay => exact hsame rfl rfl
  | tick h => exact hsame rfl rfl
  | @write pc' c' h₁ h₂ hisr hmain' =>
    obtain ⟨rfl, rfl⟩ : pc' = pc ∧ c' = c := by
      rw [hmain', Main.write.injEq] at hmain
      exact hmain
    cases pc' with
    | check =>
      simp only [writeStep]
      split_ifs
      · exact Or.inl ⟨_, _, rfl, rfl, rfl, rfl⟩
      · exact Or.inr ⟨_, rfl, rfl⟩
    | hostCheck =>
      simp only [writeStep]
      split_ifs
      · exact Or.inr ⟨_, rfl, rfl⟩
      · exact Or.inl ⟨_, _, rfl, rfl, rfl, rfl⟩
    | loadOut | copy =>
      simp only [writeStep]
      split_ifs <;> exact Or.inl ⟨_, _, rfl, rfl, rfl, rfl⟩
    | _ => exact Or.inl ⟨_, _, rfl, rfl, rfl, rfl⟩
  | isr h₁ h₂ => exact hsame (isrStep_main _ _ _ _) (isrStep_returns _ _ _ _)
  | irq => exact hsame rfl rfl
  | alarm h₁ h₂ h₃ h₄ =>
    exact hsame (timeoutStep_main _ _ _ _ _).1 (timeoutStep_main _ _ _ _ _).2
  | boot _ _ _ h | read _ _ _ h | close _ h | closeHost _ h | call _ _ h =>
    exact Main.noConfusion (h.symm.trans hmain)

/-- The driver does not come into a call by itself. -/
theorem step_of_idle {e : Event} (he : ∀ c, e ≠ .call c) (hmain : y.main = .boot ∨ y.main = .idle) :
    ((y.step e).main = y.main ∨ (y.step e).main = .idle) ∧ (y.step e).returns = y.returns := by
  cases e with
  | tick h => exact ⟨Or.inl rfl, rfl⟩
  | cpu h₁ h₂ =>
    simp only [step]
    split
    next pc hisr => exact ⟨Or.inl (isrStep_main _ _ _ _), isrStep_returns _ _ _ _⟩
    next hisr =>
      unfold mainStep
      rcases hmain with h | h
      · rw [h]
        exact ⟨Or.inr rfl, rfl⟩
      · rw [h]
        exact ⟨Or.inr h, rfl⟩
  | irq =>
    simp only [step]
    split_ifs <;> exact ⟨Or.inl rfl, rfl⟩
  | alarm h₁ h₂ h₃ h₄ =>
    simp only [step]
    split_ifs
    · obtain ⟨hm, hr⟩ := timeoutStep_main y h₁ h₂ h₃ h₄
      exact ⟨Or.inl hm, hr⟩
    · exact ⟨Or.inl rfl, rfl⟩
  | call c => exact absurd rfl (he c)

end Sys

/-! ### The streams -/

/-- The answer to what has been sent: the line for each `p`. -/
def answer (sent : List Byte) : List Byte :=
  (List.replicate (sent.count 0x70) (ascii "mokemokemomomo!!!\n".toList)).flatten

theorem answer_append (xs ys : List Byte) : answer (xs ++ ys) = answer xs ++ answer ys := by
  unfold answer
  rw [List.count_append, List.replicate_add, List.flatten_append]

/-- A turn of the loop answers its character. -/
theorem answer_singleton (onechar : Byte) : answer [onechar] = respond onechar := by
  unfold answer respond
  split_ifs with h
  · rw [h]
    rfl
  · have hcount : [onechar].count 0x70 = 0 := by
      rw [List.count_eq_zero, List.mem_singleton]
      exact fun heq => h heq.symm
    rw [hcount]
    rfl

theorem answer_mono {xs ys : List Byte} (h : xs <+: ys) : answer xs <+: answer ys := by
  obtain ⟨zs, rfl⟩ := h
  rw [answer_append]
  exact List.prefix_append _ _

namespace Prog

/-- The bytes that the calls of `read` have returned. -/
def got (p : Prog) : List Byte := p.sys.returns.flatMap Return.bytes

/-- The bytes that the calls of `write` have taken. -/
def put (p : Prog) : List Byte := p.sys.returns.flatMap Return.taken

/-- Nothing has been lost between the streams and the driver. -/
def Streams (p : Prog) : Phase → Prop
  | .run =>
    (p.sys.main = .boot ∨ p.sys.main = .idle) ∧ p.got = p.consumed ++ p.stdin ∧
      p.put ++ p.stdout = answer p.consumed
  | .fill =>
    p.stdin = [] ∧ p.put ++ p.stdout = answer p.consumed ∧
      ((∃ pc c, p.sys.main = .read pc c ∧ c.nonblock = false ∧ p.got = p.consumed) ∨
        ∃ rs size bytes v, p.sys.main = .idle ∧
          p.sys.returns = rs ++ [.read size false bytes v] ∧
          rs.flatMap Return.bytes = p.consumed)
  | .flush =>
    p.got = p.consumed ++ p.stdin ∧
      ((∃ pc c, p.sys.main = .write pc c ∧ c.nonblock = false ∧ c.data <+: p.stdout ∧
          p.put ++ p.stdout = answer p.consumed) ∨
        ∃ rs data v, p.sys.main = .idle ∧ p.sys.returns = rs ++ [.write data false v] ∧
          data <+: p.stdout ∧ rs.flatMap Return.taken ++ p.stdout = answer p.consumed)

/-- What the steps of a run keep. -/
structure Ok (p : Prog) : Prop where
  inv : p.sys.Inv
  calls : p.sys.Calls
  streams : p.Streams p.phase

theorem Ok.start : Prog.start.Ok :=
  ⟨Sys.Inv.start false, Sys.Calls.start, Or.inl rfl, rfl, rfl⟩

variable {p : Prog}

theorem flatMap_bytes_concat (rs : List Return) (r : Return) :
    (rs ++ [r]).flatMap Return.bytes = rs.flatMap Return.bytes ++ r.bytes := by
  rw [List.flatMap_append, List.flatMap_singleton]

theorem flatMap_taken_concat (rs : List Return) (r : Return) :
    (rs ++ [r]).flatMap Return.taken = rs.flatMap Return.taken ++ r.taken := by
  rw [List.flatMap_append, List.flatMap_singleton]

section Sys

variable {e : Sys.Event}

theorem streams_run (hp : p.Streams .run) (he : ∀ c, e ≠ .call c) :
    Streams { p with sys := p.sys.step e } .run := by
  obtain ⟨hmain, hgot, hput⟩ := hp
  obtain ⟨hmain', hreturns⟩ := Sys.step_of_idle he hmain
  refine ⟨?_, ?_, ?_⟩
  · rcases hmain' with h | h
    · exact hmain.imp h.trans h.trans
    · exact Or.inr h
  · show (p.sys.step e).returns.flatMap Return.bytes = _
    rw [hreturns]
    exact hgot
  · show (p.sys.step e).returns.flatMap Return.taken ++ _ = _
    rw [hreturns]
    exact hput

theorem streams_fill (hp : p.Streams .fill) (he : ∀ c, e ≠ .call c) :
    Streams { p with sys := p.sys.step e } .fill := by
  obtain ⟨hstdin, hput, hcall⟩ := hp
  have hput' : ∀ {rs : List Return}, rs.flatMap Return.taken = p.put →
      rs.flatMap Return.taken ++ p.stdout = answer p.consumed := fun h => h ▸ hput
  rcases hcall with ⟨pc, c, hmain, hnb, hgot⟩ | ⟨rs, size, bytes, v, hmain, hreturns, hgot⟩
  · rcases Sys.next_of_read (Sys.next_step p.sys e) hmain with
      ⟨pc', c', hmain', -, hnb', hr⟩ | ⟨v, hmain', hr⟩
    · refine ⟨hstdin, hput' (congrArg _ hr), Or.inl ⟨pc', c', hmain', hnb'.trans hnb, ?_⟩⟩
      exact (congrArg (List.flatMap Return.bytes) hr).trans hgot
    · refine ⟨hstdin, hput' ?_, Or.inr ⟨p.sys.returns, c.size, c.buffer, v, hmain', ?_, hgot⟩⟩
      · show (p.sys.step e).returns.flatMap Return.taken = _
        rw [hr, flatMap_taken_concat]
        exact List.append_nil _
      · rw [← hnb]
        exact hr
  · obtain ⟨hmain', hr⟩ := Sys.step_of_idle he (Or.inr hmain)
    refine ⟨hstdin, hput' (congrArg _ hr), Or.inr ⟨rs, size, bytes, v, ?_, hr.trans hreturns, hgot⟩⟩
    exact hmain'.elim (·.trans hmain) id

theorem streams_flush (hp : p.Streams .flush) (he : ∀ c, e ≠ .call c) :
    Streams { p with sys := p.sys.step e } .flush := by
  obtain ⟨hgot, hcall⟩ := hp
  have hgot' : ∀ {rs : List Return}, rs.flatMap Return.bytes = p.got →
      rs.flatMap Return.bytes = p.consumed ++ p.stdin := fun h => h.trans hgot
  rcases hcall with ⟨pc, c, hmain, hnb, hdata, hput⟩ | ⟨rs, data, v, hmain, hreturns, hdata, hput⟩
  · rcases Sys.next_of_write (Sys.next_step p.sys e) hmain with
      ⟨pc', c', hmain', hdata', hnb', hr⟩ | ⟨v, hmain', hr⟩
    · refine ⟨hgot' (congrArg _ hr), Or.inl ⟨pc', c', hmain', hnb'.trans hnb, ?_, ?_⟩⟩
      · rw [hdata']
        exact hdata
      · exact (congrArg (List.flatMap Return.taken · ++ p.stdout) hr).trans hput
    · refine ⟨hgot' ?_, Or.inr ⟨p.sys.returns, c.data, v, hmain', ?_, hdata, hput⟩⟩
      · show (p.sys.step e).returns.flatMap Return.bytes = _
        rw [hr, flatMap_bytes_concat]
        exact List.append_nil _
      · rw [← hnb]
        exact hr
  · obtain ⟨hmain', hr⟩ := Sys.step_of_idle he (Or.inr hmain)
    refine ⟨hgot' (congrArg _ hr), Or.inr ⟨rs, data, v, ?_, hr.trans hreturns, hdata, hput⟩⟩
    exact hmain'.elim (·.trans hmain) id

/-- A step of the driver. -/
theorem Ok.sys (hp : p.Ok) (he : ∀ c, e ≠ .call c) : Ok { p with sys := p.sys.step e } := by
  refine ⟨hp.inv.step e, hp.calls.next hp.inv.rx hp.inv.tx (Sys.next_step p.sys e), ?_⟩
  have hstreams := hp.streams
  show Streams _ p.phase
  cases hphase : p.phase with
  | run => exact streams_run (hphase ▸ hstreams) he
  | fill => exact streams_fill (hphase ▸ hstreams) he
  | flush => exact streams_flush (hphase ▸ hstreams) he

end Sys

/-! ### The program's steps -/

theorem sys_call (hp : p.Ok) (c : Sys.Call) :
    (p.sys.step (.call c)).Inv ∧ (p.sys.step (.call c)).Calls :=
  ⟨hp.inv.step _, hp.calls.next hp.inv.rx hp.inv.tx (Sys.next_step p.sys _)⟩

theorem step_call (hruns : p.Runs) (c : Sys.Call) :
    p.sys.step (.call c) = { p.sys with main := c.main } := by
  simp only [Sys.step]
  exact if_pos hruns

theorem Ok.getchar (hp : p.Ok) (hphase : p.phase = .run) : p.getchar.Ok := by
  have hstreams := hp.streams
  rw [hphase] at hstreams
  obtain ⟨hmain, hgot, hput⟩ := hstreams
  unfold Prog.getchar
  cases hstdin : p.stdin with
  | nil => exact hp
  | cons onechar rest =>
    refine ⟨hp.inv, hp.calls, ?_⟩
    show Streams _ p.phase
    rw [hphase]
    refine ⟨hmain, ?_, ?_⟩
    · show p.got = p.consumed ++ [onechar] ++ rest
      rw [hgot, hstdin, List.append_assoc]
      rfl
    · show p.put ++ (p.stdout ++ respond onechar) = answer (p.consumed ++ [onechar])
      rw [answer_append, ← List.append_assoc, hput]
      rw [answer_singleton]

theorem Ok.fill (hp : p.Ok) (hruns : p.Runs) (hphase : p.phase = .run) (hstdin : p.stdin = [])
    (size : ℕ) :
    Ok { p with sys := p.sys.step (.call (.read size false)), phase := .fill } := by
  obtain ⟨hinv, hcalls⟩ := sys_call hp (.read size false)
  have hstreams := hp.streams
  rw [hphase] at hstreams
  obtain ⟨-, hgot, hput⟩ := hstreams
  rw [hstdin, List.append_nil] at hgot
  refine ⟨hinv, hcalls, hstdin, ?_,
    Or.inl ⟨.outer, ⟨size, false, size, [], 0, 0, 0, []⟩, ?_, rfl, ?_⟩⟩
  · show (p.sys.step (.call (.read size false))).returns.flatMap Return.taken ++ _ = _
    rw [step_call hruns]
    exact hput
  · exact congrArg Sys.main (step_call hruns _)
  · show (p.sys.step (.call (.read size false))).returns.flatMap Return.bytes = _
    rw [step_call hruns]
    exact hgot

theorem Ok.filled (hp : p.Ok) (hruns : p.Runs) (hphase : p.phase = .fill) {r : Return}
    (hr : p.sys.returns.getLast? = some r) : (p.filled r).Ok := by
  have hstreams := hp.streams
  rw [hphase] at hstreams
  obtain ⟨hstdin, hput, ⟨pc, c, hmain, -⟩ | ⟨rs, size, bytes, v, hmain, hreturns, hgot⟩⟩ := hstreams
  · exact Main.noConfusion (hruns.2.symm.trans hmain)
  · rw [hreturns, List.getLast?_concat, Option.some.injEq] at hr
    refine ⟨hp.inv, hp.calls, Or.inr hmain, ?_, ?_⟩
    · show p.sys.returns.flatMap Return.bytes = p.consumed ++ r.bytes
      rw [hreturns, flatMap_bytes_concat, hgot, ← hr]
    · have heof : (if r.value ≤ 0 then respond eof else []) = [] := by
        split_ifs <;> rfl
      show p.put ++ (p.stdout ++ if r.value ≤ 0 then respond eof else []) = _
      rw [heof, List.append_nil]
      exact hput

theorem Ok.flush (hp : p.Ok) (hruns : p.Runs) (hphase : p.phase = .run) (count : ℕ) :
    Ok { p with
      sys := p.sys.step (.call (.write (p.stdout.take count) false)), phase := .flush } := by
  obtain ⟨hinv, hcalls⟩ := sys_call hp (.write (p.stdout.take count) false)
  have hstreams := hp.streams
  rw [hphase] at hstreams
  obtain ⟨-, hgot, hput⟩ := hstreams
  refine ⟨hinv, hcalls, ?_, Or.inl ⟨.inner, ⟨p.stdout.take count, false, 0, 0, 0, 0, 0⟩, ?_, rfl,
    List.take_prefix _ _, ?_⟩⟩
  · show (p.sys.step (.call (.write (p.stdout.take count) false))).returns.flatMap _ = _
    rw [step_call hruns]
    exact hgot
  · exact congrArg Sys.main (step_call hruns _)
  · show (p.sys.step (.call (.write (p.stdout.take count) false))).returns.flatMap _ ++ _ = _
    rw [step_call hruns]
    exact hput

/-- What `write` has taken is what leaves the buffer. -/
theorem Ok.flushed (hp : p.Ok) (hruns : p.Runs) (hphase : p.phase = .flush) {r : Return}
    (hr : p.sys.returns.getLast? = some r) : (p.flushed r).Ok := by
  have hstreams := hp.streams
  rw [hphase] at hstreams
  obtain ⟨hgot, ⟨pc, c, hmain, -⟩ | ⟨rs, data, v, hmain, hreturns, hdata, hput⟩⟩ := hstreams
  · exact Main.noConfusion (hruns.2.symm.trans hmain)
  · have hok : (Return.write data false v).Ok :=
      hp.calls.returns _ (hreturns ▸ List.mem_append_right _ (List.mem_singleton_self _))
    rw [hreturns, List.getLast?_concat, Option.some.injEq] at hr
    have hle : v.toNat ≤ data.length := by
      rcases hok with ⟨-, hle, -⟩ | ⟨hnb, -⟩ | ⟨-, -, rfl⟩
      · omega
      · exact Bool.noConfusion hnb
      · exact Nat.zero_le _
    refine ⟨hp.inv, hp.calls, Or.inr hmain, hgot, ?_⟩
    refine Eq.trans ?_ hput
    show p.sys.returns.flatMap Return.taken ++ p.stdout.drop r.value.toNat = _
    rw [hreturns, flatMap_taken_concat, ← hr, List.append_assoc]
    obtain ⟨tl, htl⟩ := hdata
    show _ ++ (data.take v.toNat ++ p.stdout.drop v.toNat) = _
    rw [← htl, List.drop_append_of_le_length hle, ← List.append_assoc (data.take _),
      List.take_append_drop]

theorem Ok.step (hp : p.Ok) (a : Act) : (p.step a).Ok := by
  cases a with
  | sys e =>
    cases e with
    | call c => exact hp
    | tick h => exact hp.sys fun c => Sys.Event.noConfusion
    | cpu h₁ h₂ => exact hp.sys fun c => Sys.Event.noConfusion
    | irq => exact hp.sys fun c => Sys.Event.noConfusion
    | alarm h₁ h₂ h₃ h₄ => exact hp.sys fun c => Sys.Event.noConfusion
  | getchar =>
    simp only [Prog.step]
    split_ifs with h
    · exact hp.getchar h.2
    · exact hp
  | fill size =>
    simp only [Prog.step]
    split_ifs with h
    · exact hp.fill h.1 h.2.1 h.2.2.1 size
    · exact hp
  | filled =>
    simp only [Prog.step]
    split_ifs with h
    · cases hr : p.sys.returns.getLast? with
      | none => exact hp
      | some r => exact hp.filled h.1 h.2 hr
    · exact hp
  | flush count =>
    simp only [Prog.step]
    split_ifs with h
    · exact hp.flush h.1 h.2.1 count
    · exact hp
  | flushed =>
    simp only [Prog.step]
    split_ifs with h
    · cases hr : p.sys.returns.getLast? with
      | none => exact hp
      | some r => exact hp.flushed h.1 h.2 hr
    · exact hp

/-! ### Runs -/

theorem ok_run (as : List Act) : (run step start as).Ok :=
  run_induction (fun _ a hp => hp.step a) Ok.start as

/-- What the program has taken from `stdin` has come from the host. -/
theorem Ok.consumed_initial (hp : p.Ok) : p.consumed <+: p.sys.line.sent := by
  have hgot : p.consumed <+: p.got := by
    have hstreams := hp.streams
    cases hphase : p.phase with
    | run =>
      rw [hphase] at hstreams
      exact hstreams.2.1 ▸ List.prefix_append _ _
    | fill =>
      rw [hphase] at hstreams
      obtain ⟨-, -, ⟨pc, c, -, -, hgot⟩ | ⟨rs, size, bytes, v, -, hreturns, hgot⟩⟩ := hstreams
      · exact hgot ▸ List.prefix_refl _
      · rw [got, hreturns, flatMap_bytes_concat, hgot]
        exact List.prefix_append _ _
    | flush =>
      rw [hphase] at hstreams
      exact hstreams.1 ▸ List.prefix_append _ _
  refine hgot.trans ?_
  rw [hp.inv.rx.sent, Sys.delivered, List.append_assoc, List.append_assoc]
  exact List.prefix_append _ _

/-- What `write` has taken is a beginning of the answer. -/
theorem Ok.accepted_initial (hp : p.Ok) : p.sys.accepted <+: answer p.consumed := by
  have htaken : ∀ {m : Main}, m = .boot ∨ m = .idle ∨ (∃ pc c, m = .read pc c) → m.taken = [] := by
    rintro m (rfl | rfl | ⟨pc, c, rfl⟩) <;> rfl
  have hstreams := hp.streams
  cases hphase : p.phase with
  | run =>
    rw [hphase] at hstreams
    obtain ⟨hmain, -, hput⟩ := hstreams
    rw [Sys.accepted, htaken (hmain.imp_right Or.inl), List.append_nil, ← hput]
    exact List.prefix_append _ _
  | fill =>
    rw [hphase] at hstreams
    obtain ⟨-, hput, hcall⟩ := hstreams
    have hmain : p.sys.main = .boot ∨ p.sys.main = .idle ∨ ∃ pc c, p.sys.main = .read pc c := by
      rcases hcall with ⟨pc, c, hmain, -⟩ | ⟨rs, size, bytes, v, hmain, -⟩
      · exact Or.inr (Or.inr ⟨pc, c, hmain⟩)
      · exact Or.inr (Or.inl hmain)
    rw [Sys.accepted, htaken hmain, List.append_nil, ← hput]
    exact List.prefix_append _ _
  | flush =>
    rw [hphase] at hstreams
    obtain ⟨-, ⟨pc, c, hmain, -, hdata, hput⟩ | ⟨rs, data, v, hmain, hreturns, hdata, hput⟩⟩ :=
      hstreams
    · rw [Sys.accepted_of_write hmain, ← hput]
      exact List.prefix_append_right_inj _ |>.mpr ((List.take_prefix _ _).trans hdata)
    · rw [Sys.accepted, htaken (Or.inr (Or.inl hmain)), List.append_nil, hreturns,
        flatMap_taken_concat, ← hput]
      exact List.prefix_append_right_inj _ |>.mpr ((List.take_prefix _ _).trans hdata)

/-- Nothing is on its way. -/
structure Quiet (p : Prog) : Prop where
  phase : p.phase = .run
  stdin : p.stdin = []
  stdout : p.stdout = []
  rxRing : p.sys.rxRing = []
  txRing : p.sys.txRing = []
  rfifo : p.sys.line.uart.rfifo = []
  wfifo : p.sys.line.uart.wfifo = []
  rVal : p.sys.line.uart.rVal = false

/-- A session in which the host sends one `p` and takes the line. -/
def pSession : List Act :=
  let idle : Host := ⟨false, false, 0, false⟩
  let take : Host := ⟨true, false, 0, false⟩
  [.sys (.cpu idle idle), .fill 4, .sys (.tick ⟨false, true, 0x70, false⟩),
    .sys (.tick ⟨false, false, 0, true⟩), .sys .irq] ++
    List.replicate 16 (.sys (.cpu idle idle)) ++ [.filled, .getchar, .flush 18] ++
    List.replicate 25 (.sys (.cpu idle idle)) ++ [.sys (.tick idle), .sys .irq] ++
    List.replicate 50 (.sys (.cpu take take)) ++ [.flushed]

example : (run step start pSession).sys.line.received = productName := by decide +kernel

end Prog

end Ptmch.JtagUart
