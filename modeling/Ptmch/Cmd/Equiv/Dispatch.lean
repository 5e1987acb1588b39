import Ptmch.Cmd.Equiv.Edit
import Mathlib.Data.List.Nodup

/-!
# Dispatch of a command line

`cmd_execute` looks for each name of the table anywhere in the edited line, so the handlers that it
calls are those of the names that occur in it.  The line is dispatched by the name that it begins
with exactly where every name that occurs in it is one that it begins with.
-/

namespace Ptmch.Cmd

open CLib

variable {pf : Platform} {m : Mem} {p : Ptr} {line : List Byte} {c d : Command}
  {cs ds : List Command}

/-! ### The table -/

def exitCommand : Command := ⟨ascii ['e', 'x', 'i', 't'], ascii "Exit".toList, .cmdExit⟩

/-- The entries before `exit`. -/
def menuCommands : List Command := commands.dropLast

theorem commands_eq : commands = menuCommands ++ [exitCommand] := rfl

theorem func_ne_exit : ∀ c ∈ menuCommands, c.func ≠ .cmdExit := by decide +kernel

/-- No name begins another one. -/
theorem names_apart : ∀ c ∈ commands, ∀ d ∈ commands, c.name <+: d.name → c = d := by
  decide +kernel

theorem func_injective : ∀ c ∈ commands, ∀ d ∈ commands, c.func = d.func → c = d := by
  decide +kernel

theorem commands_nodup : commands.Nodup := by decide +kernel

/-- A line begins with one name of the table at most. -/
theorem prefix_unique (hc : c ∈ commands) (hd : d ∈ commands) (hcl : c.name <+: line)
    (hdl : d.name <+: line) : d = c := by
  rcases List.prefix_or_prefix_of_prefix hcl hdl with h | h
  · exact (names_apart c hc d hd h).symm
  · exact names_apart d hd c hc h

/-- The names that occur in a line are ones that it begins with. -/
def OccursAtStart (line : List Byte) : Prop := ∀ c ∈ commands, c.name <:+: line → c.name <+: line

instance : DecidablePred OccursAtStart := fun line =>
  inferInstanceAs (Decidable (∀ c ∈ commands, c.name <:+: line → c.name <+: line))

/-- The entries whose names occur in a line. -/
def occurring (cs : List Command) (line : List Byte) : List Command :=
  cs.filter fun c => c.name <:+: line

theorem occurring_cons_of_infix (h : c.name <:+: line) :
    occurring (c :: cs) line = c :: occurring cs line :=
  List.filter_cons_of_pos (decide_eq_true h)

theorem occurring_cons_of_not (h : ¬c.name <:+: line) :
    occurring (c :: cs) line = occurring cs line :=
  List.filter_cons_of_neg fun hc => h (of_decide_eq_true hc)

theorem occurring_append : occurring (cs ++ ds) line = occurring cs line ++ occurring ds line :=
  List.filter_append cs ds

theorem occurring_eq_singleton (hline : OccursAtStart line) (hc : c ∈ commands)
    (hcl : c.name <+: line) : occurring commands line = [c] := by
  have hiff : ∀ d ∈ commands, decide (d.name <:+: line) = (d == c) := by
    intro d hd
    rw [Bool.eq_iff_iff, decide_eq_true_iff, beq_iff_eq]
    constructor
    · exact fun h => prefix_unique hc hd hcl (hline d hd h)
    · rintro rfl
      exact hcl.isInfix
  rw [occurring, List.filter_congr hiff, List.filter_beq, commands_nodup.count, if_pos hc]
  rfl

theorem occurring_eq_nil (hline : OccursAtStart line) (hnone : ∀ c ∈ commands, ¬c.name <+: line) :
    occurring commands line = [] :=
  List.filter_eq_nil_iff.mpr fun c hc h => hnone c hc (hline c hc (of_decide_eq_true h))

/-! ### Handlers -/

/-- Every handler but the one of `exit` returns zero. -/
theorem result_eq_zero (pf : Platform) (func : Func) (hfunc : func ≠ .cmdExit)
    (options : List Byte) :
    (func.run pf options).1 = 0 := by
  cases func with
  | cmdExit => exact absurd rfl hfunc
  | _ => rfl

theorem calls_append (a b : List Effect) : calls (a ++ b) = calls a ++ calls b :=
  List.filterMap_append

theorem calls_iowrDirect (w : Width) (base : Ptr) (offset data : BitVec 32) (rest : List Effect) :
    calls (iowrDirect w base offset data :: rest) = calls rest := by
  unfold iowrDirect
  split_ifs <;> rfl

theorem calls_iordDirect (w : Width) (base : Ptr) (offset : BitVec 32) (rest : List Effect) :
    calls (iordDirect w base offset :: rest) = calls rest := by
  unfold iordDirect
  split_ifs <;> rfl

theorem calls_fillFrom (data : BitVec 32 → BitVec 32) (addr size i : BitVec 32) :
    calls (fillFrom data addr size i) = [] := by
  induction i using fillFrom.induct size with
  | case1 i h ih => rw [fillFrom, if_pos h, calls_iowrDirect, ih]
  | case2 i h =>
    rw [fillFrom, if_neg h]
    rfl

/-- No handler calls another one. -/
theorem calls_run (func : Func) (options : List Byte) : calls (func.run pf options).2 = [] := by
  cases func with
  | cmdMenu => rfl
  | cmdExit => rfl
  | cmdMemRead =>
    simp only [Func.run, cmdMemRead]
    split_ifs
    · rfl
    · split
      · exact calls_iordDirect ..
      · rfl
  | cmdMemWrite =>
    simp only [Func.run, cmdMemWrite]
    split_ifs
    · rfl
    · split
      · exact calls_iowrDirect ..
      · rfl
  | cmdMemDump =>
    simp only [Func.run, cmdMemDump]
    split_ifs
    · rfl
    · split <;> rfl
  | cmdMemFill =>
    simp only [Func.run, cmdMemFill]
    split_ifs
    · rfl
    · exact calls_fillFrom ..
    · exact calls_fillFrom ..
    · rfl

/-! ### The loop over the table -/

/-- What the entries whose names occur in the line at `p` do. -/
def effectsOf (pf : Platform) (m : Mem) (p : Ptr) (cs : List Command) : List Effect :=
  (occurring cs (cstr m p)).flatMap fun c =>
    .call c.func (c.options p) :: (c.func.run pf (cstr m (c.options p))).2

/-- The loop goes on through entries that are not `exit`. -/
theorem executeFrom_append (hcs : ∀ c ∈ cs, c.func ≠ .cmdExit) :
    executeFrom pf m p 0 (cs ++ ds) =
      ((executeFrom pf m p 0 ds).1, effectsOf pf m p cs ++ (executeFrom pf m p 0 ds).2) := by
  -- by induction on the entries that are not `exit`: each leaves `result` at zero
  induction cs with
  | nil => rfl
  | cons c cs ih =>
    obtain ⟨hc, hcs⟩ := List.forall_mem_cons.mp hcs
    rw [List.cons_append, executeFrom, if_congr (strstr_ne_none_iff _ _) rfl rfl]
    by_cases hname : c.name <:+: cstr m p
    · have hoccurring : effectsOf pf m p (c :: cs) =
          (.call c.func (c.options p) :: (c.func.run pf (cstr m (c.options p))).2) ++
            effectsOf pf m p cs := by
        rw [effectsOf, occurring_cons_of_infix hname, List.flatMap_cons]
        rfl
      have hresult := result_eq_zero pf c.func hc (cstr m (c.options p))
      simp only [if_pos hname, hresult, ne_eq, not_true_eq_false, if_false, ih hcs, hoccurring,
        List.append_assoc]
    · have hoccurring : effectsOf pf m p (c :: cs) = effectsOf pf m p cs := by
        rw [effectsOf, occurring_cons_of_not hname]
        rfl
      rw [if_neg hname, ih hcs, hoccurring]

theorem calls_effectsOf : calls (effectsOf pf m p cs) =
    (occurring cs (cstr m p)).map fun c => (c.func, c.options p) := by
  unfold effectsOf
  induction occurring cs (cstr m p) with
  | nil => rfl
  | cons c cs ih =>
    rw [List.flatMap_cons, calls_append, ih, List.map_cons]
    exact congrArg (_ :: · ++ _) (calls_run c.func _)

/-- The calls that the loop makes, and the value that it ends with. -/
theorem executeFrom_commands :
    calls (executeFrom pf m p 0 commands).2 =
        (occurring commands (cstr m p)).map (fun c => (c.func, c.options p)) ∧
      (executeFrom pf m p 0 commands).1 =
        if exitCommand.name <:+: cstr m p then 1 else 0 := by
  rw [commands_eq, occurring_append, List.map_append, executeFrom_append func_ne_exit, calls_append,
    calls_effectsOf, executeFrom, if_congr (strstr_ne_none_iff _ _) rfl rfl]
  by_cases hname : exitCommand.name <:+: cstr m p
  · rw [if_pos hname, if_pos hname, occurring_cons_of_infix hname]
    exact ⟨rfl, rfl⟩
  · rw [if_neg hname, if_neg hname, occurring_cons_of_not hname]
    exact ⟨rfl, rfl⟩

/-- A line that is dispatched by its start runs the handler of the name that it begins with. -/
theorem executeFrom_of_occursAtStart (h : OccursAtStart (cstr m p)) (hc : c ∈ commands)
    (hbegins : c.name <+: cstr m p) (hfunc : c.func ≠ .cmdExit) :
    executeFrom pf m p 0 commands =
      (0, .call c.func (c.options p) :: (c.func.run pf (cstr m (c.options p))).2) := by
  have hoccurring := occurring_eq_singleton h hc hbegins
  have hexit : ¬exitCommand.name <:+: cstr m p := by
    intro hocc
    have hmem : exitCommand ∈ occurring commands (cstr m p) :=
      List.mem_filter.mpr ⟨by decide +kernel, decide_eq_true hocc⟩
    rw [hoccurring, List.mem_singleton] at hmem
    exact hfunc (hmem ▸ rfl)
  -- the loop meets `c` before `exit`
  rw [commands_eq, occurring_append, occurring_cons_of_not hexit] at hoccurring
  have hmenu : occurring menuCommands (cstr m p) = [c] := (List.append_nil _).symm.trans hoccurring
  rw [commands_eq, executeFrom_append func_ne_exit, effectsOf, hmenu, executeFrom,
    if_congr (strstr_ne_none_iff _ _) rfl rfl, if_neg hexit]
  simp [executeFrom]

/-- An array of its own for runs on fixed lines. -/
def stackBuffer : CArray 128 := ⟨0x1000, by decide, by decide⟩

/-! ### Dispatch by the name that a line begins with -/

/-- The handler of the name that the line begins with is called, once, with what follows the name,
and no other one; and the value is nonzero for `exit` alone. -/
structure DispatchedByStart (inputStr : CArray 128) (o : Outcome) : Prop where
  called : ∀ c ∈ commands, c.name <+: o.line inputStr →
    calls o.effects = [(c.func, c.options inputStr.addr)]
  not_called : (∀ c ∈ commands, ¬c.name <+: o.line inputStr) → calls o.effects = []
  result_iff : o.result ≠ 0 ↔ exitCommand.name <+: o.line inputStr

variable {inputStr : CArray 128} {stdin : List Byte}

/-- One handler is called at most. -/
theorem DispatchedByStart.length_calls_le {o : Outcome} (h : DispatchedByStart inputStr o) :
    (calls o.effects).length ≤ 1 := by
  by_cases hsome : ∃ c ∈ commands, c.name <+: o.line inputStr
  · obtain ⟨c, hc, hbegins⟩ := hsome
    exact (congrArg List.length (h.called c hc hbegins)).le
  · rw [h.not_called fun c hc hbegins => hsome ⟨c, hc, hbegins⟩]
    exact Nat.zero_le _

/-- What a call prints before it searches the line. -/
def prologue (line : List Byte) : List Effect :=
  [.printf "\n" [], .printf "Command: " [], .fflush, .printf "%s\n" [.str line], .fflush]

/-- A call is the loop over the table, in the memory that it leaves. -/
theorem cmdExecute_eq (o : Outcome) (ho : o = cmdExecute pf m inputStr stdin) :
    o.result = (executeFrom pf o.mem inputStr.addr 0 commands).1 ∧
      o.effects = prologue (o.line inputStr) ++
        (executeFrom pf o.mem inputStr.addr 0 commands).2 := by
  subst ho
  exact ⟨rfl, rfl⟩

theorem calls_cmdExecute (o : Outcome) (ho : o = cmdExecute pf m inputStr stdin) :
    calls o.effects = (occurring commands (o.line inputStr)).map
      fun c => (c.func, c.options inputStr.addr) := by
  rw [(cmdExecute_eq o ho).2, calls_append, executeFrom_commands.1]
  rfl

theorem result_cmdExecute (o : Outcome) (ho : o = cmdExecute pf m inputStr stdin) :
    o.result = if exitCommand.name <:+: o.line inputStr then 1 else 0 :=
  (cmdExecute_eq o ho).1.trans executeFrom_commands.2

/-- **When a line is dispatched by its start**: exactly when each name of the table that occurs in
the line is one that the line begins with. -/
theorem dispatchedByStart_iff (pf : Platform) (m : Mem) (inputStr : CArray 128)
    (stdin : List Byte) :
    DispatchedByStart inputStr (cmdExecute pf m inputStr stdin) ↔
      OccursAtStart ((cmdExecute pf m inputStr stdin).line inputStr) := by
  generalize ho : cmdExecute pf m inputStr stdin = o
  have hcalls := calls_cmdExecute o ho.symm
  constructor
  · -- the handler of a name that occurs is called, and at most one handler is
    intro h c hc hocc
    have hcall : (c.func, c.options inputStr.addr) ∈ calls o.effects := by
      rw [hcalls]
      exact List.mem_map_of_mem (List.mem_filter.mpr ⟨hc, decide_eq_true hocc⟩)
    by_cases hsome : ∃ d ∈ commands, d.name <+: o.line inputStr
    · obtain ⟨d, hd, hbegins⟩ := hsome
      rw [h.called d hd hbegins, List.mem_singleton, Prod.mk.injEq] at hcall
      -- two entries with one handler are the same
      exact func_injective c hc d hd hcall.1 ▸ hbegins
    · rw [h.not_called fun d hd hbegins => hsome ⟨d, hd, hbegins⟩] at hcall
      exact absurd hcall List.not_mem_nil
  · intro h
    refine ⟨fun c hc hbegins => ?_, fun hnone => ?_, ?_⟩
    · rw [hcalls, occurring_eq_singleton h hc hbegins]
      rfl
    · rw [hcalls, occurring_eq_nil h hnone]
      rfl
    · have hexit : exitCommand ∈ commands := by decide +kernel
      rw [result_cmdExecute o ho.symm]
      split_ifs with hocc
      · exact iff_of_true Int.one_ne_zero (h _ hexit hocc)
      · exact iff_of_false (not_not_intro rfl) fun hbegins => hocc hbegins.isInfix

/-- A dump whose line ends in `mw`. -/
def dumpRun : Outcome :=
  cmdExecute ⟨true, fun _ _ => 0⟩ (fun _ => 0) stackBuffer (ascii "md 8 1 2 mw\n".toList)

/-- It is a write of the byte 2 at 1 as well: `mw` is called with the options of `md`. -/
theorem dumpRun_writes :
    .iowr .w8 1 2 ∈ accesses dumpRun.effects ∧ ¬DispatchedByStart stackBuffer dumpRun := by
  have hcalls : calls dumpRun.effects = [(.cmdMemWrite, 0x1002), (.cmdMemDump, 0x1002)] := by
    decide +kernel
  refine ⟨by decide +kernel, fun h => ?_⟩
  have hlen := h.length_calls_le
  rw [hcalls] at hlen
  exact absurd hlen (by decide)

end Ptmch.Cmd
