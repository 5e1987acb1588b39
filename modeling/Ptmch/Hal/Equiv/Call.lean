import Ptmch.Hal.Equiv.Pool

/-!
# System calls on descriptors

`Opens` is what `open` does, case by case, and `Change` what a system call can do to the pool at
all.  What holds over a run is then shown by cases on `Change`.
-/

namespace Ptmch.Hal

open CLib

variable {δ : Type*} {D : Devices δ} {t t' : Files δ} {i j k : Index} {dev : δ} {fd : AltFd δ}

namespace Files

section Open

variable [DecidableEq δ] {file : List Byte} {flags priv : BitVec 32} {answer : ℤ}

/-- `open` with the descriptor that it takes. -/
theorem altOpen_eq (hdev : D.altFindDev file = some dev) (hget : t.altGetFd dev = some (i, t')) :
    t.altOpen D file flags answer priv =
      if (t.take i (opened dev (t.fdList i).priv flags)).Locked i then
        ((t.take i (opened dev (t.fdList i).priv flags)).altReleaseFd i).failed eacces
      else if D.has dev .openFn then
        if answer < 0 then
          { ((t.take i (opened dev priv flags)).altReleaseFd i).failed (-answer) with
            called := some (.openFn, dev, (opened dev priv flags).fdFlags) }
        else
          ⟨i.val, t.take i (opened dev priv flags),
            some (.openFn, dev, (opened dev priv flags).fdFlags)⟩
      else ⟨i.val, t.take i (opened dev (t.fdList i).priv flags), none⟩ := by
  obtain ⟨-, -, rfl⟩ := altGetFd_eq_some hget
  have hneg : -eacces < 0 := by decide
  unfold altOpen opened
  simp only [hdev, hget, altFileLocked, take_fdList, if_true, take_setFd]
  by_cases hlocked : (t.take i (opened dev (t.fdList i).priv flags)).Locked i
  · -- The result of `alt_file_locked` is passed on.
    unfold opened at hlocked
    simp only [if_pos hlocked, if_pos hneg]
    rfl
  · unfold opened at hlocked
    simp only [if_neg hlocked, Int.lt_irrefl, if_false]

/-- What `open` does. -/
inductive Opens (D : Devices δ) (t : Files δ) (file : List Byte) (flags : BitVec 32) (answer : ℤ)
    (o : Outcome δ) : Prop
  /-- there is no such device -/
  | enodev : D.altFindDev file = none → o.value = -1 → o.files.errno = enodev →
    t.SameFds o.files → Opens D t file flags answer o
  /-- every descriptor is taken -/
  | emfile : (∀ j, (t.fdList j).dev ≠ none) → o.value = -1 → o.files.errno = emfile →
    t.SameFds o.files → Opens D t file flags answer o
  /-- the device is locked -/
  | eacces (dev : δ) (j : Index) : D.altFindDev file = some dev → (t.fdList j).dev = some dev →
    (t.fdList j).Excl → o.value = -1 → o.files.errno = eacces →
    t.SameFds o.files → Opens D t file flags answer o
  /-- the device does not open -/
  | refused (dev : δ) : D.altFindDev file = some dev → D.has dev .openFn = true → answer < 0 →
    o.value = -1 → o.files.errno = -answer → t.SameFds o.files → Opens D t file flags answer o
  /-- the least free descriptor is put on the device -/
  | opened (dev : δ) (i : Index) : D.altFindDev file = some dev →
    (∀ j, (t.fdList j).dev = some dev → ¬(t.fdList j).Excl) →
    2 < i → (t.fdList i).dev = none → (∀ j < i, (t.fdList j).dev ≠ none) → o.value = i.val →
    (o.files.fdList i).dev = some dev →
    (o.files.fdList i).fdFlags = flags &&& ~~~altFdFlagsMask ||| altFdDev →
    (∀ j ≠ i, o.files.fdList j = t.fdList j) → Opens D t file flags answer o

omit [DecidableEq δ] in
theorem sameFds_altReleaseFd (hi : 2 < i) (hfree : (t.fdList i).dev = none) :
    t.SameFds ((t.take i fd).altReleaseFd i) := by
  intro j
  rw [altReleaseFd_fdList hi]
  split_ifs with hji
  · rw [hji]
    exact ⟨hfree.symm, fun hused => absurd hfree hused⟩
  · rw [take_fdList, if_neg hji]
    exact ⟨rfl, fun _ => rfl⟩

variable {careful : Prop}

theorem Inv.opens (h : t.Inv careful) :
    Opens D t file flags answer (t.altOpen D file flags answer priv) := by
  cases hfind : D.altFindDev file with
  | none =>
    have heq : t.altOpen D file flags answer priv = t.failed Hal.enodev := by
      unfold altOpen
      simp only [hfind]
    rw [heq]
    exact .enodev hfind rfl rfl fun j => ⟨rfl, fun _ => rfl⟩
  | some dev =>
    cases hget : t.altGetFd dev with
    | none =>
      have heq : t.altOpen D file flags answer priv = t.failed Hal.emfile := by
        unfold altOpen
        simp only [hfind, hget]
      rw [heq]
      exact .emfile (altGetFd_eq_none.mp hget) rfl rfl fun j => ⟨rfl, fun _ => rfl⟩
    | some taken =>
      obtain ⟨i, t'⟩ := taken
      obtain ⟨hfree, hleast, -⟩ := altGetFd_eq_some hget
      have hi := h.two_lt hfree
      have hlocked : (t.take i (opened dev (t.fdList i).priv flags)).Locked i ↔ _ :=
        h.locked_take hfree rfl
      have hopened : ¬(t.take i (opened dev (t.fdList i).priv flags)).Locked i → ∀ priv called,
          Opens D t file flags answer ⟨i.val, t.take i (opened dev priv flags), called⟩ := by
        intro hunlocked priv called
        have hself : (t.take i (opened dev priv flags)).fdList i = opened dev priv flags := by
          rw [take_fdList, if_pos rfl]
        have hothers : ∀ j ≠ i, (t.take i (opened dev priv flags)).fdList j = t.fdList j := by
          intro j hj
          rw [take_fdList, if_neg hj]
        refine .opened dev i hfind ?_ hi hfree hleast rfl ?_ ?_ hothers
        · intro j hj hexcl
          exact hunlocked (hlocked.mpr ⟨j, hj, hexcl⟩)
        · exact congrArg AltFd.dev hself
        · exact congrArg AltFd.fdFlags hself
      rw [altOpen_eq hfind hget]
      split_ifs with hexcl hfn hneg
      · obtain ⟨j, hj, hexcl⟩ := hlocked.mp hexcl
        exact .eacces dev j hfind hj hexcl rfl rfl (sameFds_altReleaseFd hi hfree)
      · exact .refused dev hfind hfn hneg rfl rfl (sameFds_altReleaseFd hi hfree)
      · exact hopened hexcl priv _
      · exact hopened hexcl _ _

omit [DecidableEq δ] in
/-- A descriptor that is taken and released. -/
theorem Inv.altReleaseFd_take (h : t.Inv careful) (hfree : (t.fdList i).dev = none) :
    ((t.take i fd).altReleaseFd i).Inv careful := by
  have hi := h.two_lt hfree
  have hmax : ((t.take i fd).altReleaseFd i).maxFd.toNat = max t.maxFd.toNat i.val := by
    rw [altReleaseFd_maxFd, h.maxFd_take]
  have hold : ∀ j ≠ i, ((t.take i fd).altReleaseFd i).fdList j = t.fdList j := by
    intro j hj
    rw [altReleaseFd_fdList hi, if_neg hj, take_fdList, if_neg hj]
  refine h.weaken (fun j => ?_) (fun j hj => ?_) ?_ ?_
  · by_cases hji : j = i
    · rw [hji, altReleaseFd_fdList hi, if_pos rfl]
      refine .inl ⟨rfl, ?_, ?_⟩
      · exact fun hyes => hyes (BitVec.zero_and ..)
      · exact fun hyes => hyes (BitVec.zero_and ..)
    · rw [hold j hji]
      exact .rfl
  · have hji : j ≠ i := fun heq => absurd hi (Fin.not_lt.mpr (heq ▸ hj))
    rw [hold j hji]
    exact h.std j hj
  · rw [hmax]
    exact le_max_left _ _
  · rw [hmax]
    exact max_lt h.maxFd i.isLt

end Open

/-! ### What a system call can do -/

/-- What a system call can do to the pool, apart from `errno`. -/
inductive Change (t : Files δ) (c : SysCall) : Files δ → Prop
  | same : Change t c t
  | opened (dev : δ) (i : Index) (priv flags : BitVec 32) : (t.fdList i).dev = none →
    ¬(t.take i (opened dev (t.fdList i).priv flags)).Locked i →
    Change t c (t.take i (opened dev priv flags))
  | refused (i : Index) (fd : AltFd δ) : (t.fdList i).dev = none →
    Change t c ((t.take i fd).altReleaseFd i)
  | released (i : Index) : Change t c (t.altReleaseFd i)
  | locked (file answer : ℤ) (i : Index) : c = .altIoctl file tiocexcl answer →
    index? file = some i → (t.fdList i).OnDev → ¬t.Shared i →
    Change t c (t.setFd i { t.fdList i with fdFlags := (t.fdList i).fdFlags ||| altFdExcl })
  | unlocked (i : Index) : Change t c (t.altFdUnlock i).2
  | setFlags (file : ℤ) (arg : BitVec 32) (i : Index) : c = .altFcntl file fSetfl arg →
    index? file = some i →
    Change t c (t.setFd i { t.fdList i with
      fdFlags := (t.fdList i).fdFlags &&& ~~~altFcntlFlagsMask ||| (arg &&& altFcntlFlagsMask) })

/-- The pool after a call, with some `errno`. -/
def Becomes (t : Files δ) (c : SysCall) (t' : Files δ) : Prop :=
  ∃ u, Change t c u ∧ ∃ errno, t' = { u with errno := errno }

section Change

variable [DecidableEq δ] {c : SysCall} {o : Outcome δ} {file answer : ℤ}

omit [DecidableEq δ] in
theorem Change.becomes (h : Change t c t') : Becomes t c t' := ⟨t', h, t'.errno, rfl⟩

omit [DecidableEq δ] in
theorem becomes_failed (h : Change t c t') (errno : ℤ) : Becomes t c (t'.failed errno).files :=
  ⟨t', h, errno, rfl⟩

theorem altOpen_becomes (file : List Byte) (flags : BitVec 32) (answer : ℤ) (priv : BitVec 32) :
    Becomes t c (t.altOpen D file flags answer priv).files := by
  cases hfind : D.altFindDev file with
  | none =>
    unfold altOpen
    simp only [hfind]
    exact becomes_failed .same _
  | some dev =>
    cases hget : t.altGetFd dev with
    | none =>
      unfold altOpen
      simp only [hfind, hget]
      exact becomes_failed .same _
    | some taken =>
      obtain ⟨i, t'⟩ := taken
      obtain ⟨hfree, -, -⟩ := altGetFd_eq_some hget
      rw [altOpen_eq hfind hget]
      split_ifs with hlocked hfn hneg
      · exact becomes_failed (.refused i _ hfree) _
      · exact becomes_failed (.refused i _ hfree) _
      · exact (Change.opened dev i priv flags hfree hlocked).becomes
      · exact (Change.opened dev i _ flags hfree hlocked).becomes

omit [DecidableEq δ] in
theorem altClose_becomes (h : t.altClose D file answer = some o) : Becomes t c o.files := by
  unfold altClose at h
  split at h
  · obtain rfl := Option.some.inj h
    exact becomes_failed .same _
  split at h
  · exact nomatch h
  split at h
  · exact nomatch h
  split at h
  · split at h
    · obtain rfl := Option.some.inj h
      exact becomes_failed (.released _) _
    · obtain rfl := Option.some.inj h
      exact (Change.released _).becomes
  · obtain rfl := Option.some.inj h
    exact (Change.released _).becomes

omit [DecidableEq δ] in
theorem transfer_becomes {denied : BitVec 32} {callback : Callback}
    (h : t.transfer D denied callback file answer = some o) : Becomes t c o.files := by
  unfold transfer at h
  split at h
  · obtain rfl := Option.some.inj h
    exact becomes_failed .same _
  split at h
  · exact nomatch h
  split at h
  · obtain rfl := Option.some.inj h
    exact becomes_failed .same _
  split at h
  · exact nomatch h
  split at h
  · obtain rfl := Option.some.inj h
    unfold returned
    split_ifs
    · exact becomes_failed .same _
    · exact Change.same.becomes
  · obtain rfl := Option.some.inj h
    exact becomes_failed .same _

omit [DecidableEq δ] in
theorem becomes_ioctlDone (h : Change t c t') (rc : ℤ)
    (called : Option (Callback × δ × BitVec 32)) :
    Becomes t c (t'.ioctlDone rc called).files := by
  unfold ioctlDone
  split_ifs
  · exact ⟨t', h, -rc, rfl⟩
  · exact h.becomes

theorem altIoctl_becomes {req : BitVec 32} (hc : c = .altIoctl file req answer)
    (h : t.altIoctl D file req answer = some o) : Becomes t c o.files := by
  unfold altIoctl at h
  split at h
  · obtain rfl := Option.some.inj h
    exact becomes_ioctlDone .same _ _
  split at h
  · exact nomatch h
  next i hi =>
  split at h
  · next hreq =>
    obtain rfl := Option.some.inj h
    apply becomes_ioctlDone
    unfold altFdLock
    split_ifs with hshared
    · exact .same
    · exact .locked file answer i (hreq.2 ▸ hc) hi hreq.1 hshared
  split at h
  · obtain rfl := Option.some.inj h
    exact becomes_ioctlDone (.unlocked i) _ _
  split at h
  · exact nomatch h
  split at h
  · obtain rfl := Option.some.inj h
    exact becomes_ioctlDone .same _ _
  · obtain rfl := Option.some.inj h
    exact becomes_ioctlDone .same _ _

omit [DecidableEq δ] in
theorem altFcntl_becomes {cmd : ℤ} {arg : BitVec 32} (hc : c = .altFcntl file cmd arg)
    (h : t.altFcntl file cmd arg = some o) : Becomes t c o.files := by
  unfold altFcntl at h
  split at h
  · obtain rfl := Option.some.inj h
    exact becomes_failed .same _
  split at h
  · exact nomatch h
  next i hi =>
  dsimp only at h
  split at h
  · obtain rfl := Option.some.inj h
    exact Change.same.becomes
  split at h
  · next hcmd =>
    obtain rfl := Option.some.inj h
    exact (Change.setFlags file arg i (hcmd ▸ hc) hi).becomes
  · obtain rfl := Option.some.inj h
    exact becomes_failed .same _

theorem call_becomes (h : t.call D c = some o) : Becomes t c o.files := by
  cases c with
  | altOpen file flags answer priv =>
    obtain rfl := Option.some.inj h
    exact altOpen_becomes file flags answer priv
  | altClose file answer => exact altClose_becomes h
  | altRead file answer => exact transfer_becomes h
  | altWrite file answer => exact transfer_becomes h
  | altIoctl file req answer => exact altIoctl_becomes rfl h
  | altFcntl file cmd arg => exact altFcntl_becomes rfl h

end Change

/-! ### Runs -/

variable {careful : Prop} {c : SysCall}

theorem Inv.change (h : t.Inv careful) (hchange : Change t c t') (hcare : careful → t.Careful c) :
    t'.Inv careful := by
  cases hchange with
  | same => exact h
  | opened dev i priv flags hfree hlocked =>
    refine h.take hfree rfl not_excl_opened ?_
    intro j hj hexcl
    exact hlocked ((h.locked_take hfree rfl).mpr ⟨j, hj, hexcl⟩)
  | refused i fd hfree => exact h.altReleaseFd_take hfree
  | released i => exact h.altReleaseFd i
  | locked file answer i hc hi hdev hshared =>
    have hused : (t.fdList i).dev ≠ none := fun hfree => (h.free i hfree).1 hdev
    refine h.lock hshared hused fun hyes m hm hother => ?_
    have hcare := hcare hyes
    rw [hc] at hcare
    exact hcare rfl i hi m hm hother.1 hother.2
  | unlocked i => exact h.altFdUnlock i
  | setFlags file arg i hc hi => exact h.setFcntlFlags i arg

variable [DecidableEq δ]

theorem step_becomes (t : Files δ) (c : SysCall) : Becomes t c (t.step D c) := by
  unfold step
  cases hcall : t.call D c with
  | none => exact Change.same.becomes
  | some o => exact call_becomes hcall

theorem Inv.step (h : t.Inv careful) (hcare : careful → t.Careful c) :
    (t.step D c).Inv careful := by
  obtain ⟨u, hchange, errno, heq⟩ := step_becomes (D := D) t c
  rw [heq]
  exact (h.change hchange hcare).setErrno errno

end Files

end Ptmch.Hal
