import Ptmch.Hal.Equiv.Call

/-!
# Descriptors over a run

Over every run of system calls from the start of `main`:

* `open` hands out the least free descriptor, changes nothing when it fails, and its search up to
  `alt_max_fd` misses no lock (`open_spec`);
* a lock does not quite do what is said of it: one other descriptor may be open on a locked device,
  but never two, nor a second lock (`lock_spec`);
* the standard streams stay where `alt_io_redirect` has put them, so a read of the standard input is
  a waiting read of the JTAG UART, whatever else is opened, closed and locked (`standard_streams`).
-/

namespace Ptmch.Hal

open CLib Machine

variable {δ : Type*} {D : Devices δ} {t t' : Files δ} {i j k : Index} {dev : δ} {fd : AltFd δ}

namespace Files

variable {careful : Prop} {c : SysCall} [DecidableEq δ]

/-! ### Start -/

/-- The pool before `main`, with all but the standard streams free. -/
structure Fresh (t : Files δ) : Prop where
  std : ∀ i ≤ 2, (t.fdList i).dev ≠ none ∧ ¬(t.fdList i).Excl
  free : ∀ i, 2 < i → (t.fdList i).dev = none ∧ (t.fdList i).fdFlags = 0
  maxFd : t.maxFd = -1 ∨ t.maxFd = 3

/-- The stream `i` of the pool `t` has been put on the device. -/
structure Redirected (t : Files δ) (i : Index) (dev : δ) (flags : BitVec 32) (t' : Files δ) :
    Prop where
  fresh : Fresh t'
  maxFd : t'.maxFd = 3
  fd : ∃ priv, t'.fdList i = opened dev priv flags
  kept : ∀ j ≤ 2, j ≠ i → t'.fdList j = t.fdList j

namespace Fresh

variable {name : List Byte} {flags priv : BitVec 32} {answer : ℤ}

omit [DecidableEq δ] in
theorem init : Fresh (init D) := by
  constructor
  · intro i hi
    show (if i ≤ 2 then _ else _ : AltFd δ).dev ≠ none ∧ ¬(if i ≤ 2 then _ else _ : AltFd δ).Excl
    rw [if_pos hi]
    exact ⟨Option.some_ne_none _, fun hyes => hyes (BitVec.zero_and ..)⟩
  · intro i hi
    show (if i ≤ 2 then _ else _ : AltFd δ).dev = none ∧
      (if i ≤ 2 then _ else _ : AltFd δ).fdFlags = 0
    rw [if_neg (Fin.not_le.mpr hi)]
    exact ⟨rfl, rfl⟩
  · exact .inl rfl

omit [DecidableEq δ] in
theorem not_excl (h : Fresh t) (i : Index) : ¬(t.fdList i).Excl := by
  by_cases hi : i ≤ 2
  · exact (h.std i hi).2
  · have hzero := (h.free i (Fin.not_le.mp hi)).2
    unfold AltFd.Excl
    rw [hzero]
    exact fun hyes => hyes (BitVec.zero_and ..)

omit [DecidableEq δ] in
theorem altGetFd (h : Fresh t) (dev : δ) : ∃ t', t.altGetFd dev = some (3, t') := by
  cases hget : t.altGetFd dev with
  | none =>
    have hused := altGetFd_eq_none.mp hget 3
    exact absurd (h.free 3 (by decide)).1 hused
  | some taken =>
    obtain ⟨i, t'⟩ := taken
    obtain ⟨hfree, hleast, -⟩ := altGetFd_eq_some hget
    -- the least free descriptor comes after the streams
    have hi : 2 < i := by
      by_contra hle
      exact (h.std i (Fin.not_lt.mp hle)).1 hfree
    have hle : i ≤ 3 := by
      by_contra hlt
      exact hleast 3 (Fin.not_le.mp hlt) (h.free 3 (by decide)).1
    have heq : i = 3 := Fin.le_antisymm hle hi
    exact ⟨t', by rw [heq]⟩

/-- One stream is redirected. -/
theorem altOpenFd (h : Fresh t) (hfind : D.altFindDev name = some dev)
    (hopen : D.has dev .openFn = false) (hfd : i ≤ 2) :
    Redirected t i dev flags (t.altOpenFd D i name flags answer priv) := by
  obtain ⟨t', hget⟩ := h.altGetFd dev
  set fd := opened dev (t.fdList 3).priv flags with hfd'
  have hunlocked : ¬(t.take 3 fd).Locked 3 := by
    rintro ⟨j, -, -, hexcl, hne⟩
    rw [take_fdList, if_neg hne] at hexcl
    exact h.not_excl j hexcl
  have hopened : t.altOpen D name flags answer priv = ⟨3, t.take 3 fd, none⟩ := by
    rw [altOpen_eq hfind hget, if_neg hunlocked, if_neg (ne_true_of_eq_false hopen)]
    rfl
  have hredirect : t.altOpenFd D i name flags answer priv =
      ((t.take 3 fd).setFd i fd).altReleaseFd 3 := by
    have hindex : index? 3 = some 3 := by decide
    have hself : (t.take 3 fd).fdList 3 = fd := by rw [take_fdList, if_pos rfl]
    unfold Files.altOpenFd
    rw [hopened]
    simp only [hindex, hself]
  have hmax : (t.take 3 fd).maxFd = 3 := by
    show (if t.maxFd.toInt < _ then _ else _) = _
    rcases h.maxFd with hmax | hmax
    · rw [hmax]
      rfl
    · rw [hmax]
      rfl
  have hlist : ∀ j, (t.altOpenFd D i name flags answer priv).fdList j =
      if j = 3 then { fd with dev := none, fdFlags := 0 }
      else if j = i then fd else t.fdList j := by
    intro j
    have h3i : (3 : Index) ≠ i := by
      rintro rfl
      exact absurd hfd (by decide)
    rw [hredirect, altReleaseFd_fdList (by decide)]
    split_ifs with hj3 hji
    · rw [setFd_fdList, if_neg h3i, take_fdList, if_pos rfl]
    · rw [setFd_fdList, if_pos hji]
    · rw [setFd_fdList, if_neg hji, take_fdList, if_neg hj3]
  have hlow : ∀ j : Index, j ≤ 2 → j ≠ 3 := by
    rintro j hj rfl
    exact absurd hj (by decide)
  refine ⟨⟨?_, ?_, .inr ?_⟩, ?_, ⟨(t.fdList 3).priv, ?_⟩, ?_⟩
  · intro j hj
    rw [hlist, if_neg (hlow j hj)]
    split_ifs
    · exact ⟨Option.some_ne_none _, not_excl_opened⟩
    · exact h.std j hj
  · intro j hj
    rw [hlist]
    split_ifs with hj3 hji
    · exact ⟨rfl, rfl⟩
    · exact absurd hj (Fin.not_lt.mpr (hji ▸ hfd))
    · exact h.free j hj
  · rw [hredirect, altReleaseFd_maxFd]
    exact hmax
  · rw [hredirect, altReleaseFd_maxFd]
    exact hmax
  · rw [hlist, if_neg (hlow i hfd), if_pos rfl]
  · intro j hj hji
    rw [hlist, if_neg (hlow j hj), if_neg hji]

omit [DecidableEq δ] in
theorem inv (h : Fresh t) (hmax : t.maxFd = 3) : t.Inv careful := by
  have hthree : t.maxFd.toNat = 3 := by
    rw [hmax]
    rfl
  constructor
  · exact fun i hi => (h.std i hi).1
  · intro i hfree
    refine ⟨?_, h.not_excl i⟩
    have hi : 2 < i := by
      by_contra hle
      exact (h.std i (Fin.not_lt.mp hle)).1 hfree
    unfold AltFd.OnDev
    rw [(h.free i hi).2]
    exact fun hyes => hyes (BitVec.zero_and ..)
  · intro i hused
    have hi : i ≤ 2 := by
      by_contra hlt
      exact hused (h.free i (Fin.not_le.mp hlt)).1
    have hle : i.val ≤ 2 := hi
    omega
  · omega
  · rw [hthree]
    decide
  · exact fun i j hi => absurd hi (h.not_excl i)
  · exact fun i j k hi => absurd hi (h.not_excl i)
  · exact fun _ i j hi => absurd hi (h.not_excl i)

end Fresh

/-- The flags of the standard streams that matter to a driver. -/
def streamMode (i : Index) : BitVec 32 := if i = stdinFileno then oRdonly else oWronly

/-- The standard streams are on the device `console`, which is not locked, and wait for it. -/
structure Console (console : δ) (t : Files δ) : Prop where
  dev : ∀ i ≤ 2, (t.fdList i).dev = some console
  unlocked : ∀ i, (t.fdList i).dev = some console → ¬(t.fdList i).Excl
  flags : ∀ i ≤ 2, (t.fdList i).fdFlags &&& (oAccmode ||| oNonblock) = streamMode i

omit [DecidableEq δ] in
theorem opened_mode {priv flags : BitVec 32} :
    (opened dev priv flags).fdFlags &&& (oAccmode ||| oNonblock) =
      flags &&& (oAccmode ||| oNonblock) := by
  have hkeep : ~~~altFdFlagsMask &&& (oAccmode ||| oNonblock) = oAccmode ||| oNonblock := by decide
  have hdrop : altFdDev &&& (oAccmode ||| oNonblock) = 0#32 := by decide
  show (flags &&& ~~~altFdFlagsMask ||| altFdDev) &&& (oAccmode ||| oNonblock) = _
  rw [BitVec.and_or_distrib_right, hdrop, BitVec.or_zero, BitVec.and_assoc, hkeep]

/-- The pool at the start of `main`. -/
theorem atMain_spec (hfind : D.altFindDev jtagUartName = some dev)
    (hopen : D.has dev .openFn = false) (answers : Index → ℤ × BitVec 32) :
    Inv careful (atMain D answers) ∧ Console dev (atMain D answers) := by
  let t₁ := (init D).altOpenFd D stdoutFileno jtagUartName oWronly (answers stdoutFileno).1
    (answers stdoutFileno).2
  let t₂ := t₁.altOpenFd D stdinFileno jtagUartName oRdonly (answers stdinFileno).1
    (answers stdinFileno).2
  have hout : Redirected (init D) stdoutFileno dev oWronly t₁ :=
    Fresh.init.altOpenFd hfind hopen (by decide)
  have hin : Redirected t₁ stdinFileno dev oRdonly t₂ :=
    hout.fresh.altOpenFd hfind hopen (by decide)
  have herr : Redirected t₂ stderrFileno dev oWronly (atMain D answers) :=
    hin.fresh.altOpenFd hfind hopen (by decide)
  obtain ⟨priv₁, hstdout⟩ := hout.fd
  obtain ⟨priv₀, hstdin⟩ := hin.fd
  obtain ⟨priv₂, hstderr⟩ := herr.fd
  have hfd : ∀ i ≤ 2, ∃ priv flags, (atMain D answers).fdList i = opened dev priv flags ∧
      flags &&& (oAccmode ||| oNonblock) = streamMode i := by
    intro i hi
    have hcases : i = stdinFileno ∨ i = stdoutFileno ∨ i = stderrFileno := by
      revert i
      decide
    rcases hcases with rfl | rfl | rfl
    · refine ⟨priv₀, oRdonly, ?_, by decide⟩
      exact (herr.kept stdinFileno (by decide) (by decide)).trans hstdin
    · refine ⟨priv₁, oWronly, ?_, by decide⟩
      rw [herr.kept stdoutFileno (by decide) (by decide),
        hin.kept stdoutFileno (by decide) (by decide)]
      exact hstdout
    · exact ⟨priv₂, oWronly, hstderr, by decide⟩
  refine ⟨herr.fresh.inv herr.maxFd, ?_, fun i _ => herr.fresh.not_excl i, ?_⟩
  · intro i hi
    obtain ⟨priv, flags, heq, -⟩ := hfd i hi
    rw [heq]
    rfl
  · intro i hi
    obtain ⟨priv, flags, heq, hmode⟩ := hfd i hi
    rw [heq, opened_mode, hmode]

/-! ### The console over a run -/

theorem index?_eq_some {file : ℤ} (h : index? file = some i) : file = i.val := by
  unfold index? at h
  split_ifs at h with hrange
  obtain rfl := Option.some.inj h
  exact (Int.toNat_of_nonneg hrange.1).symm

namespace Console

variable {console : δ}

omit [DecidableEq δ] in
theorem congr (h : Console console t) (hlist : t'.fdList = t.fdList) : Console console t' := by
  constructor
  · rw [hlist]
    exact h.dev
  · rw [hlist]
    exact h.unlocked
  · rw [hlist]
    exact h.flags

omit [DecidableEq δ] in
theorem setFd (h : Console console t)
    (hstream : i ≤ 2 → fd.dev = some console ∧
      fd.fdFlags &&& (oAccmode ||| oNonblock) = streamMode i)
    (hunlocked : fd.dev = some console → ¬fd.Excl) : Console console (t.setFd i fd) := by
  constructor
  · intro j hj
    rw [setFd_fdList]
    split_ifs with hji
    · exact (hstream (hji ▸ hj)).1
    · exact h.dev j hj
  · intro j hj
    rw [setFd_fdList] at hj ⊢
    split_ifs at hj ⊢ with hji
    · exact hunlocked hj
    · exact h.unlocked j hj
  · intro j hj
    rw [setFd_fdList]
    split_ifs with hji
    · rw [hji]
      exact (hstream (hji ▸ hj)).2
    · exact h.flags j hj

omit [DecidableEq δ] in
/-- A descriptor that is not a stream is freed. -/
theorem altReleaseFd (h : Console console t) (i : Index) : Console console (t.altReleaseFd i) := by
  by_cases hi : 2 < i
  · unfold Files.altReleaseFd
    rw [if_pos hi]
    exact h.setFd (fun hle => absurd hi (Fin.not_lt.mpr hle)) fun hdev => nomatch hdev
  · rw [altReleaseFd_of_le (Fin.not_lt.mp hi)]
    exact h

omit [DecidableEq δ] in
/-- There is always another stream on the console. -/
theorem shared (h : Console console t) (hinv : t.Inv careful)
    (hi : (t.fdList i).dev = some console) : t.Shared i := by
  have h3 := hinv.three
  obtain ⟨j, hj, hne⟩ : ∃ j : Index, j ≤ 2 ∧ j ≠ i := by
    by_cases hzero : i = 0
    · exact ⟨1, by decide, hzero ▸ by decide⟩
    · exact ⟨0, by decide, Ne.symm hzero⟩
  have hle : j.val ≤ 2 := hj
  refine ⟨j, ?_, hne, (h.dev j hj).trans hi.symm⟩
  rw [hinv.toInt_maxFd]
  omega

theorem streamMode_and (i : Index) : streamMode i &&& ~~~altFcntlFlagsMask = streamMode i := by
  unfold streamMode
  split_ifs <;> decide

/-- `fcntl` leaves the access mode, and it is to leave `O_NONBLOCK`. -/
theorem and_setFlags {x arg : BitVec 32} (hx : x &&& (oAccmode ||| oNonblock) = streamMode i)
    (harg : arg &&& oNonblock = 0) :
    (x &&& ~~~altFcntlFlagsMask ||| (arg &&& altFcntlFlagsMask)) &&& (oAccmode ||| oNonblock) =
      streamMode i := by
  have hmask : altFcntlFlagsMask &&& (oAccmode ||| oNonblock) = oNonblock := by decide
  rw [BitVec.and_or_distrib_right, BitVec.and_assoc arg, hmask, harg, BitVec.and_assoc,
    BitVec.and_comm (~~~altFcntlFlagsMask), ← BitVec.and_assoc, hx, streamMode_and]
  exact BitVec.or_zero

omit [DecidableEq δ] in
theorem change (h : Console console t) (hinv : t.Inv careful) (hchange : Change t c t')
    (hkeep : c.KeepsBlocking) : Console console t' := by
  cases hchange with
  | same => exact h
  | opened dev i priv flags hfree hlocked =>
    have hi := hinv.two_lt hfree
    exact (h.setFd (fun hle => absurd hi (Fin.not_lt.mpr hle)) fun _ => not_excl_opened).congr rfl
  | refused i fd hfree =>
    have hi := hinv.two_lt hfree
    have hlist : ((t.take i fd).altReleaseFd i).fdList =
        (t.setFd i { fd with dev := none, fdFlags := 0 }).fdList := by
      funext j
      rw [altReleaseFd_fdList hi, setFd_fdList, take_fdList, take_fdList, if_pos rfl]
      split_ifs <;> rfl
    have hfreed : Console console (t.setFd i { fd with dev := none, fdFlags := 0 }) :=
      h.setFd (fun hle => absurd hi (Fin.not_lt.mpr hle)) fun hdev => nomatch hdev
    exact hfreed.congr hlist
  | released i => exact h.altReleaseFd i
  | locked file answer i hc hi hdev hshared =>
    have hother : (t.fdList i).dev ≠ some console := fun hdev => hshared (h.shared hinv hdev)
    exact h.setFd (fun hle => absurd (h.dev i hle) hother) fun hdev => absurd hdev hother
  | unlocked i =>
    have hmask : ~~~altFdExcl &&& (oAccmode ||| oNonblock) = oAccmode ||| oNonblock := by decide
    refine h.setFd (fun hle => ⟨h.dev i hle, ?_⟩) fun hdev hexcl => ?_
    · show (t.fdList i).fdFlags &&& ~~~altFdExcl &&& (oAccmode ||| oNonblock) = _
      rw [BitVec.and_assoc, hmask]
      exact h.flags i hle
    · rw [AltFd.excl_iff] at hexcl
      simp [altFdExcl] at hexcl
  | setFlags file arg i hc hi =>
    refine h.setFd (fun hle => ⟨h.dev i hle, ?_⟩) fun hdev hexcl => ?_
    · have hfile := index?_eq_some hi
      have hval : i.val ≤ 2 := hle
      rw [hc] at hkeep
      exact and_setFlags (h.flags i hle) (hkeep (by omega) rfl)
    · refine h.unlocked i hdev ?_
      rw [AltFd.excl_iff] at hexcl ⊢
      simpa [altFcntlFlagsMask, oAppend, oNonblock] using hexcl

theorem step (h : Console console t) (hinv : t.Inv careful) (hkeep : c.KeepsBlocking) :
    Console console (t.step D c) := by
  obtain ⟨u, hchange, errno, heq⟩ := step_becomes (D := D) t c
  rw [heq]
  exact (h.change hinv hchange hkeep).congr rfl

end Console

/-! ### Results -/

variable {console : δ} {answers : Index → ℤ × BitVec 32} {cs : List SysCall}

theorem inv_run (hfind : D.altFindDev jtagUartName = some console)
    (hopen : D.has console .openFn = false) :
    (run (step D) (atMain D answers) cs).Inv False :=
  run_induction (fun _ _ hinv => hinv.step fun hno => hno.elim) (atMain_spec hfind hopen answers).1
    cs

theorem inv_run_careful (hfind : D.altFindDev jtagUartName = some console)
    (hopen : D.has console .openFn = false)
    (hcare : Along (step D) Careful (atMain D answers) cs) :
    (run (step D) (atMain D answers) cs).Inv True :=
  run_invariant (fun _ _ hinv hok => hinv.step fun _ => hok) (atMain_spec hfind hopen answers).1
    hcare

/-- **Opening.**  In every run `open` hands out the least free descriptor and leaves the others as
they are, or it leaves all as they are and returns the reason. -/
theorem open_spec (hfind : D.altFindDev jtagUartName = some console)
    (hopen : D.has console .openFn = false) (answers : Index → ℤ × BitVec 32) (cs : List SysCall)
    (file : List Byte) (flags : BitVec 32) (answer : ℤ) (priv : BitVec 32) :
    let t := run (step D) (atMain D answers) cs
    Opens D t file flags answer (t.altOpen D file flags answer priv) :=
  (inv_run hfind hopen).opens

/-- The UART is opened twice, and the first descriptor is locked. -/
def lockedRun : List SysCall :=
  [.altOpen (ascii "/dev/uart".toList) oWronly 0 0, .altOpen (ascii "/dev/uart".toList) oRdonly 0 0,
    .altIoctl 3 tiocexcl 0]

/-- A third descriptor is refused. -/
theorem open_spec_lockedRun :
    let t := run (step devices) (atMain devices fun _ => (0, 0)) lockedRun
    (t.altOpen devices (ascii "/dev/uart".toList) oWronly 0 0).value = -1 ∧
      t.SameFds (t.altOpen devices (ascii "/dev/uart".toList) oWronly 0 0).files := by
  have hfind : devices.altFindDev jtagUartName = some .jtagUart := by decide
  have hopens := open_spec hfind (by decide) (fun _ => (0, 0)) lockedRun
    (ascii "/dev/uart".toList) oWronly 0 0
  refine ⟨by decide +kernel, ?_⟩
  cases hopens with
  | enodev _ _ _ hsame => exact hsame
  | emfile _ _ _ hsame => exact hsame
  | eacces _ _ _ _ _ _ _ hsame => exact hsame
  | refused _ _ _ _ _ _ hsame => exact hsame
  | opened dev i hdev hunlocked =>
    have huart : dev = .uart := by
      have hfound : devices.altFindDev (ascii "/dev/uart".toList) = some .uart := by decide
      exact Option.some.inj (hdev.symm.trans hfound)
    exact absurd (by decide +kernel) (hunlocked 3 (huart ▸ by decide +kernel))

/-- **Locks.**  In every run a descriptor that is locked has at most one other descriptor on its
device, which comes after it and is not locked; and none at all, if every lock is asked for when
`alt_max_fd` is on another device or is the descriptor itself. -/
theorem lock_spec (hfind : D.altFindDev jtagUartName = some console)
    (hopen : D.has console .openFn = false) (answers : Index → ℤ × BitVec 32)
    (cs : List SysCall) :
    let t := run (step D) (atMain D answers) cs
    (∀ i j, (t.fdList i).Excl → t.Other i j → i < j ∧ ¬(t.fdList j).Excl) ∧
    (∀ i j k, (t.fdList i).Excl → t.Other i j → t.Other i k → j = k) ∧
    (Along (step D) Careful (atMain D answers) cs → ∀ i j, (t.fdList i).Excl → ¬t.Other i j) := by
  intro t
  have hinv : t.Inv False := inv_run hfind hopen
  refine ⟨hinv.above, hinv.one, fun hcare => ?_⟩
  have hcareful : t.Inv True := inv_run_careful hfind hopen hcare
  exact hcareful.alone trivial

/-- The lock is granted all the same: the second descriptor is `alt_max_fd`. -/
theorem lock_spec_lockedRun :
    let t := run (step devices) (atMain devices fun _ => (0, 0)) lockedRun
    (t.fdList 3).Excl ∧ t.Other 3 4 ∧ ¬(t.fdList 4).Excl := by
  have hfind : devices.altFindDev jtagUartName = some .jtagUart := by decide
  obtain ⟨habove, -, -⟩ := lock_spec hfind (by decide) (fun _ => (0, 0)) lockedRun
  generalize ht : run (step devices) (atMain devices fun _ => (0, 0)) lockedRun = t at habove
  have hlocked : (t.fdList 3).Excl := by
    rw [← ht]
    decide +kernel
  have hother : t.Other 3 4 := by
    rw [← ht]
    decide +kernel
  exact ⟨hlocked, hother, (habove 3 4 hlocked hother).2⟩

theorem console_run (hfind : D.altFindDev jtagUartName = some console)
    (hopen : D.has console .openFn = false)
    (hrun : Along (step D) (fun t c => t.Defined D c ∧ c.KeepsBlocking) (atMain D answers) cs) :
    Console console (run (step D) (atMain D answers) cs) := by
  obtain ⟨hinv, hconsole⟩ : Inv False (atMain D answers) ∧ _ := atMain_spec hfind hopen answers
  exact (run_invariant (I := fun t => t.Inv False ∧ Console console t)
    (fun _ _ h hok => ⟨h.1.step fun hno => hno.elim, h.2.step h.1 hok.2⟩) ⟨hinv, hconsole⟩ hrun).2

omit [DecidableEq δ] in
/-- A descriptor with access calls the function of its device. -/
theorem transfer_eq {denied : BitVec 32} {callback : Callback} {file answer : ℤ}
    (hi : index? file = some i) (hdev : (t.fdList i).dev = some dev)
    (haccess : (t.fdList i).fdFlags &&& oAccmode ≠ denied) (hfn : D.has dev callback = true) :
    t.transfer D denied callback file answer =
      some (t.returned answer (callback, dev, (t.fdList i).fdFlags)) := by
  have hneg : ¬file < 0 := by
    rw [index?_eq_some hi]
    omega
  unfold transfer
  rw [if_neg hneg]
  simp only [hi, hdev]
  rw [if_neg haccess, if_pos hfn]

/-- **The standard streams.**  Over every run in which `fcntl` does not set `O_NONBLOCK` for one of
them, a read of the standard input is a waiting read of the console, a write of the standard output
or the standard error a waiting write, and no descriptor gets hold of the console alone. -/
theorem standard_streams (hfind : D.altFindDev jtagUartName = some console)
    (hopen : D.has console .openFn = false) (hread : D.has console .readFn = true)
    (hwrite : D.has console .writeFn = true) (answers : Index → ℤ × BitVec 32) (cs : List SysCall)
    (hrun : Along (step D) (fun t c => t.Defined D c ∧ c.KeepsBlocking) (atMain D answers) cs) :
    let t := run (step D) (atMain D answers) cs
    (∀ answer, ∃ flags, flags &&& oNonblock = 0 ∧
      t.altRead D 0 answer = some (t.returned answer (.readFn, console, flags))) ∧
    (∀ file, file = 1 ∨ file = 2 → ∀ answer, ∃ flags, flags &&& oNonblock = 0 ∧
      t.altWrite D file answer = some (t.returned answer (.writeFn, console, flags))) ∧
    ∀ i, (t.fdList i).dev = some console → ¬(t.fdList i).Excl := by
  intro t
  have hconsole : Console console t := console_run hfind hopen hrun
  have hmode : (oAccmode ||| oNonblock) &&& oAccmode = oAccmode := by decide
  have hblock : (oAccmode ||| oNonblock) &&& oNonblock = oNonblock := by decide
  -- the access mode and `O_NONBLOCK` of a stream
  have haccess : ∀ i ≤ 2, (t.fdList i).fdFlags &&& oAccmode = streamMode i &&& oAccmode := by
    intro i hi
    rw [← hconsole.flags i hi, BitVec.and_assoc, hmode]
  have hwait : ∀ i ≤ 2, (t.fdList i).fdFlags &&& oNonblock = 0 := by
    intro i hi
    have hnone : streamMode i &&& oNonblock = 0 := by
      unfold streamMode
      split_ifs <;> decide
    rw [← hconsole.flags i hi, BitVec.and_assoc, hblock] at hnone
    exact hnone
  refine ⟨?_, ?_, hconsole.unlocked⟩
  · intro answer
    refine ⟨(t.fdList stdinFileno).fdFlags, hwait _ (by decide), ?_⟩
    refine transfer_eq (by decide) (hconsole.dev _ (by decide)) ?_ hread
    rw [haccess _ (by decide)]
    decide
  · rintro file (rfl | rfl) answer
    · refine ⟨(t.fdList stdoutFileno).fdFlags, hwait _ (by decide), ?_⟩
      refine transfer_eq (by decide) (hconsole.dev _ (by decide)) ?_ hwrite
      rw [haccess _ (by decide)]
      decide
    · refine ⟨(t.fdList stderrFileno).fdFlags, hwait _ (by decide), ?_⟩
      refine transfer_eq (by decide) (hconsole.dev _ (by decide)) ?_ hwrite
      rw [haccess _ (by decide)]
      decide

/-- The standard output is closed twice, the console is opened and asked for alone. -/
def closedRun : List SysCall :=
  [.altClose 1 0, .altClose 1 0, .altOpen jtagUartName oRdonly 0 0, .altIoctl 3 tiocexcl 0]

/-- The console is still there. -/
theorem standard_streams_closedRun :
    ((run (step devices) (atMain devices fun _ => (0, 0)) closedRun).altWrite devices 1 18).map
      (fun o => o.called.map fun called => (called.1, called.2.1)) =
      some (some (.writeFn, .jtagUart)) := by
  have hfind : devices.altFindDev jtagUartName = some .jtagUart := by decide
  obtain ⟨-, hout, -⟩ := standard_streams hfind (by decide) (by decide) (by decide)
    (fun _ => (0, 0)) closedRun (by decide)
  obtain ⟨flags, -, heq⟩ := hout 1 (.inl rfl) 18
  rw [heq]
  rfl

end Files

end Ptmch.Hal
