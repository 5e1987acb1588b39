import Ptmch.Hal.File

/-!
# The pool of descriptors

What each function of the pool does, and the invariant that they keep.  A descriptor that is locked
was alone on its device when it was locked, but for the descriptor `alt_max_fd`, which the loop of
`alt_fd_lock` does not reach, and `open` refuses others as long as the lock is held.
-/

namespace Ptmch.Hal

open CLib Machine

variable {δ : Type*} {D : Devices δ} {t t' : Files δ} {i j k : Index} {dev : δ} {fd : AltFd δ}

/-! ### Flags -/

namespace AltFd

/-- It is locked. -/
def Excl (fd : AltFd δ) : Prop := fd.fdFlags &&& altFdExcl ≠ 0

instance (fd : AltFd δ) : Decidable fd.Excl := inferInstanceAs (Decidable (_ ≠ _))

/-- It is on a device. -/
def OnDev (fd : AltFd δ) : Prop := fd.fdFlags &&& altFdDev ≠ 0

theorem excl_iff : fd.Excl ↔ fd.fdFlags.getLsbD 31 = true := by
  have hpow : altFdExcl = BitVec.twoPow 32 31 := by decide
  unfold Excl
  have hne : BitVec.twoPow 32 31 ≠ 0 := by decide
  rw [hpow, BitVec.and_twoPow]
  split_ifs with hbit
  · exact iff_of_true hne hbit
  · exact iff_of_false (fun h => h rfl) hbit

theorem onDev_iff : fd.OnDev ↔ fd.fdFlags.getLsbD 30 = true := by
  have hpow : altFdDev = BitVec.twoPow 32 30 := by decide
  unfold OnDev
  have hne : BitVec.twoPow 32 30 ≠ 0 := by decide
  rw [hpow, BitVec.and_twoPow]
  split_ifs with hbit
  · exact iff_of_true hne hbit
  · exact iff_of_false (fun h => h rfl) hbit

end AltFd

/-! ### The pool -/

namespace Files

@[simp] theorem setFd_fdList : (t.setFd i fd).fdList j = if j = i then fd else t.fdList j :=
  Function.update_apply ..

theorem altReleaseFd_fdList (hi : 2 < i) :
    (t.altReleaseFd i).fdList j =
      if j = i then { t.fdList i with dev := none, fdFlags := 0 } else t.fdList j := by
  rw [altReleaseFd, if_pos hi, setFd_fdList]

theorem altReleaseFd_of_le (hi : i ≤ 2) : t.altReleaseFd i = t := by
  unfold altReleaseFd
  rw [if_neg (Fin.not_lt.mpr hi)]

@[simp] theorem altReleaseFd_maxFd : (t.altReleaseFd i).maxFd = t.maxFd := by
  unfold altReleaseFd
  split_ifs <;> rfl

/-- The descriptors are the same, where they are not free. -/
def SameFds (t t' : Files δ) : Prop :=
  ∀ j, (t'.fdList j).dev = (t.fdList j).dev ∧ ((t.fdList j).dev ≠ none → t'.fdList j = t.fdList j)

/-- The free descriptor `i` is taken. -/
def take (t : Files δ) (i : Index) (fd : AltFd δ) : Files δ :=
  { t.setFd i fd with
    maxFd := if t.maxFd.toInt < i.val then BitVec.ofNat 32 i.val else t.maxFd }

theorem take_fdList : (t.take i fd).fdList j = if j = i then fd else t.fdList j := setFd_fdList

theorem take_setFd {fd' : AltFd δ} : (t.take i fd).setFd i fd' = t.take i fd' := by
  unfold take setFd
  rw [Function.update_idem]

/-- The least free descriptor is taken. -/
theorem altGetFd_eq_some (h : t.altGetFd dev = some (i, t')) :
    (t.fdList i).dev = none ∧ (∀ j < i, (t.fdList j).dev ≠ none) ∧
      t' = t.take i { t.fdList i with dev := some dev } := by
  unfold altGetFd at h
  obtain ⟨i', hfind, heq⟩ := Option.map_eq_some_iff.mp h
  obtain ⟨rfl, rfl⟩ := Prod.mk.inj heq
  have hfree := List.find?_some hfind
  refine ⟨Option.isNone_iff_eq_none.mp hfree, ?_, rfl⟩
  intro j hj hnone
  rw [List.find?_eq_some_iff_getElem] at hfind
  obtain ⟨-, n, hn, hni, hbefore⟩ := hfind
  rw [List.getElem_finRange] at hni
  have hlt : j.val < n := by
    rw [← hni] at hj
    exact hj
  have hused := hbefore j.val hlt
  rw [List.getElem_finRange] at hused
  simp [hnone] at hused

theorem altGetFd_eq_none : t.altGetFd dev = none ↔ ∀ j, (t.fdList j).dev ≠ none := by
  unfold altGetFd
  rw [Option.map_eq_none_iff, List.find?_eq_none]
  simp [List.mem_finRange]

/-! ### The invariant -/

/-- Another descriptor is on the device of this one. -/
def Other (t : Files δ) (i j : Index) : Prop := j ≠ i ∧ (t.fdList j).dev = (t.fdList i).dev

instance [DecidableEq δ] (t : Files δ) (i j : Index) : Decidable (t.Other i j) :=
  inferInstanceAs (Decidable (_ ∧ _))

/-- The pool between system calls.  If all locks have been asked for with care, a descriptor that is
locked is alone on its device. -/
structure Inv (careful : Prop) (t : Files δ) : Prop where
  std : ∀ i ≤ 2, (t.fdList i).dev ≠ none
  free : ∀ i, (t.fdList i).dev = none → ¬(t.fdList i).OnDev ∧ ¬(t.fdList i).Excl
  high : ∀ i, (t.fdList i).dev ≠ none → i.val ≤ t.maxFd.toNat
  three : 3 ≤ t.maxFd.toNat
  maxFd : t.maxFd.toNat < altMaxFd
  above : ∀ i j, (t.fdList i).Excl → t.Other i j → i < j ∧ ¬(t.fdList j).Excl
  one : ∀ i j k, (t.fdList i).Excl → t.Other i j → t.Other i k → j = k
  alone : careful → ∀ i j, (t.fdList i).Excl → ¬t.Other i j

/-- What `fd'` has of the device, the lock and the flag of `fd`: all or part of it, or nothing. -/
def Within (fd' fd : AltFd δ) : Prop :=
  fd'.dev = none ∧ ¬fd'.OnDev ∧ ¬fd'.Excl ∨
    fd'.dev = fd.dev ∧ (fd'.OnDev → fd.OnDev) ∧ (fd'.Excl → fd.Excl)

theorem Within.rfl : Within fd fd := .inr ⟨Eq.refl _, id, id⟩

namespace Inv

variable {careful : Prop}

theorem toInt_maxFd (h : t.Inv careful) : t.maxFd.toInt = t.maxFd.toNat := by
  have hlt := h.maxFd
  apply BitVec.toInt_eq_toNat_of_lt
  have hle : altMaxFd ≤ 2 ^ 31 := by decide
  omega

/-- Descriptors that are freed or unlocked do not disturb the others. -/
theorem weaken (h : t.Inv careful) (hwithin : ∀ i, Within (t'.fdList i) (t.fdList i))
    (hstd : ∀ i ≤ 2, (t'.fdList i).dev ≠ none) (hle : t.maxFd.toNat ≤ t'.maxFd.toNat)
    (hlt : t'.maxFd.toNat < altMaxFd) : t'.Inv careful := by
  -- a descriptor that is locked now was locked before, with at least the same others
  have hexcl : ∀ i, (t'.fdList i).Excl →
      (t.fdList i).Excl ∧ ∀ j, t'.Other i j → t.Other i j := by
    intro i hi
    rcases hwithin i with ⟨-, -, hno⟩ | ⟨hdev, -, hlock⟩
    · exact absurd hi hno
    refine ⟨hlock hi, ?_⟩
    rintro j ⟨hne, hsame⟩
    rcases hwithin j with ⟨hfree, -, -⟩ | ⟨hdev', -, -⟩
    · rw [hfree, hdev] at hsame
      exact absurd (hlock hi) (h.free i hsame.symm).2
    · refine ⟨hne, ?_⟩
      rw [← hdev, ← hdev']
      exact hsame
  constructor
  · exact hstd
  · intro i hfree
    rcases hwithin i with ⟨-, hdev, hexcl⟩ | ⟨hdev, honDev, hlock⟩
    · exact ⟨hdev, hexcl⟩
    · obtain ⟨hno, hfree⟩ := h.free i (hdev ▸ hfree)
      exact ⟨fun hyes => hno (honDev hyes), fun hyes => hfree (hlock hyes)⟩
  · intro i hused
    rcases hwithin i with ⟨hfree, -, -⟩ | ⟨hdev, -, -⟩
    · exact absurd hfree hused
    · exact (h.high i (hdev ▸ hused)).trans hle
  · exact h.three.trans hle
  · exact hlt
  · intro i j hi hj
    obtain ⟨hlocked, hothers⟩ := hexcl i hi
    obtain ⟨hlt, hno⟩ := h.above i j hlocked (hothers j hj)
    exact ⟨hlt, fun hyes => hno (hexcl j hyes).1⟩
  · intro i j k hi hj hk
    obtain ⟨hlocked, hothers⟩ := hexcl i hi
    exact h.one i j k hlocked (hothers j hj) (hothers k hk)
  · intro hcareful i j hi hj
    obtain ⟨hlocked, hothers⟩ := hexcl i hi
    exact h.alone hcareful i j hlocked (hothers j hj)

/-- One descriptor changes in this way. -/
theorem setFd (h : t.Inv careful) (hwithin : Within fd (t.fdList i))
    (hstd : i ≤ 2 → fd.dev ≠ none) : (t.setFd i fd).Inv careful := by
  refine h.weaken (fun j => ?_) (fun j hj => ?_) le_rfl h.maxFd
  · rw [setFd_fdList]
    split_ifs with hji
    · rw [hji]
      exact hwithin
    · exact .rfl
  · rw [setFd_fdList]
    split_ifs with hji
    · exact hstd (hji ▸ hj)
    · exact h.std j hj

theorem setErrno (h : t.Inv careful) (errno : ℤ) : Inv careful { t with errno := errno } :=
  h.weaken (fun _ => .rfl) h.std le_rfl h.maxFd

theorem altReleaseFd (h : t.Inv careful) (i : Index) : (t.altReleaseFd i).Inv careful := by
  unfold Files.altReleaseFd
  split_ifs with hi
  · refine h.setFd (.inl ⟨rfl, ?_, ?_⟩) fun hle => absurd hi (Fin.not_lt.mpr hle)
    · exact fun hyes => hyes (BitVec.zero_and ..)
    · exact fun hyes => hyes (BitVec.zero_and ..)
  · exact h

theorem altFdUnlock (h : t.Inv careful) (i : Index) : (t.altFdUnlock i).2.Inv careful := by
  refine h.setFd (.inr ⟨rfl, ?_, ?_⟩) (h.std i)
  · rw [AltFd.onDev_iff, AltFd.onDev_iff]
    simp [altFdExcl]
  · rw [AltFd.excl_iff, AltFd.excl_iff]
    simp [altFdExcl]

/-- The flags that `fcntl` changes are others. -/
theorem setFcntlFlags (h : t.Inv careful) (i : Index) (arg : BitVec 32) :
    (t.setFd i { t.fdList i with fdFlags := (t.fdList i).fdFlags &&& ~~~altFcntlFlagsMask |||
      (arg &&& altFcntlFlagsMask) }).Inv careful := by
  refine h.setFd (.inr ⟨rfl, ?_, ?_⟩) (h.std i)
  · rw [AltFd.onDev_iff, AltFd.onDev_iff]
    simp [altFcntlFlagsMask, oAppend, oNonblock]
  · rw [AltFd.excl_iff, AltFd.excl_iff]
    simp [altFcntlFlagsMask, oAppend, oNonblock]

/-! ### Locks -/

/-- The loop misses the descriptor `alt_max_fd` alone. -/
theorem of_not_shared (h : t.Inv careful) (hshared : ¬t.Shared i) (hi : (t.fdList i).dev ≠ none)
    (hj : t.Other i j) : j.val = t.maxFd.toNat := by
  by_contra hne
  apply hshared
  have hle := h.high j (hj.2 ▸ hi)
  have hlt : j.val < t.maxFd.toNat := lt_of_le_of_ne hle hne
  refine ⟨j, ?_, hj.1, hj.2⟩
  rw [h.toInt_maxFd]
  exact_mod_cast hlt

theorem lock (h : t.Inv careful) (hshared : ¬t.Shared i) (hi : (t.fdList i).dev ≠ none)
    (hcareful : careful → ∀ m : Index, m.val = t.maxFd.toNat → ¬t.Other i m) :
    (t.setFd i { t.fdList i with fdFlags := (t.fdList i).fdFlags ||| altFdExcl }).Inv careful := by
  set fd : AltFd δ := { t.fdList i with fdFlags := (t.fdList i).fdFlags ||| altFdExcl }
  -- only the locks change
  have hdev : ∀ j, ((t.setFd i fd).fdList j).dev = (t.fdList j).dev := by
    intro j
    rw [setFd_fdList]
    split_ifs with hji
    · rw [hji]
    · rfl
  have hother : ∀ j k, (t.setFd i fd).Other j k ↔ t.Other j k := by
    intro j k
    unfold Other
    rw [hdev, hdev]
  have hexcl : ∀ j, ((t.setFd i fd).fdList j).Excl → j = i ∨ (t.fdList j).Excl := by
    intro j hj
    by_cases hji : j = i
    · exact .inl hji
    · rw [setFd_fdList, if_neg hji] at hj
      exact .inr hj
  have hmax : ∀ j, t.Other i j → j.val = t.maxFd.toNat := fun j => h.of_not_shared hshared hi
  -- a lock that is held already has this descriptor above it, so this one is not below
  have hfirst : ∀ j, (t.fdList j).Excl → ¬t.Other j i := by
    intro j hj hji
    have hlt : j.val < i.val := (h.above j i hj hji).1
    have hle := h.high i hi
    have hj := hmax j ⟨hji.1.symm, hji.2.symm⟩
    omega
  constructor
  · intro j hj
    rw [hdev]
    exact h.std j hj
  · intro j hj
    have hne : j ≠ i := by
      rintro rfl
      exact hi ((hdev j).symm.trans hj)
    rw [setFd_fdList, if_neg hne] at hj ⊢
    exact h.free j hj
  · intro j hj
    exact h.high j ((hdev j) ▸ hj)
  · exact h.three
  · exact h.maxFd
  · intro j k hj hk
    rw [hother] at hk
    rcases hexcl j hj with rfl | hlocked
    · have hle : j.val ≤ k.val := (h.high j hi).trans_eq (hmax k hk).symm
      have hne : j.val ≠ k.val := fun heq => hk.1 (Fin.ext heq.symm)
      have hlt : j.val < k.val := lt_of_le_of_ne hle hne
      refine ⟨hlt, fun hyes => ?_⟩
      rcases hexcl k hyes with rfl | hyes
      · exact hk.1 rfl
      · exact hfirst k hyes ⟨hk.1.symm, hk.2.symm⟩
    · refine ⟨(h.above j k hlocked hk).1, fun hyes => ?_⟩
      rcases hexcl k hyes with rfl | hyes
      · exact hfirst j hlocked hk
      · exact (h.above j k hlocked hk).2 hyes
  · intro j k l hj hk hl
    rw [hother] at hk hl
    rcases hexcl j hj with rfl | hj
    · exact Fin.ext ((hmax k hk).trans (hmax l hl).symm)
    · exact h.one j k l hj hk hl
  · intro hyes j k hj hk
    rw [hother] at hk
    rcases hexcl j hj with rfl | hj
    · exact hcareful hyes k (hmax k hk) hk
    · exact h.alone hyes j k hj hk

end Inv

/-! ### Open -/

/-- What `open` puts into the descriptor. -/
def opened (dev : δ) (priv flags : BitVec 32) : AltFd δ :=
  ⟨some dev, priv, flags &&& ~~~altFdFlagsMask ||| altFdDev⟩

theorem not_excl_opened {priv flags : BitVec 32} : ¬(opened dev priv flags).Excl := by
  rw [AltFd.excl_iff]
  simp [opened, altFdFlagsMask, altFdExcl, altFdDev]

namespace Inv

variable {careful : Prop}

theorem two_lt (h : t.Inv careful) (hfree : (t.fdList i).dev = none) : 2 < i := by
  by_contra hle
  exact h.std i (Fin.not_lt.mp hle) hfree

theorem maxFd_take (h : t.Inv careful) :
    (t.take i fd).maxFd.toNat = max t.maxFd.toNat i.val := by
  have hi : i.val < 2 ^ 32 := i.isLt.trans (by decide)
  show (if t.maxFd.toInt < i.val then BitVec.ofNat 32 i.val else t.maxFd).toNat = _
  rw [h.toInt_maxFd]
  split_ifs with hlt
  · rw [BitVec.toNat_ofNat, Nat.mod_eq_of_lt hi]
    omega
  · omega

/-- The search up to `alt_max_fd` misses no lock. -/
theorem locked_take (h : t.Inv careful) (hfree : (t.fdList i).dev = none)
    (hdev : fd.dev = some dev) :
    (t.take i fd).Locked i ↔ ∃ j, (t.fdList j).dev = some dev ∧ (t.fdList j).Excl := by
  unfold Locked
  simp only [take_fdList, if_true]
  constructor
  · rintro ⟨j, -, hsame, hexcl, hne⟩
    rw [if_neg hne] at hsame hexcl
    exact ⟨j, hsame.trans hdev, hexcl⟩
  · rintro ⟨j, hj, hexcl⟩
    have hne : j ≠ i := by
      rintro rfl
      rw [hfree] at hj
      exact nomatch hj
    have hused : (t.fdList j).dev ≠ none := by
      rw [hj]
      exact Option.some_ne_none dev
    refine ⟨j, ?_, ?_, ?_, hne⟩
    · rw [h.maxFd_take]
      exact (h.high j hused).trans (le_max_left _ _)
    · rw [if_neg hne]
      exact hj.trans hdev.symm
    · rw [if_neg hne]
      exact hexcl

theorem take (h : t.Inv careful) (hfree : (t.fdList i).dev = none) (hdev : fd.dev = some dev)
    (hexcl : ¬fd.Excl) (hunlocked : ∀ j, (t.fdList j).dev = some dev → ¬(t.fdList j).Excl) :
    (t.take i fd).Inv careful := by
  have hmax : (t.take i fd).maxFd.toNat = max t.maxFd.toNat i.val := h.maxFd_take
  have hi : i.val < altMaxFd := i.isLt
  have h3 := h.three
  have hlt := h.maxFd
  -- what is locked is on another device, so the new descriptor is none of its others
  have hold : ∀ j, ((t.take i fd).fdList j).Excl →
      (t.fdList j).Excl ∧ ∀ k, (t.take i fd).Other j k → ((t.take i fd).fdList k = t.fdList k) ∧
        t.Other j k := by
    intro j hj
    rw [take_fdList] at hj
    split_ifs at hj with hji
    · exact absurd hj hexcl
    refine ⟨hj, ?_⟩
    rintro k ⟨hne, hsame⟩
    have hki : k ≠ i := by
      rintro rfl
      rw [take_fdList, take_fdList, if_pos rfl, if_neg hji, hdev] at hsame
      exact hunlocked j hsame.symm hj
    rw [take_fdList, take_fdList, if_neg hki, if_neg hji] at hsame
    rw [take_fdList, if_neg hki]
    exact ⟨rfl, hne, hsame⟩
  constructor
  · intro j hj
    rw [take_fdList]
    split_ifs with hji
    · rw [hdev]
      exact Option.some_ne_none dev
    · exact h.std j hj
  · intro j hj
    rw [take_fdList] at hj ⊢
    split_ifs at hj ⊢ with hji
    · rw [hdev] at hj
      exact nomatch hj
    · exact h.free j hj
  · intro j hj
    rw [hmax]
    rw [take_fdList] at hj
    split_ifs at hj with hji
    · rw [hji]
      exact le_max_right _ _
    · exact (h.high j hj).trans (le_max_left _ _)
  · rw [hmax]
    omega
  · rw [hmax]
    omega
  · intro j k hj hk
    obtain ⟨hlocked, hothers⟩ := hold j hj
    obtain ⟨hkeep, hk⟩ := hothers k hk
    rw [hkeep]
    exact h.above j k hlocked hk
  · intro j k l hj hk hl
    obtain ⟨hlocked, hothers⟩ := hold j hj
    exact h.one j k l hlocked (hothers k hk).2 (hothers l hl).2
  · intro hcareful j k hj hk
    obtain ⟨hlocked, hothers⟩ := hold j hj
    exact h.alone hcareful j k hlocked (hothers k hk).2

end Inv

end Files

end Ptmch.Hal
