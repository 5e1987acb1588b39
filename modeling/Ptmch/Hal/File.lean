import Mathlib.Logic.Function.Basic
import Ptmch.CLib.CString
import Ptmch.Machine.Run

/-!
# File descriptors

The pool of file descriptors of the HAL, `alt_io_redirect`, which puts the standard streams on a
device before `main`, and the system calls `open`, `close`, `read`, `write`, `ioctl` and `fcntl`.
What the functions of a device return is up to the device.  No file system is registered, so
`alt_find_file` finds none.

A system call is `none` where it follows a null pointer or leaves the pool.
-/

namespace Ptmch.Hal

open CLib

/-! ### Constants -/

/-- `ALT_MAX_FD` -/
abbrev altMaxFd : ℕ := 32

def altFdExcl : BitVec 32 := 0x80000000

def altFdDev : BitVec 32 := 0x40000000

def altFdFlagsMask : BitVec 32 := altFdExcl ||| altFdDev

def oRdonly : BitVec 32 := 0

def oWronly : BitVec 32 := 1

def oAccmode : BitVec 32 := 3

def oAppend : BitVec 32 := 0x0008

def oNonblock : BitVec 32 := 0x4000

def altFcntlFlagsMask : BitVec 32 := oAppend ||| oNonblock

def tiocexcl : BitVec 32 := 0x740d

def tiocnxcl : BitVec 32 := 0x740e

def fGetfl : ℤ := 3

def fSetfl : ℤ := 4

def eacces : ℤ := 13

def enodev : ℤ := 19

def einval : ℤ := 22

def emfile : ℤ := 24

def enotty : ℤ := 25

def ebadfd : ℤ := 81

/-! ### Devices -/

/-- The functions of an `alt_dev`. -/
inductive Callback
  | openFn
  | closeFn
  | readFn
  | writeFn
  | ioctlFn
  deriving DecidableEq, Repr

/-- The devices: `δ` is the type of pointers to an `alt_dev`. -/
structure Devices (δ : Type*) where
  /-- `alt_dev_list` from its head on -/
  devList : List δ
  /-- `alt_dev_null` -/
  devNull : δ
  name : δ → List Byte
  /-- which functions are not `NULL` -/
  has : δ → Callback → Bool

variable {δ : Type*} [DecidableEq δ] (D : Devices δ)

omit [DecidableEq δ] in
/-- The name has to be the same up to its end. -/
def Devices.altFindDev (name : List Byte) : Option δ := D.devList.find? fun dev => D.name dev = name

/-! ### The pool -/

/-- An index of `alt_fd_list`. -/
abbrev Index := Fin altMaxFd

/-- `alt_fd` -/
structure AltFd (δ : Type*) where
  dev : Option δ
  priv : BitVec 32
  fdFlags : BitVec 32

/-- A free descriptor of the pool at the start. -/
def AltFd.zero : AltFd δ := ⟨none, 0, 0⟩

structure Files (δ : Type*) where
  fdList : Index → AltFd δ
  maxFd : BitVec 32
  errno : ℤ

def stdinFileno : Index := 0

def stdoutFileno : Index := 1

def stderrFileno : Index := 2

namespace Files

variable (t : Files δ)

/-- The standard streams are on `/dev/null` at first. -/
def init : Files δ where
  fdList i := if i ≤ 2 then ⟨some D.devNull, 0, 0⟩ else .zero
  maxFd := -1
  errno := 0

def setFd (i : Index) (fd : AltFd δ) : Files δ := { t with fdList := Function.update t.fdList i fd }

/-- `none` is `-EMFILE`. -/
def altGetFd (dev : δ) : Option (Index × Files δ) :=
  ((List.finRange altMaxFd).find? fun i => (t.fdList i).dev.isNone).map fun i =>
    (i, { t.setFd i { t.fdList i with dev := some dev } with
      maxFd := if t.maxFd.toInt < i.val then BitVec.ofNat 32 i.val else t.maxFd })

/-- The standard streams are always reserved. -/
def altReleaseFd (i : Index) : Files δ :=
  if 2 < i then t.setFd i { t.fdList i with dev := none, fdFlags := 0 } else t

/-- The loop of `alt_file_locked` finds a descriptor that is locked; its `i` is unsigned. -/
def Locked (fd : Index) : Prop :=
  ∃ i : Index, i.val ≤ t.maxFd.toNat ∧ (t.fdList i).dev = (t.fdList fd).dev ∧
    (t.fdList i).fdFlags &&& altFdExcl ≠ 0 ∧ i ≠ fd

instance (fd : Index) : Decidable (t.Locked fd) := inferInstanceAs (Decidable (∃ _, _))

def altFileLocked (fd : Index) : ℤ × Files δ :=
  let t := t.setFd fd { t.fdList fd with fdFlags := (t.fdList fd).fdFlags ||| altFdDev }
  (if t.Locked fd then -eacces else 0, t)

/-- What the loop of `alt_fd_lock` finds; its `i` is signed. -/
def Shared (fd : Index) : Prop :=
  ∃ i : Index, (i.val : ℤ) < t.maxFd.toInt ∧ i ≠ fd ∧ (t.fdList i).dev = (t.fdList fd).dev

instance (fd : Index) : Decidable (t.Shared fd) := inferInstanceAs (Decidable (∃ _, _))

def altFdLock (fd : Index) : ℤ × Files δ :=
  if t.Shared fd then (-eacces, t)
  else (0, t.setFd fd { t.fdList fd with fdFlags := (t.fdList fd).fdFlags ||| altFdExcl })

def altFdUnlock (fd : Index) : ℤ × Files δ :=
  (0, t.setFd fd { t.fdList fd with fdFlags := (t.fdList fd).fdFlags &&& ~~~altFdExcl })

/-! ### System calls -/

/-- What a system call returns, the pool after it, and the function of a device that it has called,
with the flags of the descriptor. -/
structure Outcome (δ : Type*) where
  value : ℤ
  files : Files δ
  called : Option (Callback × δ × BitVec 32)

def failed (errno : ℤ) : Outcome δ := ⟨-1, { t with errno := errno }, none⟩

/-- `open` of the device, which returns `answer` and leaves `priv` in the descriptor. -/
def altOpen (file : List Byte) (flags : BitVec 32) (answer : ℤ) (priv : BitVec 32) : Outcome δ :=
  match D.altFindDev file with
  | none => t.failed enodev
  | some dev =>
    match t.altGetFd dev with
    | none => t.failed emfile
    | some (index, t) =>
      let t := t.setFd index { t.fdList index with fdFlags := flags &&& ~~~altFdFlagsMask }
      let (status, t) := t.altFileLocked index
      if status < 0 then (t.altReleaseFd index).failed (-status)
      else if D.has dev .openFn then
        let t := t.setFd index { t.fdList index with priv := priv }
        let called := some (.openFn, dev, (t.fdList index).fdFlags)
        if answer < 0 then { (t.altReleaseFd index).failed (-answer) with called := called }
        else ⟨index.val, t, called⟩
      else ⟨index.val, t, none⟩

/-- The descriptor with this number, if there is one. -/
def index? (file : ℤ) : Option Index :=
  if h : 0 ≤ file ∧ file < altMaxFd then some ⟨file.toNat, by omega⟩ else none

/-- What the function of a device has returned, as the value of a system call. -/
def returned (answer : ℤ) (called : Callback × δ × BitVec 32) : Outcome δ :=
  if answer < 0 then { t.failed (-answer) with called := some called }
  else ⟨answer, t, some called⟩

def altClose (fildes : ℤ) (answer : ℤ) : Option (Outcome δ) :=
  if fildes < 0 then some (t.failed ebadfd)
  else
    match index? fildes with
    | none => none
    | some i =>
      match (t.fdList i).dev with
      | none => none
      | some dev =>
        if D.has dev .closeFn then
          let called := some (.closeFn, dev, (t.fdList i).fdFlags)
          if answer < 0 then
            some { (t.altReleaseFd i).failed (-answer) with called := called }
          else some ⟨0, t.altReleaseFd i, called⟩
        else some ⟨0, t.altReleaseFd i, none⟩

/-- `read` and `write`, which are denied to descriptors of one access mode. -/
def transfer (denied : BitVec 32) (callback : Callback) (file : ℤ) (answer : ℤ) :
    Option (Outcome δ) :=
  if file < 0 then some (t.failed ebadfd)
  else
    match index? file with
    | none => none
    | some i =>
      if (t.fdList i).fdFlags &&& oAccmode = denied then some (t.failed eacces)
      else
        match (t.fdList i).dev with
        | none => none
        | some dev =>
          if D.has dev callback then
            some (t.returned answer (callback, dev, (t.fdList i).fdFlags))
          else some (t.failed eacces)

def altRead (file : ℤ) (answer : ℤ) : Option (Outcome δ) :=
  t.transfer D oWronly .readFn file answer

def altWrite (file : ℤ) (answer : ℤ) : Option (Outcome δ) :=
  t.transfer D oRdonly .writeFn file answer

/-- `ioctl` returns the negative error itself. -/
def ioctlDone (rc : ℤ) (called : Option (Callback × δ × BitVec 32)) : Outcome δ :=
  ⟨rc, if rc < 0 then { t with errno := -rc } else t, called⟩

def altIoctl (file : ℤ) (req : BitVec 32) (answer : ℤ) : Option (Outcome δ) :=
  if file < 0 then some (t.ioctlDone (-ebadfd) none)
  else
    match index? file with
    | none => none
    | some i =>
      if (t.fdList i).fdFlags &&& altFdDev ≠ 0 ∧ req = tiocexcl then
        some ((t.altFdLock i).2.ioctlDone (t.altFdLock i).1 none)
      else if (t.fdList i).fdFlags &&& altFdDev ≠ 0 ∧ req = tiocnxcl then
        some ((t.altFdUnlock i).2.ioctlDone (t.altFdUnlock i).1 none)
      else
        match (t.fdList i).dev with
        | none => none
        | some dev =>
          if D.has dev .ioctlFn then
            some (t.ioctlDone answer (some (.ioctlFn, dev, (t.fdList i).fdFlags)))
          else some (t.ioctlDone (-enotty) none)

def altFcntl (file : ℤ) (cmd : ℤ) (arg : BitVec 32) : Option (Outcome δ) :=
  if file < 0 then some (t.failed ebadfd)
  else
    match index? file with
    | none => none
    | some i =>
      let fd := t.fdList i
      if cmd = fGetfl then some ⟨(fd.fdFlags &&& ~~~altFdFlagsMask).toInt, t, none⟩
      else if cmd = fSetfl then
        let flags := fd.fdFlags &&& ~~~altFcntlFlagsMask ||| (arg &&& altFcntlFlagsMask)
        some ⟨0, t.setFd i { fd with fdFlags := flags }, none⟩
      else some (t.failed einval)

/-! ### Start -/

def altOpenFd (fd : Index) (name : List Byte) (flags : BitVec 32) (answer : ℤ)
    (priv : BitVec 32) : Files δ :=
  let o := t.altOpen D name flags answer priv
  match index? o.value with
  | none => o.files
  | some old => (o.files.setFd fd (o.files.fdList old)).altReleaseFd old

/-- `opened` is what `open` of a device does for each stream. -/
def altIoRedirect (stdoutDev stdinDev stderrDev : List Byte) (opened : Index → ℤ × BitVec 32) :
    Files δ :=
  let openFd (t : Files δ) (fd : Index) (name : List Byte) (flags : BitVec 32) :=
    t.altOpenFd D fd name flags (opened fd).1 (opened fd).2
  let t := openFd t stdoutFileno stdoutDev oWronly
  let t := openFd t stdinFileno stdinDev oRdonly
  openFd t stderrFileno stderrDev oWronly

end Files

/-! ### Runs -/

inductive SysCall
  | altOpen (file : List Byte) (flags : BitVec 32) (answer : ℤ) (priv : BitVec 32)
  | altClose (fildes : ℤ) (answer : ℤ)
  | altRead (file : ℤ) (answer : ℤ)
  | altWrite (file : ℤ) (answer : ℤ)
  | altIoctl (file : ℤ) (req : BitVec 32) (answer : ℤ)
  | altFcntl (file : ℤ) (cmd : ℤ) (arg : BitVec 32)
  deriving DecidableEq, Repr

namespace Files

variable (t : Files δ)

def call : SysCall → Option (Outcome δ)
  | .altOpen file flags answer priv => some (t.altOpen D file flags answer priv)
  | .altClose fildes answer => t.altClose D fildes answer
  | .altRead file answer => t.altRead D file answer
  | .altWrite file answer => t.altWrite D file answer
  | .altIoctl file req answer => t.altIoctl D file req answer
  | .altFcntl file cmd arg => t.altFcntl file cmd arg

/-- The call does not follow a null pointer and stays in the pool. -/
def Defined (c : SysCall) : Prop := (t.call D c).isSome

instance (c : SysCall) : Decidable (t.Defined D c) := inferInstanceAs (Decidable (_ = true))

def step (c : SysCall) : Files δ := (t.call D c).elim t Outcome.files

/-- An `ioctl` for a lock finds the descriptor `alt_max_fd`, which `alt_fd_lock` does not look at,
on another device, or it is for that descriptor. -/
def Careful (t : Files δ) : SysCall → Prop
  | .altIoctl file req _ => req = tiocexcl → ∀ i, index? file = some i →
    ∀ m : Index, m.val = t.maxFd.toNat → m ≠ i → (t.fdList m).dev ≠ (t.fdList i).dev
  | _ => True

instance : ∀ c : SysCall, Decidable (t.Careful c)
  | .altIoctl file req _ =>
    inferInstanceAs (Decidable (req = tiocexcl → ∀ i, index? file = some i →
      ∀ m : Index, m.val = t.maxFd.toNat → m ≠ i → (t.fdList m).dev ≠ (t.fdList i).dev))
  | .altOpen .. | .altClose .. | .altRead .. | .altWrite .. | .altFcntl .. => isTrue trivial

/-- `"/dev/jtag_uart"`, which is `ALT_STDIN`, `ALT_STDOUT` and `ALT_STDERR`. -/
def jtagUartName : List Byte := ascii "/dev/jtag_uart".toList

/-- The pool when `main` begins. -/
def atMain (opened : Index → ℤ × BitVec 32) : Files δ :=
  (init D).altIoRedirect D jtagUartName jtagUartName jtagUartName opened

end Files

/-- The call does not set `O_NONBLOCK` for a standard stream. -/
def SysCall.KeepsBlocking : SysCall → Prop
  | .altFcntl file cmd arg => file ≤ 2 → cmd = fSetfl → arg &&& oNonblock = 0
  | _ => True

instance : ∀ c : SysCall, Decidable c.KeepsBlocking
  | .altFcntl file cmd arg =>
    inferInstanceAs (Decidable (file ≤ 2 → cmd = fSetfl → arg &&& oNonblock = 0))
  | .altOpen .. | .altClose .. | .altRead .. | .altWrite .. | .altIoctl .. => isTrue trivial

/-! ### The devices of the program -/

inductive Dev
  | devNull
  | jtagUart
  | uart
  deriving DecidableEq, Repr

/-- What `alt_sys_init` has registered, each before those that came earlier. -/
def devices : Devices Dev where
  devList := [.uart, .jtagUart, .devNull]
  devNull := .devNull
  name
    | .devNull => ascii "/dev/null".toList
    | .jtagUart => Files.jtagUartName
    | .uart => ascii "/dev/uart".toList
  has
    | .devNull, callback => callback = .writeFn
    | .jtagUart, callback => callback ≠ .openFn
    | .uart, callback => callback ≠ .openFn ∧ callback ≠ .ioctlFn

end Ptmch.Hal
