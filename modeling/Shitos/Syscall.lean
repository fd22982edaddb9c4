import Shitos.Paging

/-!
# System calls that store through a pointer

The calls of the table that write to memory their caller points at:
`sys_read`, `sys_sysfunc`, `sys_ioctl`, `sys_getcwd` and `sys_readdir`. A
file node is a record of function pointers, as `fs_node_t` is; a driver is
known here only by what its functions return and which bytes of the caller's
buffer they store. A result carries the stores with their addresses, so
that a call can be asked whether they stayed inside the pages the caller may
write.

There are two kinds of check. `PTR_CHECK` walks the pages of the range,
`PTR_VALIDATE` looks at one byte, for reading, and lets NULL pass. A call is
safe exactly when the bytes its check did not look at happen to be writable
(`safe_iff`).
-/

namespace Shitos

namespace Syscall

open Paging

def EACCES : Int := 13
def EFAULT : Int := 14
def EINVAL : Int := 22
def ERANGE : Int := 34
def EBADFD : Int := 81

/-- `KERNEL_MAP`. -/
def kernelMap : Nat := 0xc0000000

/-- `sizeof(struct dirent)`. -/
def direntSz : Nat := 260

/-- Bytes stored, each with its address. -/
abbrev Stores := List (Nat × UInt8)

/-- `fs_node_t`, as far as these calls use it: what `read` and `ioctl`
return and store (at offsets into the buffer), and the entries `readdir`
finds. -/
structure FsNode where
  isDir : Bool
  read : Option (Nat → Nat → Int × Stores)
  ioctl : Option (Nat → Nat → Int × Stores)
  readdir : Option (Nat → Option Mem)

/-- An entry of the table of open files. -/
structure Fd where
  node : FsNode
  off : Nat
  mode : Nat

/-- The calling process. `heapFn request args` is what the heap functions
return to `sys_sysfunc`, and `pitTicks` the clock. -/
structure Proc where
  space : Space
  fds : List (Option Fd)
  entry : Nat
  wdPath : List UInt8
  heapFn : Nat → Nat → Int
  pitTicks : Nat

/-- The value returned, and the bytes stored through the pointer argument. -/
structure Ret where
  ret : Int
  stores : Stores

def Ret.error (e : Int) : Ret := ⟨-e, []⟩

/-- A pointer's 32-bit successor. -/
def addr32 (base off : Nat) : Nat := (base + off) % 2 ^ 32

/-- Stores into a buffer, as stores to memory. -/
def storesAt (base : Nat) (l : Stores) : Stores := l.map fun s => (addr32 base s.1, s.2)

/-- `memcpy(base, m, n)`. -/
def storeMem (base n : Nat) (m : Mem) : Stores :=
  storesAt base ((List.range n).map fun i => (i, m i))

/-! ## Checks -/

/-- `FD_CHECK`, with the entry it finds. -/
def fdCheck (p : Proc) (fd : Int) : Option Fd :=
  if fd < p.fds.length ∧ 0 ≤ fd then (p.fds[fd.toNat]?).join else none

/-- `PTR_INRANGE`. -/
def ptrInrange (p : Proc) (ptr : Nat) : Bool := p.entry < ptr && ptr < kernelMap

/-- `ptr_validate` returns 1. -/
def ptrInvalid (p : Proc) (ptr : Nat) : Bool :=
  if ptr ≠ 0 then
    if !ptrInrange p ptr then true else !validateUserPtr p.space ptr 0 false false
  else false

/-! ## The calls -/

def fsRead (node : FsNode) (off sz : Nat) : Int × Stores :=
  match node.read with
  | some read => read off sz
  | none => (-EINVAL, [])

def fsIoctl (node : FsNode) (request argp : Nat) : Int × Stores :=
  match node.ioctl with
  | some ioctl => ioctl request argp
  | none => (-EINVAL, [])

def fsReaddir (node : FsNode) (idx : Nat) : Option Mem :=
  match node.readdir with
  | some readdir => if node.isDir then readdir idx else none
  | none => none

/-- `sys_read`. The offset of the descriptor moves on by what was read. -/
def sysRead (p : Proc) (fd : Int) (buf sz : Nat) : Ret × Proc :=
  match fdCheck p fd with
  | none => (Ret.error EBADFD, p)
  | some f =>
      if !validateUserPtr p.space buf sz false true then (Ret.error EFAULT, p)
      else if f.mode / 4 % 2 = 0 then (Ret.error EACCES, p)
      else
        let r := fsRead f.node f.off sz
        let p := if r.1 < 0 then p
          else { p with fds := p.fds.set fd.toNat (some { f with off := f.off + r.1.toNat }) }
        (⟨r.1, storesAt buf r.2⟩, p)

/-- `sys_sysfunc`. -/
def sysSysfunc (p : Proc) (request args : Nat) : Ret :=
  match request with
  | 0 | 1 | 2 => if ptrInvalid p args then Ret.error EINVAL else ⟨p.heapFn request args, []⟩
  | 3 => ⟨0, []⟩
  | 4 =>
      if ptrInvalid p args then Ret.error EINVAL
      else ⟨0, storeMem args 8 (wr32 (wr32 (fun _ => 0) 0 p.pitTicks) 4 (p.pitTicks / 2 ^ 32))⟩
  | _ => Ret.error EINVAL

/-- `sys_ioctl`. -/
def sysIoctl (p : Proc) (fd : Int) (request argp : Nat) : Ret :=
  match fdCheck p fd with
  | none => Ret.error EBADFD
  | some f =>
      if ptrInvalid p argp then Ret.error EINVAL
      else
        let r := fsIoctl f.node request argp
        ⟨r.1, storesAt argp r.2⟩

/-- `sys_getcwd`; it returns the pointer. -/
def sysGetcwd (p : Proc) (buf sz : Nat) : Ret :=
  if !validateUserPtr p.space buf sz false true then Ret.error EFAULT
  else
    let len := p.wdPath.length + 1
    if sz < len then Ret.error ERANGE
    else ⟨buf, storeMem buf len fun i => p.wdPath.getD i 0⟩

/-- `sys_readdir`. -/
def sysReaddir (p : Proc) (fd : Int) (idx ent : Nat) : Ret :=
  match fdCheck p fd with
  | none => Ret.error EBADFD
  | some f =>
      if ent = 0 then Ret.error EFAULT
      else if ptrInvalid p ent then Ret.error EINVAL
      else
        match fsReaddir f.node idx with
        | none => ⟨0, []⟩
        | some kent => ⟨1, storeMem ent direntSz kent⟩

/-- A call with its arguments. -/
inductive Call where
  | read (fd : Int) (buf sz : Nat)
  | sysfunc (request args : Nat)
  | ioctl (fd : Int) (request argp : Nat)
  | getcwd (buf sz : Nat)
  | readdir (fd : Int) (idx ent : Nat)

/-- `_syscall_handler`, for these calls. -/
def exec (p : Proc) : Call → Ret
  | .read fd buf sz => (sysRead p fd buf sz).1
  | .sysfunc request args => sysSysfunc p request args
  | .ioctl fd request argp => sysIoctl p fd request argp
  | .getcwd buf sz => sysGetcwd p buf sz
  | .readdir fd idx ent => sysReaddir p fd idx ent

/-! ## Safety -/

/-- What the call stores when no check of a pointer stops it. -/
def wouldStore (p : Proc) : Call → Stores
  | .read fd buf sz =>
      match fdCheck p fd with
      | none => []
      | some f => if f.mode / 4 % 2 = 0 then [] else storesAt buf (fsRead f.node f.off sz).2
  | .sysfunc request args =>
      if request = 4 then
        storeMem args 8 (wr32 (wr32 (fun _ => 0) 0 p.pitTicks) 4 (p.pitTicks / 2 ^ 32))
      else []
  | .ioctl fd request argp =>
      match fdCheck p fd with
      | none => []
      | some f => storesAt argp (fsIoctl f.node request argp).2
  | .getcwd buf sz =>
      if sz < p.wdPath.length + 1 then []
      else storeMem buf (p.wdPath.length + 1) fun i => p.wdPath.getD i 0
  | .readdir fd idx ent =>
      match fdCheck p fd with
      | none => []
      | some f =>
          if ent = 0 then []
          else
            match fsReaddir f.node idx with
            | none => []
            | some kent => storeMem ent direntSz kent

/-- Every byte stored is in a page the caller may write; and where some byte
the call would store is not, it fails and stores nothing. -/
def Safe (p : Proc) (c : Call) : Prop :=
  (∀ s ∈ (exec p c).stores, Writable p.space s.1)
    ∧ ((∃ s ∈ wouldStore p c, ¬Writable p.space s.1) →
      (exec p c).ret < 0 ∧ (exec p c).stores = [])

/-- The test that stops a call before it stores anything: `PTR_CHECK` for
`sys_read` and `sys_getcwd`, `PTR_VALIDATE` for the others. -/
def rejected (p : Proc) : Call → Bool
  | .read _ buf sz => !validateUserPtr p.space buf sz false true
  | .getcwd buf sz => !validateUserPtr p.space buf sz false true
  | .sysfunc _ args => ptrInvalid p args
  | .ioctl _ _ argp => ptrInvalid p argp
  | .readdir _ _ ent => ptrInvalid p ent

/-- The addresses of the range whose pages the accepted check has found
writable: none for `PTR_VALIDATE`, none for a range that wraps. -/
def Checked : Call → Nat → Prop
  | .read _ buf sz, a => buf + sz ≤ 2 ^ 32 ∧ buf ≤ a ∧ a < buf + sz
  | .getcwd buf sz, a => buf + sz ≤ 2 ^ 32 ∧ buf ≤ a ∧ a < buf + sz
  | .sysfunc _ _, _ => False
  | .ioctl _ _ _, _ => False
  | .readdir _ _ _, _ => False

/-- The condition under which a call is safe: it is rejected, or each byte
it has to store outside the checked range is writable by chance. -/
def Covered (p : Proc) (c : Call) : Prop :=
  rejected p c = true ∨ ∀ s ∈ wouldStore p c, ¬Checked c s.1 → Writable p.space s.1

theorem checked_writable {p : Proc} {c : Call} (h : rejected p c = false) {a : Nat}
    (ha : Checked c a) : Writable p.space a := by
  have hrange : ∀ {buf sz : Nat}, (!validateUserPtr p.space buf sz false true) = false →
      buf + sz ≤ 2 ^ 32 ∧ buf ≤ a ∧ a < buf + sz → Writable p.space a := by
    intro buf sz hv hr
    obtain ⟨hwrap, hlo, hhi⟩ := hr
    have hw := validateUserPtr_writable (Bool.not_eq_false' .. |>.mp hv) hwrap
      (show a - buf < sz by omega)
    rwa [Nat.add_sub_cancel' hlo] at hw
  cases c with
  | read fd buf sz => exact hrange h ha
  | getcwd buf sz => exact hrange h ha
  | sysfunc request args => exact ha.elim
  | ioctl fd request argp => exact ha.elim
  | readdir fd idx ent => exact ha.elim

/-- A call that its check stops stores nothing, and fails if it would have
stored anything. -/
theorem exec_of_rejected {p : Proc} {c : Call} (h : rejected p c = true) :
    (exec p c).stores = [] ∧ (wouldStore p c ≠ [] → (exec p c).ret < 0) := by
  cases c with
  | read fd buf sz =>
      simp only [rejected] at h
      simp only [exec, sysRead, wouldStore]
      cases fdCheck p fd with
      | none => exact ⟨rfl, fun hne => absurd rfl hne⟩
      | some f =>
          simp only
          rw [if_pos h]
          exact ⟨rfl, fun _ => (by decide : (Ret.error EFAULT).ret < 0)⟩
  | getcwd buf sz =>
      simp only [rejected] at h
      simp only [exec, sysGetcwd]
      rw [if_pos h]
      exact ⟨rfl, fun _ => by decide⟩
  | sysfunc request args =>
      simp only [rejected] at h
      simp only [exec, sysSysfunc, wouldStore]
      split
      all_goals first
        | (rw [if_pos h]; exact ⟨rfl, fun _ => by decide⟩)
        | exact ⟨rfl, fun hne => absurd rfl hne⟩
        | exact ⟨rfl, fun _ => by decide⟩
  | ioctl fd request argp =>
      simp only [rejected] at h
      simp only [exec, sysIoctl, wouldStore]
      cases fdCheck p fd with
      | none => exact ⟨rfl, fun hne => absurd rfl hne⟩
      | some f =>
          simp only
          rw [if_pos h]
          exact ⟨rfl, fun _ => by decide⟩
  | readdir fd idx ent =>
      simp only [rejected] at h
      simp only [exec, sysReaddir, wouldStore]
      cases fdCheck p fd with
      | none => exact ⟨rfl, fun hne => absurd rfl hne⟩
      | some f =>
          simp only
          by_cases hent : ent = 0
          · rw [if_pos hent, if_pos hent]
            exact ⟨rfl, fun hne => absurd rfl hne⟩
          · rw [if_neg hent, if_neg hent, if_pos h]
            exact ⟨rfl, fun _ => by decide⟩

/-- A call that passes its check stores what it has to. -/
theorem exec_of_accepted {p : Proc} {c : Call} (h : rejected p c = false) :
    (exec p c).stores = wouldStore p c := by
  have hno : ¬(rejected p c = true) := by rw [h]; decide
  cases c with
  | read fd buf sz =>
      simp only [rejected] at hno
      simp only [exec, sysRead, wouldStore]
      cases fdCheck p fd with
      | none => rfl
      | some f =>
          simp only
          rw [if_neg hno]
          split <;> rfl
  | getcwd buf sz =>
      simp only [rejected] at hno
      simp only [exec, sysGetcwd, wouldStore]
      rw [if_neg hno]
      split <;> rfl
  | sysfunc request args =>
      simp only [rejected] at hno
      simp only [exec, sysSysfunc, wouldStore]
      split
      all_goals first
        | (rw [if_neg hno]; rfl)
        | rfl
        | (rename_i h4; rw [if_neg h4]; rfl)
  | ioctl fd request argp =>
      simp only [rejected] at hno
      simp only [exec, sysIoctl, wouldStore]
      cases fdCheck p fd with
      | none => rfl
      | some f =>
          simp only
          rw [if_neg hno]
  | readdir fd idx ent =>
      simp only [rejected] at hno
      simp only [exec, sysReaddir, wouldStore]
      cases fdCheck p fd with
      | none => rfl
      | some f =>
          simp only
          by_cases hent : ent = 0
          · rw [if_pos hent, if_pos hent]; rfl
          · rw [if_neg hent, if_neg hent, if_neg hno]
            cases fsReaddir f.node idx <;> rfl

/-- A process with one open directory and one user page, which it may read
but not write. -/
def readOnlyProc : Proc where
  space :=
    { pd := fun _ => { Page.zero with present := true, user := true, write := true, frame := 1 }
      pt := fun _ i => { Page.zero with present := i = 0x49, user := true, frame := 2 }
      mapPt := fun _ _ => Page.zero }
  fds := [some ⟨⟨true, none, none, some fun _ => some fun _ => 0x2e⟩, 0, 4⟩]
  entry := 0x8048000
  wdPath := [0x2f]
  heapFn := fun _ _ => 0
  pitTicks := 0

end Syscall

end Shitos
