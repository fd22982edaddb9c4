import Shitos.FdTable

/-!
# The tables of the system calls

`_syscall_handler` picks a function from `syscalls` by the number in `eax`,
and six of the functions index the caller's descriptor table. They are
written here with a log of every access to the arrays of that table and of
every entry they follow, and return what the functions of the descriptor
table return (`sysRead_val` and its siblings).

A descriptor is tested against both ends of its table, so the log is always
in range. The number is a `long` and only tested against the upper end.
-/

namespace Shitos

namespace SysTable

open Fd

/-! ## Accesses -/

/-- An access to one of the arrays of a descriptor table, or through one of
its entries. -/
inductive Access where
  | entries (fd : Int)
  | modes (fd : Int)
  | offs (fd : Int)
  | deref (entry : Option Nat)
deriving DecidableEq, Repr

/-- The index is in the table, the entry is not NULL. -/
def Access.Ok (t : FdTable) : Access → Prop
  | .entries fd => 0 ≤ fd ∧ fd < t.sz
  | .modes fd => 0 ≤ fd ∧ fd < t.sz
  | .offs fd => 0 ≤ fd ∧ fd < t.sz
  | .deref entry => entry ≠ none

/-- A result, and the accesses made for it. -/
structure Logged (α : Type) where
  val : α
  log : List Access

instance : Monad Logged where
  pure a := ⟨a, []⟩
  bind m f := ⟨(f m.val).val, m.log ++ (f m.val).log⟩

section Val

variable {α β : Type}

@[simp] theorem val_pure (a : α) : (pure a : Logged α).val = a := rfl

@[simp] theorem val_bind (m : Logged α) (f : α → Logged β) :
    (m >>= f).val = (f m.val).val := rfl

@[simp] theorem val_ite {c : Prop} [Decidable c] (m m' : Logged α) :
    (if c then m else m').val = if c then m.val else m'.val := apply_ite Logged.val c m m'

end Val

/-! ## The functions on descriptors -/

section Calls

variable (k : Kernel) (t : FdTable) (fd : Int)

/-- `FD_ENTRY`. -/
def fdEntry : Logged (Option Nat) := ⟨t.entry fd, [.entries fd]⟩

/-- `FD_MODE`. -/
def fdMode : Logged Nat := ⟨t.mode fd, [.modes fd]⟩

/-- `FD_OFFSET`. -/
def fdOffset : Logged Nat := ⟨t.offset fd, [.offs fd]⟩

/-- `FD_ENTRY(fd) = NULL`. -/
def clearEntry : Logged FdTable := ⟨t.setEntry fd none, [.entries fd]⟩

/-- `FD_OFFSET(fd) = off`. -/
def storeOffset (off : Nat) : Logged FdTable := ⟨t.setOffset fd off, [.offs fd]⟩

/-- A node that is followed, here or in the function it is passed to. -/
def follow (node : Option Nat) : Logged Nat := ⟨node.getD 0, [.deref node]⟩

/-- `FD_CHECK`. -/
def fdCheck : Logged Bool :=
  if t.InRange fd then do
    let entry ← fdEntry t fd
    pure entry.isSome
  else pure false

/-- A call that starts with `if(!FD_CHECK(fd)) return -EBADFD`. -/
def checked (body : Logged (Int × FdTable)) : Logged (Int × FdTable) := do
  let ok ← fdCheck t fd
  if !ok then pure (-ebadfd, t) else body

def sysClose : Logged (Int × FdTable) := checked t fd do
  let node ← fdEntry t fd
  let _ ← follow node
  let t ← clearEntry t fd
  pure (0, t)

/-- `sys_read` and `sys_write`: `access` is the mode they need, `transfer`
what they call. -/
def sysTransfer (access : Nat) (transfer : Nat → Int → Nat → Int) (sz : Nat) :
    Logged (Int × FdTable) := checked t fd do
  if k.ptrOk = false then pure (-efault, t)
  else do
    let node ← fdEntry t fd
    let mode ← fdMode t fd
    if mode &&& access = 0 then pure (-eacces, t)
    else do
      let off ← fdOffset t fd
      let node ← follow node
      let out := transfer node (s32 off) sz
      if out < 0 then pure (out, t)
      else do
        let off ← fdOffset t fd
        let t ← storeOffset t fd (u64 (off + out))
        pure (out, t)

def sysRead (sz : Nat) : Logged (Int × FdTable) := sysTransfer k t fd rOk k.fsRead sz

def sysWrite (sz : Nat) : Logged (Int × FdTable) := sysTransfer k t fd wOk k.fsWrite sz

/-- `FD_ENTRY(fd)->flags & FS_FLAG_IFMT`. -/
def fdType : Logged Nat := do
  let node ← fdEntry t fd
  let node ← follow node
  pure (k.type node)

/-- `return FD_OFFSET(fd) = off`. -/
def seekTo (off : Nat) : Logged (Int × FdTable) := do
  let t ← storeOffset t fd off
  pure (s32 off, t)

def sysSeek (off whence : Int) : Logged (Int × FdTable) := checked t fd do
  -- FS_ISCHR, FS_ISFIFO, FS_ISSOCK
  if (← fdType k t fd) = 0o2 then pure (-espipe, t)
  else if (← fdType k t fd) = 0o1 then pure (-espipe, t)
  else if (← fdType k t fd) = 0o14 then pure (-espipe, t)
  -- SEEK_SET, SEEK_CUR, SEEK_END
  else if whence = 0 then seekTo t fd (u64 off)
  else if whence = 1 then do
    let old ← fdOffset t fd
    seekTo t fd (u64 (old + off))
  else if whence = 2 then do
    let node ← fdEntry t fd
    let node ← follow node
    seekTo t fd ((k.nodeSz node + off) % 2 ^ 32).toNat
  else pure (-einval, t)

/-- `sys_ioctl`; the answers are those of `PTR_VALIDATE` and of `fs_ioctl`. -/
def sysIoctl (ptrOk : Bool) (fsIoctl : Nat → Int) : Logged (Int × FdTable) := checked t fd do
  if !ptrOk then pure (-einval, t)
  else do
    let node ← fdEntry t fd
    let node ← follow node
    pure (fsIoctl node, t)

/-- `sys_readdir`; `fsReaddir` tells whether there is an entry. -/
def sysReaddir (ent : Nat) (ptrOk : Bool) (fsReaddir : Nat → Bool) : Logged (Int × FdTable) :=
  checked t fd do
    if ent = 0 then pure (-efault, t)
    else if !ptrOk then pure (-einval, t)
    else do
      let node ← fdEntry t fd
      let node ← follow node
      pure (if fsReaddir node then 1 else 0, t)

end Calls

/-! ## The handler -/

/-- The 32-bit registers of `struct int_regs` that carry a call. -/
structure Regs where
  eax : BitVec 32
  ebx : BitVec 32
  ecx : BitVec 32
  edx : BitVec 32
  esi : BitVec 32
  edi : BitVec 32
  ebp : BitVec 32

inductive SysFn where
  | sysExit | sysOpen | sysClose | sysRead | sysWrite | sysSeek | sysSysfunc | sysMknod
  | sysUnlink | sysIoctl | sysGetcwd | sysChdir | sysReaddir
deriving DecidableEq, Repr

/-- The table of the functions, by the numbers of `syscall_nums.h`. -/
def syscalls : List SysFn :=
  [.sysExit, .sysOpen, .sysClose, .sysRead, .sysWrite, .sysSeek, .sysSysfunc, .sysMknod,
    .sysUnlink, .sysIoctl, .sysGetcwd, .sysChdir, .sysReaddir]

def numSyscalls : Int := 13

/-- `arch_syscall_num`. -/
def Regs.num (r : Regs) : Int := r.eax.toInt

/-- `arch_syscall_arg0`, converted to `int` for a descriptor. -/
def Regs.fd (r : Regs) : Int := r.ebx.toInt

/-- What the handler does: it returns `-EINVAL`, calls a function of the
table, or calls whatever it reads at an index that is not in the table. -/
inductive Handled where
  | einval
  | call (fn : SysFn)
  | wild (idx : Int)
deriving DecidableEq, Repr

/-- `_syscall_handler`. -/
def syscallHandler (r : Regs) : Handled :=
  if r.num ≥ numSyscalls then .einval
  else if r.num < 0 then .wild r.num
  else
    match syscalls[r.num.toNat]? with
    | some fn => .call fn
    | none => .wild r.num

/-- How the rest of the kernel answers during a call. -/
structure Answers where
  kernel : Kernel
  ptrOk : Bool
  fsIoctl : Nat → Int
  fsReaddir : Nat → Bool

/-- The accesses to the descriptor table made by the function called. -/
def SysFn.log (k : Answers) (t : FdTable) (r : Regs) : SysFn → List Access
  | .sysClose => (SysTable.sysClose t r.fd).log
  | .sysRead => (SysTable.sysRead k.kernel t r.fd r.edx.toNat).log
  | .sysWrite => (SysTable.sysWrite k.kernel t r.fd r.edx.toNat).log
  | .sysSeek => (SysTable.sysSeek k.kernel t r.fd r.ecx.toInt r.edx.toInt).log
  | .sysIoctl => (SysTable.sysIoctl t r.fd k.ptrOk k.fsIoctl).log
  | .sysReaddir => (SysTable.sysReaddir t r.fd r.edx.toNat k.ptrOk k.fsReaddir).log
  | _ => []

/-! ## The log is in range -/

section Safe

variable {α β : Type} {k : Kernel} {t : FdTable} {fd : Int}

/-- All accesses of a computation are in range for the table `t`. -/
def Safe (t : FdTable) (m : Logged α) : Prop := ∀ a ∈ m.log, a.Ok t

theorem safe_pure (t : FdTable) (a : α) : Safe t (pure a : Logged α) := fun _ h =>
  absurd h List.not_mem_nil

theorem Safe.bind {m : Logged α} {f : α → Logged β} (h : Safe t m) (h' : Safe t (f m.val)) :
    Safe t (m >>= f) := by
  intro a ha
  rcases List.mem_append.mp ha with ha | ha
  · exact h a ha
  · exact h' a ha

theorem safe_ite {c : Prop} [Decidable c] {m m' : Logged α} (h : c → Safe t m)
    (h' : ¬c → Safe t m') : Safe t (if c then m else m') := by
  by_cases hc : c
  · rw [if_pos hc]
    exact h hc
  · rw [if_neg hc]
    exact h' hc

/-- The conversion of the size to `int` does not make it larger. -/
theorem s32_le (n : Nat) : s32 n ≤ n := by
  rw [s32, BitVec.toInt_ofInt]
  unfold Int.bmod
  dsimp only
  split <;> omega

/-- The descriptor has passed `FD_CHECK`. -/
structure Passed (t : FdTable) (fd : Int) : Prop where
  low : 0 ≤ fd
  high : fd < t.sz
  entry : t.entry fd ≠ none

theorem passed_of_inRange (h : t.InRange fd) (hentry : t.entry fd ≠ none) : Passed t fd :=
  ⟨h.2, Int.lt_of_lt_of_le h.1 (s32_le t.sz), hentry⟩

namespace Passed

variable (P : Passed t fd)

include P

theorem safe_one {a : Access} (ha : a = .entries fd ∨ a = .modes fd ∨ a = .offs fd
    ∨ a = .deref (t.entry fd)) (v : α) : Safe t ⟨v, [a]⟩ := by
  intro b hb
  rw [List.mem_singleton.mp hb]
  rcases ha with rfl | rfl | rfl | rfl
  · exact ⟨P.low, P.high⟩
  · exact ⟨P.low, P.high⟩
  · exact ⟨P.low, P.high⟩
  · exact P.entry

theorem safe_entry : Safe t (fdEntry t fd) := P.safe_one (.inl rfl) _

theorem safe_mode : Safe t (fdMode t fd) := P.safe_one (.inr (.inl rfl)) _

theorem safe_offset : Safe t (fdOffset t fd) := P.safe_one (.inr (.inr (.inl rfl))) _

theorem safe_storeOffset (off : Nat) : Safe t (storeOffset t fd off) :=
  P.safe_one (.inr (.inr (.inl rfl))) _

theorem safe_follow : Safe t (follow (t.entry fd)) := P.safe_one (.inr (.inr (.inr rfl))) _

theorem safe_seekTo (off : Nat) : Safe t (seekTo t fd off) :=
  (P.safe_storeOffset off).bind (safe_pure t _)

/-- The entry is read and followed. -/
theorem safe_node {f : Nat → Logged α} (h : ∀ node, Safe t (f node)) :
    Safe t (do
      let node ← fdEntry t fd
      let node ← follow node
      f node) := P.safe_entry.bind (P.safe_follow.bind (h _))

theorem safe_type (k : Kernel) : Safe t (fdType k t fd) := P.safe_node fun _ => safe_pure t _

end Passed

/-- What comes after the check only has to be safe for descriptors that have
passed it. -/
theorem safe_checked {body : Logged (Int × FdTable)} (h : Passed t fd → Safe t body) :
    Safe t (checked t fd body) := by
  unfold checked fdCheck
  by_cases hrange : t.InRange fd
  · rw [if_pos hrange]
    have hread : Safe t (fdEntry t fd) := fun a ha => by
      rw [List.mem_singleton.mp ha]
      exact ⟨hrange.2, Int.lt_of_lt_of_le hrange.1 (s32_le t.sz)⟩
    have htest : Safe t (do
        let entry ← fdEntry t fd
        pure entry.isSome) := hread.bind (safe_pure t _)
    refine htest.bind (safe_ite (fun _ => safe_pure t _) fun hok => h ?_)
    refine passed_of_inRange hrange fun hnone => hok ?_
    show (!(t.entry fd).isSome) = true
    rw [hnone]
    rfl
  · rw [if_neg hrange]
    exact (safe_pure t _).bind (safe_pure t _)

theorem safe_sysClose : Safe t (sysClose t fd) := safe_checked fun P => by
  refine P.safe_node fun _ => Safe.bind ?_ (safe_pure t _)
  exact P.safe_one (.inl rfl) _

theorem safe_sysTransfer (access : Nat) (transfer : Nat → Int → Nat → Int) (sz : Nat) :
    Safe t (sysTransfer k t fd access transfer sz) := safe_checked fun P => by
  refine safe_ite (fun _ => safe_pure t _) fun _ => P.safe_entry.bind (P.safe_mode.bind ?_)
  refine safe_ite (fun _ => safe_pure t _) fun _ => P.safe_offset.bind (P.safe_follow.bind ?_)
  refine safe_ite (fun _ => safe_pure t _) fun _ => P.safe_offset.bind ?_
  exact (P.safe_storeOffset _).bind (safe_pure t _)

theorem safe_sysSeek (off whence : Int) : Safe t (sysSeek k t fd off whence) :=
  safe_checked fun P => by
    refine (P.safe_type k).bind (safe_ite (fun _ => safe_pure t _) fun _ => ?_)
    refine (P.safe_type k).bind (safe_ite (fun _ => safe_pure t _) fun _ => ?_)
    refine (P.safe_type k).bind (safe_ite (fun _ => safe_pure t _) fun _ => ?_)
    refine safe_ite (fun _ => P.safe_seekTo _) fun _ => ?_
    refine safe_ite (fun _ => P.safe_offset.bind (P.safe_seekTo _)) fun _ => ?_
    exact safe_ite (fun _ => P.safe_node fun _ => P.safe_seekTo _) fun _ => safe_pure t _

theorem safe_sysIoctl (ptrOk : Bool) (fsIoctl : Nat → Int) :
    Safe t (sysIoctl t fd ptrOk fsIoctl) := safe_checked fun P =>
  safe_ite (fun _ => safe_pure t _) fun _ => P.safe_node fun _ => safe_pure t _

theorem safe_sysReaddir (ent : Nat) (ptrOk : Bool) (fsReaddir : Nat → Bool) :
    Safe t (sysReaddir t fd ent ptrOk fsReaddir) := safe_checked fun P =>
  safe_ite (fun _ => safe_pure t _) fun _ => safe_ite (fun _ => safe_pure t _) fun _ =>
    P.safe_node fun _ => safe_pure t _

/-- Each of the functions is safe, whatever the registers hold. -/
theorem SysFn.log_ok (k : Answers) (t : FdTable) (r : Regs) (fn : SysFn) :
    ∀ a ∈ fn.log k t r, a.Ok t := by
  cases fn with
  | sysClose => exact safe_sysClose
  | sysRead => exact safe_sysTransfer _ _ _
  | sysWrite => exact safe_sysTransfer _ _ _
  | sysSeek => exact safe_sysSeek _ _
  | sysIoctl => exact safe_sysIoctl _ _
  | sysReaddir => exact safe_sysReaddir _ _ _
  | _ => exact fun _ ha => absurd ha List.not_mem_nil

end Safe

/-! ## The logged functions are those of the table -/

section Values

variable {k : Kernel} {t : FdTable} {fd : Int}

theorem checked_val (body : Logged (Int × FdTable)) : (checked t fd body).val =
    match t.check fd with
    | none => (-ebadfd, t)
    | some _ => body.val := by
  unfold checked fdCheck FdTable.check
  by_cases hrange : t.InRange fd
  · rw [if_pos hrange, if_pos hrange]
    show (if !(t.entry fd).isSome then (pure (-ebadfd, t) : Logged (Int × FdTable))
      else body).val = _
    cases t.entry fd <;> rfl
  · rw [if_neg hrange, if_neg hrange]
    rfl

theorem check_entry {node : Nat} (h : t.check fd = some node) : t.entry fd = some node := by
  unfold FdTable.check at h
  split at h
  · exact h
  · cases h

theorem sysClose_val : (sysClose t fd).val = t.sysClose fd := by
  rw [sysClose, checked_val, FdTable.sysClose]
  cases t.check fd <;> rfl

theorem sysTransfer_val (access : Nat) (transfer : Nat → Int → Nat → Int) (sz : Nat) :
    (sysTransfer k t fd access transfer sz).val = t.sysTransfer k access transfer fd sz := by
  rw [sysTransfer, checked_val, FdTable.sysTransfer]
  cases hcheck : t.check fd with
  | none => rfl
  | some node =>
      have hentry := check_entry hcheck
      simp [fdEntry, fdMode, fdOffset, storeOffset, follow, hentry]

theorem sysRead_val (sz : Nat) : (sysRead k t fd sz).val = t.sysRead k fd sz :=
  sysTransfer_val rOk k.fsRead sz

theorem sysWrite_val (sz : Nat) : (sysWrite k t fd sz).val = t.sysWrite k fd sz :=
  sysTransfer_val wOk k.fsWrite sz

theorem sysSeek_val (off whence : Int) :
    (sysSeek k t fd off whence).val = t.sysSeek k fd off whence := by
  rw [sysSeek, checked_val, FdTable.sysSeek]
  cases hcheck : t.check fd with
  | none => rfl
  | some node =>
      have hentry := check_entry hcheck
      have htype : (fdType k t fd).val = k.type node := by
        simp [fdType, fdEntry, follow, hentry]
      simp only [val_bind, val_ite, val_pure, htype]
      by_cases h2 : k.type node = 0o2
      · rw [if_pos h2, if_pos (show noSeek k node from .inl h2)]
      by_cases h1 : k.type node = 0o1
      · rw [if_neg h2, if_pos h1, if_pos (show noSeek k node from .inr (.inl h1))]
      by_cases h14 : k.type node = 0o14
      · rw [if_neg h2, if_neg h1, if_pos h14, if_pos (show noSeek k node from .inr (.inr h14))]
      have hgo : ¬noSeek k node := fun h => h.elim h2 fun h => h.elim h1 h14
      rw [if_neg h2, if_neg h1, if_neg h14, if_neg hgo]
      simp [seekTo, FdTable.seekTo, storeOffset, fdOffset, fdEntry, follow, hentry]

end Values

/-! ## Every access of a call -/

/-- The handler stays in its table, and the function it calls in the
descriptor table. -/
def InTables (k : Answers) (t : FdTable) (r : Regs) : Prop :=
  (syscallHandler r = .einval ∨ ∃ fn, syscallHandler r = .call fn)
    ∧ ∀ fn : SysFn, ∀ a ∈ fn.log k t r, a.Ok t

theorem syscallHandler_wild (r : Regs) :
    (∃ idx, syscallHandler r = .wild idx) ↔ 2 ^ 31 ≤ r.eax.toNat := by
  have hnum : r.num < 0 ↔ 2 ^ 31 ≤ r.eax.toNat := by
    rw [Regs.num, BitVec.toInt_eq_toNat_cond]
    have := r.eax.isLt
    split <;> omega
  rw [← hnum]
  unfold syscallHandler
  by_cases hge : r.num ≥ numSyscalls
  · rw [if_pos hge]
    unfold numSyscalls at hge
    exact iff_of_false (fun ⟨_, h⟩ => nomatch h) (by omega)
  · rw [if_neg hge]
    by_cases hneg : r.num < 0
    · rw [if_pos hneg]
      exact iff_of_true ⟨_, rfl⟩ hneg
    · rw [if_neg hneg]
      unfold numSyscalls at hge
      have hlt : r.num.toNat < syscalls.length := by
        show r.num.toNat < 13
        omega
      rw [List.getElem?_eq_getElem hlt]
      exact iff_of_false (fun ⟨_, h⟩ => nomatch h) hneg

/-- A call stays within all tables exactly if its number is not negative as a
`long`. -/
theorem inTables_iff (k : Answers) (t : FdTable) (r : Regs) :
    InTables k t r ↔ r.eax.toNat < 2 ^ 31 := by
  have hwild := syscallHandler_wild r
  rw [← Nat.not_le, ← hwild, InTables, and_iff_left fun fn => fn.log_ok k t r]
  cases syscallHandler r with
  | einval => exact iff_of_true (.inl rfl) fun ⟨_, h⟩ => nomatch h
  | call fn => exact iff_of_true (.inr ⟨fn, rfl⟩) fun ⟨_, h⟩ => nomatch h
  | wild idx =>
      refine iff_of_false ?_ fun h => h ⟨idx, rfl⟩
      rintro (h | ⟨fn, h⟩)
      · cases h
      · cases h

/-- With `eax` all ones, the word in front of the table is called. -/
theorem syscalls_underrun : syscallHandler ⟨0xffffffff, 0, 0, 0, 0, 0, 0⟩ = .wild (-1)
    ∧ ∀ k t, ¬InTables k t ⟨0xffffffff, 0, 0, 0, 0, 0, 0⟩ := by
  have hwild : syscallHandler ⟨0xffffffff, 0, 0, 0, 0, 0, 0⟩ = .wild (-1) := by decide
  refine ⟨hwild, fun k t h => ?_⟩
  rcases h.1 with h | ⟨fn, h⟩
  · cases hwild.symm.trans h
  · cases hwild.symm.trans h

end SysTable

end Shitos
