import Mathlib.Logic.Function.Basic
import Mathlib.Order.Bounds.Defs
import Mathlib.Tactic.Ring
import Mathlib.Tactic.SplitIfs

/-!
# File descriptors

The descriptor table of a process and the system calls on it: the end of
`sys_open`, where the file has been found, `sys_close`, `sys_read`,
`sys_write` and `sys_seek`. What the rest of the kernel answers during a call
(is the user's range valid, what do `fs_read` and `fs_write` return, what does
a node look like) comes with the call.

The table stands for a map from descriptors to node, mode and offset
(`FdTable.map`). A call changes the map at the descriptor it names, and an
open at the least one that is free (`MapStep`); the table follows the map
(`fds_refine`) through reused slots and through growth.
-/

namespace Shitos

namespace Fd

/-- The conversion to `int` and `long`. -/
@[irreducible] def s32 (z : Int) : Int := (BitVec.ofInt 32 z).toInt

/-- The conversion to `uintmax_t`. -/
@[irreducible] def u64 (z : Int) : Nat := (z % 2 ^ 64).toNat

theorem s32_of_lt {n : Nat} (h : n < 2 ^ 31) : s32 n = n := by
  rw [s32, BitVec.toInt_ofInt, Int.bmod_eq_of_le (by omega) (by omega)]

/-! ## The table -/

/-- `fd_table_t`; an entry is the address of a node or NULL. -/
structure FdTable where
  entries : Nat → Option Nat
  modes : Nat → Nat
  offs : Nat → Nat
  sz : Nat
  maxSz : Nat

/-- The new parts of the reallocated arrays. -/
structure Junk where
  entries : Nat → Option Nat
  modes : Nat → Nat
  offs : Nat → Nat

/-- `krealloc` of an array of `n` elements to `n'`: the old elements, then
`junk`. It does not return if the new array is larger than the address
space. -/
def krealloc {α : Type} (elemSz n n' : Nat) (junk a : Nat → α) : Option (Nat → α) :=
  if n' * elemSz < 2 ^ 32 then some fun i => if i < n then a i else junk i else none

/-- The table `spawn_init` makes; `modes` and `offs` are left as they come. -/
def spawnInit (modes offs : Nat → Nat) : FdTable := ⟨fun _ => none, modes, offs, 0, 4⟩

namespace FdTable

variable (t : FdTable)

/-- `FD_INRANGE`. -/
def InRange (fd : Int) : Prop := fd < s32 t.sz ∧ fd ≥ 0

/-- `FD_ENTRY`. -/
def entry (fd : Int) : Option Nat := t.entries fd.toNat

/-- `FD_MODE`. -/
def mode (fd : Int) : Nat := t.modes fd.toNat

/-- `FD_OFFSET`. -/
def offset (fd : Int) : Nat := t.offs fd.toNat

instance (fd : Int) : Decidable (t.InRange fd) := inferInstanceAs (Decidable (_ ∧ _))

def setEntry (fd : Int) (node : Option Nat) : FdTable :=
  { t with entries := Function.update t.entries fd.toNat node }

def setMode (fd : Int) (mode : Nat) : FdTable :=
  { t with modes := Function.update t.modes fd.toNat mode }

def setOffset (fd : Int) (off : Nat) : FdTable :=
  { t with offs := Function.update t.offs fd.toNat off }

/-- A slot is bound to a node; the mode is set by the caller. -/
def bind (i : Nat) (node : Nat) : FdTable := ((t.setEntry i (some node)).setMode i 0).setOffset i 0

/-- The first slot with no entry. -/
def gap : Option Nat := (List.range t.sz).find? fun i => (t.entries i).isNone

/-- The doubling of the arrays. -/
def extend (junk : Junk) : Option FdTable := do
  let oldsz := t.maxSz
  let maxSz := t.maxSz * 2 % 2 ^ 32
  let entries ← krealloc 4 oldsz maxSz junk.entries t.entries
  let modes ← krealloc 4 oldsz maxSz junk.modes t.modes
  let offs ← krealloc 8 oldsz maxSz junk.offs t.offs
  -- make sure all new entries are NULL
  pure ⟨fun i => if oldsz ≤ i ∧ i < maxSz then none else entries i, modes, offs, t.sz, maxSz⟩

/-- The table with room for one more slot. -/
def room (junk : Junk) : Option FdTable := if t.sz = t.maxSz then t.extend junk else some t

/-- `process_add_fd`. -/
def processAddFd (junk : Junk) (node : Nat) : Option (Int × FdTable) :=
  match t.gap with
  | some i => some (s32 i, t.bind i node)
  | none => (t.room junk).map fun t => (s32 t.sz, { t.bind t.sz node with sz := t.sz + 1 })

end FdTable

/-! ## The system calls -/

/-- The rest of the kernel, as one call finds it. -/
structure Kernel where
  /-- `node->flags & FS_FLAG_IFMT`. -/
  type : Nat → Nat
  /-- `node->sz`. -/
  nodeSz : Nat → Nat
  /-- `node->sz` after `fs_truncate(node, 0)`. -/
  truncatedSz : Nat → Nat
  /-- `PTR_CHECK` passes. -/
  ptrOk : Bool
  fsRead : Nat → Int → Nat → Int
  fsWrite : Nat → Int → Nat → Int

def ebadfd : Int := 81
def efault : Int := 14
def eacces : Int := 13
def enotdir : Int := 20
def eisdir : Int := 21
def einval : Int := 22
def espipe : Int := 29

def wOk : Nat := 2
def rOk : Nat := 4

/-- The mode of a new descriptor, or the error of `sys_open`. -/
def openAccess (k : Kernel) (node flags : Nat) : Except Int Nat := do
  let acc := flags &&& 0o7
  -- O_RDONLY, O_WRONLY, O_RDWR
  let access := if acc = 0o0 ∨ acc = 0o2 then rOk else 0
  let write := acc = 0o1 ∨ acc = 0o2
  if write ∧ k.type node = 0o4 then throw (-eisdir)
  let access := if write then access ||| wOk else access
  -- O_DIRECTORY
  if flags &&& 0o40000 ≠ 0 ∧ k.type node ≠ 0o4 then throw (-enotdir)
  -- O_TRUNC
  if flags &&& 0o2000 ≠ 0 ∧ access &&& 0o2 = 0 then throw (-einval)
  pure access

/-- The offset of a new descriptor. -/
def openOffset (k : Kernel) (node flags : Nat) : Nat :=
  -- O_APPEND
  if flags &&& 0o10 ≠ 0 then if flags &&& 0o2000 ≠ 0 then k.truncatedSz node else k.nodeSz node
  else 0

/-- Character devices, pipes and sockets. -/
def noSeek (k : Kernel) (node : Nat) : Prop :=
  k.type node = 0o2 ∨ k.type node = 0o1 ∨ k.type node = 0o14

instance (k : Kernel) (node : Nat) : Decidable (noSeek k node) :=
  inferInstanceAs (Decidable (_ ∨ _ ∨ _))

namespace FdTable

variable (t : FdTable)

/-- `sys_open`, from where the node has been found. -/
def sysOpen (k : Kernel) (junk : Junk) (node flags : Nat) : Option (Int × FdTable) :=
  match openAccess k node flags with
  | .error e => some (e, t)
  | .ok access => do
      let (fd, t) ← t.processAddFd junk node
      pure (fd, (t.setMode fd access).setOffset fd (openOffset k node flags))

/-- The entry, if `FD_CHECK` passes. -/
def check (fd : Int) : Option Nat := if t.InRange fd then t.entry fd else none

def sysClose (fd : Int) : Int × FdTable :=
  match t.check fd with
  | none => (-ebadfd, t)
  | some _ => (0, t.setEntry fd none)

/-- `sys_read` and `sys_write`: `access` is the mode they need, `transfer`
what they call. -/
def sysTransfer (k : Kernel) (access : Nat) (transfer : Nat → Int → Nat → Int) (fd : Int)
    (sz : Nat) : Int × FdTable :=
  match t.check fd with
  | none => (-ebadfd, t)
  | some node =>
      if k.ptrOk = false then (-efault, t)
      else if t.mode fd &&& access = 0 then (-eacces, t)
      else
        let out := transfer node (s32 (t.offset fd)) sz
        if out < 0 then (out, t) else (out, t.setOffset fd (u64 (t.offset fd + out)))

def sysRead (k : Kernel) (fd : Int) (sz : Nat) : Int × FdTable :=
  t.sysTransfer k rOk k.fsRead fd sz

def sysWrite (k : Kernel) (fd : Int) (sz : Nat) : Int × FdTable :=
  t.sysTransfer k wOk k.fsWrite fd sz

/-- An assignment to `FD_OFFSET` that is the result of the call. -/
def seekTo (fd : Int) (off : Nat) : Int × FdTable := (s32 off, t.setOffset fd off)

def sysSeek (k : Kernel) (fd off whence : Int) : Int × FdTable :=
  match t.check fd with
  | none => (-ebadfd, t)
  | some node =>
      if noSeek k node then (-espipe, t)
      -- SEEK_SET, SEEK_CUR, SEEK_END
      else if whence = 0 then t.seekTo fd (u64 off)
      else if whence = 1 then t.seekTo fd (u64 (t.offset fd + off))
      else if whence = 2 then t.seekTo fd ((k.nodeSz node + off) % 2 ^ 32).toNat
      else (-einval, t)

end FdTable

/-! ## Runs -/

inductive Op where
  | sysOpen (k : Kernel) (junk : Junk) (node flags : Nat)
  | sysClose (fd : Int)
  | sysRead (k : Kernel) (fd : Int) (sz : Nat)
  | sysWrite (k : Kernel) (fd : Int) (sz : Nat)
  | sysSeek (k : Kernel) (fd off whence : Int)

/-- One call; `none` if it does not return. -/
def FdTable.exec (t : FdTable) : Op → Option (Int × FdTable)
  | .sysOpen k junk node flags => t.sysOpen k junk node flags
  | .sysClose fd => some (t.sysClose fd)
  | .sysRead k fd sz => some (t.sysRead k fd sz)
  | .sysWrite k fd sz => some (t.sysWrite k fd sz)
  | .sysSeek k fd off whence => some (t.sysSeek k fd off whence)

/-- The calls of a process with their results. -/
inductive Run : FdTable → List (Op × Int) → FdTable → Prop where
  | nil (t : FdTable) : Run t [] t
  | cons {t t' t'' : FdTable} {op : Op} {ret : Int} {l : List (Op × Int)} :
      t.exec op = some (ret, t') → Run t' l t'' → Run t ((op, ret) :: l) t''

/-! ## The map -/

/-- An open descriptor. -/
structure Desc where
  node : Nat
  mode : Nat
  off : Nat

abbrev FdMap := Int → Option Desc

/-- The map a table stands for. -/
def FdTable.map (t : FdTable) : FdMap := fun fd =>
  (t.check fd).map fun node => ⟨node, t.mode fd, t.offset fd⟩

/-- The result of a transfer on the descriptor `d`, and its offset after
it. -/
def Desc.transfer (k : Kernel) (access : Nat) (transfer : Nat → Int → Nat → Int) (sz : Nat)
    (d : Desc) : Int × Desc :=
  if k.ptrOk = false then (-efault, d)
  else if d.mode &&& access = 0 then (-eacces, d)
  else
    let out := transfer d.node (s32 d.off) sz
    (out, if out < 0 then d else { d with off := u64 (d.off + out) })

/-- The result of a seek. -/
def Desc.seek (k : Kernel) (off whence : Int) (d : Desc) : Int × Desc :=
  let set (off : Nat) : Int × Desc := (s32 off, { d with off := off })
  if noSeek k d.node then (-espipe, d)
  else if whence = 0 then set (u64 off)
  else if whence = 1 then set (u64 (d.off + off))
  else if whence = 2 then set ((k.nodeSz d.node + off) % 2 ^ 32).toNat
  else (-einval, d)

/-- The descriptor a call names, and what the call does to it. -/
def Op.onDesc : Op → Option (Int × (Desc → Int × Option Desc))
  | .sysOpen _ _ _ _ => none
  | .sysClose fd => some (fd, fun _ => (0, none))
  | .sysRead k fd sz => some (fd, fun d => (d.transfer k rOk k.fsRead sz).map id some)
  | .sysWrite k fd sz => some (fd, fun d => (d.transfer k wOk k.fsWrite sz).map id some)
  | .sysSeek k fd off whence => some (fd, fun d => (d.seek k off whence).map id some)

/-- What a call that returns `ret` does to the map. -/
inductive MapStep (F : FdMap) : Op → Int → FdMap → Prop where
  | openFails {k : Kernel} {junk : Junk} {node flags : Nat} {e : Int} :
      openAccess k node flags = .error e → MapStep F (.sysOpen k junk node flags) e F
  | opens {k : Kernel} {junk : Junk} {node flags access : Nat} {fd : Int} :
      openAccess k node flags = .ok access → IsLeast {fd | 0 ≤ fd ∧ F fd = none} fd →
      MapStep F (.sysOpen k junk node flags) fd
        (Function.update F fd (some ⟨node, access, openOffset k node flags⟩))
  | closed {op : Op} {fd : Int} {f : Desc → Int × Option Desc} :
      op.onDesc = some (fd, f) → F fd = none → MapStep F op (-ebadfd) F
  | onDesc {op : Op} {fd : Int} {f : Desc → Int × Option Desc} {d : Desc} :
      op.onDesc = some (fd, f) → F fd = some d →
      MapStep F op (f d).1 (Function.update F fd (f d).2)

/-! ## The table follows the map -/

/-- What holds of a table between two calls. -/
structure Valid (t : FdTable) : Prop where
  le : t.sz ≤ t.maxSz
  pos : 0 < t.maxSz
  fits : t.maxSz * 8 < 2 ^ 32
  null : ∀ i, t.sz ≤ i → i < t.maxSz → t.entries i = none

theorem Valid.spawnInit (modes offs : Nat → Nat) : Valid (spawnInit modes offs) :=
  ⟨Nat.zero_le _, Nat.zero_lt_succ _, show 4 * 8 < 2 ^ 32 by decide, fun _ _ _ => rfl⟩

section Valid

variable {t : FdTable}

theorem Valid.inRange_iff (V : Valid t) {fd : Int} : t.InRange fd ↔ 0 ≤ fd ∧ fd < t.sz := by
  have hle := V.le
  have hfits := V.fits
  rw [FdTable.InRange, s32_of_lt (by omega)]
  exact And.comm

/-- The map at a descriptor, from the slot. -/
theorem Valid.map_eq (V : Valid t) (i : Nat) : t.map i
    = if i < t.sz then (t.entries i).map fun node => ⟨node, t.modes i, t.offs i⟩ else none := by
  have hiff : t.InRange i ↔ i < t.sz := by
    rw [V.inRange_iff]
    omega
  rw [FdTable.map, FdTable.check]
  by_cases hi : i < t.sz
  · rw [if_pos (hiff.mpr hi), if_pos hi]
    rfl
  · rw [if_neg (mt hiff.mp hi), if_neg hi]
    rfl

theorem Valid.map_neg (V : Valid t) {fd : Int} (h : fd < 0) : t.map fd = none := by
  rw [FdTable.map, FdTable.check, if_neg, Option.map_none]
  rw [V.inRange_iff]
  omega

/-- Maps of tables are compared slot by slot. -/
theorem map_ext {t' : FdTable} {F : FdMap} (V : Valid t') (hneg : ∀ fd < 0, F fd = none)
    (h : ∀ i : Nat, t'.map i = F i) : t'.map = F := by
  funext fd
  by_cases hfd : fd < 0
  · rw [V.map_neg hfd, hneg fd hfd]
  · obtain ⟨i, rfl⟩ := Int.eq_ofNat_of_zero_le (Int.not_lt.mp hfd)
    exact h i

/-- The tables differ in the slot `i` only. -/
structure SameBut (i : Nat) (t t' : FdTable) : Prop where
  sz : t'.sz = t.sz
  maxSz : t'.maxSz = t.maxSz
  entries : ∀ j, j ≠ i → t'.entries j = t.entries j
  modes : ∀ j, j ≠ i → t'.modes j = t.modes j
  offs : ∀ j, j ≠ i → t'.offs j = t.offs j

theorem SameBut.valid {i : Nat} {t' : FdTable} (h : SameBut i t t') (V : Valid t) (hi : i < t.sz) :
    Valid t' where
  le := by
    rw [h.sz, h.maxSz]
    exact V.le
  pos := by
    rw [h.maxSz]
    exact V.pos
  fits := by
    rw [h.maxSz]
    exact V.fits
  null j hj hlt := by
    rw [h.sz] at hj
    rw [h.maxSz] at hlt
    rw [h.entries j (by omega)]
    exact V.null j hj hlt

/-- A change of one slot changes the map at one descriptor. -/
theorem SameBut.map_eq {i : Nat} {t' : FdTable} (h : SameBut i t t') (V : Valid t)
    (hi : i < t.sz) {e : Option Desc}
    (he : (t'.entries i).map (fun node => ⟨node, t'.modes i, t'.offs i⟩) = e) :
    t'.map = Function.update t.map i e := by
  have V' := h.valid V hi
  refine map_ext V' (fun fd hfd => ?_) fun j => ?_
  · rw [Function.update_of_ne (by omega), V.map_neg hfd]
  · by_cases hj : j = i
    · subst hj
      rw [Function.update_self, V'.map_eq, h.sz, if_pos hi, he]
    · rw [Function.update_of_ne (by omega), V'.map_eq, V.map_eq, h.sz,
        h.entries j hj, h.modes j hj, h.offs j hj]

/-! ### Opening -/

theorem sameBut_bind (t : FdTable) (i node access off : Nat) :
    SameBut i t (((t.bind i node).setMode i access).setOffset i off) := by
  refine ⟨rfl, rfl, fun j hj => ?_, fun j hj => ?_, fun j hj => ?_⟩
  · exact Function.update_of_ne hj _ _
  · exact (Function.update_of_ne hj _ _).trans (Function.update_of_ne hj _ _)
  · exact (Function.update_of_ne hj _ _).trans (Function.update_of_ne hj _ _)

/-- Binding a slot in range. -/
theorem Valid.bind (V : Valid t) {i : Nat} (hi : i < t.sz) (node access off : Nat) :
    Valid (((t.bind i node).setMode i access).setOffset i off)
    ∧ (((t.bind i node).setMode i access).setOffset i off).map
      = Function.update t.map i (some ⟨node, access, off⟩) := by
  have hsame := sameBut_bind t i node access off
  refine ⟨hsame.valid V hi, hsame.map_eq V hi ?_⟩
  simp only [FdTable.bind, FdTable.setEntry, FdTable.setMode, FdTable.setOffset, Int.toNat_natCast,
    Function.update_self, Option.map_some]

theorem gap_some {i : Nat} (h : t.gap = some i) :
    i < t.sz ∧ t.entries i = none ∧ ∀ j < i, t.entries j ≠ none := by
  rw [FdTable.gap, List.find?_range_eq_some] at h
  obtain ⟨hnone, hi, hfirst⟩ := h
  refine ⟨List.mem_range.mp hi, Option.isNone_iff_eq_none.mp hnone, fun j hj hj' => ?_⟩
  have := hfirst j hj
  rw [hj'] at this
  cases this

theorem gap_none (h : t.gap = none) : ∀ j < t.sz, t.entries j ≠ none := by
  intro j hj hj'
  have hnot := List.find?_eq_none.mp h j (List.mem_range.mpr hj)
  rw [hj'] at hnot
  exact hnot rfl

/-- The slots before `i` are taken, and `i` is free. -/
theorem Valid.isLeast (V : Valid t) {i : Nat} (hle : i ≤ t.sz) (hfree : t.map i = none)
    (htaken : ∀ j < i, t.entries j ≠ none) : IsLeast {fd | 0 ≤ fd ∧ t.map fd = none} (i : Int) := by
  refine ⟨⟨Int.natCast_nonneg i, hfree⟩, ?_⟩
  rintro fd ⟨hfd, hnone⟩
  obtain ⟨j, rfl⟩ := Int.eq_ofNat_of_zero_le hfd
  by_contra hlt
  have hj : j < i := by omega
  rw [V.map_eq, if_pos (by omega), Option.map_eq_none_iff] at hnone
  exact htaken j hj hnone

/-- The larger arrays hold the same descriptors. -/
theorem Valid.extend (V : Valid t) {junk : Junk} {g : FdTable} (h : t.extend junk = some g)
    (hfull : t.sz = t.maxSz) : Valid g ∧ g.sz = t.sz ∧ g.sz < g.maxSz ∧ g.map = t.map := by
  have hpos := V.pos
  have hfits := V.fits
  have hmod : t.maxSz * 2 % 2 ^ 32 = t.maxSz * 2 := Nat.mod_eq_of_lt (by omega)
  simp only [FdTable.extend, krealloc, hmod, Option.bind_eq_bind, Option.bind_eq_some_iff] at h
  obtain ⟨entries, hentries, modes, hmodes, offs, hoffs, hg⟩ := h
  split_ifs at hentries hmodes hoffs with h4 h8
  cases hentries
  cases hmodes
  cases hoffs
  have hg := Option.some.inj hg
  have V' : Valid g := by
    rw [← hg]
    refine ⟨?_, ?_, h8, fun i hi hlt => if_pos ⟨hfull ▸ hi, hlt⟩⟩
    · show t.sz ≤ t.maxSz * 2
      omega
    · show 0 < t.maxSz * 2
      omega
  refine ⟨V', ?_, ?_, map_ext V' (fun fd hfd => V.map_neg hfd) fun i => ?_⟩
  · rw [← hg]
  · rw [← hg]
    show t.sz < t.maxSz * 2
    omega
  · rw [V'.map_eq, V.map_eq, ← hg]
    by_cases hi : i < t.sz
    · have hold : i < t.maxSz := hfull ▸ hi
      simp only [if_pos hi, if_pos hold, if_neg (not_and_of_not_left _ (Nat.not_le_of_lt hold))]
    · simp only [if_neg hi]

/-- The room for one more slot changes no descriptor. -/
theorem Valid.room (V : Valid t) {junk : Junk} {g : FdTable} (h : t.room junk = some g) :
    Valid g ∧ g.sz = t.sz ∧ g.sz < g.maxSz ∧ g.map = t.map := by
  unfold FdTable.room at h
  by_cases hfull : t.sz = t.maxSz
  · rw [if_pos hfull] at h
    exact V.extend h hfull
  · rw [if_neg hfull] at h
    cases h
    exact ⟨V, rfl, Nat.lt_of_le_of_ne V.le hfull, rfl⟩

/-- One more slot, still NULL. -/
theorem Valid.succ (V : Valid t) (hlt : t.sz < t.maxSz) :
    Valid { t with sz := t.sz + 1 } ∧ ({ t with sz := t.sz + 1 } : FdTable).map = t.map := by
  have V' : Valid { t with sz := t.sz + 1 } :=
    ⟨hlt, V.pos, V.fits, fun i hi hlt => V.null i (Nat.le_of_succ_le hi) hlt⟩
  refine ⟨V', map_ext V' (fun fd hfd => V.map_neg hfd) fun i => ?_⟩
  rw [V'.map_eq, V.map_eq]
  by_cases hi : i < t.sz
  · rw [if_pos hi, if_pos (Nat.lt_succ_of_lt hi)]
  · rw [if_neg hi]
    by_cases heq : i = t.sz
    · rw [if_pos (by show i < t.sz + 1; omega)]
      show (t.entries i).map _ = none
      rw [V.null i (by omega) (by omega), Option.map_none]
    · rw [if_neg (by show ¬i < t.sz + 1; omega)]

/-- `process_add_fd` and the two assignments after it bind the least free
descriptor. -/
theorem Valid.open (V : Valid t) {junk : Junk} {node : Nat} (access off : Nat) {fd : Int}
    {t' : FdTable} (h : t.processAddFd junk node = some (fd, t')) :
    IsLeast {fd | 0 ≤ fd ∧ t.map fd = none} fd ∧ Valid ((t'.setMode fd access).setOffset fd off)
    ∧ ((t'.setMode fd access).setOffset fd off).map
      = Function.update t.map fd (some ⟨node, access, off⟩) := by
  have hle := V.le
  have hfits := V.fits
  unfold FdTable.processAddFd at h
  cases hgap : t.gap with
  | some i =>
      rw [hgap] at h
      obtain ⟨rfl, rfl⟩ := Prod.mk.inj (Option.some.inj h)
      obtain ⟨hi, hnone, hfirst⟩ := gap_some hgap
      rw [s32_of_lt (by omega)]
      refine ⟨V.isLeast (Nat.le_of_lt hi) ?_ hfirst, V.bind hi node access off⟩
      rw [V.map_eq, if_pos hi, hnone, Option.map_none]
  | none =>
      have hleast : IsLeast {fd | 0 ≤ fd ∧ t.map fd = none} (t.sz : Int) :=
        V.isLeast (Nat.le_refl _) (by rw [V.map_eq, if_neg (Nat.lt_irrefl _)]) (gap_none hgap)
      simp only [hgap, Option.map_eq_some_iff] at h
      obtain ⟨g, hg, heq⟩ := h
      obtain ⟨rfl, rfl⟩ := Prod.mk.inj heq
      obtain ⟨Vg, hsz, hlt, hmap⟩ := V.room hg
      obtain ⟨Vs, hmaps⟩ := Vg.succ hlt
      rw [hsz, s32_of_lt (by omega)]
      refine ⟨hleast, ?_⟩
      rw [← hmap, ← hmaps]
      have hbind := Vs.bind (i := t.sz) (by show t.sz < g.sz + 1; omega) node access off
      rw [← hsz] at hbind ⊢
      exact hbind

/-! ### The calls on one descriptor -/

theorem map_eq_none {fd : Int} : t.map fd = none ↔ t.check fd = none := by
  rw [FdTable.map, Option.map_eq_none_iff]

theorem map_of_check {fd : Int} {node : Nat} (h : t.check fd = some node) :
    t.map fd = some ⟨node, t.mode fd, t.offset fd⟩ := by
  rw [FdTable.map, h, Option.map_some]

/-- `FD_CHECK` passes on bound slots in range. -/
theorem Valid.check_some (V : Valid t) {fd : Int} {node : Nat} (h : t.check fd = some node) :
    ∃ i : Nat, fd = i ∧ i < t.sz ∧ t.entries i = some node := by
  unfold FdTable.check at h
  split_ifs at h with hin
  obtain ⟨hpos, hlt⟩ := V.inRange_iff.mp hin
  obtain ⟨i, rfl⟩ := Int.eq_ofNat_of_zero_le hpos
  exact ⟨i, rfl, by omega, h⟩

/-- A call returned `r` and did to the descriptor `fd` what `p` says. -/
structure Does (t : FdTable) (fd : Int) (p : Int × Option Desc) (r : Int × FdTable) : Prop where
  valid : Valid r.2
  ret : r.1 = p.1
  map : r.2.map = Function.update t.map fd p.2

theorem Valid.keeps (V : Valid t) {fd : Int} {d : Desc} (h : t.map fd = some d) (ret : Int) :
    Does t fd (ret, some d) (ret, t) :=
  ⟨V, rfl, by rw [← h, Function.update_eq_self]⟩

theorem Valid.closes (V : Valid t) {fd : Int} {node : Nat} (h : t.check fd = some node)
    (ret : Int) : Does t fd (ret, none) (ret, t.setEntry fd none) := by
  obtain ⟨i, rfl, hi, hentry⟩ := V.check_some h
  have hsame : SameBut i t (t.setEntry i none) :=
    ⟨rfl, rfl, fun j hj => Function.update_of_ne hj _ _, fun _ _ => rfl, fun _ _ => rfl⟩
  refine ⟨hsame.valid V hi, rfl, hsame.map_eq V hi ?_⟩
  show (Function.update t.entries i none i).map _ = none
  rw [Function.update_self, Option.map_none]

theorem Valid.moves (V : Valid t) {fd : Int} {node : Nat} (h : t.check fd = some node)
    (ret : Int) (off : Nat) :
    Does t fd (ret, some ⟨node, t.mode fd, off⟩) (ret, t.setOffset fd off) := by
  obtain ⟨i, rfl, hi, hentry⟩ := V.check_some h
  have hsame : SameBut i t (t.setOffset i off) :=
    ⟨rfl, rfl, fun _ _ => rfl, fun _ _ => rfl, fun j hj => Function.update_of_ne hj _ _⟩
  refine ⟨hsame.valid V hi, rfl, hsame.map_eq V hi ?_⟩
  show (t.entries i).map (fun node => (⟨node, t.modes i, Function.update t.offs i off i⟩ : Desc)) = _
  rw [hentry, Function.update_self, Option.map_some]
  rfl

theorem Valid.transfer (V : Valid t) {fd : Int} {node : Nat} (h : t.check fd = some node)
    (k : Kernel) (access : Nat) (f : Nat → Int → Nat → Int) (sz : Nat) :
    Does t fd ((Desc.transfer k access f sz ⟨node, t.mode fd, t.offset fd⟩).map id some)
      (t.sysTransfer k access f fd sz) := by
  have hmap := map_of_check h
  simp only [FdTable.sysTransfer, h, Desc.transfer]
  by_cases hptr : k.ptrOk = false
  · simp only [if_pos hptr]
    exact V.keeps hmap _
  simp only [if_neg hptr]
  by_cases haccess : t.mode fd &&& access = 0
  · simp only [if_pos haccess]
    exact V.keeps hmap _
  simp only [if_neg haccess]
  by_cases hout : f node (s32 (t.offset fd)) sz < 0
  · simp only [if_pos hout]
    exact V.keeps hmap _
  · simp only [if_neg hout]
    exact V.moves h _ _

theorem Valid.seek (V : Valid t) {fd : Int} {node : Nat} (h : t.check fd = some node)
    (k : Kernel) (off whence : Int) :
    Does t fd ((Desc.seek k off whence ⟨node, t.mode fd, t.offset fd⟩).map id some)
      (t.sysSeek k fd off whence) := by
  have hmap := map_of_check h
  simp only [FdTable.sysSeek, h, Desc.seek]
  by_cases hno : noSeek k node
  · simp only [if_pos hno]
    exact V.keeps hmap _
  simp only [if_neg hno]
  by_cases hset : whence = 0
  · simp only [if_pos hset]
    exact V.moves h _ _
  by_cases hcur : whence = 1
  · simp only [if_neg hset, if_pos hcur]
    exact V.moves h _ _
  by_cases hend : whence = 2
  · simp only [if_neg hset, if_neg hcur, if_pos hend]
    exact V.moves h _ _
  · simp only [if_neg hset, if_neg hcur, if_neg hend]
    exact V.keeps hmap _

/-- A call on a descriptor, open or not. -/
theorem Valid.onDesc (V : Valid t) (op : Op) {fd : Int} {f : Desc → Int × Option Desc}
    (hop : op.onDesc = some (fd, f)) {r : Int × FdTable}
    (hbad : t.check fd = none → r = (-ebadfd, t))
    (hdoes : ∀ node, t.check fd = some node → Does t fd (f ⟨node, t.mode fd, t.offset fd⟩) r) :
    Valid r.2 ∧ MapStep t.map op r.1 r.2.map := by
  cases hcheck : t.check fd with
  | none =>
      rw [hbad hcheck]
      exact ⟨V, .closed hop (map_eq_none.mpr hcheck)⟩
  | some node =>
      have D := hdoes node hcheck
      rw [D.ret, D.map]
      exact ⟨D.valid, .onDesc hop (map_of_check hcheck)⟩

/-- Every call that returns is a step of the map. -/
theorem Valid.exec (V : Valid t) {op : Op} {ret : Int} {t' : FdTable}
    (h : t.exec op = some (ret, t')) : Valid t' ∧ MapStep t.map op ret t'.map := by
  cases op with
  | sysOpen k junk node flags =>
      have h' : t.sysOpen k junk node flags = some (ret, t') := h
      unfold FdTable.sysOpen at h'
      cases haccess : openAccess k node flags with
      | error e =>
          simp only [haccess] at h'
          obtain ⟨rfl, rfl⟩ := Prod.mk.inj (Option.some.inj h')
          exact ⟨V, .openFails haccess⟩
      | ok access =>
          simp only [haccess, Option.bind_eq_bind, Option.bind_eq_some_iff] at h'
          obtain ⟨⟨fd, u⟩, hadd, heq⟩ := h'
          obtain ⟨rfl, rfl⟩ := Prod.mk.inj (Option.some.inj heq)
          obtain ⟨hleast, V', hmap⟩ := V.open access (openOffset k node flags) hadd
          rw [hmap]
          exact ⟨V', .opens haccess hleast⟩
  | sysClose fd =>
      have h' : t.sysClose fd = (ret, t') := Option.some.inj h
      have hstep := V.onDesc (.sysClose fd) (r := t.sysClose fd) rfl
        (fun hbad => by rw [FdTable.sysClose, hbad]) fun node hcheck => by
          rw [FdTable.sysClose, hcheck]
          exact V.closes hcheck 0
      rwa [h'] at hstep
  | sysRead k fd sz =>
      have h' : t.sysRead k fd sz = (ret, t') := Option.some.inj h
      have hstep := V.onDesc (.sysRead k fd sz) (r := t.sysRead k fd sz) rfl
        (fun hbad => by rw [FdTable.sysRead, FdTable.sysTransfer, hbad])
        fun node hcheck => V.transfer hcheck k rOk k.fsRead sz
      rwa [h'] at hstep
  | sysWrite k fd sz =>
      have h' : t.sysWrite k fd sz = (ret, t') := Option.some.inj h
      have hstep := V.onDesc (.sysWrite k fd sz) (r := t.sysWrite k fd sz) rfl
        (fun hbad => by rw [FdTable.sysWrite, FdTable.sysTransfer, hbad])
        fun node hcheck => V.transfer hcheck k wOk k.fsWrite sz
      rwa [h'] at hstep
  | sysSeek k fd off whence =>
      have h' : t.sysSeek k fd off whence = (ret, t') := Option.some.inj h
      have hstep := V.onDesc (.sysSeek k fd off whence) (r := t.sysSeek k fd off whence) rfl
        (fun hbad => by rw [FdTable.sysSeek, hbad])
        fun node hcheck => V.seek hcheck k off whence
      rwa [h'] at hstep

end Valid

/-! ## Runs of the map -/

/-- The run of the map that goes with a run of calls. -/
inductive MapRun : FdMap → List (Op × Int) → FdMap → Prop where
  | nil (F : FdMap) : MapRun F [] F
  | cons {F F' F'' : FdMap} {op : Op} {ret : Int} {l : List (Op × Int)} :
      MapStep F op ret F' → MapRun F' l F'' → MapRun F ((op, ret) :: l) F''

/-- The descriptor a call that returned `ret` is about. -/
def Op.target : Op → Int → Int
  | .sysOpen _ _ _ _, ret => ret
  | .sysClose fd, _ => fd
  | .sysRead _ fd _, _ => fd
  | .sysWrite _ fd _, _ => fd
  | .sysSeek _ fd _ _, _ => fd

theorem Op.target_eq {op : Op} {fd : Int} {f : Desc → Int × Option Desc}
    (h : op.onDesc = some (fd, f)) (ret : Int) : op.target ret = fd := by
  cases op <;> cases h <;> rfl

/-- What one call may do to the descriptors. -/
structure Independent (F : FdMap) (op : Op) (ret : Int) (F' : FdMap) : Prop where
  /-- An open takes the least descriptor that is free. -/
  opens : ∀ k junk node flags access, op = .sysOpen k junk node flags →
    openAccess k node flags = .ok access →
    IsLeast {fd | 0 ≤ fd ∧ F fd = none} ret
      ∧ F' ret = some ⟨node, access, openOffset k node flags⟩
  others : ∀ fd, fd ≠ op.target ret → F' fd = F fd
  closes : ∀ fd d, op = .sysClose fd → F fd = some d → ret = 0 ∧ F' fd = none
  /-- No call but an open works on a descriptor that is closed. -/
  closed : ∀ fd f, op.onDesc = some (fd, f) → F fd = none → ret = -ebadfd ∧ F' = F
  /-- A transfer advances the offset by what it returns, unless that is an
  error. -/
  advances : ∀ k fd sz d, op = .sysRead k fd sz ∨ op = .sysWrite k fd sz → F fd = some d →
    F' fd = some (if ret < 0 then d else { d with off := u64 (d.off + ret) })

section MapRun

variable {F F' : FdMap} {op : Op} {ret : Int}

theorem MapStep.others (h : MapStep F op ret F') {fd : Int} (hne : fd ≠ op.target ret) :
    F' fd = F fd := by
  cases h with
  | openFails _ => rfl
  | opens _ _ => exact Function.update_of_ne hne _ _
  | closed _ _ => rfl
  | onDesc hop _ =>
      rw [Op.target_eq hop] at hne
      exact Function.update_of_ne hne _ _

theorem MapStep.closed_inv (h : MapStep F op ret F') {fd : Int} {f : Desc → Int × Option Desc}
    (hop : op.onDesc = some (fd, f)) (hfd : F fd = none) : ret = -ebadfd ∧ F' = F := by
  cases h with
  | openFails _ => cases hop
  | opens _ _ => cases hop
  | closed _ _ => exact ⟨rfl, rfl⟩
  | onDesc hop' hd =>
      cases hop.symm.trans hop'
      cases hfd.symm.trans hd

theorem MapStep.onDesc_inv (h : MapStep F op ret F') {fd : Int} {f : Desc → Int × Option Desc}
    (hop : op.onDesc = some (fd, f)) {d : Desc} (hd : F fd = some d) :
    ret = (f d).1 ∧ F' fd = (f d).2 := by
  cases h with
  | openFails _ => cases hop
  | opens _ _ => cases hop
  | closed hop' hnone =>
      cases hop.symm.trans hop'
      cases hd.symm.trans hnone
  | onDesc hop' hd' =>
      cases hop.symm.trans hop'
      cases hd.symm.trans hd'
      exact ⟨rfl, Function.update_self _ _ _⟩

/-- A negative result of a transfer goes with the offset it had. -/
theorem transfer_advances (k : Kernel) (access : Nat) (f : Nat → Int → Nat → Int) (sz : Nat)
    (d : Desc) : (d.transfer k access f sz).2
      = if (d.transfer k access f sz).1 < 0 then d
        else { d with off := u64 (d.off + (d.transfer k access f sz).1) } := by
  unfold Desc.transfer
  by_cases hptr : k.ptrOk = false
  · simp only [if_pos hptr]
    rfl
  by_cases haccess : d.mode &&& access = 0
  · simp only [if_neg hptr, if_pos haccess]
    rfl
  · simp only [if_neg hptr, if_neg haccess]

theorem MapStep.independent (h : MapStep F op ret F') : Independent F op ret F' where
  opens k junk node flags access hop haccess := by
    subst hop
    cases h with
    | openFails herr => cases haccess.symm.trans herr
    | opens haccess' hleast =>
        cases haccess.symm.trans haccess'
        exact ⟨hleast, Function.update_self _ _ _⟩
    | closed hop _ => cases hop
    | onDesc hop _ => cases hop
  others fd hne := h.others hne
  closes fd d hop hd := by
    subst hop
    exact h.onDesc_inv rfl hd
  closed fd f hop hfd := h.closed_inv hop hfd
  advances k fd sz d hop hd := by
    rcases hop with rfl | rfl
    · obtain ⟨hret, hF'⟩ := h.onDesc_inv rfl hd
      rw [hF', hret]
      exact congrArg some (transfer_advances k rOk k.fsRead sz d)
    · obtain ⟨hret, hF'⟩ := h.onDesc_inv rfl hd
      rw [hF', hret]
      exact congrArg some (transfer_advances k wOk k.fsWrite sz d)

/-- A descriptor that is closed stays so until an open returns it. -/
theorem MapRun.stays_closed {l : List (Op × Int)} (h : MapRun F l F') {fd : Int}
    (hfd : F fd = none) (hopen : ∀ k junk node flags, (Op.sysOpen k junk node flags, fd) ∉ l) :
    F' fd = none := by
  induction h with
  | nil F => exact hfd
  | cons hstep hrun ih =>
      refine ih ?_ fun k junk node flags hmem => hopen k junk node flags (List.mem_cons_of_mem _ hmem)
      cases hstep with
      | openFails _ => exact hfd
      | opens _ _ =>
          rw [Function.update_of_ne, hfd]
          rintro rfl
          exact hopen _ _ _ _ List.mem_cons_self
      | closed _ _ => exact hfd
      | onDesc hop hd =>
          rw [Function.update_of_ne, hfd]
          rintro rfl
          cases hfd.symm.trans hd

end MapRun

theorem Valid.run {t t' : FdTable} {l : List (Op × Int)} (h : Run t l t') (V : Valid t) :
    Valid t' ∧ MapRun t.map l t'.map := by
  induction h with
  | nil t => exact ⟨V, .nil _⟩
  | cons hexec _ ih =>
      obtain ⟨V', hstep⟩ := V.exec hexec
      obtain ⟨V'', hrun⟩ := ih V'
      exact ⟨V'', .cons hstep hrun⟩

/-- The descriptor table of a process refines a map: the run of calls is a run
of the map, in which a call changes its own descriptor only, an open takes the
least free one, and a closed one gives `EBADFD` until it is opened again. -/
theorem fds_refine {modes offs : Nat → Nat} {l : List (Op × Int)} {t : FdTable}
    (h : Run (spawnInit modes offs) l t) :
    MapRun (fun _ => none) l t.map
    ∧ (t.sz ≤ t.maxSz ∧ ∀ i, t.sz ≤ i → i < t.maxSz → t.entries i = none)
    ∧ (∀ fd, t.map fd ≠ none → 0 ≤ fd ∧ fd < t.sz)
    ∧ (∀ op ret t', t.exec op = some (ret, t') → Independent t.map op ret t'.map)
    ∧ ∀ l' t' fd, Run t l' t' → t.map fd = none →
      (∀ k junk node flags, (Op.sysOpen k junk node flags, fd) ∉ l') → t'.map fd = none := by
  obtain ⟨V, hrun⟩ := Valid.run h (Valid.spawnInit modes offs)
  have hinit : (spawnInit modes offs).map = fun _ => none := by
    refine map_ext (Valid.spawnInit modes offs) (fun _ _ => rfl) fun i => ?_
    rw [(Valid.spawnInit modes offs).map_eq]
    exact if_neg (Nat.not_lt_zero i)
  rw [hinit] at hrun
  refine ⟨hrun, ⟨V.le, V.null⟩, fun fd hfd => ?_, fun op ret t' hexec => ?_,
    fun l' t' fd hrun' hfd hopen => (Valid.run hrun' V).2.stays_closed hfd hopen⟩
  · have hcheck := mt map_eq_none.mpr hfd
    unfold FdTable.check at hcheck
    by_contra hout
    exact hcheck (if_neg (mt V.inRange_iff.mp hout))
  · exact (V.exec hexec).2.independent

/-- A kernel that reads and writes three bytes at a time. -/
def threeBytes : Kernel :=
  ⟨fun _ => 0o10, fun _ => 100, fun _ => 0, true, fun _ _ _ => 3, fun _ _ _ => 3⟩

def noJunk : Junk := ⟨fun _ => none, fun _ => 0, fun _ => 0⟩

/-- Open for reading and writing, read, close, and read again. -/
theorem fds_refine_small : ∃ t, Run (spawnInit (fun _ => 0) fun _ => 0)
      [(.sysOpen threeBytes noJunk 7 0o2, 0), (.sysRead threeBytes 0 10, 3), (.sysClose 0, 0),
        (.sysRead threeBytes 0 10, -81)] t
    ∧ t.sz ≤ t.maxSz := by
  have hrun : ∃ t, Run (spawnInit (fun _ => 0) fun _ => 0)
      [(.sysOpen threeBytes noJunk 7 0o2, 0), (.sysRead threeBytes 0 10, 3), (.sysClose 0, 0),
        (.sysRead threeBytes 0 10, -81)] t := by
    with_unfolding_all exact ⟨_, .cons rfl (.cons rfl (.cons rfl (.cons rfl (.nil _))))⟩
  obtain ⟨t, hrun⟩ := hrun
  exact ⟨t, hrun, (fds_refine hrun).2.1.1⟩

end Fd

end Shitos
