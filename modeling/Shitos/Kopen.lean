import Shitos.CanonPath

/-!
# Looking up a path

`kopen_recur` chops the canonical path in place, finds the mount point in the
tree of `vfs_entry`s, and from there asks the file systems for one component
after another. A symbolic link on the way starts the search again, in a call of
its own with the link's target.

Over the chopped buffer lies the walk over the list of components: the mount
point is that of `mountWalk`, and the loop is `lookup`. From there the search
ends, whatever the file systems hold (`kopen_terminates`).
-/

namespace Shitos

namespace Kopen

open Shitos.Path Components

/-! ## Nodes -/

def ENAMETOOLONG : Int := 91
def ELOOP : Int := 92

/-- `O_PATH`. -/
def oPath : Nat := 0o3

/-- `O_NOFOLLOW`. -/
def oNofollow : Nat := 0o10000

/-- `MAX_SYMLINK_DEPTH`. -/
def maxSymlinkDepth : Nat := 8

/-- `MAX_SYMLINK_SIZE`. -/
def maxSymlinkSize : Nat := 0x1000

/-- `FS_ISDIR`. -/
def fsIsdir (flags : Nat) : Bool := flags &&& 0o17 = 0o4

/-- `FS_ISLNK`. -/
def fsIslnk (flags : Nat) : Bool := flags &&& 0o17 = 0o12

/-- `fs_node_t`; `data` is all that belongs to the file system, its operations
among it. -/
structure FsNode (δ : Type) where
  flags : Nat
  refcount : Int
  data : δ

/-- `struct vfs_entry`, with the address of `file`. -/
structure VfsEntry where
  name : Str
  file : Option Nat

/-- `tree_node_t`, for the tree of the mount points. -/
inductive TreeNode
  | node (value : VfsEntry) (children : List TreeNode)

def TreeNode.value : TreeNode → VfsEntry
  | .node value _ => value

def TreeNode.children : TreeNode → List TreeNode
  | .node _ children => children

/-- What a search reads and changes: the nodes at their addresses, the file
systems, `errno`, and the nodes that have been freed, the last one first. -/
structure Kernel (δ σ : Type) where
  nodes : Nat → FsNode δ
  fs : σ
  errno : Int
  freed : List Nat

/-- The allocator and the operations of the nodes. `kmalloc` finds the place for
a node, `buffer` is what a string buffer holds before it is written. -/
structure Drivers (δ σ : Type) where
  kmalloc : Kernel δ σ → Nat × Kernel δ σ
  buffer : Kernel δ σ → Mem
  onOpen : δ → Option (Kernel δ σ → Nat → Nat → Kernel δ σ)
  finddir : δ → Option (Kernel δ σ → Nat → Str → Option Nat × Kernel δ σ)
  readlink : δ → Option (Kernel δ σ → Nat → Nat → Int × Mem × Kernel δ σ)

section Operations

variable {δ σ : Type} (D : Drivers δ σ) (k : Kernel δ σ)

/-- `kfree(node)`. -/
def kfree (node : Nat) : Kernel δ σ := { k with freed := node :: k.freed }

/-- `errno = e`. -/
def setErrno (e : Int) : Kernel δ σ := { k with errno := e }

/-- A copy of a node with no reference to it. -/
def cloneNode (last : Nat) : Nat × Kernel δ σ :=
  let (clone, k) := D.kmalloc k
  (clone, { k with nodes := Function.update k.nodes clone { k.nodes last with refcount := 0 } })

/-- `fs_open`. -/
def fsOpen (node flags : Nat) : Kernel δ σ :=
  let n := k.nodes node
  let k :=
    if 0 ≤ n.refcount then
      { k with nodes := Function.update k.nodes node { n with refcount := n.refcount + 1 } }
    else k
  match D.onOpen n.data with
  | some f => f k node flags
  | none => k

/-- `fs_finddir`. -/
def fsFinddir (node : Nat) (name : Str) : Option Nat × Kernel δ σ :=
  match D.finddir (k.nodes node).data with
  | some f => if fsIsdir (k.nodes node).flags then f k node name else (none, k)
  | none => (none, k)

/-- `fs_readlink`: the length, the buffer, and what the call has changed. -/
def fsReadlink (node sz : Nat) : Int × Mem × Kernel δ σ :=
  match D.readlink (k.nodes node).data with
  | some f => f k node sz
  | none => (-EINVAL, D.buffer k, k)

end Operations

/-! ## Strings in a buffer -/

/-- `strlen`; `none` is a string that does not end in the next `n` bytes. -/
def strlen (m : Mem) : Nat → Nat → Option Nat
  | _, 0 => none
  | p, n + 1 => if m p = 0 then some 0 else (strlen m (p + 1) n).map (· + 1)

/-- The loop that chops the path up: the buffer and `path_depth` after `n` bytes
from `head` on. -/
def chop : Nat → Nat → Mem → Nat → Mem × Nat
  | 0, _, path, depth => (path, depth)
  | n + 1, head, path, depth =>
      if path head = pathSeparator.val then chop n (head + 1) (wr8 path head 0) (depth + 1)
      else chop n (head + 1) path depth

/-- `for(...; depth < path_depth; depth++) path += strlen(path) + 1;`, for the
`n` turns that are left. -/
def skipStrings (m : Mem) (sz : Nat) : Nat → Nat → Option Nat
  | 0, path => some path
  | n + 1, path => do
      let len ← strlen m path (sz + 1 - path)
      skipStrings m sz n (path + len + 1)

/-- The loop that puts the separators back in front of a link, for the `n` turns
that are left. -/
def rebuild (sz : Nat) : Nat → Mem → Nat → Option Mem
  | 0, relpath, _ => some relpath
  | n + 1, relpath, head => do
      let len ← strlen relpath head (sz + 1 - head)
      let head := head + len + 1
      rebuild sz n (wr8 relpath head pathSeparator.val.toNat) head

/-- The string `relpath` for a link at `depth`. -/
def relpathOf (path : Mem) (sz depth : Nat) : Option Str := do
  let relpath ← rebuild sz (if depth = 0 then 0 else depth - 1) path 0
  some (readStr relpath 0 (sz + 1))

/-! ## `get_mount_point` -/

/-- The loop of `get_mount_point`, for at most `n` turns: `last`, `*outpath` and
`_tree_depth`. -/
def mountLoop (m : Mem) (sz stop : Nat) :
    Nat → TreeNode → Nat → Nat → Option Nat × Nat × Nat → Option (Option Nat × Nat × Nat)
  | 0, _, _, _, _ => none
  | n + 1, node, at_, depth, found =>
      if at_ < stop then
        match node.children.find? fun tchild =>
            tchild.value.name = readStr m at_ (sz + 1 - at_) with
        | none => some found
        | some tchild => do
            let len ← strlen m at_ (sz + 1 - at_)
            let found := match tchild.value.file with
              | some file => (some file, at_ + len + 1, depth)
              | none => found
            mountLoop m sz stop n tchild (at_ + len + 1) (depth + 1) found
      else some found

/-- The search of `get_mount_point`: `last`, `*outpath` and `*outdepth`. -/
def getMountPoint (root : TreeNode) (m : Mem) (sz pathDepth outpath : Nat) :
    Option (Option Nat × Nat × Nat) := do
  let stop ← skipStrings m sz pathDepth 1
  mountLoop m sz stop (pathDepth + 1) root outpath 1 (root.value.file, outpath, 0)

/-! ## `kopen_recur` -/

section Search

variable {δ σ : Type} (D : Drivers δ σ)

/-- A search inside a search: the link's target and the directory. -/
abbrev Recur (δ σ : Type) := Kernel δ σ → Str → Str → Option (Option Nat × Kernel δ σ)

/-- A link at `depth` is followed. -/
def Follows (flags nodeFlags depth pathDepth : Nat) : Prop :=
  fsIslnk nodeFlags ∧ ¬ (flags &&& oNofollow ≠ 0 ∧ flags &&& oPath ≠ 0 ∧ depth = pathDepth)

instance (flags nodeFlags depth pathDepth : Nat) :
    Decidable (Follows flags nodeFlags depth pathDepth) := inferInstanceAs (Decidable (_ ∧ _))

/-- Following a link: the node to go on with, or none where the search fails. -/
def followLink (recur : Recur δ σ) (relpath : Option Str) (pathDepth flags symlinkDepth : Nat)
    (k : Kernel δ σ) (node depth : Nat) : Option (Option Nat × Kernel δ σ) :=
  if flags &&& oNofollow ≠ 0 ∧ depth = sub32 pathDepth 1 then
    some (none, kfree (setErrno k ELOOP) node)
  else if symlinkDepth ≥ maxSymlinkDepth then some (none, kfree (setErrno k ELOOP) node)
  else
    let (len, buf, k) := fsReadlink D k node maxSymlinkSize
    if len < 0 then some (none, kfree (setErrno k (-len)) node)
    else if buf len.toNat ≠ 0 then some (none, kfree (setErrno k ENAMETOOLONG) node)
    else do
      let k := kfree k node
      let relpath ← relpath
      match ← recur k (readStr buf 0 (len.toNat + 1)) relpath with
      | (none, k) => some (none, setErrno k ENOENT)
      | (some node, k) => some (some node, k)

/-- The beginning of a turn of the loop: the node, or the one that it is a link
to. -/
def visit (recur : Recur δ σ) (relpath : Option Str) (pathDepth flags symlinkDepth : Nat)
    (k : Kernel δ σ) (node depth : Nat) : Option (Option Nat × Kernel δ σ) :=
  if Follows flags (k.nodes node).flags depth pathDepth then
    followLink D recur relpath pathDepth flags symlinkDepth k node depth
  else some (some node, k)

/-- The loop of `kopen_recur`, for at most `n` turns. -/
def kopenLoop (recur : Recur δ σ) (path : Mem) (sz pathDepth flags symlinkDepth : Nat) :
    Nat → Kernel δ σ → Nat → Nat → Nat → Option (Option Nat × Kernel δ σ)
  | 0, _, _, _, _ => none
  | n + 1, k, node, pathHead, depth => do
      match ← visit D recur (relpathOf path sz depth) pathDepth flags symlinkDepth k node depth with
      | (none, k) => some (none, k)
      | (some node, k) =>
          if pathHead ≥ sz ∨ depth = pathDepth then some (some node, fsOpen D k node flags)
          else
            match fsFinddir D k node (readStr path pathHead (sz + 1 - pathHead)) with
            | (none, k) => some (none, setErrno (kfree k node) ENOENT)
            | (some next, k) => do
                let k := kfree k node
                let len ← strlen path pathHead (sz + 1 - pathHead)
                if depth + 1 < pathDepth + 1 then
                  kopenLoop recur path sz pathDepth flags symlinkDepth n k next
                    (pathHead + len + 1) (depth + 1)
                else some (none, setErrno k ENOENT)

/-- `kopen_recur`, for at most `n` calls inside one another, and at most
`passes path_depth` turns of the loop in each of them; `none` is a search that
needs more, or a string that does not end in its buffer. -/
def kopenRecur (root : TreeNode) (passes : Nat → Nat) : Nat → Kernel δ σ → Option Str → Nat →
    Nat → Str → Option (Option Nat × Kernel δ σ)
  | 0, _, _, _, _, _ => none
  | _ + 1, k, none, _, _, _ => some (none, setErrno k EINVAL)
  | n + 1, k, some file, flags, symlinkDepth, cwd => do
      let (path, sz) ← canonicalizePath (D.buffer k) cwd file
      if sz = 1 then
        let (rootClone, k) := cloneNode D k (root.value.file.getD 0)
        some (some rootClone, fsOpen D k rootClone flags)
      else
        let (path, pathDepth) := chop sz 0 (bytes path) 0
        match ← getMountPoint root path sz pathDepth 1 with
        | (none, _, _) => some (none, setErrno k ENOENT)
        | (some last, pathHead, depth) =>
            let (node, k) := cloneNode D k last
            kopenLoop D (fun k target relpath =>
                kopenRecur root passes n k (some target) 0 (symlinkDepth + 1) relpath)
              path sz pathDepth flags symlinkDepth (passes pathDepth) k node pathHead depth

end Search

/-! ## The chopped path -/

/-- Strings that lie behind one another, from `p` on. -/
def Pieces (m : Mem) : Nat → List Str → Prop
  | _, [] => True
  | p, c :: cs => (∀ j < c.length, m (p + j) = bytes c j) ∧ m (p + c.length) = 0
      ∧ Pieces m (p + c.length + 1) cs

/-- The strings `cs` are all that is left of the buffer from `p` on. -/
def Left (m : Mem) (sz p : Nat) (cs : List Str) : Prop :=
  Pieces m p cs ∧ p + (render pathSeparator cs).length = sz + 1

section Chop

variable {m : Mem} {sz p n : Nat} {c : Str} {cs : List Str}

theorem strlen_eq {l : Nat} (h : ∀ j < l, m (p + j) ≠ 0) (hend : m (p + l) = 0) (hn : l < n) :
    strlen m p n = some l := by
  induction l generalizing p n with
  | zero =>
      obtain ⟨n, rfl⟩ := Nat.exists_eq_succ_of_ne_zero (Nat.ne_of_gt hn)
      exact if_pos hend
  | succ l ih =>
      obtain ⟨n, rfl⟩ := Nat.exists_eq_succ_of_ne_zero (Nat.ne_of_gt (Nat.zero_lt_of_lt hn))
      have hrest : strlen m (p + 1) n = some l := by
        refine ih (fun j hj => ?_) ?_ (Nat.lt_of_succ_lt_succ hn)
        · rw [Nat.add_assoc, Nat.add_comm 1 j]
          exact h (j + 1) (Nat.succ_lt_succ hj)
        · rw [Nat.add_assoc, Nat.add_comm 1 l]
          exact hend
      have hp : m p ≠ 0 := h 0 (Nat.succ_pos l)
      rw [strlen, if_neg hp, hrest]
      rfl

theorem bytes_ne_zero {j : Nat} (h : j < c.length) : bytes c j ≠ 0 := by
  rw [bytes, List.getElem?_eq_getElem h]
  exact (c.get ⟨j, h⟩).property

theorem Left.total (h : Left m sz p (c :: cs)) :
    p + c.length + 1 + (render pathSeparator cs).length = sz + 1 := by
  have heq := h.2
  rw [render, List.flatMap_cons, List.length_append, List.length_cons, ← render] at heq
  omega

theorem Left.tail (h : Left m sz p (c :: cs)) : Left m sz (p + c.length + 1) cs :=
  ⟨h.1.2.2, h.total⟩

theorem Left.strlen (h : Left m sz p (c :: cs)) : strlen m p (sz + 1 - p) = some c.length := by
  have htotal := h.total
  exact strlen_eq (fun j hj => by rw [h.1.1 j hj]; exact bytes_ne_zero hj) h.1.2.1 (by omega)

theorem Left.readStr (h : Left m sz p (c :: cs)) : readStr m p (sz + 1 - p) = c := by
  have htotal := h.total
  exact readStr_eq m c p _ (by omega) h.1.1 h.1.2.1

/-- Behind the last string there is nothing. -/
theorem Left.head_iff (h : Left m sz p cs) (hcs : ∀ c ∈ cs, Component pathSeparator c) :
    p ≥ sz ↔ cs = [] := by
  cases cs with
  | nil =>
      have hlen : p + 0 = sz + 1 := h.2
      exact ⟨fun _ => rfl, fun _ => by omega⟩
  | cons c cs =>
      have htotal := h.total
      have hpos : 0 < c.length := List.length_pos_iff.mpr (hcs c List.mem_cons_self).ne_nil
      exact ⟨fun hp => by omega, fun hnil => absurd hnil (List.cons_ne_nil _ _)⟩

/-- What chopping does to a string in the buffer. -/
theorem chop_spec (q : Str) (m : Mem) (head depth : Nat)
    (h : ∀ j < q.length, m (head + j) = bytes q j) :
    (chop q.length head m depth).2 = depth + q.count pathSeparator
      ∧ ∀ i, (chop q.length head m depth).1 i
        = if head ≤ i ∧ i < head + q.length ∧ m i = pathSeparator.val then 0 else m i := by
  induction q generalizing m head depth with
  | nil => exact ⟨rfl, fun i => by rw [if_neg (by simp only [List.length_nil]; omega)]; rfl⟩
  | cons x q ih =>
      have hx : m head = x.val := h 0 (Nat.succ_pos _)
      have hrest : ∀ j < q.length, m (head + 1 + j) = bytes q j := fun j hj => by
        rw [Nat.add_assoc, Nat.add_comm 1 j, h (j + 1) (Nat.succ_lt_succ hj), bytes_cons_succ]
      by_cases hsep : x = pathSeparator
      · have hkeep : ∀ j < q.length, wr8 m head 0 (head + 1 + j) = bytes q j := fun j hj => by
          rw [wr8_apply_of_ne (by omega), hrest j hj]
        obtain ⟨hcount, hbytes⟩ := ih (wr8 m head 0) (head + 1) (depth + 1) hkeep
        rw [List.length_cons, chop, if_pos (hx.trans (congrArg Subtype.val hsep))]
        refine ⟨?_, fun i => ?_⟩
        · rw [hcount, hsep, List.count_cons_self]
          omega
        · rw [hbytes i]
          by_cases hi : i = head
          · subst hi
            rw [if_neg (by omega), if_pos ⟨Nat.le_refl _, by omega, by rw [hx, hsep]⟩, wr8,
              if_pos rfl]
            rfl
          · rw [wr8_apply_of_ne hi]
            exact if_congr ⟨fun h => ⟨by omega, by omega, h.2.2⟩,
              fun h => ⟨by omega, by omega, h.2.2⟩⟩ rfl rfl
      · have hne : m head ≠ pathSeparator.val := fun heq => hsep (Subtype.ext (hx.symm.trans heq))
        obtain ⟨hcount, hbytes⟩ := ih m (head + 1) depth hrest
        rw [List.length_cons, chop, if_neg hne]
        refine ⟨?_, fun i => ?_⟩
        · rw [hcount, List.count_cons_of_ne hsep]
        · rw [hbytes i]
          by_cases hi : i = head
          · subst hi
            rw [if_neg (by omega), if_neg (fun hc => hne hc.2.2)]
          · exact if_congr ⟨fun h => ⟨by omega, by omega, h.2.2⟩,
              fun h => ⟨by omega, by omega, h.2.2⟩⟩ rfl rfl

theorem count_render (h : ∀ c ∈ cs, Component pathSeparator c) :
    (render pathSeparator cs).count pathSeparator = cs.length := by
  induction cs with
  | nil => rfl
  | cons c cs ih =>
      obtain ⟨hc, hcs⟩ := List.forall_mem_cons.mp h
      rw [render, List.flatMap_cons, List.count_append, List.count_cons_self,
        List.count_eq_zero_of_not_mem hc.noSep, ← render, ih hcs, List.length_cons]
      omega

/-- With the separators cleared, the components lie behind one another. -/
theorem pieces_of_render {b : Mem} (h : ∀ c ∈ cs, Component pathSeparator c)
    (hb : ∀ i, b (p + i) = bytes (render pathSeparator cs) i)
    (hm : ∀ i, m i = if b i = pathSeparator.val then 0 else b i) : Pieces m (p + 1) cs := by
  induction cs generalizing p with
  | nil => exact trivial
  | cons c cs ih =>
      obtain ⟨hc, hcs⟩ := List.forall_mem_cons.mp h
      have hrender : render pathSeparator (c :: cs)
          = (pathSeparator :: c) ++ render pathSeparator cs := rfl
      have hname : ∀ j < c.length, b (p + 1 + j) = bytes c j := fun j hj => by
        rw [Nat.add_assoc, Nat.add_comm 1 j, hb, hrender,
          bytes_append_left (by rw [List.length_cons]; omega), bytes_cons_succ]
      have hrest : ∀ i, b (p + 1 + c.length + i) = bytes (render pathSeparator cs) i := fun i => by
        have hpos : p + 1 + c.length + i = p + ((pathSeparator :: c).length + i) := by
          rw [List.length_cons]
          omega
        rw [hpos, hb, hrender, bytes_append_right]
      refine ⟨fun j hj => ?_, ?_, ih hcs hrest⟩
      · have hne : bytes c j ≠ pathSeparator.val := fun heq => by
          rw [bytes, List.getElem?_eq_getElem hj] at heq
          exact hc.noSep ((Subtype.ext heq : c.get ⟨j, hj⟩ = pathSeparator) ▸ List.get_mem c ⟨j, hj⟩)
        rw [hm, hname j hj, if_neg hne]
      · rw [hm, ← Nat.add_zero (p + 1 + c.length), hrest 0]
        cases cs with
        | nil => rfl
        | cons d cs => exact if_pos rfl

/-- The chopped path: the first byte is cleared, and then come the components. -/
theorem chop_render (h : ∀ c ∈ cs, Component pathSeparator c) (hne : cs ≠ []) {path : Mem}
    {depth : Nat} (hchop : chop (render pathSeparator cs).length 0 (bytes (render pathSeparator cs)) 0
      = (path, depth)) :
    depth = cs.length ∧ path 0 = 0 ∧ Left path (render pathSeparator cs).length 1 cs := by
  obtain ⟨hcount, hbytes⟩ := chop_spec (render pathSeparator cs) (bytes (render pathSeparator cs)) 0 0
    fun j _ => by rw [Nat.zero_add]
  rw [hchop] at hcount hbytes
  dsimp only at hcount hbytes
  have hm : ∀ i, path i = if bytes (render pathSeparator cs) i = pathSeparator.val then 0
      else bytes (render pathSeparator cs) i := fun i => by
    rw [hbytes i]
    refine if_congr ⟨fun hc => hc.2.2, fun heq => ⟨Nat.zero_le _, ?_, heq⟩⟩ rfl rfl
    by_contra hlt
    rw [bytes, List.getElem?_eq_none (by omega)] at heq
    exact absurd heq (by decide)
  refine ⟨?_, ?_, pieces_of_render h (fun i => by rw [Nat.zero_add]) hm, Nat.add_comm _ _⟩
  · rw [hcount, Nat.zero_add, count_render h]
  · obtain ⟨c, cs, rfl⟩ := List.exists_cons_of_ne_nil hne
    rw [hm]
    exact if_pos rfl

theorem skipStrings_eq (h : Left m sz p cs) : skipStrings m sz cs.length p = some (sz + 1) := by
  induction cs generalizing p with
  | nil => exact congrArg some h.2
  | cons c cs ih =>
      rw [List.length_cons, skipStrings, h.strlen, Option.bind_eq_bind, Option.bind_some]
      exact ih h.tail

end Chop

/-! ## The directory of a link -/

/-- Strings of these lengths lie behind one another. -/
def Lengths (m : Mem) : Nat → List Nat → Prop
  | _, [] => True
  | p, l :: ls => (∀ j < l, m (p + j) ≠ 0) ∧ m (p + l) = 0 ∧ Lengths m (p + l + 1) ls

section Relpath

variable {m : Mem} {sz p : Nat} {cs : List Str} {ls : List Nat}

theorem Pieces.lengths (h : Pieces m p cs) : Lengths m p (cs.map List.length) := by
  induction cs generalizing p with
  | nil => exact trivial
  | cons c cs ih =>
      exact ⟨fun j hj => by rw [h.1 j hj]; exact bytes_ne_zero hj, h.2.1, ih h.2.2⟩

theorem Lengths.congr {m' : Mem} (h : Lengths m p ls) (hm : ∀ i ≥ p, m' i = m i) :
    Lengths m' p ls := by
  induction ls generalizing p with
  | nil => exact trivial
  | cons l ls ih =>
      refine ⟨fun j hj => ?_, ?_, ih h.2.2 fun i hi => hm i (by omega)⟩
      · rw [hm _ (Nat.le_add_right _ _)]
        exact h.1 j hj
      · rw [hm _ (Nat.le_add_right _ _)]
        exact h.2.1

/-- A separator in place of the first byte of a string leaves its length. -/
theorem Lengths.wr8 {l : Nat} (h : Lengths m p (l :: ls)) (hl : 0 < l) :
    Lengths (wr8 m p pathSeparator.val.toNat) p (l :: ls) := by
  refine ⟨fun j hj => ?_, ?_, h.2.2.congr fun i hi => wr8_apply_of_ne (by omega)⟩
  · by_cases hj0 : j = 0
    · subst hj0
      rw [Nat.add_zero, Shitos.wr8, if_pos rfl]
      decide
    · rw [wr8_apply_of_ne (by omega)]
      exact h.1 j hj
  · rw [wr8_apply_of_ne (by omega)]
    exact h.2.1

theorem rebuild_eq (n : Nat) (l : Nat) (h : Lengths m p (l :: ls)) (hn : n ≤ ls.length)
    (hls : ∀ l ∈ ls, 0 < l) (hsz : p + l + (ls.map (· + 1)).sum = sz) :
    ∃ r, rebuild sz n m p = some r ∧ ∀ i ≤ p, r i = m i := by
  induction n generalizing m p l ls with
  | zero => exact ⟨m, rfl, fun i _ => rfl⟩
  | succ n ih =>
      cases ls with
      | nil => exact absurd hn (Nat.not_succ_le_zero n)
      | cons l' ls =>
          obtain ⟨hl', hrest⟩ := List.forall_mem_cons.mp hls
          rw [List.map_cons, List.sum_cons] at hsz
          have hlen : strlen m p (sz + 1 - p) = some l := strlen_eq h.1 h.2.1 (by omega)
          obtain ⟨r, hr, hlow⟩ := ih l' (h.2.2.wr8 hl') (Nat.le_of_succ_le_succ hn) hrest (by omega)
          rw [rebuild, hlen, Option.bind_eq_bind, Option.bind_some]
          refine ⟨r, hr, fun i hi => ?_⟩
          rw [hlow i (by omega), wr8_apply_of_ne (by omega)]

/-- The first byte of the chopped path is cleared, and stays so: the directory of
a link is always the empty string. -/
theorem relpathOf_eq {path : Mem} (h0 : path 0 = 0) (h : Left path sz 1 cs)
    (hcs : ∀ c ∈ cs, Component pathSeparator c) {depth : Nat} (hdepth : depth ≤ cs.length) :
    relpathOf path sz depth = some [] := by
  have hlengths : Lengths path 0 (0 :: cs.map List.length) :=
    ⟨fun j hj => absurd hj (Nat.not_lt_zero j), h0, h.1.lengths⟩
  have hpos : ∀ l ∈ cs.map List.length, 0 < l := fun l hl => by
    obtain ⟨c, hc, rfl⟩ := List.mem_map.mp hl
    exact List.length_pos_iff.mpr (hcs c hc).ne_nil
  have hsz : 0 + 0 + ((cs.map List.length).map (· + 1)).sum = sz := by
    have htotal := h.2
    have hsum : ((cs.map List.length).map (· + 1)).sum = (render pathSeparator cs).length := by
      rw [length_render, List.map_map]
      rfl
    omega
  have hturns : (if depth = 0 then 0 else depth - 1) ≤ (cs.map List.length).length := by
    rw [List.length_map]
    split <;> omega
  obtain ⟨r, hr, hlow⟩ := rebuild_eq _ 0 hlengths hturns hpos hsz
  rw [relpathOf, hr, Option.bind_eq_bind, Option.bind_some, readStr,
    dif_neg (fun hne => hne ((hlow 0 (Nat.le_refl 0)).trans h0))]

end Relpath

/-! ## The walk over the components -/

/-- The node of the mount tree that the search starts from: the file of the last
entry on the way that has one, the components behind it, and its depth. -/
def mountWalk : TreeNode → List Str → Nat → Option Nat × List Str × Nat →
    Option Nat × List Str × Nat
  | _, [], _, found => found
  | node, c :: cs, depth, found =>
      match node.children.find? fun tchild => tchild.value.name = c with
      | none => found
      | some tchild =>
          mountWalk tchild cs (depth + 1) (match tchild.value.file with
            | some file => (some file, cs, depth)
            | none => found)

/-- The mount point of a path, with the components that are left. -/
def mountPoint (root : TreeNode) (cs : List Str) : Option Nat × List Str × Nat :=
  mountWalk root cs 1 (root.value.file, cs, 0)

section Mount

variable {m : Mem} {sz : Nat}

theorem mountLoop_eq {stop : Nat} (hstop : stop = sz + 1) (cs : List Str) (n : Nat)
    (hn : cs.length < n) (node : TreeNode) (at_ depth : Nat) (file : Option Nat)
    (outpath outdepth : Nat) (rest : List Str) (h : Left m sz at_ cs)
    (hcs : ∀ c ∈ cs, Component pathSeparator c) (hfound : Left m sz outpath rest) :
    ∃ out, mountLoop m sz stop n node at_ depth (file, outpath, outdepth)
        = some ((mountWalk node cs depth (file, rest, outdepth)).1, out,
          (mountWalk node cs depth (file, rest, outdepth)).2.2)
      ∧ Left m sz out (mountWalk node cs depth (file, rest, outdepth)).2.1 := by
  induction cs generalizing n node at_ depth file outpath outdepth rest with
  | nil =>
      obtain ⟨n, rfl⟩ := Nat.exists_eq_succ_of_ne_zero (Nat.ne_of_gt hn)
      have hlen : at_ + 0 = sz + 1 := h.2
      refine ⟨outpath, ?_, hfound⟩
      rw [mountLoop, if_neg (by omega)]
      rfl
  | cons c cs ih =>
      obtain ⟨n, rfl⟩ := Nat.exists_eq_succ_of_ne_zero (Nat.ne_of_gt (Nat.zero_lt_of_lt hn))
      have htotal := h.total
      rw [mountLoop, if_pos (by omega), h.readStr, mountWalk]
      cases node.children.find? fun tchild => tchild.value.name = c with
      | none => exact ⟨outpath, rfl, hfound⟩
      | some tchild =>
          have hrest := (List.forall_mem_cons.mp hcs).2
          dsimp only
          rw [h.strlen, Option.bind_eq_bind, Option.bind_some]
          cases tchild.value.file with
          | none =>
              exact ih n (Nat.lt_of_succ_lt_succ hn) _ _ _ _ _ _ _ h.tail hrest hfound
          | some file =>
              exact ih n (Nat.lt_of_succ_lt_succ hn) _ _ _ _ _ _ _ h.tail hrest h.tail

/-- What is left behind the mount point is the end of the path, and the depth says
how much of it. -/
theorem mountWalk_suffix (cs all : List Str) (node : TreeNode) (depth : Nat) (file : Option Nat)
    (rest : List Str) (outdepth : Nat) (hcs : ∃ front, front ++ cs = all ∧ front.length + 1 = depth)
    (hrest : ∃ front, front ++ rest = all ∧ front.length = outdepth) :
    ∃ front, front ++ (mountWalk node cs depth (file, rest, outdepth)).2.1 = all
      ∧ front.length = (mountWalk node cs depth (file, rest, outdepth)).2.2 := by
  induction cs generalizing node depth file rest outdepth with
  | nil => exact hrest
  | cons c cs ih =>
      obtain ⟨front, hall, hdepth⟩ := hcs
      have hnext : (front ++ [c]) ++ cs = all := by
        rw [List.append_assoc]
        exact hall
      rw [mountWalk]
      cases node.children.find? fun tchild => tchild.value.name = c with
      | none => exact hrest
      | some tchild =>
          have hfront : (front ++ [c]).length = depth := by
            rw [List.length_append, List.length_singleton, hdepth]
          dsimp only
          cases tchild.value.file with
          | none => exact ih _ _ _ _ _ ⟨front ++ [c], hnext, by rw [hfront]⟩ hrest
          | some file =>
              exact ih _ _ _ _ _ ⟨front ++ [c], hnext, by rw [hfront]⟩ ⟨front ++ [c], hnext, hfront⟩

/-- `get_mount_point` finds the mount point of the path. -/
theorem getMountPoint_eq (root : TreeNode) {cs : List Str} (h : Left m sz 1 cs)
    (hcs : ∀ c ∈ cs, Component pathSeparator c) :
    ∃ out, getMountPoint root m sz cs.length 1
        = some ((mountPoint root cs).1, out, (mountPoint root cs).2.2)
      ∧ Left m sz out (mountPoint root cs).2.1 := by
  rw [getMountPoint, skipStrings_eq h, Option.bind_eq_bind, Option.bind_some]
  exact mountLoop_eq rfl cs _ (Nat.lt_succ_self _) root 1 1 _ _ _ _ h hcs h

theorem mountPoint_suffix (root : TreeNode) (cs : List Str) :
    ∃ front, front ++ (mountPoint root cs).2.1 = cs
      ∧ front.length = (mountPoint root cs).2.2 :=
  mountWalk_suffix cs cs root 1 _ cs 0 ⟨[], rfl, rfl⟩ ⟨[], rfl, rfl⟩

end Mount

section Lookup

variable {δ σ : Type} (D : Drivers δ σ)

/-- The search from a node on, for the components that are left. -/
def lookup (recur : Recur δ σ) (pathDepth flags symlinkDepth : Nat) :
    List Str → Kernel δ σ → Nat → Option (Option Nat × Kernel δ σ)
  | [], k, node => do
      match ← visit D recur (some []) pathDepth flags symlinkDepth k node pathDepth with
      | (none, k) => some (none, k)
      | (some node, k) => some (some node, fsOpen D k node flags)
  | c :: rest, k, node => do
      match ← visit D recur (some []) pathDepth flags symlinkDepth k node
          (pathDepth - (rest.length + 1)) with
      | (none, k) => some (none, k)
      | (some node, k) =>
          match fsFinddir D k node c with
          | (none, k) => some (none, setErrno (kfree k node) ENOENT)
          | (some next, k) => lookup recur pathDepth flags symlinkDepth rest (kfree k node) next

/-- The search for a path, for at most `n` calls inside one another. -/
def search (root : TreeNode) : Nat → Kernel δ σ → Option Str → Nat → Nat → Str →
    Option (Option Nat × Kernel δ σ)
  | 0, _, _, _, _, _ => none
  | _ + 1, k, none, _, _, _ => some (none, setErrno k EINVAL)
  | n + 1, k, some file, flags, symlinkDepth, cwd =>
      let cs := resolve cwd file
      if cs = [] then
        let (rootClone, k) := cloneNode D k (root.value.file.getD 0)
        some (some rootClone, fsOpen D k rootClone flags)
      else
        match mountPoint root cs with
        | (none, _, _) => some (none, setErrno k ENOENT)
        | (some last, rest, _) =>
            let (node, k) := cloneNode D k last
            lookup D (fun k target relpath =>
                search root n k (some target) 0 (symlinkDepth + 1) relpath)
              cs.length flags symlinkDepth rest k node

variable {D}

/-- The loop is the search for what is left of the path, and takes a turn more than
there are components left. -/
theorem kopenLoop_eq {recur : Recur δ σ} {path : Mem} {sz flags symlinkDepth : Nat} {cs : List Str}
    (hcs : ∀ c ∈ cs, Component pathSeparator c) (h0 : path 0 = 0) (hpath : Left path sz 1 cs)
    (rest : List Str) (n : Nat) (hn : rest.length < n) (k : Kernel δ σ) (node pathHead depth : Nat)
    (hrest : Left path sz pathHead rest) (hsub : ∀ c ∈ rest, c ∈ cs)
    (hdepth : depth + rest.length = cs.length) :
    kopenLoop D recur path sz cs.length flags symlinkDepth n k node pathHead depth
      = lookup D recur cs.length flags symlinkDepth rest k node := by
  induction rest generalizing n k node pathHead depth with
  | nil =>
      obtain ⟨n, rfl⟩ := Nat.exists_eq_succ_of_ne_zero (Nat.ne_of_gt hn)
      obtain rfl : depth = cs.length := hdepth
      rw [kopenLoop, relpathOf_eq h0 hpath hcs (Nat.le_refl _), lookup]
      simp only [or_true, if_true]
  | cons c rest ih =>
      obtain ⟨n, rfl⟩ := Nat.exists_eq_succ_of_ne_zero (Nat.ne_of_gt (Nat.zero_lt_of_lt hn))
      rw [List.length_cons] at hdepth
      have hcomp : ∀ c' ∈ c :: rest, Component pathSeparator c' := fun c' hc' => hcs c' (hsub c' hc')
      have hmore : ¬ (pathHead ≥ sz ∨ depth = cs.length) := by
        rintro (hge | heq)
        · exact List.cons_ne_nil _ _ ((hrest.head_iff hcomp).mp hge)
        · omega
      have hsubdepth : cs.length - (rest.length + 1) = depth := by omega
      have hnext : depth + 1 < cs.length + 1 := by omega
      rw [kopenLoop, relpathOf_eq h0 hpath hcs (by omega), lookup, hsubdepth]
      simp only [if_neg hmore, if_pos hnext, hrest.readStr, hrest.strlen, Option.bind_eq_bind,
        Option.bind_some]
      have hloop : ∀ k node, kopenLoop D recur path sz cs.length flags symlinkDepth n k node
          (pathHead + c.length + 1) (depth + 1)
          = lookup D recur cs.length flags symlinkDepth rest k node :=
        fun k node => ih n (Nat.lt_of_succ_lt_succ hn) k node _ _ hrest.tail
          (fun c' hc' => hsub c' (List.mem_cons_of_mem _ hc')) (by omega)
      simp only [hloop]

theorem pathOf_length_eq_one {cs : List Str} (h : ∀ c ∈ cs, Component pathSeparator c) :
    (pathOf cs).length = 1 ↔ cs = [] := by
  rw [pathOf]
  split
  · rename_i hnil
    exact ⟨fun _ => hnil, fun _ => rfl⟩
  · rename_i hne
    refine ⟨fun hlen => ?_, fun hnil => absurd hnil hne⟩
    obtain ⟨c, cs, rfl⟩ := List.exists_cons_of_ne_nil hne
    have hpos : 0 < c.length := List.length_pos_iff.mpr (h c List.mem_cons_self).ne_nil
    rw [render, List.flatMap_cons, List.length_append, List.length_cons] at hlen
    omega

/-- `kopen_recur` is the search, with a turn of the loop for each component of the
path, and one more. -/
theorem kopenRecur_eq (root : TreeNode) {passes : Nat → Nat} (hpasses : ∀ d, d + 1 ≤ passes d) :
    ∀ (n : Nat) (k : Kernel δ σ) (file : Option Str) (flags symlinkDepth : Nat) (cwd : Str),
      kopenRecur D root passes n k file flags symlinkDepth cwd
        = search D root n k file flags symlinkDepth cwd := by
  intro n
  induction n with
  | zero => intro k file flags symlinkDepth cwd; rfl
  | succ n ih =>
      intro k file flags symlinkDepth cwd
      cases file with
      | none => rfl
      | some file =>
          have hcs : ∀ c ∈ resolve cwd file, Component pathSeparator c :=
            fun c hc => resolve_component hc
          rw [kopenRecur, canonicalizePath_eq, Option.bind_eq_bind, Option.bind_some, search]
          dsimp only
          by_cases hnil : resolve cwd file = []
          · rw [if_pos ((pathOf_length_eq_one hcs).mpr hnil), if_pos hnil]
          rw [if_neg (fun hlen => hnil ((pathOf_length_eq_one hcs).mp hlen)), if_neg hnil]
          have hpathOf : pathOf (resolve cwd file) = render pathSeparator (resolve cwd file) :=
            if_neg hnil
          generalize resolve cwd file = cs at hcs hnil hpathOf
          rw [hpathOf]
          obtain ⟨path, depth, hchop⟩ : ∃ path depth, chop (render pathSeparator cs).length 0
              (bytes (render pathSeparator cs)) 0 = (path, depth) := ⟨_, _, rfl⟩
          obtain ⟨rfl, h0, hleft⟩ := chop_render hcs hnil hchop
          obtain ⟨out, hmount, hout⟩ := getMountPoint_eq root hleft hcs
          obtain ⟨front, hfront, hdepth⟩ := mountPoint_suffix root cs
          rw [hchop]
          dsimp only
          rw [hmount, Option.bind_eq_bind, Option.bind_some]
          generalize mountPoint root cs = found at hout hfront hdepth
          obtain ⟨last, rest, outdepth⟩ := found
          dsimp only at hout hfront hdepth
          cases last with
          | none => rfl
          | some last =>
              have hlen : outdepth + rest.length = cs.length := by
                rw [← hdepth, ← hfront, List.length_append]
              have hrest : rest.length < passes cs.length := by
                have := hpasses cs.length
                omega
              have hrecur : (fun k target relpath =>
                    kopenRecur D root passes n k (some target) 0 (symlinkDepth + 1) relpath)
                  = fun k target relpath =>
                    search D root n k (some target) 0 (symlinkDepth + 1) relpath :=
                funext fun k => funext fun target => funext fun relpath => ih _ _ _ _ _
              dsimp only
              rw [hrecur]
              exact kopenLoop_eq hcs h0 hleft rest _ hrest _ _ _ _ hout
                (fun c hc => hfront ▸ List.mem_append_right front hc) hlen

/-! ## Termination -/

theorem followLink_congr {recur recur' : Recur δ σ} {symlinkDepth : Nat}
    (h : symlinkDepth < maxSymlinkDepth → recur = recur') (relpath : Option Str)
    (pathDepth flags : Nat) (k : Kernel δ σ) (node depth : Nat) :
    followLink D recur relpath pathDepth flags symlinkDepth k node depth
      = followLink D recur' relpath pathDepth flags symlinkDepth k node depth := by
  by_cases hlt : symlinkDepth < maxSymlinkDepth
  · rw [h hlt]
  · rw [followLink, followLink, if_pos (Nat.le_of_not_lt hlt), if_pos (Nat.le_of_not_lt hlt)]

/-- A search as deep as links may nest does not begin another one. -/
theorem visit_congr {recur recur' : Recur δ σ} {symlinkDepth : Nat}
    (h : symlinkDepth < maxSymlinkDepth → recur = recur') (relpath : Option Str)
    (pathDepth flags : Nat) (k : Kernel δ σ) (node depth : Nat) :
    visit D recur relpath pathDepth flags symlinkDepth k node depth
      = visit D recur' relpath pathDepth flags symlinkDepth k node depth := by
  rw [visit, visit, followLink_congr h]

theorem lookup_congr {recur recur' : Recur δ σ} {symlinkDepth : Nat}
    (h : symlinkDepth < maxSymlinkDepth → recur = recur') (pathDepth flags : Nat) (rest : List Str)
    (k : Kernel δ σ) (node : Nat) :
    lookup D recur pathDepth flags symlinkDepth rest k node
      = lookup D recur' pathDepth flags symlinkDepth rest k node := by
  induction rest generalizing k node with
  | nil => rw [lookup, lookup, visit_congr h]
  | cons c rest ih => simp only [lookup, visit_congr h, ih]

/-- A turn of the loop ends where the searches inside it do. -/
theorem visit_ends {recur : Recur δ σ} {symlinkDepth : Nat}
    (h : symlinkDepth < maxSymlinkDepth → ∀ k target relpath, ∃ r, recur k target relpath = some r)
    (relpath : Str) (pathDepth flags : Nat) (k : Kernel δ σ) (node depth : Nat) :
    ∃ r, visit D recur (some relpath) pathDepth flags symlinkDepth k node depth = some r := by
  rw [visit]
  split
  · rw [followLink]
    split
    · exact ⟨_, rfl⟩
    · split
      · exact ⟨_, rfl⟩
      · rename_i hlt
        dsimp only
        split
        · exact ⟨_, rfl⟩
        · split
          · exact ⟨_, rfl⟩
          · obtain ⟨⟨found, k'⟩, hr⟩ := h (Nat.lt_of_not_le hlt)
              (kfree (fsReadlink D k node maxSymlinkSize).2.2 node)
              (readStr (fsReadlink D k node maxSymlinkSize).2.1 0
                ((fsReadlink D k node maxSymlinkSize).1.toNat + 1)) relpath
            rw [Option.bind_eq_bind, Option.bind_some, hr, Option.bind_eq_bind, Option.bind_some]
            cases found with
            | none => exact ⟨_, rfl⟩
            | some found => exact ⟨_, rfl⟩
  · exact ⟨_, rfl⟩

theorem lookup_ends {recur : Recur δ σ} {symlinkDepth : Nat}
    (h : symlinkDepth < maxSymlinkDepth → ∀ k target relpath, ∃ r, recur k target relpath = some r)
    (pathDepth flags : Nat) (rest : List Str) (k : Kernel δ σ) (node : Nat) :
    ∃ r, lookup D recur pathDepth flags symlinkDepth rest k node = some r := by
  induction rest generalizing k node with
  | nil =>
      obtain ⟨⟨found, k'⟩, hr⟩ := visit_ends h [] pathDepth flags k node pathDepth
      rw [lookup, hr, Option.bind_eq_bind, Option.bind_some]
      cases found with
      | none => exact ⟨_, rfl⟩
      | some found => exact ⟨_, rfl⟩
  | cons c rest ih =>
      obtain ⟨⟨found, k'⟩, hr⟩ :=
        visit_ends h [] pathDepth flags k node (pathDepth - (rest.length + 1))
      rw [lookup, hr, Option.bind_eq_bind, Option.bind_some]
      cases found with
      | none => exact ⟨_, rfl⟩
      | some found =>
          dsimp only
          split
          · exact ⟨_, rfl⟩
          · exact ih _ _

theorem search_step (root : TreeNode) (n n' symlinkDepth : Nat)
    (h : symlinkDepth < maxSymlinkDepth → ∀ (k : Kernel δ σ) target relpath,
      search D root n k (some target) 0 (symlinkDepth + 1) relpath
          = search D root n' k (some target) 0 (symlinkDepth + 1) relpath
        ∧ ∃ r, search D root n' k (some target) 0 (symlinkDepth + 1) relpath = some r)
    (k : Kernel δ σ) (file : Option Str) (flags : Nat) (cwd : Str) :
    search D root (n + 1) k file flags symlinkDepth cwd
        = search D root (n' + 1) k file flags symlinkDepth cwd
      ∧ ∃ r, search D root (n' + 1) k file flags symlinkDepth cwd = some r := by
  cases file with
  | none => exact ⟨rfl, _, rfl⟩
  | some file =>
      rw [search, search]
      dsimp only
      split
      · exact ⟨rfl, _, rfl⟩
      · split
        · exact ⟨rfl, _, rfl⟩
        · refine ⟨lookup_congr (fun hlt => ?_) _ _ _ _ _, lookup_ends (fun hlt => ?_) _ _ _ _ _⟩
          · exact funext fun k => funext fun target => funext fun relpath =>
              (h hlt k target relpath).1
          · exact fun k target relpath => (h hlt k target relpath).2

/-- From `symlinkDepth` on, no more calls nest than links may still follow. -/
theorem search_ends (root : TreeNode) (t symlinkDepth : Nat)
    (ht : symlinkDepth + t = maxSymlinkDepth) (n : Nat) (hn : t < n) (k : Kernel δ σ)
    (file : Option Str) (flags : Nat) (cwd : Str) :
    search D root n k file flags symlinkDepth cwd
        = search D root (t + 1) k file flags symlinkDepth cwd
      ∧ ∃ r, search D root (t + 1) k file flags symlinkDepth cwd = some r := by
  induction t generalizing symlinkDepth n k file flags cwd with
  | zero =>
      obtain ⟨n, rfl⟩ := Nat.exists_eq_succ_of_ne_zero (Nat.ne_of_gt hn)
      have hdeep : ¬ symlinkDepth < maxSymlinkDepth := by omega
      exact search_step root n 0 symlinkDepth (fun hlt => absurd hlt hdeep) k file flags cwd
  | succ t ih =>
      obtain ⟨n, rfl⟩ := Nat.exists_eq_succ_of_ne_zero (Nat.ne_of_gt (Nat.zero_lt_of_lt hn))
      exact search_step root n (t + 1) symlinkDepth
        (fun _ k target relpath => ih (symlinkDepth + 1) (by omega) n (Nat.lt_of_succ_lt_succ hn)
          k (some target) 0 relpath) k file flags cwd

end Lookup

/-- **Every search ends.** Whatever the mount table, the links and the path: with
nine calls inside one another, and with a turn of the loop for each component and
one more in each of them, `kopen_recur` returns, and with more of either it does
the same. -/
theorem kopen_terminates {δ σ : Type} (D : Drivers δ σ) (root : TreeNode) (k : Kernel δ σ)
    (path : Option Str) (flags : Nat) (cwd : Str) :
    ∃ r, ∀ n passes, maxSymlinkDepth + 1 ≤ n → (∀ pathDepth, pathDepth + 1 ≤ passes pathDepth) →
      kopenRecur D root passes n k path flags 0 cwd = some r := by
  obtain ⟨-, r, hr⟩ := search_ends root maxSymlinkDepth 0 (Nat.zero_add _)
    (maxSymlinkDepth + 1) (Nat.lt_succ_self _) k path flags cwd
  refine ⟨r, fun n passes hn hpasses => ?_⟩
  rw [kopenRecur_eq root hpasses,
    (search_ends root maxSymlinkDepth 0 (Nat.zero_add _) n hn k path flags cwd).1, hr]

end Kopen

end Shitos
