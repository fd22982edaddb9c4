import Shitos.VfsMount

/-!
# Opening and listing what is mounted

Behind any run of mounts, `kopen` starts at the file that was mounted last at the longest
mounted prefix of its path (`kopen_follows_mounts`), and a directory that
`vfs_map_directory` has made lists the names below it (`mapped_directory_lists`).
-/

namespace Shitos

namespace Vfs

open Shitos.Path Components Kopen

/-! ## Opening a path -/

section Open

variable {δ σ : Type} (D : Drivers δ σ)

/-- One `finddir` for each name from a node on, and the node at the end is opened. -/
def findAll : List Str → Kernel δ σ → Nat → Option Nat × Kernel δ σ
  | [], k, node => (some node, fsOpen D k node 0)
  | c :: cs, k, node =>
      match fsFinddir D k node c with
      | (none, k) => (none, setErrno (kfree k node) ENOENT)
      | (some next, k) => findAll cs (kfree k node) next

/-- The names behind a mount point are looked up from a copy of its node on. -/
def openAt (k : Kernel δ σ) (found : Option Nat × List Str × Nat) : Option Nat × Kernel δ σ :=
  match found.1 with
  | none => (none, setErrno k ENOENT)
  | some file => findAll D found.2.1 (cloneNode D k file).2 (cloneNode D k file).1

/-- File systems without symbolic links: a node that is found is fresh, opening it keeps
its reference count, and the allocator leaves the nodes alone. -/
structure Linkless : Prop where
  kmalloc : ∀ k, (D.kmalloc k).2.nodes = k.nodes
  finddir : ∀ k node name next k', fsFinddir D k node name = (some next, k') →
    (k'.nodes next).refcount = 0 ∧ ¬ fsIslnk (k'.nodes next).flags
  onOpen : ∀ data f, D.onOpen data = some f → ∀ k node flags,
    ((f k node flags).nodes node).refcount = (k.nodes node).refcount

variable {D} {recur : Recur δ σ} {k : Kernel δ σ} {node : Nat}

theorem visit_of_not_link (h : ¬ fsIslnk (k.nodes node).flags) (relpath : Option Str)
    (pathDepth symlinkDepth depth : Nat) :
    visit D recur relpath pathDepth 0 symlinkDepth k node depth = some (some node, k) := by
  rw [visit]
  exact if_neg fun hf => h hf.1

theorem fsOpen_refcount (hD : Linkless D) (h : (k.nodes node).refcount = 0) (flags : Nat) :
    ((fsOpen D k node flags).nodes node).refcount = 1 := by
  rw [fsOpen]
  simp only [h, Int.le_refl, if_true]
  cases hopen : D.onOpen (k.nodes node).data with
  | none => simp
  | some f => simp [hD.onOpen _ _ hopen]

/-- Where there are no links, the search is one `finddir` after another. -/
theorem lookup_eq (hD : Linkless D) (pathDepth : Nat) (rest : List Str)
    (hnode : ¬ fsIslnk (k.nodes node).flags) :
    lookup D recur pathDepth 0 0 rest k node = some (findAll D rest k node) := by
  induction rest generalizing k node with
  | nil =>
      rw [lookup, visit_of_not_link hnode]
      rfl
  | cons c rest ih =>
      rw [lookup, visit_of_not_link hnode, Option.bind_eq_bind, Option.bind_some, findAll]
      dsimp only
      cases hfind : fsFinddir D k node c with
      | mk found k' =>
          cases found with
          | none => rfl
          | some next => exact @ih (kfree k' node) next (hD.finddir _ _ _ _ _ hfind).2

/-- What is opened has one reference, and a search that fails says so. -/
theorem findAll_result (hD : Linkless D) (rest : List Str) (hnode : (k.nodes node).refcount = 0) :
    (∃ found k', findAll D rest k node = (some found, k') ∧ (k'.nodes found).refcount = 1)
      ∨ ∃ k', findAll D rest k node = (none, k') ∧ k'.errno = ENOENT := by
  induction rest generalizing k node with
  | nil => exact Or.inl ⟨node, _, rfl, fsOpen_refcount hD hnode 0⟩
  | cons c rest ih =>
      rw [findAll]
      cases hfind : fsFinddir D k node c with
      | mk found k' =>
          cases found with
          | none => exact Or.inr ⟨_, rfl, rfl⟩
          | some next => exact @ih (kfree k' node) next (hD.finddir _ _ _ _ _ hfind).1

theorem cloneNode_fst_nodes (hD : Linkless D) (k : Kernel δ σ) (file : Nat) :
    (cloneNode D k file).2.nodes (cloneNode D k file).1
      = { k.nodes file with refcount := 0 } := by
  simp [cloneNode, hD.kmalloc k]

theorem openAt_result (hD : Linkless D) (k : Kernel δ σ) (found : Option Nat × List Str × Nat) :
    (∃ node k', openAt D k found = (some node, k') ∧ (k'.nodes node).refcount = 1)
      ∨ ∃ k', openAt D k found = (none, k') ∧ k'.errno = ENOENT := by
  rw [openAt]
  cases found.1 with
  | none => exact Or.inr ⟨_, rfl, rfl⟩
  | some file => exact findAll_result hD _ (by rw [cloneNode_fst_nodes hD])

/-- A search in a tree that has its root mounted, and no links. -/
theorem kopenRecur_openAt (hD : Linkless D) {root : TreeNode}
    (hroot : root.value.file ≠ none)
    (hlinks : ∀ cs file, fileAt root cs = some file → ¬ fsIslnk (k.nodes file).flags)
    {passes : Nat → Nat} (hpasses : ∀ d, d + 1 ≤ passes d) (n : Nat) (path cwd : Str) :
    kopenRecur D root passes (n + 1) k (some path) 0 0 cwd
      = some (openAt D k (mountPoint root (resolve cwd path))) := by
  rw [kopenRecur_eq root hpasses, search]
  dsimp only
  by_cases hnil : resolve cwd path = []
  · obtain ⟨file, hfile⟩ := Option.ne_none_iff_exists'.mp hroot
    rw [if_pos hnil, hnil, mountPoint, mountWalk, hfile]
    rfl
  · rw [if_neg hnil, openAt]
    have hpoint := mountPoint_isMountPoint root (resolve cwd path)
    generalize mountPoint root (resolve cwd path) = found at hpoint
    obtain ⟨last, rest, depth⟩ := found
    cases last with
    | none => rfl
    | some file =>
        have hlink : ¬ fsIslnk (k.nodes file).flags := by
          rcases hpoint with ⟨heq, -⟩ | ⟨j, -, file', hfile, heq, -⟩
          · cases heq
          · cases heq
            exact hlinks _ _ hfile
        refine lookup_eq hD _ rest ?_
        rw [cloneNode_fst_nodes hD]
        exact hlink

end Open

/-- **A path is opened as the mounts say.** After any calls that have mounted a root,
and on file systems without symbolic links, `kopen` goes on from the file that was
mounted last at the longest mounted prefix of the path, with one `finddir` for each
name that is left; what it opens has one reference, and where a step fails it returns
`NULL` with `ENOENT`. -/
theorem kopen_follows_mounts {δ σ : Type} {D : Drivers δ σ} (hD : Linkless D) (calls : List Call)
    (hroot : (Mounts.run calls).file [] ≠ none) {k : Kernel δ σ}
    (hlinks : ∀ m ∈ (Mounts.run calls).mounts, ¬ fsIslnk (k.nodes m.2).flags)
    {passes : Nat → Nat} (hpasses : ∀ d, d + 1 ≤ passes d) (n : Nat) (path cwd : Str) :
    ∃ v, run calls vfsInstall = some v
      ∧ ∃ found, IsMountPoint (Mounts.run calls).file (resolve cwd path) found
        ∧ kopenRecur D v.root passes (n + 1) k (some path) 0 0 cwd = some (openAt D k found)
        ∧ ((∃ node k', openAt D k found = (some node, k') ∧ (k'.nodes node).refcount = 1)
          ∨ ∃ k', openAt D k found = (none, k') ∧ k'.errno = ENOENT) := by
  obtain ⟨v, hrun, hv⟩ := run_holds calls Holds.install
  have htable : fileAt v.root = (Mounts.run calls).file := funext hv.file
  refine ⟨v, hrun, mountPoint v.root (resolve cwd path), ?_, ?_, openAt_result hD k _⟩
  · rw [← htable]
    exact mountPoint_isMountPoint v.root _
  · refine kopenRecur_openAt hD ?_ (fun cs file hfile => ?_) hpasses n path cwd
    · have h := hv.file []
      exact fun hnone => hroot (h.symm.trans hnone)
    · rw [htable, Mounts.file] at hfile
      obtain ⟨m, hm, rfl⟩ := Option.map_eq_some_iff.mp hfile
      exact hlinks m (List.mem_reverse.mp (List.mem_of_find?_eq_some hm))

/-- File systems in which every name of a directory is a new directory. -/
def treeDrivers : Drivers Unit Unit where
  kmalloc k := (9, k)
  buffer _ := fun _ => 0
  onOpen _ := none
  finddir _ := some fun k _ _ =>
    (some 7, { k with nodes := Function.update k.nodes 7 ⟨0o4, 0, ()⟩ })
  readlink _ := none

theorem treeDrivers_linkless : Linkless treeDrivers where
  kmalloc _ := rfl
  finddir k node name next k' h := by
    simp only [fsFinddir, treeDrivers] at h
    split at h
    · cases h
      simp [fsIslnk]
    · cases h
  onOpen data f h := by cases h

/-- `/a/b`, below a root and a directory that is mounted at `/a`. -/
theorem kopen_follows_mounts_small :
    ∃ v, run [.mount (some [pathSeparator]) 1, .mount (some [pathSeparator, ⟨97, by decide⟩]) 2]
        vfsInstall = some v
      ∧ ∃ found, IsMountPoint (Mounts.run [.mount (some [pathSeparator]) 1,
          .mount (some [pathSeparator, ⟨97, by decide⟩]) 2]).file
          (resolve [] [pathSeparator, ⟨97, by decide⟩, pathSeparator, ⟨98, by decide⟩]) found
        ∧ kopenRecur treeDrivers v.root (· + 1) (0 + 1)
            ⟨fun _ => ⟨0o4, 0, ()⟩, (), 0, []⟩
            (some [pathSeparator, ⟨97, by decide⟩, pathSeparator, ⟨98, by decide⟩]) 0 0 []
          = some (openAt treeDrivers ⟨fun _ => ⟨0o4, 0, ()⟩, (), 0, []⟩ found)
        ∧ ((∃ node k', openAt treeDrivers ⟨fun _ => ⟨0o4, 0, ()⟩, (), 0, []⟩ found
              = (some node, k') ∧ (k'.nodes node).refcount = 1)
          ∨ ∃ k', openAt treeDrivers ⟨fun _ => ⟨0o4, 0, ()⟩, (), 0, []⟩ found = (none, k')
            ∧ k'.errno = ENOENT) :=
  kopen_follows_mounts treeDrivers_linkless _ (by decide) (by simp [fsIslnk])
    (fun _ => Nat.le_refl _) 0 _ _
/-! ## Listing a mapped directory -/

theorem addName_nodup {names : List Str} (h : names.Nodup) (c : Str) : (addName names c).Nodup := by
  rw [addName]
  split
  · exact h
  · rename_i hc
    exact List.nodup_append.mpr ⟨h, by simp,
      fun a ha b hb heq => hc (List.mem_singleton.mp hb ▸ heq ▸ ha)⟩

theorem names_nodup (t : Mounts) (cs : List Str) : (t.names cs).Nodup := by
  rw [Mounts.names]
  induction t.mounts.filterMap fun m => nextName cs m.1 using List.reverseRecOn with
  | nil => exact List.nodup_nil
  | append_singleton l c ih =>
      rw [eraseDups_concat]
      exact addName_nodup ih c

/-- The entries of a mapped directory with these names: the name, as far as the entry has
room for it, and the number. -/
def listing (names : List Str) (idx : Int) : Option (Str × Nat) :=
  if idx = 0 then some (pathCurrent, 0)
  else if idx = 1 then some (pathGoUp, 1)
  else if idx < 0 then none
  else names[(idx - 2).toNat]?.map fun c => (c.take 256, (idx - 2).toNat)

/-- The string of an entry. -/
def Dirent.read (e : Dirent) : Str × Nat := (readStr e.dName 0 256, e.dIno)

theorem readStr_take (m : Mem) (c : Str) (p n : Nat)
    (h : ∀ j < n, j ≤ c.length → m (p + j) = bytes c j) : readStr m p n = c.take n := by
  induction n generalizing p c with
  | zero => simp [readStr]
  | succ n ih =>
      have hfirst : m p = bytes c 0 := h 0 (Nat.succ_pos n) (Nat.zero_le _)
      cases c with
      | nil =>
          rw [readStr, dif_neg (fun hne => hne hfirst)]
          rfl
      | cons x c =>
          have hx : m p = x.val := hfirst
          rw [readStr, dif_pos (hx ▸ x.property), List.take_succ_cons]
          refine congrArg₂ _ (Subtype.ext hx) (ih c (p + 1) fun j hj hle => ?_)
          have hnext := h (j + 1) (Nat.succ_lt_succ hj) (Nat.succ_le_succ hle)
          rw [bytes_cons_succ] at hnext
          rw [← hnext]
          congr 1
          omega

theorem read_copy (dir : Mem) (c : Str) (i n : Nat) (hn : min 256 (c.length + 1) ≤ n) :
    Dirent.read ⟨copy dir 0 (bytes c) 0 n, i⟩ = (c.take 256, i) := by
  refine Prod.ext (readStr_take _ c 0 256 fun j hj hle => ?_) rfl
  change copy dir 0 (bytes c) 0 n (0 + j) = bytes c j
  rw [copy, if_pos ⟨Nat.zero_le _, by omega⟩]
  congr 1
  omega

theorem mapperReaddir_read (dir : Mem) (d : TreeNode) (idx : Int) :
    (mapperReaddir dir (some d) idx).map Dirent.read
      = listing (d.children.map fun tchild => tchild.value.name) idx := by
  rw [mapperReaddir, listing]
  by_cases h0 : idx = 0
  · rw [if_pos h0, if_pos h0, Option.map_some, strcpyName, read_copy _ _ _ _ (by omega)]
    rfl
  rw [if_neg h0, if_neg h0]
  by_cases h1 : idx = 1
  · rw [if_pos h1, if_pos h1, Option.map_some, strcpyName, read_copy _ _ _ _ (by omega)]
    rfl
  rw [if_neg h1, if_neg h1]
  by_cases hneg : idx < 0
  · rw [if_pos hneg, if_pos (by omega)]
    rfl
  · rw [if_neg hneg, if_neg (by omega), List.getElem?_map, Option.map_map, Option.map_map]
    refine congrArg (Option.map · _) (funext fun tchild => ?_)
    exact read_copy _ _ _ _ (Nat.le_refl _)

theorem file_of_mem {t : Mounts} {cs : List Str} (h : cs ∈ t.mounts.map Prod.fst) :
    t.file cs ≠ none := by
  intro hnone
  rw [Mounts.file, Option.map_eq_none_iff, List.find?_eq_none] at hnone
  obtain ⟨m, hm, rfl⟩ := List.mem_map.mp h
  simpa using hnone m (List.mem_reverse.mpr hm)

/-- **A mapped directory lists what is mounted below it.** After any calls, `.` and `..`
come first, and then each name that follows the directory's path in the path of a mount,
once, in the order in which the names first came. -/
theorem mapped_directory_lists (calls : List Call) :
    ∃ v, run calls vfsInstall = some v ∧ ∀ f cs, (Mounts.run calls).device f = some cs →
      v.device f = some cs
      ∧ (∀ dir idx, (mapperReaddir dir (nodeAt v.root cs) idx).map Dirent.read
        = listing ((Mounts.run calls).names cs) idx)
      ∧ ((Mounts.run calls).names cs).Nodup
      ∧ ∀ c, c ∈ (Mounts.run calls).names cs
        ↔ ∃ m ∈ (Mounts.run calls).mounts, cs ++ [c] <+: m.1 := by
  obtain ⟨v, hrun, hv⟩ := run_holds calls Holds.install
  refine ⟨v, hrun, fun f cs hf => ⟨?_, fun dir idx => ?_, names_nodup _ _, fun c => mem_names⟩⟩
  · rw [hv.device]
    exact hf
  · have hfile : fileAt v.root cs ≠ none := by
      rw [hv.file]
      exact file_of_mem (hv.entry f cs hf)
    have hnames : childrenAt v.root cs = (Mounts.run calls).names cs := hv.names cs
    cases hnode : nodeAt v.root cs with
    | none => exact absurd (by rw [fileAt, hnode]; rfl) hfile
    | some d =>
        rw [mapperReaddir_read, ← hnames, childrenAt, hnode]
        rfl

end Vfs

end Shitos
