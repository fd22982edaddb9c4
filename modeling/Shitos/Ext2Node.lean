import Shitos.Ext2Symlink

/-!
# The calls of a node

The callbacks that `fnode_from_dirent` sets in an `fs_node_t`: `ext2fs_finddir`,
`ext2fs_mknod`, `ext2fs_link`, `ext2fs_chmod` and `ext2fs_chown`, beside those on the
contents of files and links. `Op` is a call of one of them, with the inode number that
the node has, and `exec` makes the call.
-/

namespace Shitos

namespace Ext2

/-- `EXT2_BAD_INO`. -/
def badIno : Nat := 1

/-- `i_uid`. -/
def iUid (ino : Mem) : Nat := rd16 ino 2

/-- `i_gid`. -/
def iGid (ino : Mem) : Nat := rd16 ino 24

def setIMode (ino : Mem) (v : Nat) : Mem := wr16 ino 0 v

def setIUid (ino : Mem) (v : Nat) : Mem := wr16 ino 2 v

def setIGid (ino : Mem) (v : Nat) : Mem := wr16 ino 24 v

/-! ## Looking a name up -/

/-- The fields of an `fs_node_t` that `fnode_from_dirent` fills in. The callbacks depend
on `flags`. -/
structure FsNode where
  inode : Nat
  name : List UInt8
  mask : Nat
  sz : Nat
  uid : Nat
  gid : Nat
  linksCount : Nat
  flags : Nat
deriving DecidableEq

/-- The flag of the type in `i_mode`; `none` is a bad type. -/
def ifFlag (mode : Nat) : Option Nat :=
  match mode &&& 0xf000 with
  | 0x8000 => some 8
  | 0x4000 => some 4
  | 0x6000 => some 6
  | 0x2000 => some 2
  | 0x1000 => some 1
  | 0xa000 => some 10
  | _ => none

/-- `fnode_from_dirent`, for the entry at `p` of `buf`; `none` is a fault. -/
def fnodeFromDirent (fs : Fs) (ino : Option Mem) (buf : Mem) (p : Nat) : Option (Option FsNode) :=
  if deInode buf p = 0 ∨ deInode buf p = badIno then some none
  else
    match ino.or (readInode fs (deInode buf p)) with
    | none => none
    | some ino =>
        some ((ifFlag (iMode ino)).map fun flags =>
          { inode := deInode buf p
            name := deName buf p
            mask := iMode ino &&& 0o7777
            sz := iSize ino
            uid := iUid ino
            gid := iGid ino
            linksCount := iLinksCount ino
            flags := flags })

/-- `ext2fs_finddir`. -/
def ext2fsFinddir (n : Nat) (fs : Fs) (no : Nat) (name : List UInt8) : Option (Option FsNode) :=
  match readInode fs no with
  | none => none
  | some ino =>
      match findDirentIn n fs ino name with
      | none => none
      | some none => some none
      | some (some c) => fnodeFromDirent fs (readInode fs (deInode c.buf c.p)) c.buf c.p

/-! ## New nodes and new names -/

/-- `EXT2_DIRENT_TYPE_DIR`. -/
def direntTypeDir : Nat := 2

/-- A new inode: `i_links_count` is 1 and `i_mode` is `mode`; all other fields are zero. -/
def newIno (mode : Nat) : Mem := setIMode (setILinksCount (fun _ => 0) 1) mode

/-- The entries `.` and `..` of a new directory. -/
def createDots (n : Nat) (f : File) (parent : Nat) : Option (Int × File) :=
  match createDirent2 n f f.no [46] direntTypeDir with
  | none => none
  | some (ret, f) =>
      if ret ≠ 0 then some (ret, f) else createDirent2 n f parent [46, 46] direntTypeDir

/-- `ext2fs_mknod`. -/
def ext2fsMknod (n : Nat) (fs : Fs) (no : Nat) (name : List UInt8) (mode : Nat) :
    Option (Int × Fs) :=
  if fs.rw = false then some (erofs, fs)
  else
    let (newinoNo, fs) := allocInode fs
    if newinoNo = 0 then some (enospc, fs)
    else
      let newino := newIno mode
      match createDirent n fs no newinoNo name direntTypeLink with
      | none => none
      | some (ret, fs) =>
          if ret ≠ 0 then some (ret, (freeInode fs newinoNo).2)
          else if IsDir newino then
            let newino := setILinksCount newino (iLinksCount newino + 2)
            match createDots n ⟨fs, newino, newinoNo, []⟩ no with
            | none => none
            | some (ret, f) =>
                if ret ≠ 0 then some (ret, f.fs) else some (0, (writeInode f.fs f.ino newinoNo).2)
          else some (0, (writeInode fs newino newinoNo).2)

/-- The `dirent_type` that `ext2fs_link` finds. -/
def direntTypeOf (mode : Nat) : Nat :=
  match mode &&& 0xf000 with
  | 0x8000 => 1
  | 0x2000 => 3
  | 0x6000 => 4
  | 0x1000 => 5
  | 0xc000 => 6
  | 0xa000 => 7
  | _ => 0

/-- `ext2fs_link`, with a target on the same device. -/
def ext2fsLink (n : Nat) (fs : Fs) (no : Nat) (name : List UInt8) (target : Nat) :
    Option (Int × Fs) :=
  if fs.rw = false then some (erofs, fs)
  else
    match readInode fs target with
    | none => none
    | some ino =>
        -- cannot make a hardlink to a directory
        if IsDir ino then some (eisdir, fs)
        else
          match createDirent n fs no target name (direntTypeOf (iMode ino)) with
          | none => none
          | some (ret, fs) =>
              if ret ≠ 0 then some (ret, fs)
              else
                let ino := setILinksCount ino ((iLinksCount ino + 1) % 2 ^ 16)
                some (0, (writeInode fs ino target).2)

/-! ## Permissions and owners -/

/-- `ext2fs_chmod`. -/
def ext2fsChmod (fs : Fs) (no mode : Nat) : Option (Int × Fs) :=
  if fs.rw = false then some (erofs, fs)
  else
    (readInode fs no).map fun ino =>
      (0, (writeInode fs (setIMode ino (iMode ino &&& 0xf000 ||| mode % 2 ^ 16)) no).2)

/-- `ext2fs_chown`. -/
def ext2fsChown (fs : Fs) (no uid gid : Nat) : Option (Int × Fs) :=
  if fs.rw = false then some (erofs, fs)
  else
    (readInode fs no).map fun ino =>
      (0, (writeInode fs (setIGid (setIUid ino (uid % 2 ^ 16)) (gid % 2 ^ 16)) no).2)

/-! ## Calls -/

/-- A call of a node. The number is the `inode` of the node. -/
inductive Op where
  | read (no off sz : Nat) (buf : Mem)
  | write (no off sz : Nat) (buf : Mem)
  | finddir (no : Nat) (name : List UInt8)
  | readlink (no sz : Nat) (buf : Mem)
  | mknod (no : Nat) (name : List UInt8) (mode : Nat)
  | unlink (no : Nat) (name : List UInt8)
  | link (no : Nat) (name : List UInt8) (target : Nat)
  | symlink (no : Nat) (name target : List UInt8)
  | chmod (no mode : Nat)
  | chown (no uid gid : Nat)

/-- What a call returns, with the buffer if it has been filled. -/
inductive Reply where
  | ret (ret : Int)
  | data (ret : Int) (buf : Mem)
  | node (node : Option FsNode)

/-- Makes a call; `none` is a fault, or a loop of more than `n` turns. -/
def exec (n : Nat) (fs : Fs) : Op → Option (Reply × Fs)
  | .read no off sz buf => (ext2fsRead fs no off sz buf).map fun (ret, buf) => (.data ret buf, fs)
  | .write no off sz buf => (ext2fsWrite n fs no off sz buf).map fun (ret, fs) => (.ret ret, fs)
  | .finddir no name => (ext2fsFinddir n fs no name).map fun node => (.node node, fs)
  | .readlink no sz buf => (ext2fsReadlink fs no sz buf).map fun (ret, buf) => (.data ret buf, fs)
  | .mknod no name mode => (ext2fsMknod n fs no name mode).map fun (ret, fs) => (.ret ret, fs)
  | .unlink no name => (ext2fsUnlink n fs no name).map fun (ret, fs) => (.ret ret, fs)
  | .link no name target => (ext2fsLink n fs no name target).map fun (ret, fs) => (.ret ret, fs)
  | .symlink no name target =>
      (ext2fsSymlink n fs no name target).map fun (ret, fs) => (.ret ret, fs)
  | .chmod no mode => (ext2fsChmod fs no mode).map fun (ret, fs) => (.ret ret, fs)
  | .chown no uid gid => (ext2fsChown fs no uid gid).map fun (ret, fs) => (.ret ret, fs)

end Ext2

end Shitos
