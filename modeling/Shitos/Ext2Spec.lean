import Mathlib.Logic.Function.Basic
import Shitos.Client
import Shitos.Ext2Node

/-!
# What the calls are for

A file system as its clients see it: numbered nodes with an owner and permissions,
that are files, directories or links. A file is a string of bytes, a directory maps
names to nodes, a link has a target. `Step` says what a call does to the nodes and
what it returns; `Legal` when it may be made. Where a new node gets its number from is
left open, and so is the size of a directory.
-/

namespace Shitos

namespace Ext2

/-- What a node holds. -/
inductive Body where
  | file (bytes : List UInt8)
  | dir (names : List UInt8 → Option Nat)
  | link (target : List UInt8)

structure Node where
  mode : Nat
  uid : Nat
  gid : Nat
  links : Nat
  body : Body

/-- The nodes of a file system, by number. -/
abbrev Nodes := Nat → Option Node

namespace Nodes

def IsFile (A : Nodes) (t : Nat) (bytes : List UInt8) : Prop :=
  ∃ n, A t = some n ∧ n.body = .file bytes

def IsDir (A : Nodes) (d : Nat) (names : List UInt8 → Option Nat) : Prop :=
  ∃ n, A d = some n ∧ n.body = .dir names

def IsLink (A : Nodes) (t : Nat) (target : List UInt8) : Prop :=
  ∃ n, A t = some n ∧ n.body = .link target

/-- Changes node `t`. -/
def edit (A : Nodes) (t : Nat) (change : Node → Node) : Nodes :=
  Function.update A t ((A t).map change)

/-- Changes what node `t` holds. -/
def setBody (A : Nodes) (t : Nat) (body : Body) : Nodes :=
  A.edit t fun n => { n with body := body }

end Nodes

/-- What a directory has when `name` leads to `t`, or nowhere. -/
def Body.setName (name : List UInt8) (t : Option Nat) : Body → Body
  | .dir names => .dir (Function.update names name t)
  | body => body

/-- Makes `name` in directory `d` lead to `t`, or nowhere. -/
def Nodes.setName (A : Nodes) (d : Nat) (name : List UInt8) (t : Option Nat) : Nodes :=
  A.edit d fun n => { n with body := n.body.setName name t }

/-- The bytes after `sz` bytes of `buf` have been written at `off`, with zeros between
the end and `off`. -/
def overwrite (bytes : List UInt8) (off sz : Nat) (buf : Mem) : List UInt8 :=
  (List.range (max bytes.length (off + sz))).map fun x =>
    if off ≤ x ∧ x < off + sz then buf (x - off) else bytes.getD x 0

/-- The buffer after a read at `off`. -/
def readInto (bytes : List UInt8) (off sz : Nat) (buf : Mem) : Mem := fun i =>
  if i < min sz (bytes.length - off) then bytes.getD (off + i) 0 else buf i

/-- The names `.` and `..` in directory `t`, which is in directory `d`. -/
def dotNames (t d : Nat) (name : List UInt8) : Option Nat :=
  if name = [46] then some t else if name = [46, 46] then some d else none

/-- A node made by `mknod` in directory `d`, with number `t`. -/
def newNode (mode t d : Nat) : Node :=
  if mode &&& 0xf000 = 0x4000 then ⟨mode % 2 ^ 16, 0, 0, 3, .dir (dotNames t d)⟩
  else ⟨mode % 2 ^ 16, 0, 0, 1, .file []⟩

/-- The sizes that node `n` may be said to have. -/
def Node.HasSize (n : Node) (sz : Nat) : Prop :=
  match n.body with
  | .file bytes => sz = bytes.length
  | .dir _ => True
  | .link target => sz = target.length

/-- What looking a name up tells of the node it leads to. -/
def Node.stat (n : Node) (name : List UInt8) (t sz : Nat) : Option FsNode :=
  if t = badIno then none
  else
    (ifFlag n.mode).map fun flags =>
      ⟨t, name, n.mode &&& 0o7777, sz, n.uid, n.gid, n.links, flags⟩

/-- What calls do. -/
inductive Step (A : Nodes) : Op → Reply → Nodes → Prop
  | read {t off sz : Nat} {buf : Mem} {bytes : List UInt8} (h : A.IsFile t bytes) :
      Step A (.read t off sz buf)
        (.data ↑(min sz (bytes.length - off)) (readInto bytes off sz buf)) A
  | write {t off sz : Nat} {buf : Mem} {bytes : List UInt8} (h : A.IsFile t bytes) :
      Step A (.write t off sz buf) (.ret sz) (A.setBody t (.file (overwrite bytes off sz buf)))
  | missing {d : Nat} {name : List UInt8} {names : List UInt8 → Option Nat} (h : A.IsDir d names)
      (hname : names name = none) : Step A (.finddir d name) (.node none) A
  | found {d t sz : Nat} {name : List UInt8} {names : List UInt8 → Option Nat} {n : Node}
      (h : A.IsDir d names) (hname : names name = some t) (ht : A t = some n)
      (hsz : n.HasSize sz) : Step A (.finddir d name) (.node (n.stat name t sz)) A
  | readlink {t sz : Nat} {buf : Mem} {target : List UInt8} (h : A.IsLink t target) :
      Step A (.readlink t sz buf) (.data ↑(min sz target.length) (linkText target sz buf)) A
  | mknod {d t mode : Nat} {name : List UInt8} (ht : A t = none) :
      Step A (.mknod d name mode) (.ret 0)
        (Function.update (A.setName d name (some t)) t (some (newNode mode t d)))
  | unlinkMissing {d : Nat} {name : List UInt8} {names : List UInt8 → Option Nat}
      (h : A.IsDir d names) (hname : names name = none) :
      Step A (.unlink d name) (.ret enoent) A
  | unlink {d t : Nat} {name : List UInt8} {names : List UInt8 → Option Nat} (h : A.IsDir d names)
      (hname : names name = some t) : Step A (.unlink d name) (.ret 0) (A.setName d name none)
  | linkDir {d t : Nat} {name : List UInt8} {names : List UInt8 → Option Nat}
      (h : A.IsDir t names) : Step A (.link d name t) (.ret eisdir) A
  | link {d t : Nat} {name : List UInt8} (h : ∀ names, ¬A.IsDir t names) :
      Step A (.link d name t) (.ret 0)
        ((A.setName d name (some t)).edit t fun n => { n with links := (n.links + 1) % 2 ^ 16 })
  | symlink {d t : Nat} {name target : List UInt8} (ht : A t = none) :
      Step A (.symlink d name target) (.ret 0)
        (Function.update (A.setName d name (some t)) t (some ⟨0xa1ff, 0, 0, 1, .link target⟩))
  | chmod {t mode : Nat} :
      Step A (.chmod t mode) (.ret 0)
        (A.edit t fun n => { n with mode := n.mode &&& 0xf000 ||| mode })
  | chown {t uid gid : Nat} :
      Step A (.chown t uid gid) (.ret 0)
        (A.edit t fun n => { n with uid := uid % 2 ^ 16, gid := gid % 2 ^ 16 })

/-- A name that can be given to a node. -/
def GoodName (name : List UInt8) : Prop := 0 < name.length ∧ name.length < 256 ∧ 0 ∉ name

/-- The name can be entered in directory `d`. -/
def Nodes.Free (A : Nodes) (d : Nat) (name : List UInt8) : Prop :=
  ∃ names, A.IsDir d names ∧ names name = none ∧ GoodName name

/-- Which calls may be made. The length of a target is limited to 12 blocks of the
smallest size. -/
def Legal (A : Nodes) : Op → Prop
  | .read t off sz _ =>
      ∃ bytes, A.IsFile t bytes ∧ (0 < off ∨ 0 < bytes.length) ∧ 0 < sz ∧ off + sz < 2 ^ 31
  | .write t off sz _ => ∃ bytes, A.IsFile t bytes ∧ 0 < sz ∧ off + sz < 2 ^ 31
  | .finddir d name => ∃ names, A.IsDir d names ∧ 0 ∉ name
  | .readlink t sz _ => ∃ target, A.IsLink t target ∧ 0 < sz
  | .mknod d name mode => A.Free d name ∧ mode &&& 0xf000 ≠ 0xa000
  | .unlink d name => ∃ names, A.IsDir d names ∧ 0 ∉ name
      ∧ ∀ t n, names name = some t → A t = some n → (∀ names, n.body ≠ .dir names) ∧ n.links ≠ 0
  | .link d name t => A t ≠ none ∧ A.Free d name
  | .symlink d name target => A.Free d name ∧ 0 < target.length ∧ target.length ≤ 12 * 1024
  | .chmod t mode => A t ≠ none ∧ mode < 2 ^ 12
  | .chown t _ _ => A t ≠ none

/-- What the calls of a file system are for. -/
def contract : Contract Nodes Op Reply := ⟨Legal, Step⟩

/-! ## Nodes in order -/

/-- The type in `mode` is that of the body. -/
def Node.Typed (n : Node) : Prop :=
  match n.body with
  | .file _ => n.mode &&& 0xf000 ≠ 0x4000 ∧ n.mode &&& 0xf000 ≠ 0xa000
  | .dir _ => n.mode &&& 0xf000 = 0x4000
  | .link target => n.mode &&& 0xf000 = 0xa000 ∧ 0 < target.length ∧ target.length < 2 ^ 31

/-- Nodes are of their type, and no name leads nowhere. -/
structure Nodes.Tidy (A : Nodes) : Prop where
  typed : ∀ t n, A t = some n → n.Typed
  closed : ∀ d names name t, A.IsDir d names → names name = some t → A t ≠ none

end Ext2

end Shitos
