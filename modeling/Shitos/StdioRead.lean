import Shitos.Loop
import Shitos.StoreLog

/-!
# Reading from a FILE

`__stdio_read` delivers a character that has been pushed back, and then what
`syscall_read` returns, once or, in blocking mode, until the request is
satisfied. The results of `syscall_read` are any sequence that fits what is
asked for.

The value to be returned is assigned by each system call, and the pointer only
moves behind the character that has been pushed back. So the bytes of a second
part replace those of the first, and are counted without them: a request is
answered in order exactly if it is answered in one part (`reads_in_order_iff`).
-/

namespace Shitos

namespace Stdio

open StoreLog

/-- A result of `syscall_read`: an error, which is negative, or the bytes it has
stored. -/
inductive Reply
  | error (e : Nat)
  | bytes (l : List UInt8)

namespace Reply

def ret : Reply → Int
  | error e => Int.negSucc e
  | bytes l => l.length

def data : Reply → List UInt8
  | error _ => []
  | bytes l => l

end Reply

/-- What `syscall_read` returns, call by call, for the number of bytes that is
asked for. -/
structure Kernel where
  reply : Nat → Nat → Reply
  fits : ∀ k n, (reply k n).data.length ≤ n

/-- A FILE, as far as input uses it: `eof`, `err` and `block` are flags. -/
structure RFile where
  ungetc : Int
  eof : Bool
  err : Bool
  block : Bool
deriving DecidableEq

/-! ## The functions -/

/-- `ungetc`. -/
def ungetc (c : Int) (f : RFile) : Int × RFile :=
  if f.ungetc < 0 then (c % 256, { f with ungetc := c % 256 }) else (-1, f)

/-- The variables of `__stdio_read`, with its stores, and the calls of
`syscall_read` and the bytes these have returned. -/
structure Reading where
  file : RFile
  buf : Nat
  sz : Nat
  r : Int
  log : StoreLog
  calls : Nat
  got : List UInt8

/-- The call of `syscall_read`, up to the test of `F_BLOCK`. -/
def readPart (k : Kernel) (s : Reading) : Reading :=
  let reply := k.reply s.calls s.sz
  { s with
    file := if reply.ret ≤ 0 then { s.file with eof := true } else s.file
    sz := if reply.ret ≤ 0 then s.sz else s.sz - reply.ret.toNat
    r := reply.ret
    log := s.log ++ storeAt s.buf reply.data
    calls := s.calls + 1
    got := s.got ++ reply.data }

/-- The push-back path. -/
def readPushed (s : Reading) : Reading :=
  { s with
    file := { s.file with ungetc := -1 }
    buf := s.buf + 1
    sz := s.sz - 1
    r := s.r + 1
    log := s.log ++ [(s.buf, UInt8.ofNat s.file.ungetc.toNat)] }

/-- One turn of the loop. -/
def readTurn (k : Kernel) (s : Reading) : Turn Reading Reading :=
  if s.sz = 0 then .stop s
  else if 0 < s.file.ungetc then .next (readPushed s)
  else if !(readPart k s).file.block then .stop (readPart k s)
  else .next (readPart k s)

/-- `__stdio_read` as it begins. -/
def Reading.start (f : RFile) (buf sz : Nat) : Reading := ⟨f, buf, sz, 0, [], 0, []⟩

/-- At most `n` turns of `__stdio_read`. -/
def stdioRead (k : Kernel) (n : Nat) (f : RFile) (buf sz : Nat) : Ending Reading :=
  loop (readTurn k) n (.start f buf sz)

/-- `fread`. Without a FILE, or one that can be read from, it returns 0. -/
def fread (k : Kernel) (n : Nat) (p sz nmemb : Nat) : Option RFile → Option (Ending Reading)
  | none => none
  | some f => some (stdioRead k n f p (sz * nmemb % 2 ^ 32))

/-- The character that has been pushed back, if any, is in the FILE. -/
def Holds (f : RFile) : Option UInt8 → Prop
  | none => f.ungetc ≤ 0
  | some c => f.ungetc = c.toNat

theorem toNat_pos {c : UInt8} (hc : c ≠ 0) : (0 : Int) < c.toNat := by
  have hne : c.toNat ≠ 0 := fun h => hc (UInt8.toNat.inj h)
  omega

theorem Holds.ungetc_pos {f : RFile} {c : UInt8} (hp : Holds f (some c)) (hc : c ≠ 0) :
    0 < f.ungetc := by
  rw [show f.ungetc = c.toNat from hp]
  exact toNat_pos hc

theorem ungetc_holds {f : RFile} (hf : f.ungetc < 0) (c : Int) :
    Holds (ungetc c f).2 (some (UInt8.ofNat (c % 256).toNat)) := by
  have hc : (c % 256).toNat < 256 := by omega
  rw [ungetc, if_pos hf, Holds, UInt8.toNat_ofNat', Nat.mod_eq_of_lt hc]
  exact (Int.toNat_of_nonneg (Int.emod_nonneg c (by decide))).symm

/-! ## Turns -/

variable {k : Kernel} {s s' : Reading} {f : RFile} {buf sz : Nat}

theorem Reply.ret_toNat (reply : Reply) : reply.ret.toNat = reply.data.length := by
  cases reply with
  | error e => rfl
  | bytes l => rfl

theorem Reply.ret_nonpos {reply : Reply} : reply.ret ≤ 0 ↔ reply.data = [] := by
  cases reply with
  | error e =>
      simp only [Reply.ret, Reply.data, iff_true]
      exact Int.le_of_lt (Int.negSucc_lt_zero e)
  | bytes l => simp [Reply.ret, Reply.data]

theorem block_readPart : (readPart k s).file.block = s.file.block := by
  simp only [readPart]
  split <;> rfl

theorem ungetc_readPart : (readPart k s).file.ungetc = s.file.ungetc := by
  simp only [readPart]
  split <;> rfl

/-- What a system call returns is taken off what is asked for. -/
theorem sz_readPart : (readPart k s).sz = s.sz - (k.reply s.calls s.sz).data.length := by
  simp only [readPart, Reply.ret_toNat]
  split
  · rename_i hnone
    rw [Reply.ret_nonpos.mp hnone, List.length_nil, Nat.sub_zero]
  · rfl

theorem readTurn_end (h : s.sz = 0) : readTurn k s = .stop s := if_pos h

theorem readTurn_pushed (h : s.sz ≠ 0) (hc : 0 < s.file.ungetc) :
    readTurn k s = .next (readPushed s) := by
  rw [readTurn, if_neg h, if_pos hc]

theorem readTurn_once (h : s.sz ≠ 0) (hc : s.file.ungetc ≤ 0) (hb : s.file.block = false) :
    readTurn k s = .stop (readPart k s) := by
  rw [readTurn, if_neg h, if_neg (by omega), block_readPart, hb]
  rfl

theorem readTurn_block (h : s.sz ≠ 0) (hc : s.file.ungetc ≤ 0) (hb : s.file.block = true) :
    readTurn k s = .next (readPart k s) := by
  rw [readTurn, if_neg h, if_neg (by omega), block_readPart, hb]
  rfl

theorem loop_end {n : Nat} (h : s.sz = 0) (hloop : loop (readTurn k) n s = .done s') : s' = s := by
  cases n with
  | zero => cases hloop
  | succ n =>
      rw [loop_stop (readTurn_end h)] at hloop
      cases hloop
      rfl

/-! ## Whole reads -/

/-- Of the results for `n` bytes, the first that is not empty has all of them. -/
def Delivers (k : Kernel) (calls n : Nat) : Prop :=
  ∃ i, (∀ j < i, (k.reply (calls + j) n).data = []) ∧ (k.reply (calls + i) n).data.length = n

theorem Delivers.of_next {calls n : Nat} (hnone : (k.reply calls n).data = [])
    (h : Delivers k (calls + 1) n) : Delivers k calls n := by
  obtain ⟨i, hbefore, hall⟩ := h
  refine ⟨i + 1, fun j hj => ?_, ?_⟩
  · cases j with
    | zero => exact hnone
    | succ j =>
        rw [← hbefore j (Nat.lt_of_succ_lt_succ hj), Nat.add_assoc, Nat.add_comm 1]
  · rwa [Nat.add_assoc, Nat.add_comm 1] at hall

/-- In blocking mode a read that returns has got all it was asked for, and
returns the size of the last part. -/
theorem blocking_done {n : Nat} (hsz : s.sz ≠ 0) (hc : s.file.ungetc ≤ 0)
    (hb : s.file.block = true) (h : loop (readTurn k) n s = .done s') :
    s'.got.length = s.got.length + s.sz ∧ s'.r.toNat ≤ s.sz
      ∧ (s'.r.toNat = s.sz → Delivers k s.calls s.sz) := by
  induction n generalizing s with
  | zero => cases h
  | succ n ih =>
      have hfits := k.fits s.calls s.sz
      have hleft := @sz_readPart k s
      have hgot : (readPart k s).got.length
          = s.got.length + (k.reply s.calls s.sz).data.length := List.length_append
      rw [loop_next (readTurn_block hsz hc hb)] at h
      by_cases hend : (readPart k s).sz = 0
      · obtain rfl := loop_end hend h
        have hr : (readPart k s).r.toNat = (k.reply s.calls s.sz).data.length := Reply.ret_toNat _
        refine ⟨by omega, by omega, fun hall => ⟨0, fun j hj => absurd hj (Nat.not_lt_zero j), ?_⟩⟩
        rw [Nat.add_zero, ← hr, hall]
      · obtain ⟨hlen, hle, hdel⟩ := ih hend (ungetc_readPart.trans_le hc) (block_readPart.trans hb) h
        refine ⟨by omega, by omega, fun hall => ?_⟩
        -- the last part can only be all of it if this one is empty
        have hnone : (k.reply s.calls s.sz).data.length = 0 := by omega
        have hsame : (readPart k s).sz = s.sz := by omega
        have hdel' := hdel (hall.trans hsame.symm)
        rw [hsame] at hdel'
        exact hdel'.of_next (List.eq_nil_of_length_eq_zero hnone)

/-- What is returned counts no more than the bytes that have been read. -/
theorem done_le {n : Nat} (hsz : s.sz ≠ 0) (hc : s.file.ungetc ≤ 0)
    (h : loop (readTurn k) n s = .done s') : s.got.length + s'.r.toNat ≤ s'.got.length := by
  cases hb : s.file.block with
  | true =>
      obtain ⟨hlen, hle, -⟩ := blocking_done hsz hc hb h
      omega
  | false =>
      cases n with
      | zero => cases h
      | succ n =>
          rw [loop_stop (readTurn_once hsz hc hb)] at h
          cases h
          have hr : (readPart k s).r.toNat = (k.reply s.calls s.sz).data.length :=
            Reply.ret_toNat _
          rw [hr, readPart, List.length_append]

/-- A request that is delivered in one part is stored and returned as a whole. -/
theorem finishes_of_delivers (hsz : s.sz ≠ 0) (hc : s.file.ungetc ≤ 0)
    (hb : s.file.block = true) (h : Delivers k s.calls s.sz) :
    ∃ s' l, Finishes (readTurn k) s s' ∧ l.length = s.sz ∧ s'.r = s.sz
      ∧ s'.got = s.got ++ l ∧ s'.log = s.log ++ storeAt s.buf l := by
  obtain ⟨i, hbefore, hall⟩ := h
  induction i generalizing s with
  | zero =>
      rw [Nat.add_zero] at hall
      have hend : (readPart k s).sz = 0 := by rw [sz_readPart, hall, Nat.sub_self]
      refine ⟨readPart k s, (k.reply s.calls s.sz).data,
        .of_next (readTurn_block hsz hc hb) (.of_stop (readTurn_end hend)), hall, ?_, rfl, rfl⟩
      have hr := Reply.ret_toNat (k.reply s.calls s.sz)
      show (k.reply s.calls s.sz).ret = s.sz
      omega
  | succ i ih =>
      have hnone : (k.reply s.calls s.sz).data = [] := hbefore 0 (Nat.succ_pos i)
      have hsame : (readPart k s).sz = s.sz := by
        rw [sz_readPart, hnone, List.length_nil, Nat.sub_zero]
      have hshift : ∀ j, s.calls + (j + 1) = (readPart k s).calls + j := fun j => by
        rw [readPart, Nat.add_assoc, Nat.add_comm 1]
      obtain ⟨s', l, hfin, hlen, hr, hgot, hlog⟩ := ih (hsame ▸ hsz)
        (ungetc_readPart.trans_le hc) (block_readPart.trans hb)
        (fun j hj => by rw [hsame, ← hshift]; exact hbefore (j + 1) (Nat.succ_lt_succ hj))
        (by rw [hsame, ← hshift]; exact hall)
      refine ⟨s', l, .of_next (readTurn_block hsz hc hb) hfin, hsame ▸ hlen, hsame ▸ hr, ?_, ?_⟩
      · simpa [readPart, hnone] using hgot
      · simpa [readPart, hnone, storeAt] using hlog

/-! ## The order of what is read -/

/-- A read returns, with the character that has been pushed back and the bytes
that the kernel has returned in what it counts, all of the request in blocking
mode, and nothing written behind the request. -/
def InOrder (k : Kernel) (m : Mem) (f : RFile) (buf sz : Nat) (pushed : Option UInt8) : Prop :=
  ∃ n s, stdioRead k n f buf sz = .done s
    ∧ bytes (after m s.log) buf s.r.toNat = (if sz = 0 then [] else pushed.toList) ++ s.got
    ∧ (f.block = true → s.r = sz ∨ s.r < 0)
    ∧ Within s.log buf (buf + sz)

theorem inOrder_zero (k : Kernel) (m : Mem) (f : RFile) (buf : Nat) (pushed : Option UInt8) :
    InOrder k m f buf 0 pushed :=
  ⟨1, .start f buf 0, loop_stop (readTurn_end rfl) 0, rfl, fun _ => Or.inl rfl, within_nil⟩

/-- Only the character that has been pushed back is counted, or only what comes
behind it. -/
theorem inOrder_pushed_iff {m : Mem} {c : UInt8} (hp : Holds f (some c)) (hsz : sz ≠ 0) :
    InOrder k m f buf sz (some c) ↔ c ≠ 0 ∧ sz = 1 := by
  have hfield : f.ungetc = c.toNat := hp
  constructor
  · rintro ⟨n, s, hloop, hbytes, -, -⟩
    have hcount := congrArg List.length hbytes
    simp only [length_bytes, hsz, if_false, Option.toList_some, List.length_append,
      List.length_singleton] at hcount
    by_cases hc : c = 0
    · -- a zero is taken for no character at all
      have hnone : (Reading.start f buf sz).file.ungetc ≤ 0 := by
        show f.ungetc ≤ 0
        rw [hfield, hc]
        exact Int.le_refl 0
      have hle := done_le hsz hnone hloop
      simp only [Reading.start, List.length_nil] at hle
      omega
    · refine ⟨hc, ?_⟩
      have hpos := hp.ungetc_pos hc
      cases n with
      | zero => cases hloop
      | succ n =>
          rw [stdioRead, loop_next (readTurn_pushed hsz hpos)] at hloop
          by_contra hmore
          have hleft : (readPushed (.start f buf sz)).sz ≠ 0 := by
            show sz - 1 ≠ 0
            omega
          have hle := done_le hleft (show (-1 : Int) ≤ 0 by decide) hloop
          simp only [readPushed, Reading.start, List.length_nil] at hle
          omega
  · rintro ⟨hc, rfl⟩
    have hpos := hp.ungetc_pos hc
    have hbyte : UInt8.ofNat f.ungetc.toNat = c := by
      rw [hfield, Int.toNat_natCast, UInt8.ofNat_toNat]
    refine ⟨2, readPushed (.start f buf 1), ?_, ?_, fun _ => Or.inl rfl, ?_⟩
    · rw [stdioRead, loop_next (readTurn_pushed hsz hpos)]
      exact loop_stop (readTurn_end rfl) 0
    · simp [readPushed, Reading.start, bytes, after, hbyte]
    · simp [readPushed, Reading.start]

/-- Without such a character there may be several system calls, and what they
return is in order if it comes in one part. -/
theorem inOrder_none_iff {m : Mem} (hp : Holds f none) (hsz : sz ≠ 0) :
    InOrder k m f buf sz none ↔ (f.block = true → Delivers k 0 sz) := by
  have hstart : (Reading.start f buf sz).file.ungetc ≤ 0 := hp
  constructor
  · rintro ⟨n, s, hloop, hbytes, -, -⟩ hb
    have hcount := congrArg List.length hbytes
    simp only [length_bytes, hsz, if_false, Option.toList_none, List.nil_append] at hcount
    obtain ⟨hlen, -, hdel⟩ := blocking_done hsz hstart hb hloop
    refine hdel (hcount.trans (hlen.trans ?_))
    exact Nat.zero_add sz
  · intro h
    cases hb : f.block with
    | true =>
        obtain ⟨s, l, ⟨n, hfin⟩, hlen, hr, hgot, hlog⟩ :=
          finishes_of_delivers hsz hstart hb (h hb)
        have hlen' : l.length = sz := hlen
        have hr' : s.r = l.length := hr.trans (congrArg Nat.cast hlen.symm)
        have hgot' : s.got = l := hgot
        have hlog' : s.log = storeAt buf l := hlog
        refine ⟨n, s, hfin, ?_, fun _ => Or.inl hr, ?_⟩
        · rw [hr', hgot', hlog', Int.toNat_natCast, bytes_after_storeAt]
          simp
        · rw [hlog']
          exact within_storeAt (Nat.le_refl buf) (Nat.le_of_eq (congrArg (buf + ·) hlen'))
    | false =>
        have hfits := k.fits 0 sz
        refine ⟨1, readPart k (.start f buf sz), loop_stop (readTurn_once hsz hstart hb) 0, ?_,
          fun hblock => absurd (hblock.symm.trans hb) (by decide), ?_⟩
        · simp only [readPart, Reading.start, Reply.ret_toNat, List.nil_append,
            bytes_after_storeAt]
          simp
        · simp only [readPart, Reading.start, List.nil_append]
          exact within_storeAt (Nat.le_refl buf) (by omega)

/-- Reads are in order exactly if the request is answered in one part: nothing
is asked for, or just the character that has been pushed back, or there is no
such character and what comes first is all that is needed. -/
theorem reads_in_order_iff (k : Kernel) (m : Mem) (f : RFile) (buf sz : Nat)
    (pushed : Option UInt8) (hp : Holds f pushed) :
    InOrder k m f buf sz pushed ↔ sz = 0 ∨ (∃ c, pushed = some c ∧ c ≠ 0 ∧ sz = 1)
      ∨ (pushed = none ∧ (f.block = true → Delivers k 0 sz)) := by
  by_cases hsz : sz = 0
  · obtain rfl := hsz
    exact iff_of_true (inOrder_zero k m f buf pushed) (Or.inl rfl)
  cases pushed with
  | some c =>
      rw [inOrder_pushed_iff hp hsz]
      simp [hsz]
  | none =>
      rw [inOrder_none_iff hp hsz]
      simp [hsz]

/-- A kernel that always returns `l`, as far as it is asked for. -/
def Kernel.always (l : List UInt8) : Kernel where
  reply := fun _ n => .bytes (l.take n)
  fits := fun _ n => List.length_take_le n l

theorem reads_in_order_iff_short :
    InOrder (.always [66, 67]) (fun _ => 0) ⟨-1, false, false, true⟩ 0x1000 3 none
      ↔ 3 = 0 ∨ (∃ c, (none : Option UInt8) = some c ∧ c ≠ 0 ∧ 3 = 1)
        ∨ ((none : Option UInt8) = none ∧ (true = true → Delivers (.always [66, 67]) 0 3)) :=
  reads_in_order_iff (.always [66, 67]) (fun _ => 0) ⟨-1, false, false, true⟩ 0x1000 3 none
    (show (-1 : Int) ≤ 0 by decide)

/-- Behind a character that has been pushed back, a read for three bytes returns 2
for the two bytes that follow it. -/
theorem pushed_not_in_order :
    ¬InOrder (.always [66, 67]) (fun _ => 0) ⟨65, false, false, false⟩ 0x1000 3 (some 65) := by
  intro h
  have hp : Holds ⟨65, false, false, false⟩ (some 65) := show (65 : Int) = 65 from rfl
  exact absurd ((inOrder_pushed_iff hp (by decide)).mp h).2 (by decide)

end Stdio

end Shitos
