import Mathlib.Algebra.Group.Nat.Defs
import Mathlib.Logic.Function.Basic

/-!
# Pipes

`pipe_read` and `pipe_write` on the ring buffer of `pipe_device_t`, for one
reader and one writer that interleave between any two turns of their loops,
as the keyboard interrupt and a system call do.

The state keeps the calls in progress and, beside the code's own data, what
the completed calls have returned and accepted. `Holds q` says that the bytes
`q` are queued, in order, from `read_ptr` on; each step keeps it, with one byte
more at the end or one less at the front (`Queued.step`), and all that the
code computes from the two pointers follows from it.
-/

namespace Shitos

namespace Pipe

/-! ## The device -/

/-- `pipe_device_t`. -/
structure PipeDevice where
  buf : Nat → UInt8
  writePtr : UInt32
  readPtr : UInt32
  sz : UInt32

namespace PipeDevice

/-- `pipe_size_p`. -/
def size (pipe : PipeDevice) : UInt32 :=
  if pipe.readPtr = pipe.writePtr then 0
  else if pipe.readPtr > pipe.writePtr then (pipe.sz - pipe.readPtr) + pipe.writePtr
  else pipe.writePtr - pipe.readPtr

/-- `pipe_avail_p`. -/
def avail (pipe : PipeDevice) : UInt32 :=
  if pipe.readPtr = pipe.writePtr then pipe.sz - 1
  else if pipe.readPtr > pipe.writePtr then pipe.readPtr - pipe.writePtr - 1
  else (pipe.sz - pipe.writePtr) + pipe.readPtr - 1

/-- The body of the loop of `pipe_read`: the byte, and the pipe after it. -/
def readByte (pipe : PipeDevice) : UInt8 × PipeDevice :=
  (pipe.buf pipe.readPtr.toNat, { pipe with readPtr := (pipe.readPtr + 1) % pipe.sz })

/-- The body of the loop of `pipe_write`. -/
def writeByte (pipe : PipeDevice) (c : UInt8) : PipeDevice :=
  { pipe with
    buf := Function.update pipe.buf pipe.writePtr.toNat c
    writePtr := (pipe.writePtr + 1) % pipe.sz }

end PipeDevice

/-- The device `pipe_create` makes; the buffer comes from `kmalloc`. -/
def create (sz : UInt32) (buf : Nat → UInt8) : PipeDevice := ⟨buf, 0, 0, sz⟩

/-! ## Calls in progress -/

/-- A call of `pipe_read`: its `sz`, and what is in `buf[0..read]`. -/
structure ReadCall where
  sz : Nat
  got : List UInt8

/-- A call of `pipe_write`: its `sz` bytes, and `written`. -/
structure WriteCall where
  bytes : List UInt8
  written : Nat

/-- `pipe_size_p(pipe) > 0 && read < sz`. -/
def ReadCall.Continues (pipe : PipeDevice) (r : ReadCall) : Prop :=
  pipe.size > 0 ∧ r.got.length < r.sz

/-- `pipe_avail_p(pipe) > 0 && written < sz`. -/
def WriteCall.Continues (pipe : PipeDevice) (w : WriteCall) : Prop :=
  pipe.avail > 0 ∧ w.written < w.bytes.length

/-- The pipe, the calls in progress, and what the completed calls returned
and accepted. -/
structure State where
  pipe : PipeDevice
  reader : Option ReadCall
  writer : Option WriteCall
  returned : List UInt8
  accepted : List UInt8

/-- A turn of one of the loops, or a call or return. -/
inductive Step : State → State → Prop where
  | callRead {s : State} (sz : Nat) : s.reader = none →
      Step s { s with reader := some ⟨sz, []⟩ }
  | readTurn {s : State} {r : ReadCall} : s.reader = some r → r.Continues s.pipe →
      Step s { s with
        pipe := s.pipe.readByte.2
        reader := some ⟨r.sz, r.got ++ [s.pipe.readByte.1]⟩ }
  | returnRead {s : State} {r : ReadCall} : s.reader = some r → ¬r.Continues s.pipe →
      Step s { s with reader := none, returned := s.returned ++ r.got }
  | callWrite {s : State} (bytes : List UInt8) : s.writer = none →
      Step s { s with writer := some ⟨bytes, 0⟩ }
  | writeTurn {s : State} {w : WriteCall} (hw : s.writer = some w) (hc : w.Continues s.pipe) :
      Step s { s with
        pipe := s.pipe.writeByte (w.bytes.get ⟨w.written, hc.2⟩)
        writer := some ⟨w.bytes, w.written + 1⟩ }
  | returnWrite {s : State} {w : WriteCall} : s.writer = some w → ¬w.Continues s.pipe →
      Step s { s with writer := none, accepted := s.accepted ++ w.bytes.take w.written }

/-- The states of the runs on a new pipe. -/
inductive Reach (sz : UInt32) (buf : Nat → UInt8) : State → Prop where
  | create : Reach sz buf ⟨create sz buf, none, none, [], []⟩
  | step {s s' : State} : Reach sz buf s → Step s s' → Reach sz buf s'

/-- All bytes read so far, those of the call in progress included. -/
def State.out (s : State) : List UInt8 :=
  s.returned ++ (s.reader.map ReadCall.got).getD []

/-- All bytes written so far. -/
def State.into (s : State) : List UInt8 :=
  s.accepted ++ (s.writer.map fun w => w.bytes.take w.written).getD []

/-! ## Pointer arithmetic -/

theorem toNat_add_of_lt {a b : UInt32} (h : a.toNat + b.toNat < 2 ^ 32) :
    (a + b).toNat = a.toNat + b.toNat := by
  rw [UInt32.toNat_add, Nat.mod_eq_of_lt h]

theorem toNat_sub_of_le {a b : UInt32} (h : b.toNat ≤ a.toNat) :
    (a - b).toNat = a.toNat - b.toNat :=
  UInt32.toNat_sub_of_le a b (UInt32.le_iff_toNat_le.mpr h)

theorem mod_of_lt_twice {x n : Nat} (h : x < n + n) : x % n = if x < n then x else x - n := by
  split
  · rename_i hlt
    exact Nat.mod_eq_of_lt hlt
  · rename_i hge
    rw [Nat.mod_eq_sub_mod (by omega), Nat.mod_eq_of_lt (by omega)]

/-- The next position in the ring. -/
theorem toNat_next {x sz : UInt32} (h : x.toNat < sz.toNat) :
    ((x + 1) % sz).toNat = (x.toNat + 1) % sz.toNat := by
  have hsz := sz.toNat_lt
  have hone : (1 : UInt32).toNat = 1 := rfl
  rw [UInt32.toNat_mod, toNat_add_of_lt (by omega), hone]

/-- Read as numbers, the two functions are the two distances in the ring. -/
theorem size_avail {pipe : PipeDevice} (hr : pipe.readPtr.toNat < pipe.sz.toNat)
    (hw : pipe.writePtr.toNat < pipe.sz.toNat) :
    pipe.size.toNat = (if pipe.readPtr.toNat ≤ pipe.writePtr.toNat then
        pipe.writePtr.toNat - pipe.readPtr.toNat
      else pipe.sz.toNat - pipe.readPtr.toNat + pipe.writePtr.toNat)
    ∧ pipe.size.toNat + pipe.avail.toNat = pipe.sz.toNat - 1 := by
  have hsz := pipe.sz.toNat_lt
  have hone : (1 : UInt32).toNat = 1 := rfl
  unfold PipeDevice.size PipeDevice.avail
  by_cases heq : pipe.readPtr = pipe.writePtr
  · rw [if_pos heq, if_pos heq, heq, if_pos (Nat.le_refl _), toNat_sub_of_le (by omega)]
    exact ⟨(Nat.sub_self _).symm, Nat.zero_add _⟩
  · have hne : pipe.readPtr.toNat ≠ pipe.writePtr.toNat := mt UInt32.toNat_inj.mp heq
    rw [if_neg heq, if_neg heq]
    by_cases hgt : pipe.readPtr > pipe.writePtr
    · rw [if_pos hgt, if_pos hgt]
      have hlt : pipe.writePtr.toNat < pipe.readPtr.toNat := UInt32.lt_iff_toNat_lt.mp hgt
      have hroom : (pipe.sz - pipe.readPtr).toNat = pipe.sz.toNat - pipe.readPtr.toNat :=
        toNat_sub_of_le (by omega)
      have hgap : (pipe.readPtr - pipe.writePtr).toNat
          = pipe.readPtr.toNat - pipe.writePtr.toNat := toNat_sub_of_le (by omega)
      rw [if_neg (by omega), toNat_add_of_lt (by omega), hroom, toNat_sub_of_le (by omega), hgap]
      omega
    · rw [if_neg hgt, if_neg hgt]
      have hlt : pipe.readPtr.toNat < pipe.writePtr.toNat := by
        have := mt UInt32.lt_iff_toNat_lt.mpr hgt
        omega
      have hroom : (pipe.sz - pipe.writePtr).toNat = pipe.sz.toNat - pipe.writePtr.toNat :=
        toNat_sub_of_le (by omega)
      have hfree : (pipe.sz - pipe.writePtr + pipe.readPtr).toNat
          = pipe.sz.toNat - pipe.writePtr.toNat + pipe.readPtr.toNat := by
        rw [toNat_add_of_lt (by omega), hroom]
      rw [if_pos (by omega), toNat_sub_of_le (by omega), toNat_sub_of_le (by omega), hfree]
      omega

/-! ## The queue -/

/-- The bytes `q` are queued. -/
structure Queued (pipe : PipeDevice) (q : List UInt8) : Prop where
  readPtr : pipe.readPtr.toNat < pipe.sz.toNat
  length : q.length < pipe.sz.toNat
  writePtr : pipe.writePtr.toNat = (pipe.readPtr.toNat + q.length) % pipe.sz.toNat
  bytes : ∀ i (hi : i < q.length),
    pipe.buf ((pipe.readPtr.toNat + i) % pipe.sz.toNat) = q.get ⟨i, hi⟩

namespace Queued

variable {pipe : PipeDevice} {q : List UInt8}

theorem writePtr_lt (h : Queued pipe q) : pipe.writePtr.toNat < pipe.sz.toNat := by
  rw [h.writePtr]
  exact Nat.mod_lt _ (Nat.zero_lt_of_lt h.readPtr)

theorem size_add_avail (h : Queued pipe q) :
    pipe.size.toNat + pipe.avail.toNat = pipe.sz.toNat - 1 :=
  (size_avail h.readPtr h.writePtr_lt).2

theorem size (h : Queued pipe q) : pipe.size.toNat = q.length := by
  have hr := h.readPtr
  have hl := h.length
  have hw := h.writePtr
  rw [mod_of_lt_twice (by omega)] at hw
  rw [(size_avail h.readPtr h.writePtr_lt).1]
  split at hw <;> split <;> omega

/-- The loop of a read sees the front of the queue. -/
theorem read {c : UInt8} (h : Queued pipe (c :: q)) :
    pipe.readByte.1 = c ∧ Queued pipe.readByte.2 q := by
  have hr := h.readPtr
  have hnext : pipe.readByte.2.readPtr.toNat = (pipe.readPtr.toNat + 1) % pipe.sz.toNat :=
    toNat_next hr
  refine ⟨?_, ?_, ?_, ?_, fun i hi => ?_⟩
  · have hfront := h.bytes 0 (Nat.zero_lt_succ _)
    rwa [Nat.add_zero, Nat.mod_eq_of_lt hr] at hfront
  · rw [hnext]
    exact Nat.mod_lt _ (Nat.zero_lt_of_lt hr)
  · exact Nat.lt_of_succ_lt h.length
  · rw [hnext]
    show pipe.writePtr.toNat = ((pipe.readPtr.toNat + 1) % pipe.sz.toNat + q.length) % pipe.sz.toNat
    rw [Nat.mod_add_mod, Nat.add_right_comm, Nat.add_assoc]
    exact h.writePtr
  · rw [hnext]
    show pipe.buf (((pipe.readPtr.toNat + 1) % pipe.sz.toNat + i) % pipe.sz.toNat) = _
    rw [Nat.mod_add_mod, Nat.add_right_comm, Nat.add_assoc]
    exact h.bytes (i + 1) (Nat.succ_lt_succ hi)

/-- The loop of a write adds at the end of the queue. -/
theorem write (h : Queued pipe q) (c : UInt8) (hroom : q.length + 1 < pipe.sz.toNat) :
    Queued (pipe.writeByte c) (q ++ [c]) := by
  have hr := h.readPtr
  refine ⟨hr, ?_, ?_, fun i hi => ?_⟩
  · rw [List.length_append, List.length_singleton]
    exact hroom
  · rw [List.length_append, List.length_singleton]
    show ((pipe.writePtr + 1) % pipe.sz).toNat = _
    rw [toNat_next h.writePtr_lt, h.writePtr, Nat.mod_add_mod, Nat.add_assoc]
    rfl
  · rw [List.length_append, List.length_singleton] at hi
    show Function.update pipe.buf pipe.writePtr.toNat c
      ((pipe.readPtr.toNat + i) % pipe.sz.toNat) = _
    rw [h.writePtr]
    by_cases hlast : i = q.length
    · subst hlast
      rw [Function.update_self, List.get_eq_getElem, List.getElem_append_right (Nat.le_refl _)]
      simp only [Nat.sub_self, List.getElem_cons_zero]
    · have hlt : i < q.length := by omega
      have hne : (pipe.readPtr.toNat + i) % pipe.sz.toNat
          ≠ (pipe.readPtr.toNat + q.length) % pipe.sz.toNat := by
        rw [mod_of_lt_twice (by omega), mod_of_lt_twice (by omega)]
        split <;> split <;> omega
      rw [Function.update_of_ne hne, h.bytes i hlt, List.get_eq_getElem, List.get_eq_getElem,
        List.getElem_append_left hlt]

end Queued

/-! ## Runs -/

/-- What is written is what was read and what is queued, in this order. -/
def Fifo (sz : UInt32) (s : State) (q : List UInt8) : Prop :=
  s.pipe.sz = sz ∧ Queued s.pipe q ∧ s.into = s.out ++ q

theorem Fifo.step {sz : UInt32} {s s' : State} {q : List UInt8} (h : Fifo sz s q)
    (hstep : Step s s') : ∃ q', Fifo sz s' q' := by
  obtain ⟨hsz, hq, hbytes⟩ := h
  unfold State.into State.out at hbytes
  cases hstep with
  | callRead n hreader =>
      rw [hreader] at hbytes
      exact ⟨q, hsz, hq, hbytes⟩
  | callWrite bytes hwriter =>
      rw [hwriter] at hbytes
      exact ⟨q, hsz, hq, hbytes⟩
  | @readTurn r hreader hc =>
      rw [hreader] at hbytes
      cases q with
      | nil =>
          -- an empty queue would have ended the loop
          have hsize := hq.size
          have hpos := UInt32.lt_iff_toNat_lt.mp hc.1
          rw [hsize] at hpos
          exact absurd hpos (Nat.not_lt_zero _)
      | cons c q =>
          obtain ⟨hc, hq'⟩ := hq.read
          refine ⟨q, hsz, hq', ?_⟩
          unfold State.into State.out
          rw [hbytes, hc]
          simp only [Option.map_some, Option.getD_some, List.append_assoc, List.singleton_append]
  | @returnRead r hreader hc =>
      rw [hreader] at hbytes
      refine ⟨q, hsz, hq, ?_⟩
      unfold State.into State.out
      simpa only [Option.map_none, Option.map_some, Option.getD_none, Option.getD_some,
        List.append_nil] using hbytes
  | @writeTurn w hwriter hc =>
      rw [hwriter] at hbytes
      have hroom : q.length + 1 < s.pipe.sz.toNat := by
        have hpos := UInt32.lt_iff_toNat_lt.mp hc.1
        have hsum := hq.size_add_avail
        have hsize := hq.size
        have hzero : (0 : UInt32).toNat = 0 := rfl
        omega
      refine ⟨q ++ [w.bytes.get ⟨w.written, hc.2⟩], hsz, hq.write _ hroom, ?_⟩
      unfold State.into State.out
      simp only [Option.map_some, Option.getD_some] at hbytes ⊢
      rw [← List.append_assoc _ q, ← hbytes, List.take_succ_eq_append_getElem hc.2,
        List.append_assoc]
      rfl
  | @returnWrite w hwriter hc =>
      rw [hwriter] at hbytes
      refine ⟨q, hsz, hq, ?_⟩
      unfold State.into State.out
      simpa only [Option.map_none, Option.map_some, Option.getD_none, Option.getD_some,
        List.append_nil] using hbytes

theorem Reach.fifo {sz : UInt32} {buf : Nat → UInt8} {s : State} (hsz : 1 ≤ sz)
    (h : Reach sz buf s) : ∃ q, Fifo sz s q := by
  induction h with
  | create =>
      have hpos : 0 < sz.toNat := UInt32.le_iff_toNat_le.mp hsz
      refine ⟨[], rfl, ⟨hpos, hpos, ?_, fun i hi => absurd hi (Nat.not_lt_zero i)⟩, rfl⟩
      exact (Nat.zero_mod _).symm
  | step _ hstep ih =>
      obtain ⟨q, hq⟩ := ih
      exact hq.step hstep

/-- A pipe is a bounded FIFO. In every state of every interleaving the bytes
read are a prefix of the bytes written, the queued rest is what `pipe_size_p`
counts, and a call that is about to return early has found the queue full, or
empty. -/
theorem pipe_fifo {sz : UInt32} {buf : Nat → UInt8} {s : State} (hsz : 1 ≤ sz)
    (h : Reach sz buf s) :
    ∃ q, s.into = s.out ++ q ∧ q.length = s.pipe.size.toNat
      ∧ s.pipe.size.toNat + s.pipe.avail.toNat = sz.toNat - 1
      ∧ s.pipe.readPtr < sz ∧ s.pipe.writePtr < sz
      ∧ (∀ w, s.writer = some w → ¬w.Continues s.pipe → w.written < w.bytes.length →
          q.length = sz.toNat - 1)
      ∧ ∀ r, s.reader = some r → ¬r.Continues s.pipe → r.got.length < r.sz → q = [] := by
  obtain ⟨q, rfl, hq, hbytes⟩ := h.fifo hsz
  have hsize := hq.size
  have hsum := hq.size_add_avail
  refine ⟨q, hbytes, hsize.symm, hsum, UInt32.lt_iff_toNat_lt.mpr hq.readPtr,
    UInt32.lt_iff_toNat_lt.mpr hq.writePtr_lt, fun w _ hstop hearly => ?_,
    fun r _ hstop hearly => ?_⟩
  · have hfull : ¬0 < s.pipe.avail.toNat := fun hpos =>
      hstop ⟨UInt32.lt_iff_toNat_lt.mpr hpos, hearly⟩
    omega
  · have hempty : ¬0 < s.pipe.size.toNat := fun hpos =>
      hstop ⟨UInt32.lt_iff_toNat_lt.mpr hpos, hearly⟩
    exact List.eq_nil_of_length_eq_zero (by omega)

/-- A byte passes a pipe of capacity two. -/
theorem pipe_fifo_small : ∃ s, Reach 2 (fun _ => 0) s ∧ ∃ q, s.into = s.out ++ q
    ∧ q.length = s.pipe.size.toNat ∧ s.pipe.size.toNat + s.pipe.avail.toNat = 1 := by
  have hcreate : Reach 2 (fun _ => 0) ⟨create 2 fun _ => 0, none, none, [], []⟩ := Reach.create
  have hcall := hcreate.step (.callWrite [7, 8] rfl)
  have hturn := hcall.step (.writeTurn rfl ⟨by decide, by decide⟩)
  obtain ⟨q, hbytes, hsize, hsum, -⟩ := pipe_fifo (by decide) hturn
  exact ⟨_, hturn, q, hbytes, hsize, hsum⟩

end Pipe

end Shitos
