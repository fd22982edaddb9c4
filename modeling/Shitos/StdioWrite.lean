import Mathlib.Data.List.Flatten
import Shitos.Runs
import Shitos.StoreLog

/-!
# Buffered output

`__stdio_write` puts bytes into the buffer of a FILE and calls `fflush` where
the buffer is full or, in line mode, behind a newline. What `syscall_write`
returns is any sequence of numbers; of what it is given, the kernel accepts as
many bytes as it returns.

`fflush` takes any result that is not negative for all of the buffer, and
`__stdio_write` goes on where a flush has failed. So the bytes arrive exactly
as long as no write is short and nothing is put into a buffer that a failed
flush has left full (`output_kept_iff`).
-/

namespace Shitos

namespace Stdio

open StoreLog Runs

/-- `_IOFBF`, `_IOLBF` and `_IONBF`. -/
inductive BufMode
  | full
  | line
  | none
deriving DecidableEq

/-- A FILE, as far as output uses it. Without a buffer, `buf` is NULL. -/
structure WFile where
  hasBuf : Bool
  buf : Mem
  bufI : Nat
  bufSz : Nat
  bufMode : BufMode

/-- A FILE with what has become of its output: the number of calls of
`syscall_write`, the bytes these accepted, those counted as written, and the
largest value of `buf_i`. -/
structure Output where
  file : WFile
  errno : Int
  calls : Nat
  accepted : List UInt8
  reported : List UInt8
  top : Nat

/-- The bytes in `buf[0 .. buf_i)`. -/
def Output.pending (s : Output) : List UInt8 := bytes s.file.buf 0 s.file.bufI

/-! ## The functions -/

section

-- what `syscall_write` returns, call by call
variable (replies : Nat → Int)

/-- `syscall_write`. -/
def syscallWrite (bs : List UInt8) (s : Output) : Int × Output :=
  (replies s.calls, { s with
    calls := s.calls + 1
    accepted := s.accepted ++ bs.take (replies s.calls).toNat })

/-- `fflush` of one FILE. -/
def fflush (s : Output) : Int × Output :=
  if !s.file.hasBuf then (0, s)
  else if s.file.bufI ≠ 0 then
    match syscallWrite replies s.pending s with
    | (err, s') =>
        if err < 0 then (-1, { s' with errno := -err })
        else (0, { s' with file := { s'.file with bufI := 0 } })
  else (0, s)

/-- `f->buf[f->buf_i++] = *buf`. -/
def putByte (s : Output) (b : UInt8) : Output :=
  { s with
    file := { s.file with
      buf := Function.update s.file.buf s.file.bufI b
      bufI := s.file.bufI + 1 }
    reported := s.reported ++ [b]
    top := max s.top (s.file.bufI + 1) }

/-- Whether the buffer is flushed behind `b`. -/
def flushes (f : WFile) (b : UInt8) : Prop :=
  f.bufI = f.bufSz ∨ f.bufMode = .line ∧ b = 10

instance (f : WFile) (b : UInt8) : Decidable (flushes f b) :=
  inferInstanceAs (Decidable (_ ∨ _))

/-- One turn of the loop of `__stdio_write`. -/
def writeByte (s : Output) (b : UInt8) : Output :=
  if flushes (putByte s b).file b then (fflush replies (putByte s b)).2 else putByte s b

/-- The loop, which returns `written`. -/
def writeLoop : List UInt8 → Output → Nat × Output
  | [], s => (0, s)
  | b :: bs, s =>
      match writeLoop bs (writeByte replies s b) with
      | (written, s') => (written + 1, s')

/-- `__stdio_write`. -/
def stdioWrite (bs : List UInt8) (s : Output) : Int × Output :=
  if !s.file.hasBuf then
    match syscallWrite replies bs s with
    | (r, s') => (r, { s' with reported := s'.reported ++ bs.take r.toNat })
  else
    match writeLoop replies bs s with
    | (written, s') => (written, s')

end

/-! ## Runs -/

/-- The calls that are made. -/
inductive Call
  | write (bs : List UInt8)
  | flush

/-- What they come down to. -/
inductive Action
  | byte (b : UInt8)
  | flush

def Call.actions : Call → List Action
  | .write bs => bs.map .byte
  | .flush => [.flush]

section

variable (replies : Nat → Int)

def call (s : Output) : Call → Output
  | .write bs => (stdioWrite replies bs s).2
  | .flush => (fflush replies s).2

def act (s : Output) : Action → Output
  | .byte b => writeByte replies s b
  | .flush => (fflush replies s).2

/-- A FILE with a buffer, before any output. -/
def opened (buf : Mem) (bufSz : Nat) (mode : BufMode) : Output where
  file := ⟨true, buf, 0, bufSz, mode⟩
  errno := 0
  calls := 0
  accepted := []
  reported := []
  top := 0

/-- What has been accepted and what is pending make up what has been reported
as written, and the buffer has never been overrun. -/
def Kept (s : Output) : Prop :=
  s.accepted ++ s.pending = s.reported ∧ s.top ≤ s.file.bufSz

/-- The next write of `n` bytes fails, or accepts all of them. -/
def FailsOrAll (s : Output) (n : Nat) : Prop := replies s.calls < 0 ∨ n ≤ replies s.calls

/-- What an action needs: room for a byte, and no short write where the buffer
is flushed. -/
def MayAct (s : Output) : Action → Prop
  | .byte b => s.file.bufI < s.file.bufSz
      ∧ (flushes (putByte s b).file b → FailsOrAll replies s (s.file.bufI + 1))
  | .flush => FailsOrAll replies s s.file.bufI

end

/-! ## Bytes and flushes -/

variable {replies : Nat → Int} {s : Output}

/-- What every state of a run satisfies, also when bytes have been lost. -/
structure Counted (s : Output) : Prop where
  buffered : s.file.hasBuf = true
  bufI_le : s.file.bufI ≤ s.top
  length_le : s.accepted.length + s.file.bufI ≤ s.reported.length

theorem pending_putByte (s : Output) (b : UInt8) : (putByte s b).pending = s.pending ++ [b] := by
  have hbelow : Agree (putByte s b).file.buf s.file.buf 0 s.file.bufI := fun i _ hi =>
    Function.update_of_ne (by omega) ..
  have hat : (putByte s b).file.buf (0 + s.file.bufI) = b := by simp [putByte]
  calc (putByte s b).pending
      = bytes (putByte s b).file.buf 0 s.file.bufI ++ [(putByte s b).file.buf (0 + s.file.bufI)] :=
        bytes_succ ..
    _ = s.pending ++ [b] := by rw [bytes_congr hbelow, hat, Output.pending]

theorem Counted.putByte (h : Counted s) (b : UInt8) : Counted (putByte s b) where
  buffered := h.buffered
  bufI_le := Nat.le_max_right _ _
  length_le := by
    have hlen := h.length_le
    simp only [Stdio.putByte, List.length_append, List.length_singleton]
    omega

/-- A byte is in its place unless the buffer was full. -/
theorem kept_putByte (b : UInt8) :
    Kept (putByte s b) ↔ Kept s ∧ s.file.bufI < s.file.bufSz := by
  have hdata : s.accepted ++ (putByte s b).pending = s.reported ++ [b]
      ↔ s.accepted ++ s.pending = s.reported := by
    rw [pending_putByte, ← List.append_assoc, List.append_left_inj]
  have htop : max s.top (s.file.bufI + 1) ≤ s.file.bufSz
      ↔ s.top ≤ s.file.bufSz ∧ s.file.bufI < s.file.bufSz := Nat.max_le
  rw [Kept, Kept, and_assoc]
  exact and_congr hdata htop

theorem fflush_empty (h : s.file.bufI = 0) : (fflush replies s).2 = s := by
  unfold fflush
  split
  · rfl
  · rw [if_neg (not_not.mpr h)]

/-- A flush that fails keeps the buffer. -/
theorem fflush_failed (h : Counted s) (hne : s.file.bufI ≠ 0) (hr : replies s.calls < 0) :
    (fflush replies s).2 = { s with
      errno := -replies s.calls
      calls := s.calls + 1 } := by
  have hnone : (replies s.calls).toNat = 0 := Int.toNat_of_nonpos (Int.le_of_lt hr)
  simp [fflush, syscallWrite, h.buffered, hne, hr, hnone]

/-- Any other takes all of it away, whatever has been accepted. -/
theorem fflush_done (h : Counted s) (hne : s.file.bufI ≠ 0) (hr : ¬replies s.calls < 0) :
    (fflush replies s).2 = { s with
      file := { s.file with bufI := 0 }
      calls := s.calls + 1
      accepted := s.accepted ++ s.pending.take (replies s.calls).toNat } := by
  simp [fflush, syscallWrite, h.buffered, hne, hr]

theorem Counted.fflush (h : Counted s) (replies : Nat → Int) : Counted (fflush replies s).2 := by
  by_cases hne : s.file.bufI = 0
  · rwa [fflush_empty hne]
  · by_cases hr : replies s.calls < 0
    · rw [fflush_failed h hne hr]
      exact ⟨h.buffered, h.bufI_le, h.length_le⟩
    · rw [fflush_done h hne hr]
      refine ⟨h.buffered, Nat.zero_le _, ?_⟩
      have hlen := h.length_le
      simp only [List.length_append, List.length_take, Output.pending, length_bytes]
      omega

/-- A flush keeps what has been written unless its write is short. -/
theorem kept_fflush (h : Counted s) :
    Kept (fflush replies s).2 ↔ Kept s ∧ FailsOrAll replies s s.file.bufI := by
  by_cases hne : s.file.bufI = 0
  · rw [fflush_empty hne]
    have hok : FailsOrAll replies s s.file.bufI := by
      unfold FailsOrAll
      omega
    exact ⟨fun hkept => ⟨hkept, hok⟩, fun hkept => hkept.1⟩
  by_cases hr : replies s.calls < 0
  · rw [fflush_failed h hne hr]
    exact ⟨fun hkept => ⟨hkept, Or.inl hr⟩, fun hkept => hkept.1⟩
  rw [fflush_done h hne hr]
  have hcount : s.pending.length = s.file.bufI := length_bytes ..
  constructor
  · rintro ⟨hdata, htop⟩
    -- the lengths leave no room for a byte that is lost
    have hall : s.file.bufI ≤ (replies s.calls).toNat := by
      have hlen := congrArg List.length hdata
      have hle := h.length_le
      simp only [Output.pending, bytes_zero, List.append_nil, List.length_append,
        List.length_take, length_bytes] at hlen
      omega
    rw [List.take_of_length_le (hcount.trans_le hall)] at hdata
    refine ⟨⟨?_, htop⟩, Or.inr (by omega)⟩
    simpa [Output.pending] using hdata
  · rintro ⟨⟨hdata, htop⟩, hok⟩
    have hall : s.pending.length ≤ (replies s.calls).toNat := by
      unfold FailsOrAll at hok
      omega
    rw [List.take_of_length_le hall, hdata]
    exact ⟨List.append_nil _, htop⟩

/-! ## Whole runs -/

theorem Counted.act (h : Counted s) (a : Action) : Counted (act replies s a) := by
  cases a with
  | byte b =>
      simp only [Stdio.act, writeByte]
      split
      · exact (h.putByte b).fflush replies
      · exact h.putByte b
  | flush => exact h.fflush replies

theorem kept_act (h : Counted s) (a : Action) :
    Kept (act replies s a) ↔ Kept s ∧ MayAct replies s a := by
  cases a with
  | byte b =>
      have hput := @kept_putByte s b
      simp only [act, writeByte, MayAct]
      split
      · rename_i hflush
        have hnext : FailsOrAll replies (putByte s b) (putByte s b).file.bufI
            ↔ FailsOrAll replies s (s.file.bufI + 1) := Iff.rfl
        rw [kept_fflush (h.putByte b), hput, hnext, and_assoc]
        simp [hflush]
      · rename_i hflush
        rw [hput]
        simp [hflush]
  | flush => exact kept_fflush h

/-- The loop writes all its bytes, one after the other. -/
theorem writeLoop_eq (bs : List UInt8) (s : Output) :
    writeLoop replies bs s = (bs.length, run (act replies) s (bs.map .byte)) := by
  induction bs generalizing s with
  | nil => rfl
  | cons b bs ih =>
      rw [writeLoop, ih]
      rfl

theorem reported_fflush (replies : Nat → Int) (s : Output) :
    (fflush replies s).2.reported = s.reported := by
  unfold fflush syscallWrite
  split
  · rfl
  · split
    · by_cases hr : replies s.calls < 0 <;> simp [hr]
    · rfl

theorem reported_writeByte (s : Output) (b : UInt8) :
    (writeByte replies s b).reported = s.reported ++ [b] := by
  rw [writeByte]
  split
  · exact reported_fflush replies (putByte s b)
  · rfl

/-- The bytes counted as written are those of the values that are returned. -/
theorem reported_stdioWrite (bs : List UInt8) (s : Output) :
    (stdioWrite replies bs s).2.reported
      = s.reported ++ bs.take (stdioWrite replies bs s).1.toNat := by
  have hloop : ∀ s, (writeLoop replies bs s).2.reported = s.reported ++ bs := by
    induction bs with
    | nil => exact fun s => (List.append_nil s.reported).symm
    | cons b bs ih =>
        intro s
        rw [writeLoop, ih, reported_writeByte, List.append_assoc, List.singleton_append]
  rw [stdioWrite]
  split
  · rfl
  · rw [hloop, writeLoop_eq, Int.toNat_natCast, List.take_length]

theorem call_eq (h : Counted s) (c : Call) : call replies s c = run (act replies) s c.actions := by
  cases c with
  | write bs => simp [call, stdioWrite, h.buffered, writeLoop_eq, Call.actions]
  | flush => rfl

theorem Counted.run (h : Counted s) (l : List Action) :
    Counted (Runs.run (Stdio.act replies) s l) := by
  induction l generalizing s with
  | nil => exact h
  | cons a l ih => exact ih (h.act a)

theorem run_call (h : Counted s) (cs : List Call) :
    run (call replies) s cs = run (act replies) s (cs.flatMap Call.actions) := by
  induction cs generalizing s with
  | nil => rfl
  | cons c cs ih =>
      rw [run_cons, call_eq h, ih (h.run c.actions), List.flatMap_cons, run_append]

theorem counted_opened (buf : Mem) (bufSz : Nat) (mode : BufMode) :
    Counted (opened buf bufSz mode) := ⟨rfl, Nat.le_refl 0, Nat.le_refl 0⟩

theorem kept_run_iff (buf : Mem) (bufSz : Nat) (mode : BufMode) (cs : List Call) :
    Kept (run (call replies) (opened buf bufSz mode) cs)
      ↔ Always (act replies) (MayAct replies) (opened buf bufSz mode)
          (cs.flatMap Call.actions) := by
  have hnew : Kept (opened buf bufSz mode) := ⟨rfl, Nat.zero_le _⟩
  have hcounted := counted_opened buf bufSz mode
  rw [run_call hcounted, run_iff (fun s a h => h.act a) (fun s a h => kept_act h a) hcounted]
  exact ⟨fun h => h.2, fun h => ⟨hnew, h⟩⟩

/-- Output is kept behind each call exactly if no byte goes into a full buffer
and no write is short. -/
theorem output_kept_iff (replies : Nat → Int) (buf : Mem) (bufSz : Nat) (mode : BufMode)
    (cs : List Call) :
    (∀ pre post, cs = pre ++ post → Kept (run (call replies) (opened buf bufSz mode) pre))
      ↔ Always (act replies) (MayAct replies) (opened buf bufSz mode)
          (cs.flatMap Call.actions) := by
  constructor
  · intro h
    exact (kept_run_iff buf bufSz mode cs).mp (h cs [] (List.append_nil cs).symm)
  · rintro h pre post rfl
    rw [List.flatMap_append] at h
    exact (kept_run_iff buf bufSz mode pre).mpr (always_left h)

/-- Of two bytes that fill the buffer, the kernel accepts one, and the other is
gone. Where it accepts none, a third byte is stored behind the buffer. -/
theorem output_not_kept :
    ¬Kept (run (call fun _ => 1) (opened (fun _ => 0) 2 .full) [.write [65, 66]])
      ∧ ¬Kept (run (call fun _ => -5) (opened (fun _ => 0) 2 .full) [.write [65, 66, 67]]) := by
  constructor
  · rintro ⟨hdata, -⟩
    exact absurd hdata (by decide)
  · rintro ⟨-, htop⟩
    exact absurd htop (by decide)

end Stdio

end Shitos
