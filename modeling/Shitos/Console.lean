import Shitos.Mem

/-!
# The console

Until a terminal is there, `/dev/console` keeps what is written in a buffer of 1024
bytes; `console_set_output` hands the buffer to the terminal. Over any run of writes and
changes of the output, the outputs and the buffer together have the bytes that the
writes said they took, in order (`console_in_order`).
-/

namespace Shitos

namespace Console

/-- `sizeof tmp_buffer`. -/
def tmpSize : Nat := 1024

/-- `console_output`, `tmp_buffer` with `buffer_head` as an offset into it, and the calls
of the outputs so far, each with the bytes that it was given. -/
structure State where
  output : Option Nat
  tmpBuffer : Mem
  head : Nat
  calls : List (Nat × List UInt8)

def initial (tmpBuffer : Mem) : State := ⟨none, tmpBuffer, 0, []⟩

/-- `*buffer_head++ = *buf++`. -/
def push (s : State) (c : UInt8) : State :=
  { s with tmpBuffer := fun i => if i = s.head then c else s.tmpBuffer i, head := s.head + 1 }

/-- The loop of `console_write`. -/
def fillLoop : List UInt8 → State → Nat × State
  | [], s => (0, s)
  | c :: buf, s =>
      if s.head < tmpSize then
        let (i, s) := fillLoop buf (push s c)
        (i + 1, s)
      else (0, s)

/-- `console_write`; `result` is what the outputs return. -/
def consoleWrite (result : Nat → List UInt8 → Int) (s : State) (buf : List UInt8) : Int × State :=
  match s.output with
  | some output => (result output buf, { s with calls := s.calls ++ [(output, buf)] })
  | none =>
      let (i, s) := fillLoop buf s
      (i, s)

/-- What the buffer holds. -/
def State.buffered (s : State) : List UInt8 := (List.range s.head).map s.tmpBuffer

/-- `console_set_output`. -/
def consoleSetOutput (s : State) (output : Option Nat) : State :=
  let s := { s with output := output }
  match output with
  | some f =>
      if s.head ≠ 0 then { s with calls := s.calls ++ [(f, s.buffered)], head := 0 } else s
  | none => s

inductive Call
  | write (buf : List UInt8)
  | setOutput (output : Option Nat)

/-- A call, and the bytes that it takes: those that a write without an output returns the
number of, and all of them with one. -/
def exec (result : Nat → List UInt8 → Int) (s : State) : Call → List UInt8 × State
  | .write buf =>
      let (n, t) := consoleWrite result s buf
      (if s.output.isSome then buf else buf.take n.toNat, t)
  | .setOutput output => ([], consoleSetOutput s output)

/-- The bytes that a run of calls takes, and the state behind it. -/
def run (result : Nat → List UInt8 → Int) : List Call → State → List UInt8 × State
  | [], s => ([], s)
  | call :: calls, s =>
      let (taken, s) := exec result s call
      let (rest, s) := run result calls s
      (taken ++ rest, s)

/-- The bytes that the outputs were given. -/
def State.shown (s : State) : List UInt8 := s.calls.flatMap Prod.snd

/-- The buffer is not overrun, and it is empty while there is an output. -/
structure Kept (s : State) : Prop where
  head : s.head ≤ tmpSize
  empty : s.output ≠ none → s.head = 0

section Steps

variable {s : State}

theorem buffered_push (s : State) (c : UInt8) : (push s c).buffered = s.buffered ++ [c] := by
  have hold : (List.range s.head).map (push s c).tmpBuffer = s.buffered := by
    refine List.map_congr_left fun i hi => ?_
    exact if_neg (Nat.ne_of_lt (List.mem_range.mp hi))
  change (List.range (s.head + 1)).map (push s c).tmpBuffer = _
  rw [List.range_succ, List.map_append, hold]
  simp [push]

/-- The loop takes as many bytes as there is room for. -/
theorem fillLoop_spec (buf : List UInt8) (h : s.head ≤ tmpSize) :
    (fillLoop buf s).1 = min buf.length (tmpSize - s.head)
      ∧ (fillLoop buf s).2.buffered = s.buffered ++ buf.take (fillLoop buf s).1
      ∧ (fillLoop buf s).2.head = s.head + (fillLoop buf s).1
      ∧ (fillLoop buf s).2.output = s.output ∧ (fillLoop buf s).2.calls = s.calls := by
  induction buf generalizing s with
  | nil => simp [fillLoop]
  | cons c buf ih =>
      rw [fillLoop]
      by_cases hroom : s.head < tmpSize
      · obtain ⟨hcount, hbuf, hhead, hout, hcalls⟩ := @ih (push s c) hroom
        have hnext : (push s c).head = s.head + 1 := rfl
        rw [hnext] at hcount hhead
        rw [if_pos hroom]
        refine ⟨?_, ?_, ?_, hout, hcalls⟩
        · simp only [hcount, List.length_cons]
          omega
        · simp only [hbuf, buffered_push, List.take_succ_cons, List.append_assoc,
            List.singleton_append]
        · simp only [hhead]
          omega
      · rw [if_neg hroom]
        simp only [List.take_zero, List.append_nil, Nat.add_zero, and_self, and_true]
        omega

/-- A call adds the bytes that it takes behind those that are shown and buffered. -/
theorem exec_spec (result : Nat → List UInt8 → Int) (h : Kept s) (call : Call) :
    Kept (exec result s call).2
      ∧ (exec result s call).2.shown ++ (exec result s call).2.buffered
        = s.shown ++ s.buffered ++ (exec result s call).1 := by
  cases call with
  | write buf =>
      cases hout : s.output with
      | some output =>
          have hempty : s.head = 0 := h.empty (by simp [hout])
          simp only [exec, consoleWrite, hout]
          refine ⟨⟨h.head, fun _ => hempty⟩, ?_⟩
          simp [State.shown, State.buffered, hempty]
      | none =>
          obtain ⟨hcount, hbuf, hhead, hkeep, hcalls⟩ := fillLoop_spec buf h.head
          have hroom := h.head
          simp only [exec, consoleWrite, hout]
          refine ⟨⟨by omega, fun hne => absurd (hkeep.trans hout) hne⟩, ?_⟩
          simp only [State.shown, hcalls, hbuf]
          simp
  | setOutput output =>
      cases output with
      | none => exact ⟨⟨h.head, fun hne => absurd rfl hne⟩, by simp [exec, consoleSetOutput,
          State.shown, State.buffered]⟩
      | some f =>
          simp only [exec, consoleSetOutput]
          by_cases hne : s.head ≠ 0
          · rw [if_pos hne]
            refine ⟨⟨Nat.zero_le _, fun _ => rfl⟩, ?_⟩
            simp [State.shown, State.buffered]
          · rw [if_neg hne]
            refine ⟨⟨h.head, fun _ => not_not.mp hne⟩, ?_⟩
            simp [State.shown, State.buffered]

end Steps

theorem run_spec (result : Nat → List UInt8 → Int) (calls : List Call) {s : State} (h : Kept s) :
    Kept (run result calls s).2
      ∧ (run result calls s).2.shown ++ (run result calls s).2.buffered
        = s.shown ++ s.buffered ++ (run result calls s).1 := by
  induction calls generalizing s with
  | nil => exact ⟨h, by simp [run]⟩
  | cons call calls ih =>
      obtain ⟨hkept, heq⟩ := exec_spec result h call
      obtain ⟨hrun, hbytes⟩ := ih hkept
      refine ⟨hrun, ?_⟩
      rw [run, hbytes, heq, List.append_assoc]

/-- **The console keeps its output in order.** Over any run of writes and changes of the
output, what the outputs were given and what is buffered are the bytes that the writes
took, in order; the buffer is not overrun, it is empty while there is an output, and a
write without one takes what there is room for. -/
theorem console_in_order (result : Nat → List UInt8 → Int) (tmpBuffer : Mem) (calls : List Call) :
    let r := run result calls (initial tmpBuffer)
    r.2.shown ++ r.2.buffered = r.1 ∧ r.2.head ≤ tmpSize
      ∧ (r.2.output ≠ none → r.2.buffered = [])
      ∧ ∀ buf, r.2.output = none →
        (consoleWrite result r.2 buf).1 = min buf.length (tmpSize - r.2.head) := by
  obtain ⟨hkept, heq⟩ := run_spec result calls
    (s := initial tmpBuffer) ⟨Nat.zero_le _, fun hne => absurd rfl hne⟩
  refine ⟨heq, hkept.head, fun hne => ?_, fun buf hout => ?_⟩
  · rw [State.buffered, hkept.empty hne]
    rfl
  · have hcount := (fillLoop_spec buf hkept.head).1
    simp only [consoleWrite, hout, hcount]

end Console

end Shitos
