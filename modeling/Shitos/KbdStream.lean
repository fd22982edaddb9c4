import Shitos.Keyboard
import Shitos.Pipe

/-!
# From the keyboard to its readers

The keyboard interrupt writes the string of a key to `/dev/kbd`, a pipe of 128 bytes,
and to the console; a reader empties the pipe, and the interrupt comes between any two
turns of its loop. `handle_kb_input` drops what `pipe_write` returns, so text that finds
no room is lost, but what is read is always a part of what was typed, in order, and it
is all of it as long as no call of `pipe_write` came short (`typed_delivered`).
-/

namespace Shitos

namespace KbdStream

open Keyboard Pipe

/-- The bytes of a string of the key map. -/
def stringBytes (str : List Char) : List UInt8 := str.map fun c => UInt8.ofNat c.toNat

/-- `pipe_write`: how many bytes it has written, and the pipe. -/
def pipeWrite : List UInt8 → PipeDevice → Nat × PipeDevice
  | [], pipe => (0, pipe)
  | c :: buf, pipe =>
      if pipe.avail > 0 then
        let (written, pipe) := pipeWrite buf (pipe.writeByte c)
        (written + 1, pipe)
      else (0, pipe)

/-- The driver, `kbd_pipe`, what `printf` has put out, and a call of `pipe_read` in
progress with what the calls before it have returned; the scan codes so far, and the
number of bytes that `pipe_write` was asked for and did not write. -/
structure State where
  kbd : Kbd
  pipe : PipeDevice
  echoed : List UInt8
  reader : Option ReadCall
  returned : List UInt8
  codes : List Nat
  missed : Nat

/-- The bytes that have been read. -/
def State.out (s : State) : List UInt8 :=
  s.returned ++ (s.reader.map ReadCall.got).getD []

/-- The text of one scan code. -/
def textNow (behind : Nat → Nat) (kbd : Kbd) (scancode : Nat) : List UInt8 :=
  stringBytes (kbdHandler behind kbd scancode).written

/-- The interrupt: `kbd_handler`, with the `printf` and the `fs_write` of
`handle_kb_input`. -/
def interrupt (behind : Nat → Nat) (s : State) (scancode : Nat) : State :=
  let text := textNow behind s.kbd scancode
  let (written, pipe) := pipeWrite text s.pipe
  { s with
    kbd := (kbdHandler behind s.kbd scancode).kbd
    pipe := pipe
    echoed := s.echoed ++ text
    codes := s.codes ++ [scancode]
    missed := s.missed + (text.length - written) }

/-- The steps of the reader, one turn of its loop at a time, and the interrupt. -/
inductive Step (behind : Nat → Nat) : State → State → Prop where
  | interrupt {s : State} (scancode : Nat) : Step behind s (interrupt behind s scancode)
  | callRead {s : State} (sz : Nat) : s.reader = none →
      Step behind s { s with reader := some ⟨sz, []⟩ }
  | readTurn {s : State} {r : ReadCall} : s.reader = some r → r.Continues s.pipe →
      Step behind s { s with
        pipe := s.pipe.readByte.2
        reader := some ⟨r.sz, r.got ++ [s.pipe.readByte.1]⟩ }
  | returnRead {s : State} {r : ReadCall} : s.reader = some r → ¬r.Continues s.pipe →
      Step behind s { s with reader := none, returned := s.returned ++ r.got }

/-- `pipe_create(128)`, with whatever the buffer holds. -/
def installed (buf : Nat → UInt8) : State := ⟨initKbd, Pipe.create 128 buf, [], none, [], [], 0⟩

inductive Reach (behind : Nat → Nat) (buf : Nat → UInt8) : State → Prop where
  | install : Reach behind buf (installed buf)
  | step {s s' : State} : Reach behind buf s → Step behind s s' → Reach behind buf s'

/-- The text of all scan codes so far. -/
def typed (behind : Nat → Nat) (codes : List Nat) : List UInt8 :=
  stringBytes (handleBytes behind codes initKbd).written

/-! ## One call of `pipe_write` -/

/-- The call writes what there is room for. -/
theorem pipeWrite_spec (buf : List UInt8) {pipe : PipeDevice} {q : List UInt8}
    (h : Queued pipe q) :
    (pipeWrite buf pipe).1 = min buf.length (pipe.sz.toNat - 1 - q.length)
      ∧ Queued (pipeWrite buf pipe).2 (q ++ buf.take (pipeWrite buf pipe).1)
      ∧ (pipeWrite buf pipe).2.sz = pipe.sz := by
  induction buf generalizing pipe q with
  | nil => exact ⟨by simp [pipeWrite], by simpa [pipeWrite] using h, rfl⟩
  | cons c buf ih =>
      have hsum := h.size_add_avail
      have hsize := h.size
      rw [pipeWrite]
      by_cases hroom : pipe.avail > 0
      · have hpos : 0 < pipe.avail.toNat := UInt32.lt_iff_toNat_lt.mp hroom
        obtain ⟨hcount, hq, hsz⟩ := ih (h.write c (by omega))
        rw [if_pos hroom]
        refine ⟨?_, ?_, hsz⟩
        · have hsame : (pipe.writeByte c).sz = pipe.sz := rfl
          rw [hsame, List.length_append, List.length_singleton] at hcount
          simp only [hcount, List.length_cons]
          omega
        · simp only [List.take_succ_cons]
          rw [List.append_cons]
          exact hq
      · have hzero : pipe.avail.toNat = 0 := by
          have hnot : ¬ 0 < pipe.avail.toNat := fun hpos =>
            hroom (UInt32.lt_iff_toNat_lt.mpr hpos)
          omega
        rw [if_neg hroom]
        refine ⟨?_, by simpa using h, rfl⟩
        simp only [List.length_cons]
        omega

/-! ## Every interleaving -/

theorem handleBytes_concat (behind : Nat → Nat) (c : Nat) (codes : List Nat) (kbd : Kbd) :
    (handleBytes behind (codes ++ [c]) kbd).kbd
        = (kbdHandler behind (handleBytes behind codes kbd).kbd c).kbd
      ∧ (handleBytes behind (codes ++ [c]) kbd).written
        = (handleBytes behind codes kbd).written
          ++ (kbdHandler behind (handleBytes behind codes kbd).kbd c).written := by
  induction codes generalizing kbd with
  | nil => simp [handleBytes]
  | cons b codes ih =>
      obtain ⟨hkbd, hwritten⟩ := ih (kbdHandler behind kbd b).kbd
      rw [List.cons_append, handleBytes, handleBytes]
      exact ⟨hkbd, by rw [hwritten, List.append_assoc]⟩

/-- The queue of a state: what was read and what is queued is a part of the text that
was typed, and the rest is what `pipe_write` has missed. -/
structure Delivers (behind : Nat → Nat) (s : State) (q : List UInt8) : Prop where
  sz : s.pipe.sz = 128
  queued : Queued s.pipe q
  kbd : s.kbd = (handleBytes behind s.codes initKbd).kbd
  echoed : s.echoed = typed behind s.codes
  part : (s.out ++ q).Sublist (typed behind s.codes)
  missed : (s.out ++ q).length + s.missed = (typed behind s.codes).length

section Steps

variable {behind : Nat → Nat} {s : State} {q : List UInt8}

theorem Delivers.typed_concat (h : Delivers behind s q) (c : Nat) :
    typed behind (s.codes ++ [c]) = typed behind s.codes ++ textNow behind s.kbd c := by
  rw [typed, (handleBytes_concat behind c s.codes initKbd).2, ← h.kbd]
  exact List.map_append

/-- The interrupt queues as much of its text as there is room for. -/
theorem Delivers.interrupt (h : Delivers behind s q) (c : Nat) :
    Delivers behind (interrupt behind s c) (q ++ (textNow behind s.kbd c).take (127 - q.length))
      ∧ (KbdStream.interrupt behind s c).missed
        = s.missed + ((textNow behind s.kbd c).length - (127 - q.length)) := by
  have hsz : s.pipe.sz.toNat = 128 := by
    rw [h.sz]
    rfl
  obtain ⟨hcount, hq, hkeep⟩ := pipeWrite_spec (textNow behind s.kbd c) h.queued
  have hroom : 128 - 1 - q.length = 127 - q.length := rfl
  rw [hsz, hroom] at hcount
  have htake : (textNow behind s.kbd c).take (min (textNow behind s.kbd c).length (127 - q.length))
      = (textNow behind s.kbd c).take (127 - q.length) := by
    rw [Nat.min_comm, ← List.take_take, List.take_of_length_le (Nat.le_refl _)]
  rw [hcount, htake] at hq
  have hmissed : (KbdStream.interrupt behind s c).missed
      = s.missed + ((textNow behind s.kbd c).length - (127 - q.length)) := by
    change s.missed + ((textNow behind s.kbd c).length
      - (pipeWrite (textNow behind s.kbd c) s.pipe).1) = _
    rw [hcount]
    omega
  refine ⟨⟨hkeep.trans h.sz, hq, ?_, ?_, ?_, ?_⟩, hmissed⟩
  · change (kbdHandler behind s.kbd c).kbd = (handleBytes behind (s.codes ++ [c]) initKbd).kbd
    rw [(handleBytes_concat behind c s.codes initKbd).1, ← h.kbd]
  · change s.echoed ++ textNow behind s.kbd c = typed behind (s.codes ++ [c])
    rw [h.typed_concat, h.echoed]
  · change (s.out ++ (q ++ (textNow behind s.kbd c).take (127 - q.length))).Sublist
      (typed behind (s.codes ++ [c]))
    rw [h.typed_concat, ← List.append_assoc]
    exact h.part.append (List.take_sublist _ _)
  · have hold := h.missed
    change (s.out ++ (q ++ (textNow behind s.kbd c).take (127 - q.length))).length
      + (KbdStream.interrupt behind s c).missed = (typed behind (s.codes ++ [c])).length
    rw [hmissed, h.typed_concat]
    simp only [List.length_append, List.length_take] at hold ⊢
    omega

/-- A step of the reader moves bytes from the queue to what was read. -/
theorem Delivers.step (h : Delivers behind s q) {s' : State} (hstep : Step behind s s') :
    ∃ q', Delivers behind s' q' := by
  cases hstep with
  | interrupt c => exact ⟨_, (h.interrupt c).1⟩
  | callRead n hreader =>
      have hout : State.out { s with reader := some ⟨n, []⟩ } = s.out := by
        simp [State.out, hreader]
      exact ⟨q, h.sz, h.queued, h.kbd, h.echoed, by rw [hout]; exact h.part,
        by rw [hout]; exact h.missed⟩
  | @readTurn r hreader hc =>
      cases q with
      | nil =>
          -- an empty queue would have ended the loop
          have hpos := UInt32.lt_iff_toNat_lt.mp hc.1
          rw [h.queued.size] at hpos
          exact absurd hpos (Nat.not_lt_zero _)
      | cons c q =>
          obtain ⟨hbyte, hq⟩ := h.queued.read
          have hout : State.out { s with
                pipe := s.pipe.readByte.2
                reader := some ⟨r.sz, r.got ++ [s.pipe.readByte.1]⟩ } ++ q
              = s.out ++ c :: q := by
            simp [State.out, hreader, hbyte]
          exact ⟨q, h.sz, hq, h.kbd, h.echoed, by rw [hout]; exact h.part,
            by rw [hout]; exact h.missed⟩
  | @returnRead r hreader hc =>
      have hout : State.out { s with reader := none, returned := s.returned ++ r.got } = s.out := by
        simp [State.out, hreader]
      exact ⟨q, h.sz, h.queued, h.kbd, h.echoed, by rw [hout]; exact h.part,
        by rw [hout]; exact h.missed⟩

end Steps

theorem Reach.delivers {behind : Nat → Nat} {buf : Nat → UInt8} {s : State}
    (h : Reach behind buf s) : ∃ q, Delivers behind s q := by
  induction h with
  | install =>
      have hpos : 0 < (128 : UInt32).toNat := by decide
      exact ⟨[], rfl, ⟨hpos, hpos, rfl, fun i hi => absurd hi (Nat.not_lt_zero i)⟩, rfl, rfl,
        List.nil_sublist _, rfl⟩
  | step _ hstep ih =>
      obtain ⟨q, hq⟩ := ih
      exact hq.step hstep

/-- **What is typed is what is read.** In every interleaving of the keyboard interrupt
with a reader of `/dev/kbd`, what was read and what is queued is a part of the text
that was typed, in order; it is short of it by the bytes that `pipe_write` missed, and
the next interrupt misses what goes beyond the 127 bytes that the queue can hold. The
console has all of the text. -/
theorem typed_delivered {behind : Nat → Nat} {buf : Nat → UInt8} {s : State}
    (h : Reach behind buf s) :
    ∃ q, Queued s.pipe q ∧ q.length ≤ 127 ∧ s.echoed = typed behind s.codes
      ∧ (s.out ++ q).Sublist (typed behind s.codes)
      ∧ (s.out ++ q).length + s.missed = (typed behind s.codes).length
      ∧ (s.missed = 0 → s.out ++ q = typed behind s.codes)
      ∧ ∀ c, (interrupt behind s c).missed
        = s.missed + (q.length + (textNow behind s.kbd c).length - 127) := by
  obtain ⟨q, hq⟩ := h.delivers
  have hlen : q.length < 128 := by
    have hlt := hq.queued.length
    rw [hq.sz] at hlt
    exact hlt
  refine ⟨q, hq.queued, by omega, hq.echoed, hq.part, hq.missed, fun hzero => ?_, fun c => ?_⟩
  · have hlength := hq.missed
    rw [hzero] at hlength
    exact hq.part.eq_of_length hlength
  · rw [(hq.interrupt c).2]
    omega

/-- An `a` is typed and read. -/
theorem typed_delivered_one :
    ∃ s, Reach (fun _ => 0) (fun _ => 0) s ∧ s.codes = [0x1c]
      ∧ ∃ q, Queued s.pipe q ∧ q.length ≤ 127 ∧ s.echoed = typed (fun _ => 0) s.codes
        ∧ (s.out ++ q).Sublist (typed (fun _ => 0) s.codes) := by
  have hkey : Reach (fun _ => 0) (fun _ => 0) _ := Reach.install.step (.interrupt 0x1c)
  have hcall := hkey.step (.callRead 2 rfl)
  obtain ⟨q, hq, hlen, hecho, hpart, -⟩ := typed_delivered hcall
  exact ⟨_, hcall, rfl, q, hq, hlen, hecho, hpart⟩

end KbdStream

end Shitos
