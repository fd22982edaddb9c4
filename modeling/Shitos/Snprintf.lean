import Shitos.StoreLog

/-!
# snprintf

`vsnprintf` hands `vfprintf` a FILE whose write function stores the chunks it
gets one behind the other, up to the last byte of the buffer, and ends each of
them with a zero byte. What the formatter makes of its arguments is known here
only as the chunks it passes on: as `sn_write` always accepts all of them, they
do not depend on the buffer.

The zero bytes but the last are overwritten by the next chunk, so memory ends
as if the text had come in one piece (`after_vsnprintf`). A buffer of no bytes
is the exception: the store of the first zero byte is not guarded.
-/

namespace Shitos

namespace Stdio

open StoreLog

/-- `INT_MAX`. -/
def intMax : Nat := 2 ^ 31 - 1

def EOVERFLOW : Int := 139

/-! ## The functions -/

/-- The FILE of `vsnprintf`, as far as `sn_write` uses it. -/
structure SnFile where
  buf : Nat
  bufSz : Nat
  off : Nat

/-- The loop of `sn_write`. -/
def snLoop (f : SnFile) : List UInt8 → SnFile × StoreLog
  | [] => (f, [])
  | b :: bs =>
      if f.off < sub32 f.bufSz 1 then
        match snLoop { f with off := f.off + 1 } bs with
        | (f', log) => (f', (f.buf + f.off, b) :: log)
      else (f, [])

/-- `sn_write`, with the value it returns. -/
def snWrite (f : SnFile) (s : List UInt8) : Nat × SnFile × StoreLog :=
  match snLoop f s with
  | (f', log) => (s.length, f', log ++ [(f'.buf + f'.off, 0)])

/-- `output` for one chunk after the other. -/
def outputs (f : SnFile) : List (List UInt8) → StoreLog
  | [] => []
  | c :: cs =>
      match snWrite f c with
      | (_, f', log) => log ++ outputs f' cs

/-- What `vfprintf` does with a format and its arguments: the chunks it passes
to `write`, and what it returns and leaves in `errno`. -/
structure Formatted where
  chunks : List (List UInt8)
  ret : Int
  errno : Option Int

/-- The stores of a call, what it returns and what it leaves in `errno`. -/
structure Printed where
  log : StoreLog
  ret : Int
  errno : Option Int

/-- `vsnprintf`. -/
def vsnprintf (s n : Nat) (text : Formatted) : Printed :=
  if n > intMax then ⟨[], -1, some EOVERFLOW⟩
  else ⟨(s, 0) :: outputs ⟨s, n, 0⟩ text.chunks, text.ret, text.errno⟩

/-! ## One chunk -/

variable {m : Mem} {s n : Nat} {f : SnFile}

/-- A chunk is stored as far as there is room for it and a zero byte. -/
theorem snLoop_eq (hoff : f.off < f.bufSz) (c : List UInt8) :
    snLoop f c = ({ f with off := f.off + min c.length (f.bufSz - 1 - f.off) },
      storeAt (f.buf + f.off) (c.take (f.bufSz - 1 - f.off))) := by
  induction c generalizing f with
  | nil => simp [snLoop, storeAt]
  | cons b bs ih =>
      rw [snLoop, sub32_of_le (by omega)]
      by_cases hroom : f.off < f.bufSz - 1
      · have hnext : f.bufSz - 1 - f.off = f.bufSz - 1 - (f.off + 1) + 1 := by omega
        have hsize : f.off + 1 + min bs.length (f.bufSz - 1 - (f.off + 1))
            = f.off + min (b :: bs).length (f.bufSz - 1 - f.off) := by
          rw [List.length_cons]
          omega
        rw [if_pos hroom, ih (show f.off + 1 < f.bufSz by omega)]
        dsimp only
        rw [hsize, hnext, List.take_succ_cons, storeAt, Nat.add_assoc]
      · have hfull : f.bufSz - 1 - f.off = 0 := by omega
        simp [hroom, hfull, storeAt]

theorem snWrite_eq (hoff : f.off < f.bufSz) (c : List UInt8) :
    snWrite f c = (c.length, { f with off := f.off + min c.length (f.bufSz - 1 - f.off) },
      storeAt (f.buf + f.off) (c.take (f.bufSz - 1 - f.off) ++ [0])) := by
  rw [snWrite, snLoop_eq hoff, storeAt_append, List.length_take, Nat.min_comm c.length,
    Nat.add_assoc]
  rfl

/-! ## All of them -/

theorem within_outputs (hoff : f.off < f.bufSz) (cs : List (List UInt8)) :
    Within (outputs f cs) f.buf (f.buf + f.bufSz) := by
  induction cs generalizing f with
  | nil => exact within_nil
  | cons c cs ih =>
      rw [outputs, snWrite_eq hoff, within_append]
      constructor
      · refine within_storeAt (Nat.le_add_right _ _) ?_
        rw [List.length_append, List.length_take, List.length_singleton]
        omega
      · exact @ih { f with off := f.off + min c.length (f.bufSz - 1 - f.off) }
          (show f.off + min c.length (f.bufSz - 1 - f.off) < f.bufSz by omega)

/-- With `t` already in the buffer, the chunks continue it. The zero byte
behind `t` is where the next chunk begins. -/
theorem after_outputs {log : StoreLog} {t : List UInt8} (hn : 1 ≤ n)
    (hlog : after m log = after m (storeAt s (t.take (n - 1) ++ [0]))) (cs : List (List UInt8)) :
    after m (log ++ outputs ⟨s, n, min t.length (n - 1)⟩ cs)
      = after m (storeAt s ((t ++ cs.flatten).take (n - 1) ++ [0])) := by
  induction cs generalizing log t with
  | nil => simpa [outputs] using hlog
  | cons c cs ih =>
      have hoff : min t.length (n - 1) < n := by omega
      have hnext : min t.length (n - 1) + min c.length (n - 1 - min t.length (n - 1))
          = min (t ++ c).length (n - 1) := by
        rw [List.length_append]
        omega
      have hroom : n - 1 - min t.length (n - 1) = n - 1 - t.length := by omega
      have hstep : after m (log ++ storeAt (s + min t.length (n - 1))
            (c.take (n - 1 - t.length) ++ [0]))
          = after m (storeAt s ((t ++ c).take (n - 1) ++ [0])) := by
        have hplace : s + (t.take (n - 1)).length = s + min t.length (n - 1) := by
          rw [List.length_take, Nat.min_comm]
        rw [after_append, hlog, storeAt_append, ← after_append, List.append_assoc, after_append,
          hplace, after_storeAt_over (by simp), ← after_append, ← hplace, ← storeAt_append,
          List.take_append, List.append_assoc]
      rw [outputs, snWrite_eq hoff]
      dsimp only
      rw [hnext, hroom, ← List.append_assoc, ih hstep, List.append_assoc, List.flatten_cons]

/-- Memory after the call, as if the text had come in one piece. -/
theorem after_vsnprintf (hn : 1 ≤ n) (hmax : n ≤ intMax) (text : Formatted) :
    after m (vsnprintf s n text).log
      = after m (storeAt s (text.chunks.flatten.take (n - 1) ++ [0])) := by
  have h := @after_outputs m s n [(s, 0)] [] hn (by simp [storeAt]) text.chunks
  rw [vsnprintf, if_neg (Nat.not_lt.mpr hmax)]
  simpa using h

/-! ## The buffer -/

/-- No byte outside the buffer is written. The buffer ends with the text, as far
as there is room for it, and a zero byte. What memory holds does not depend on
how the text came in chunks. -/
def Bounded (m : Mem) (s n : Nat) (text : Formatted) : Prop :=
  Within (vsnprintf s n text).log s (s + n)
    ∧ (1 ≤ n → bytes (after m (vsnprintf s n text).log) s
          (min text.chunks.flatten.length (n - 1) + 1)
        = text.chunks.flatten.take (n - 1) ++ [0])
    ∧ ∀ text' : Formatted, text'.chunks.flatten = text.chunks.flatten →
        after m (vsnprintf s n text').log = after m (vsnprintf s n text).log

/-- `vsnprintf` respects its buffer exactly if there is one. -/
theorem vsnprintf_bounded_iff (m : Mem) (s n : Nat) (text : Formatted) (hmax : n ≤ intMax) :
    Bounded m s n text ↔ 1 ≤ n := by
  constructor
  · rintro ⟨hwithin, -, -⟩
    rw [vsnprintf, if_neg (Nat.not_lt.mpr hmax), within_cons] at hwithin
    omega
  · intro hn
    refine ⟨?_, fun _ => ?_, fun text' heq => ?_⟩
    · rw [vsnprintf, if_neg (Nat.not_lt.mpr hmax), within_cons]
      exact ⟨by omega, @within_outputs ⟨s, n, 0⟩ hn text.chunks⟩
    · have hlen : min text.chunks.flatten.length (n - 1) + 1
          = (text.chunks.flatten.take (n - 1) ++ [0]).length := by
        simp [Nat.min_comm]
      rw [after_vsnprintf hn hmax, hlen, bytes_after_storeAt]
    · rw [after_vsnprintf hn hmax, after_vsnprintf hn hmax, heq]

theorem vsnprintf_bounded_iff_cut :
    Bounded (fun _ => 0xff) 0x1000 4 ⟨[[65, 66], [67, 68, 69]], 5, none⟩ ↔ 1 ≤ 4 :=
  vsnprintf_bounded_iff (fun _ => 0xff) 0x1000 4 ⟨[[65, 66], [67, 68, 69]], 5, none⟩ (by decide)

/-- `vsnprintf(s, 0, "")` writes to `s`. -/
theorem vsnprintf_not_bounded : ¬Bounded (fun _ => 0xff) 0x1000 0 ⟨[], 0, none⟩ := by
  rintro ⟨hwithin, -, -⟩
  exact absurd (hwithin (0x1000, 0) List.mem_cons_self).2 (by decide)

end Stdio

end Shitos
