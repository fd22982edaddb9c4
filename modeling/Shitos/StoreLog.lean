import Mathlib.Logic.Function.Basic
import Shitos.Mem

/-!
# Logs of byte stores

What a piece of code stores, as a list of addresses and bytes in the order of
the program. Where the stores go is a property of the list (`Within`), what
memory holds afterwards is that of its fold (`after`). A run of consecutive
stores (`storeAt`) is read back as the list of its bytes (`bytes`).
-/

namespace Shitos

/-- The stores of a piece of code, each with its address. -/
abbrev StoreLog := List (Nat × UInt8)

namespace StoreLog

/-- Memory after the stores. -/
def after (m : Mem) (log : StoreLog) : Mem :=
  log.foldl (fun m s => Function.update m s.1 s.2) m

/-- All stores go to `lo, …, hi - 1`. -/
def Within (log : StoreLog) (lo hi : Nat) : Prop := ∀ s ∈ log, lo ≤ s.1 ∧ s.1 < hi

/-- `bs` stored from `a` on. -/
def storeAt : Nat → List UInt8 → StoreLog
  | _, [] => []
  | a, b :: bs => (a, b) :: storeAt (a + 1) bs

/-- The `n` bytes from `a` on. -/
def bytes (m : Mem) (a n : Nat) : List UInt8 := (List.range n).map fun i => m (a + i)

variable {m m' : Mem} {a b lo hi n : Nat} {log log' : StoreLog} {x : UInt8}

/-! ## Where the stores go -/

@[simp] theorem within_nil : Within [] lo hi := fun _ hs => nomatch hs

@[simp] theorem within_append :
    Within (log ++ log') lo hi ↔ Within log lo hi ∧ Within log' lo hi :=
  List.forall_mem_append

@[simp] theorem within_cons :
    Within ((a, x) :: log) lo hi ↔ (lo ≤ a ∧ a < hi) ∧ Within log lo hi :=
  List.forall_mem_cons

theorem within_storeAt {bs : List UInt8} (hlo : lo ≤ a) (hhi : a + bs.length ≤ hi) :
    Within (storeAt a bs) lo hi := by
  induction bs generalizing a with
  | nil => exact within_nil
  | cons b bs ih =>
      rw [List.length_cons] at hhi
      rw [storeAt, within_cons]
      exact ⟨by omega, ih (by omega) (by omega)⟩

/-! ## Memory afterwards -/

@[simp] theorem after_nil : after m [] = m := rfl

@[simp] theorem after_append : after m (log ++ log') = after (after m log) log' :=
  List.foldl_append

theorem after_cons : after m ((a, x) :: log) = after (Function.update m a x) log := rfl

/-- Stores elsewhere leave a byte as it is. -/
theorem after_outside {i : Nat} (h : Within log lo hi) (hi' : i < lo ∨ hi ≤ i) :
    after m log i = m i := by
  induction log generalizing m with
  | nil => rfl
  | cons s log ih =>
      obtain ⟨a, x⟩ := s
      obtain ⟨ha, hlog⟩ := within_cons.mp h
      rw [after_cons, ih hlog, Function.update_of_ne (by omega)]

theorem storeAt_append (a : Nat) (bs cs : List UInt8) :
    storeAt a (bs ++ cs) = storeAt a bs ++ storeAt (a + bs.length) cs := by
  induction bs generalizing a with
  | nil => rfl
  | cons b bs ih =>
      rw [List.cons_append, storeAt, storeAt, ih, List.length_cons, List.cons_append,
        Nat.add_assoc, Nat.add_comm 1]

/-- The byte that a run of stores leaves at `i`. -/
theorem after_storeAt (m : Mem) (a : Nat) (bs : List UInt8) (i : Nat) :
    after m (storeAt a bs) i = if a ≤ i then bs[i - a]?.getD (m i) else m i := by
  induction bs generalizing m a with
  | nil => simp [storeAt]
  | cons b bs ih =>
      rw [storeAt, after_cons, ih]
      rcases Nat.lt_trichotomy a i with hlt | rfl | hgt
      · have hget : (b :: bs)[i - a]? = bs[i - (a + 1)]? := by
          rw [show i - a = i - (a + 1) + 1 by omega, List.getElem?_cons_succ]
        rw [if_pos (Nat.succ_le_of_lt hlt), if_pos (Nat.le_of_lt hlt), hget,
          Function.update_of_ne (by omega)]
      · simp
      · rw [if_neg (by omega), if_neg (by omega), Function.update_of_ne (by omega)]

/-- A run of stores is lost under a longer one at the same place. -/
theorem after_storeAt_over {bs cs : List UInt8} (h : bs.length ≤ cs.length) :
    after m (storeAt a bs ++ storeAt a cs) = after m (storeAt a cs) := by
  funext i
  rw [after_append, after_storeAt, after_storeAt m a cs]
  by_cases hin : a ≤ i ∧ i - a < cs.length
  · rw [if_pos hin.1, if_pos hin.1, List.getElem?_eq_getElem hin.2, Option.getD_some,
      Option.getD_some]
  · have hout : after m (storeAt a bs) i = m i := by
      refine after_outside (within_storeAt (Nat.le_refl a) (Nat.le_refl _)) ?_
      omega
    rw [hout]

/-! ## Reading back -/

@[simp] theorem length_bytes (m : Mem) (a n : Nat) : (bytes m a n).length = n := by
  simp [bytes]

@[simp] theorem bytes_zero (m : Mem) (a : Nat) : bytes m a 0 = [] := rfl

theorem bytes_succ (m : Mem) (a n : Nat) : bytes m a (n + 1) = bytes m a n ++ [m (a + n)] := by
  simp [bytes, List.range_succ]

theorem bytes_add (m : Mem) (a n k : Nat) :
    bytes m a (n + k) = bytes m a n ++ bytes m (a + n) k := by
  simp [bytes, List.range_add, Nat.add_assoc]

theorem bytes_congr (h : Agree m m' a n) : bytes m a n = bytes m' a n := by
  refine List.map_congr_left fun i hi => h (a + i) (Nat.le_add_right a i) ?_
  rw [List.mem_range] at hi
  omega

/-- What a run of stores has written is what is read back. -/
theorem bytes_after_storeAt (m : Mem) (a : Nat) (bs : List UInt8) :
    bytes (after m (storeAt a bs)) a bs.length = bs := by
  refine List.ext_getElem (length_bytes ..) fun i h1 h2 => ?_
  simp [bytes, after_storeAt, h2]

end StoreLog

end Shitos
