import Mathlib.Algebra.BigOperators.Group.Finset.Defs
import Mathlib.Algebra.Module.End
import Mathlib.Data.Nat.Bitwise
import Mathlib.Data.Nat.Prime.Basic
import Mathlib.Dynamics.PeriodicPts.Defs
import Mathlib.Tactic.Abel
import Mathlib.Tactic.NoncommRing
import Mathlib.Algebra.Ring.Commute

/-!
# Powers of an additive map, computed on bits

The bits of a number are a polynomial over the field of two elements, and a ring in
which everything is its own negative has a value for it at any of its elements (`eval`).
Where a polynomial of degree `d` vanishes at `t`, the powers of `t` are the values of
numbers below `2 ^ d` that are found by shifts and exclusive or (`eval_powMod`).

So the order of an additive map can be computed: a map whose `n`-th power is the
identity, and for which no smaller power that divides `n` fixes anything, has all its
points on cycles of length `n` (`minimalPeriod_eq`).
-/

namespace Shitos

namespace BitPoly

/-! ## Arithmetic on bits -/

/-- The product with the unknown, for the polynomial `P` of degree `d`. -/
def mulX (d P a : Nat) : Nat := (2 * a) ^^^ (P * (a / 2 ^ (d - 1)))

/-- The product with the lowest `n` bits of `b`. -/
def mulMod (d P : Nat) : Nat → Nat → Nat → Nat
  | 0, _, _ => 0
  | n + 1, a, b => (a * (b % 2)) ^^^ mulMod d P n (mulX d P a) (b / 2)

/-- The power of the unknown, for an exponent of at most `k` bits. -/
def powMod (d P : Nat) : Nat → Nat → Nat
  | 0, _ => 1
  | k + 1, e =>
      let s := mulMod d P d (powMod d P k (e / 2)) (powMod d P k (e / 2))
      if e % 2 = 1 then mulX d P s else s

theorem xor_lt_of_top {n a b : Nat} (ha : a < 2 ^ (n + 1)) (hb : b < 2 ^ (n + 1))
    (ha' : 2 ^ n ≤ a) (hb' : 2 ^ n ≤ b) : a ^^^ b < 2 ^ n := by
  have htop : ∀ c, 2 ^ n ≤ c → c < 2 ^ (n + 1) → c / 2 ^ n = 1 := by
    intro c hle hlt
    rw [Nat.pow_succ, Nat.mul_comm] at hlt
    refine Nat.div_eq_of_lt_le (by omega) (by omega)
  have hdiv : (a ^^^ b) / 2 ^ n = 0 := by
    rw [Nat.xor_div_two_pow, htop a ha' ha, htop b hb' hb, Nat.xor_self]
  exact (Nat.div_eq_zero_iff_lt (Nat.two_pow_pos n)).mp hdiv

section Bounds

variable {d P : Nat}

theorem mulX_lt {a : Nat} (hd : 0 < d) (hP : P < 2 ^ (d + 1)) (hP' : 2 ^ d ≤ P) (ha : a < 2 ^ d) :
    mulX d P a < 2 ^ d := by
  obtain ⟨k, rfl⟩ := Nat.exists_eq_succ_of_ne_zero (Nat.ne_of_gt hd)
  rw [mulX, Nat.succ_sub_one]
  rw [Nat.pow_succ, Nat.mul_comm] at ha
  by_cases hlow : a < 2 ^ k
  · rw [Nat.div_eq_of_lt hlow, Nat.mul_zero, Nat.xor_zero, Nat.pow_succ, Nat.mul_comm _ 2]
    omega
  · have hone : a / 2 ^ k = 1 := Nat.div_eq_of_lt_le (by omega) (by omega)
    rw [hone, Nat.mul_one]
    have hpow : 2 ^ (k + 1) = 2 * 2 ^ k := by rw [Nat.pow_succ, Nat.mul_comm]
    refine xor_lt_of_top ?_ hP ?_ hP'
    · rw [Nat.pow_succ]
      omega
    · omega

theorem mulMod_lt (hd : 0 < d) (hP : P < 2 ^ (d + 1)) (hP' : 2 ^ d ≤ P) (n : Nat) {a : Nat}
    (ha : a < 2 ^ d) (b : Nat) : mulMod d P n a b < 2 ^ d := by
  induction n generalizing a b with
  | zero => exact Nat.two_pow_pos d
  | succ n ih =>
      refine Nat.xor_lt_two_pow ?_ (ih (mulX_lt hd hP hP' ha) _)
      rcases Nat.mod_two_eq_zero_or_one b with h | h <;> rw [h]
      · exact Nat.two_pow_pos d
      · rwa [Nat.mul_one]

theorem powMod_lt (hd : 0 < d) (hP : P < 2 ^ (d + 1)) (hP' : 2 ^ d ≤ P) (k e : Nat) :
    powMod d P k e < 2 ^ d := by
  induction k generalizing e with
  | zero => exact Nat.one_lt_two_pow (Nat.ne_of_gt hd)
  | succ k ih =>
      have hs := mulMod_lt hd hP hP' d (ih (e / 2)) (powMod d P k (e / 2))
      rw [powMod]
      split
      · exact mulX_lt hd hP hP' hs
      · exact hs

end Bounds

/-! ## Values in a ring -/

section Eval

variable {R : Type*} [Ring R] (t : R)

/-- The value at `t` of the polynomial of the lowest `n` bits. -/
def eval : Nat → Nat → R
  | 0, _ => 0
  | n + 1, p => (if p % 2 = 1 then 1 else 0) + t * eval n (p / 2)

theorem eval_zero (n : Nat) : eval t n 0 = 0 := by
  induction n with
  | zero => rfl
  | succ n ih => simp [eval, ih]

theorem eval_double (n a : Nat) : eval t (n + 1) (2 * a) = t * eval t n a := by
  have hmod : 2 * a % 2 ≠ 1 := by omega
  have hdiv : 2 * a / 2 = a := by omega
  rw [eval, if_neg hmod, hdiv, zero_add]

/-- The bits beyond a number's length do not matter. -/
theorem eval_succ {n p : Nat} (h : p < 2 ^ n) : eval t (n + 1) p = eval t n p := by
  induction n generalizing p with
  | zero =>
      obtain rfl : p = 0 := by omega
      exact eval_zero t 1
  | succ n ih =>
      rw [Nat.pow_succ] at h
      rw [eval, ih (by omega), eval]

theorem eval_one {n : Nat} (h : 0 < n) : eval t n 1 = 1 := by
  obtain ⟨n, rfl⟩ := Nat.exists_eq_succ_of_ne_zero (Nat.ne_of_gt h)
  rw [eval, if_pos rfl, eval_zero, mul_zero, add_zero]

theorem commute_eval (n p : Nat) : Commute t (eval t n p) := by
  induction n generalizing p with
  | zero => exact Commute.zero_right t
  | succ n ih =>
      refine Commute.add_right ?_ ((Commute.refl t).mul_right (ih _))
      split
      · exact Commute.one_right t
      · exact Commute.zero_right t

variable {t} (hchar : ∀ r : R, r + r = 0)

include hchar

theorem eval_xor (n p q : Nat) : eval t n (p ^^^ q) = eval t n p + eval t n q := by
  induction n generalizing p q with
  | zero => exact (add_zero 0).symm
  | succ n ih =>
      have hbit : (if (p ^^^ q) % 2 = 1 then (1 : R) else 0)
          = (if p % 2 = 1 then 1 else 0) + if q % 2 = 1 then 1 else 0 := by
        rw [if_congr Nat.xor_mod_two_eq_one rfl rfl]
        by_cases hp : p % 2 = 1 <;> by_cases hq : q % 2 = 1 <;> simp [hp, hq, hchar]
      rw [eval, eval, eval, Nat.xor_div_two, ih, hbit, mul_add]
      abel

variable {d P : Nat} (hd : 0 < d) (hP : P < 2 ^ (d + 1)) (hP' : 2 ^ d ≤ P)
  (hroot : eval t (d + 1) P = 0)

include hd hP hP' hroot

theorem eval_mulX {a : Nat} (ha : a < 2 ^ d) : eval t d (mulX d P a) = t * eval t d a := by
  have hquot : a / 2 ^ (d - 1) < 2 := by
    refine Nat.div_lt_of_lt_mul ?_
    rw [← Nat.pow_succ, Nat.succ_eq_add_one, Nat.sub_add_cancel hd]
    exact ha
  have hmul : eval t (d + 1) (P * (a / 2 ^ (d - 1))) = 0 := by
    generalize a / 2 ^ (d - 1) = c at hquot
    rcases (by omega : c = 0 ∨ c = 1) with h | h <;> rw [h]
    · rw [Nat.mul_zero, eval_zero]
    · rw [Nat.mul_one, hroot]
  rw [← eval_succ t (mulX_lt hd hP hP' ha), mulX, eval_xor hchar, eval_double, hmul, add_zero]

theorem eval_mulMod (n : Nat) {a : Nat} (ha : a < 2 ^ d) (b : Nat) :
    eval t d (mulMod d P n a b) = eval t d a * eval t n b := by
  induction n generalizing a b with
  | zero => rw [mulMod, eval_zero, eval, mul_zero]
  | succ n ih =>
      have hbit : eval t d (a * (b % 2)) = eval t d a * if b % 2 = 1 then 1 else 0 := by
        rcases Nat.mod_two_eq_zero_or_one b with h | h <;> rw [h]
        · simp [eval_zero]
        · simp
      rw [mulMod, eval_xor hchar, hbit, ih (mulX_lt hd hP hP' ha),
        eval_mulX hchar hd hP hP' hroot ha, eval, mul_add, (commute_eval t d a).eq, mul_assoc]

/-- The powers of `t` are computed on bits. -/
theorem eval_powMod (k : Nat) {e : Nat} (he : e < 2 ^ k) :
    eval t d (powMod d P k e) = t ^ e := by
  induction k generalizing e with
  | zero =>
      obtain rfl : e = 0 := by omega
      rw [powMod, eval_one t hd, pow_zero]
  | succ k ih =>
      rw [Nat.pow_succ] at he
      have hhalf := ih (show e / 2 < 2 ^ k by omega)
      have hlt := powMod_lt hd hP hP' k (e / 2)
      have hsquare : eval t d (mulMod d P d (powMod d P k (e / 2)) (powMod d P k (e / 2)))
          = t ^ (e / 2 + e / 2) := by
        rw [eval_mulMod hchar hd hP hP' hroot d hlt, hhalf, pow_add]
      rw [powMod]
      by_cases hodd : e % 2 = 1
      · rw [if_pos hodd, eval_mulX hchar hd hP hP' hroot (mulMod_lt hd hP hP' d hlt _), hsquare,
          ← pow_succ']
        congr 1
        omega
      · rw [if_neg hodd, hsquare]
        congr 1
        omega

/-- A factor, found on bits, that undoes the difference of a power and one. -/
theorem undoes_of_mulMod {k e u : Nat} (he : e < 2 ^ k) (hu : u < 2 ^ d)
    (h : mulMod d P d u (powMod d P k e ^^^ 1) = 1) : eval t d u * (t ^ e - 1) = 1 := by
  have hneg : t ^ e - 1 = t ^ e + 1 := by
    rw [sub_eq_iff_eq_add, add_assoc, hchar, add_zero]
  have hval := eval_mulMod hchar hd hP hP' hroot d hu (powMod d P k e ^^^ 1)
  rw [h, eval_one t hd, eval_xor hchar, eval_powMod hchar hd hP hP' hroot k he,
    eval_one t hd] at hval
  rw [hneg, ← hval]

end Eval

/-! ## Cycles of an additive map -/

/-- An additive map with `n`-th power one has all its points on cycles of length `n`, if
for every prime factor `p` of `n` the `n / p`-th power minus one can be undone. -/
theorem minimalPeriod_eq {V : Type*} [AddCommGroup V] {T : AddMonoid.End V} {n : Nat}
    (hone : T ^ n = 1) (hprime : ∀ p, p.Prime → p ∣ n → ∃ u : AddMonoid.End V,
      u * (T ^ (n / p) - 1) = 1) {v : V} (hv : v ≠ 0) : Function.minimalPeriod T v = n := by
  have hiter : ∀ k, (T ^ k) v = T^[k] v := by
    intro k
    induction k with
    | zero => rfl
    | succ k ih =>
        rw [pow_succ', Function.iterate_succ_apply', ← ih]
        rfl
  have hperiod : Function.IsPeriodicPt T n v := by
    rw [Function.IsPeriodicPt, Function.IsFixedPt, ← hiter, hone]
    rfl
  obtain ⟨q, hq⟩ := hperiod.minimalPeriod_dvd
  by_contra hne
  have hq1 : q ≠ 1 := fun h => hne (by rw [hq, h, Nat.mul_one])
  -- a proper divisor leaves a prime factor out, and so a smaller power fixes the point
  obtain ⟨p, hp, r, rfl⟩ := Nat.exists_prime_and_dvd hq1
  have hdiv : n / p = Function.minimalPeriod T v * r := by
    refine Nat.div_eq_of_eq_mul_left hp.pos ?_
    rw [Nat.mul_assoc, Nat.mul_comm r p]
    exact hq
  have hfixed : (T ^ (n / p)) v = v := by
    rw [hiter, hdiv]
    exact (Function.isPeriodicPt_minimalPeriod T v).mul_const r
  obtain ⟨u, hu⟩ := hprime p hp ⟨Function.minimalPeriod T v * r, by
    rw [Nat.mul_left_comm]
    exact hq⟩
  refine hv ?_
  calc v = (u * (T ^ (n / p) - 1)) v := by rw [hu]; rfl
    _ = u ((T ^ (n / p)) v - v) := rfl
    _ = 0 := by rw [hfixed, sub_self, map_zero]

end BitPoly

end Shitos
