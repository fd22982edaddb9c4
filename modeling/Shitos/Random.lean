import Mathlib.Data.Fintype.Card
import Mathlib.NumberTheory.LucasPrimality
import Mathlib.Tactic.NormNum.Prime
import Mathlib.Tactic.ReduceModChar
import Shitos.BitPoly

/-!
# Random numbers

`rand` is an exclusive-or shift generator with 128 bits of state, and `/dev/random` gives
its results modulo 255. One step of it is additive for exclusive or, and a polynomial of
degree 128 vanishes at it (`vanishes`); so the order of the step can be computed, and
from every state but zero the generator goes through all states but zero before it
comes back (`random_full_period`).
-/

namespace Shitos

namespace Random

/-! ## The generator -/

/-- The static variables of `rand`. -/
structure RandState where
  x : BitVec 32
  y : BitVec 32
  z : BitVec 32
  w : BitVec 32
deriving DecidableEq

/-- The values they start with. -/
def randStart : RandState := ⟨123456789, 262436069, 521288629, 88675123⟩

/-- `rand`: what it leaves in its variables. It returns `w`. -/
def rand (s : RandState) : RandState :=
  let t := s.x ^^^ (s.x <<< 11)
  ⟨s.y, s.z, s.w, s.w ^^^ (s.w >>> 19) ^^^ t ^^^ (t >>> 8)⟩

/-- `random_read`: the bytes of the buffer, and the variables. -/
def randomRead : Nat → RandState → List Nat × RandState
  | 0, s => ([], s)
  | sz + 1, s =>
      let s := rand s
      let (buf, t) := randomRead sz s
      (s.w.toNat % 0xff :: buf, t)

/-- The bytes of some reads, one after the other. -/
def reads : List Nat → RandState → List Nat × RandState
  | [], s => ([], s)
  | sz :: szs, s =>
      let (buf, s) := randomRead sz s
      let (bufs, s) := reads szs s
      (buf ++ bufs, s)

/-! ## The states as a group -/

namespace RandState

instance : Zero RandState := ⟨⟨0, 0, 0, 0⟩⟩

instance : Add RandState :=
  ⟨fun a b => ⟨a.x ^^^ b.x, a.y ^^^ b.y, a.z ^^^ b.z, a.w ^^^ b.w⟩⟩

instance : Neg RandState := ⟨id⟩

theorem ext_iff' {a b : RandState} :
    a = b ↔ a.x = b.x ∧ a.y = b.y ∧ a.z = b.z ∧ a.w = b.w := by
  cases a
  cases b
  simp

theorem add_def (a b : RandState) :
    a + b = ⟨a.x ^^^ b.x, a.y ^^^ b.y, a.z ^^^ b.z, a.w ^^^ b.w⟩ := rfl

theorem zero_def : (0 : RandState) = ⟨0, 0, 0, 0⟩ := rfl

theorem add_self (a : RandState) : a + a = 0 := by simp [add_def, zero_def]

instance : AddCommGroup RandState where
  add_assoc a b c := by simp [add_def, BitVec.xor_assoc]
  zero_add a := by simp [add_def, zero_def]
  add_zero a := by simp [add_def, zero_def]
  add_comm a b := by simp [add_def, BitVec.xor_comm]
  neg_add_cancel a := add_self a
  nsmul := nsmulRec
  zsmul := zsmulRec

end RandState

open RandState BitPoly

theorem rand_add (a b : RandState) : rand (a + b) = rand a + rand b := by
  simp only [rand, add_def, BitVec.shiftLeft_xor_distrib, BitVec.ushiftRight_xor_distrib,
    RandState.mk.injEq, true_and]
  ac_rfl

/-- `rand`, as an additive map. -/
def step : AddMonoid.End RandState where
  toFun := rand
  map_zero' := by decide
  map_add' := rand_add

theorem end_add_self (r : AddMonoid.End RandState) : r + r = 0 :=
  AddMonoidHom.ext fun s => add_self (r s)

/-! ## The polynomial of the step -/

/-- The polynomial that vanishes at the step. -/
def poly : Nat := 0x1000000010046d8b3f985d65ffd3c8001

/-- The value at the step of the lowest `n` bits of `p`, at a state. -/
def act : Nat → Nat → RandState → RandState
  | 0, _, _ => 0
  | n + 1, p, s => (if p % 2 = 1 then s else 0) + rand (act n (p / 2) s)

theorem eval_apply (n p : Nat) (s : RandState) : eval step n p s = act n p s := by
  induction n generalizing p with
  | zero => rfl
  | succ n ih =>
      rw [eval, act]
      change (if p % 2 = 1 then (1 : AddMonoid.End RandState) else 0) s
        + rand (eval step n (p / 2) s) = _
      rw [ih]
      refine congrArg (· + rand (act n (p / 2) s)) ?_
      split <;> rfl

/-- What holds of single bits and is kept by exclusive or holds of all words. -/
theorem of_bits {w : Nat} {K : BitVec w → Prop} (hzero : K 0)
    (hxor : ∀ a b, K a → K b → K (a ^^^ b)) (hbit : ∀ j < w, K (BitVec.ofNat w (2 ^ j)))
    (a : BitVec w) : K a := by
  have hbelow : ∀ n ≤ w, ∀ a : BitVec w, a.toNat < 2 ^ n → K a := by
    intro n
    induction n with
    | zero =>
        intro _ a ha
        obtain rfl : a = 0 := BitVec.eq_of_toNat_eq (by simpa using ha)
        exact hzero
    | succ n ih =>
        intro hn a ha
        by_cases hlow : a.toNat < 2 ^ n
        · exact ih (Nat.le_of_succ_le hn) a hlow
        · -- the highest bit is taken off
          have hpow : 2 ^ n < 2 ^ w := Nat.pow_lt_pow_right (Nat.lt_succ_self 1) hn
          have hval : (BitVec.ofNat w (2 ^ n)).toNat = 2 ^ n := by
            rw [BitVec.toNat_ofNat, Nat.mod_eq_of_lt hpow]
          have hrest : K (a ^^^ BitVec.ofNat w (2 ^ n)) := by
            refine ih (Nat.le_of_succ_le hn) _ ?_
            rw [BitVec.toNat_xor, hval]
            refine xor_lt_of_top ha ?_ (Nat.le_of_not_lt hlow) (Nat.le_refl _)
            exact Nat.pow_lt_pow_right (Nat.lt_succ_self 1) (Nat.lt_succ_self n)
          have hback := hxor _ _ hrest (hbit n hn)
          rwa [BitVec.xor_assoc, BitVec.xor_self, BitVec.xor_zero] at hback
  exact hbelow w (Nat.le_refl w) a a.isLt

theorem act_bits : ∀ j < 32,
    act 129 poly ⟨BitVec.ofNat 32 (2 ^ j), 0, 0, 0⟩ = 0
      ∧ act 129 poly ⟨0, BitVec.ofNat 32 (2 ^ j), 0, 0⟩ = 0
      ∧ act 129 poly ⟨0, 0, BitVec.ofNat 32 (2 ^ j), 0⟩ = 0
      ∧ act 129 poly ⟨0, 0, 0, BitVec.ofNat 32 (2 ^ j)⟩ = 0 := by
  decide +kernel

/-- An additive map that is zero at single bits of one variable is zero on all its values. -/
theorem zero_of_bits {F : AddMonoid.End RandState} {put : BitVec 32 → RandState}
    (hzero : put 0 = 0) (hadd : ∀ a b, put (a ^^^ b) = put a + put b)
    (h : ∀ j < 32, F (put (BitVec.ofNat 32 (2 ^ j))) = 0) (a : BitVec 32) : F (put a) = 0 := by
  have hK : ∀ a, F (put a) = 0 := by
    refine of_bits ?_ (fun a b ha hb => ?_) h
    · rw [hzero, map_zero]
    · rw [hadd, map_add, ha, hb, add_zero]
  exact hK a

/-- An additive map that is zero at the states of one bit is zero. -/
theorem end_eq_zero {F : AddMonoid.End RandState}
    (h : ∀ j < 32, F ⟨BitVec.ofNat 32 (2 ^ j), 0, 0, 0⟩ = 0
      ∧ F ⟨0, BitVec.ofNat 32 (2 ^ j), 0, 0⟩ = 0 ∧ F ⟨0, 0, BitVec.ofNat 32 (2 ^ j), 0⟩ = 0
      ∧ F ⟨0, 0, 0, BitVec.ofNat 32 (2 ^ j)⟩ = 0) : F = 0 := by
  have hx := @zero_of_bits F (fun a => ⟨a, 0, 0, 0⟩) rfl (fun a b => by simp [add_def])
    fun j hj => (h j hj).1
  have hy := @zero_of_bits F (fun a => ⟨0, a, 0, 0⟩) rfl (fun a b => by simp [add_def])
    fun j hj => (h j hj).2.1
  have hz := @zero_of_bits F (fun a => ⟨0, 0, a, 0⟩) rfl (fun a b => by simp [add_def])
    fun j hj => (h j hj).2.2.1
  have hw := @zero_of_bits F (fun a => ⟨0, 0, 0, a⟩) rfl (fun a b => by simp [add_def])
    fun j hj => (h j hj).2.2.2
  refine DFunLike.ext _ _ fun s => ?_
  have hsum : s = ⟨s.x, 0, 0, 0⟩ + ⟨0, s.y, 0, 0⟩ + ⟨0, 0, s.z, 0⟩ + ⟨0, 0, 0, s.w⟩ := by
    simp [add_def]
  have hval : F s = 0 := by
    rw [hsum, map_add, map_add, map_add, hx, hy, hz, hw, add_zero, add_zero, add_zero]
  rw [hval]
  rfl

theorem vanishes : eval step 129 poly = 0 := by
  refine end_eq_zero fun j hj => ?_
  simp only [eval_apply]
  exact act_bits j hj

/-! ## The length of the cycles -/

/-- The number of states but zero. -/
def period : Nat := 2 ^ 128 - 1

theorem poly_lt : poly < 2 ^ (128 + 1) := by decide

theorem le_poly : 2 ^ 128 ≤ poly := by decide

theorem step_pow_period : step ^ period = 1 := by
  have hpow : powMod 128 poly 128 period = 1 := by decide +kernel
  have h := eval_powMod end_add_self (by decide) poly_lt le_poly vanishes 128
    (show period < 2 ^ 128 by decide)
  rw [← h, hpow, eval_one step (by decide)]

theorem prime_large : Nat.Prime 67280421310721 := by
  have hfactor : 67280421310721 - 1 = 2 ^ 8 * 5 * 47 * 373 * 2998279 := by norm_num
  refine lucas_primality _ 3 (by reduce_mod_char) fun q hq hdvd => ?_
  rw [hfactor] at hdvd
  have hcases : q = 2 ∨ q = 5 ∨ q = 47 ∨ q = 373 ∨ q = 2998279 := by
    have hprime : ∀ r, r.Prime → q ∣ r → q = r := fun r hr h =>
      (Nat.prime_dvd_prime_iff_eq hq hr).mp h
    simp only [hq.dvd_mul] at hdvd
    rcases hdvd with (((h | h) | h) | h) | h
    · exact Or.inl (hprime 2 Nat.prime_two (hq.dvd_of_dvd_pow h))
    · exact Or.inr (Or.inl (hprime 5 (by norm_num) h))
    · exact Or.inr (Or.inr (Or.inl (hprime 47 (by norm_num) h)))
    · exact Or.inr (Or.inr (Or.inr (Or.inl (hprime 373 (by norm_num) h))))
    · exact Or.inr (Or.inr (Or.inr (Or.inr (hprime 2998279 (by norm_num) h))))
  rcases hcases with rfl | rfl | rfl | rfl | rfl
  all_goals
    norm_num
    reduce_mod_char
    decide

/-- The prime factors `p` of the period, each with the polynomial that undoes the
difference of the `period / p`-th power and one. -/
def factors : List (Nat × Nat) :=
  [(3, 0x64c67953816627d8e1c03fd390fef03c), (5, 0x7232a2b2d2cd53a867f6d94da8f0e71f),
   (17, 0xd92cfed57f9e066f93380aec55c55bd2), (257, 0x69811d7e2688b56f2a355778589f965c),
   (641, 0xcce7c6e13d991eee18d029420f46ad66), (65537, 0xebffb80a9dc68f285f9da04a028d3ac),
   (274177, 0x5cb6e0cad66a1311fb7fd060f21d1ed1), (6700417, 0x4909a189c67b7953b575a8e2c60df884),
   (67280421310721, 0x35c6d222f6580cd92fd392c181af582b)]

theorem prime_of_factor {p : Nat} (h : p ∈ factors.map Prod.fst) : p.Prime := by
  simp only [factors, List.map_cons, List.map_nil, List.mem_cons, List.not_mem_nil,
    or_false] at h
  rcases h with rfl | rfl | rfl | rfl | rfl | rfl | rfl | rfl | rfl
  case inr.inr.inr.inr.inr.inr.inr.inr => exact prime_large
  all_goals norm_num

theorem mem_factors {p : Nat} (hp : p.Prime) (h : p ∣ period) : p ∈ factors.map Prod.fst := by
  have hprod : period = (factors.map Prod.fst).prod := by decide
  rw [hprod] at h
  obtain ⟨q, hq, hdvd⟩ := (Prime.dvd_prod_iff hp.prime).mp h
  rwa [(Nat.prime_dvd_prime_iff_eq hp (prime_of_factor hq)).mp hdvd]

theorem factors_check : ∀ pu ∈ factors, pu.2 < 2 ^ 128
    ∧ mulMod 128 poly 128 pu.2 (powMod 128 poly 128 (period / pu.1) ^^^ 1) = 1 := by
  decide +kernel

theorem step_undoes {p : Nat} (hp : p.Prime) (h : p ∣ period) :
    ∃ u : AddMonoid.End RandState, u * (step ^ (period / p) - 1) = 1 := by
  obtain ⟨pu, hmem, rfl⟩ := List.mem_map.mp (mem_factors hp h)
  obtain ⟨hlt, hcheck⟩ := factors_check pu hmem
  have hexp : period / pu.1 < 2 ^ 128 :=
    Nat.lt_of_le_of_lt (Nat.div_le_self _ _) (by decide)
  exact ⟨_, undoes_of_mulMod end_add_self (by decide) poly_lt le_poly vanishes hexp hlt hcheck⟩

/-- Every state but zero is on a cycle of all states but zero. -/
theorem minimalPeriod_rand {s : RandState} (hs : s ≠ 0) :
    Function.minimalPeriod rand s = period :=
  minimalPeriod_eq step_pow_period (fun _ hp h => step_undoes hp h) hs

theorem card_randState : Nat.card RandState = 2 ^ 128 := by
  let words : RandState ≃ BitVec 32 × BitVec 32 × BitVec 32 × BitVec 32 :=
    ⟨fun s => (s.x, s.y, s.z, s.w), fun b => ⟨b.1, b.2.1, b.2.2.1, b.2.2.2⟩, fun _ => rfl,
      fun _ => rfl⟩
  let word : BitVec 32 ≃ Fin (2 ^ 32) := ⟨BitVec.toFin, BitVec.ofFin, fun _ => rfl, fun _ => rfl⟩
  have hword : Nat.card (BitVec 32) = 2 ^ 32 := by rw [Nat.card_congr word, Nat.card_fin]
  rw [Nat.card_congr words, Nat.card_prod, Nat.card_prod, Nat.card_prod, hword]
  norm_num

theorem iterate_ne_zero {s : RandState} (hs : s ≠ 0) (n : Nat) : rand^[n] s ≠ 0 := by
  intro hzero
  have hle : n ≤ period * n := Nat.le_mul_of_pos_left n (by decide)
  have hback : rand^[period * n] s = s := by
    rw [← minimalPeriod_rand hs]
    exact (Function.isPeriodicPt_minimalPeriod rand s).mul_const n
  refine hs ?_
  calc s = rand^[period * n - n] (rand^[n] s) := by
          rw [← Function.iterate_add_apply, Nat.sub_add_cancel hle, hback]
    _ = 0 := by rw [hzero, Function.iterate_fixed (by decide)]

/-- From one state but zero the generator comes to every other. -/
theorem exists_iterate {s s' : RandState} (hs : s ≠ 0) (hs' : s' ≠ 0) :
    ∃ n < period, rand^[n] s = s' := by
  let visit : Option (Fin period) → RandState := fun o => o.elim 0 fun n => rand^[n.val] s
  have hinj : Function.Injective visit := by
    rintro (_ | n) (_ | m) h
    · rfl
    · exact absurd h.symm (iterate_ne_zero hs m)
    · exact absurd h (iterate_ne_zero hs n)
    · have hmem : ∀ k : Fin period, k.val ∈ Set.Iio (Function.minimalPeriod rand s) := by
        intro k
        rw [minimalPeriod_rand hs]
        exact k.isLt
      have heq := Function.iterate_injOn_Iio_minimalPeriod (hmem n) (hmem m) h
      rw [Fin.ext heq]
  have hcard : Nat.card RandState ≤ Nat.card (Option (Fin period)) := by
    rw [card_randState, Finite.card_option, Nat.card_fin]
    decide
  have hfinite : Finite RandState := Nat.finite_of_card_ne_zero (by rw [card_randState]; decide)
  obtain ⟨o, ho⟩ := (hinj.bijective_of_nat_card_le hcard).surjective s'
  cases o with
  | none => exact absurd ho.symm hs'
  | some n => exact ⟨n.val, n.isLt, ho⟩

/-! ## Reads of the device -/

theorem randomRead_eq (sz : Nat) (s : RandState) :
    randomRead sz s = ((List.range sz).map fun i => (rand^[i + 1] s).w.toNat % 0xff,
      rand^[sz] s) := by
  induction sz generalizing s with
  | zero => rfl
  | succ sz ih =>
      rw [randomRead, ih, List.range_succ_eq_map, List.map_cons, List.map_map]
      rfl

theorem reads_eq (szs : List Nat) (s : RandState) :
    reads szs s = randomRead szs.sum s := by
  induction szs generalizing s with
  | nil => rfl
  | cons sz szs ih =>
      simp only [reads, ih, randomRead_eq, List.sum_cons, List.range_add, List.map_append,
        List.map_map]
      refine Prod.ext (congrArg (_ ++ ·) (List.map_congr_left fun i _ => ?_)) ?_
      · have hindex : sz + i + 1 = i + 1 + sz := by omega
        rw [Function.comp_apply, hindex, Function.iterate_add_apply rand (i + 1) sz]
      · rw [Nat.add_comm, Function.iterate_add_apply]

/-- **The random numbers have the full period.** However the reads of the device are
divided, they give the results of `rand` one after another, each of them at most 254. The
variables of `rand` come back after `2 ^ 128 - 1` steps and no fewer, from any values but
zero, and by then they have had all values but zero. -/
theorem random_full_period :
    (∀ szs s, reads szs s = ((List.range szs.sum).map fun i => (rand^[i + 1] s).w.toNat % 0xff,
        rand^[szs.sum] s))
      ∧ (∀ szs s, ∀ b ∈ (reads szs s).1, b ≤ 254)
      ∧ randStart ≠ 0 ∧ ∀ s ≠ 0, Function.minimalPeriod rand s = 2 ^ 128 - 1
        ∧ ∀ s' ≠ 0, ∃ n < 2 ^ 128 - 1, rand^[n] s = s' := by
  refine ⟨fun szs s => ?_, fun szs s b hb => ?_, by decide, fun s hs =>
    ⟨minimalPeriod_rand hs, fun s' hs' => exists_iterate hs hs'⟩⟩
  · rw [reads_eq, randomRead_eq]
  · rw [reads_eq, randomRead_eq] at hb
    obtain ⟨i, -, rfl⟩ := List.mem_map.mp hb
    exact Nat.le_of_lt_succ (Nat.mod_lt _ (by decide))

end Random

end Shitos
