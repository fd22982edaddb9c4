import Mathlib.Data.List.Perm.Basic
import Shitos.Mem

/-!
# The ordered array

`ord_arr_t` is an array of words in memory, kept in the order of a
comparison while elements come and go. The comparison may read memory (the
heap orders its holes by their size), so nothing is assumed of it: what the
operations guarantee is that they add and remove one occurrence, and which
bytes they touch. The code never looks at `max_size`.
-/

namespace Shitos

/-- `ord_arr_t`; the elements are the words from `array` on. -/
structure OrdArr where
  array : Nat
  size : Nat
  maxSize : Nat
deriving DecidableEq, Repr

namespace OrdArr

/-- `array->array[i]`. -/
def elem (m : Mem) (a : OrdArr) (i : Nat) : Nat := rd32 m (a.array + 4 * i)

/-- `ord_arr_place`. -/
def place (m : Mem) (addr maxSize : Nat) : Mem × OrdArr :=
  (fill m addr 0 (maxSize * 4), ⟨addr, 0, maxSize⟩)

/-- The loop of `ord_arr_insert`: the first element that does not compare
below `el`, or the size. -/
def insertPos (m : Mem) (compar : Nat → Nat → Bool) (a : OrdArr) (el : Nat) : Nat :=
  (List.range a.size).findIdx fun i => !compar (elem m a i) el

/-- `ord_arr_insert`. -/
def insert (m : Mem) (compar : Nat → Nat → Bool) (a : OrdArr) (el : Nat) : Mem × OrdArr :=
  if insertPos m compar a el = a.size then
    (wr32 m (a.array + 4 * a.size) el, { a with size := a.size + 1 })
  else
    (wr32 (copy m (a.array + 4 * (insertPos m compar a el + 1)) m
        (a.array + 4 * insertPos m compar a el) (4 * (a.size - insertPos m compar a el)))
      (a.array + 4 * insertPos m compar a el) el, { a with size := a.size + 1 })

/-- `ord_arr_get`; `none` is a failed assertion. -/
def get (m : Mem) (a : OrdArr) (i : Nat) : Option Nat :=
  if i < a.size then some (elem m a i) else none

/-- `ord_arr_index`; `none` is `SIZE_MAX`. -/
def index (m : Mem) (a : OrdArr) (el : Nat) : Option Nat :=
  (List.range a.size).find? fun i => elem m a i = el

/-- `ord_arr_remove`; `none` is a failed assertion. -/
def remove (m : Mem) (a : OrdArr) (i : Nat) : Option (Mem × OrdArr) :=
  if i < a.size then
    some (copy m (a.array + 4 * i) m (a.array + 4 * (i + 1)) (4 * (a.size - 1 - i)),
      { a with size := a.size - 1 })
  else none

/-- The elements, in order. -/
def elems (m : Mem) (a : OrdArr) : List Nat := (List.range a.size).map (elem m a)

theorem length_elems (m : Mem) (a : OrdArr) : (elems m a).length = a.size := by
  rw [elems, List.length_map, List.length_range]

theorem getElem_elems {m : Mem} {a : OrdArr} {i : Nat} (h : i < (elems m a).length) :
    (elems m a)[i] = elem m a i := by
  simp only [elems, List.getElem_map, List.getElem_range]

theorem elem_mem {m : Mem} {a : OrdArr} {i : Nat} (h : i < a.size) : elem m a i ∈ elems m a :=
  List.mem_map_of_mem (List.mem_range.mpr h)

theorem mem_elems {m : Mem} {a : OrdArr} {x : Nat} :
    x ∈ elems m a ↔ ∃ i < a.size, elem m a i = x := by
  simp only [elems, List.mem_map, List.mem_range]

theorem elem_congr {m m' : Mem} {a : OrdArr} (h : Agree m m' a.array (4 * a.size)) {i : Nat}
    (hi : i < a.size) : elem m a i = elem m' a i :=
  rd32_congr (h.mono (by omega) (by omega))

theorem elems_congr {m m' : Mem} {a : OrdArr} (h : Agree m m' a.array (4 * a.size)) :
    elems m a = elems m' a :=
  List.map_congr_left fun _ hi => elem_congr h (List.mem_range.mp hi)

theorem index_of_mem {m : Mem} {a : OrdArr} {el : Nat} (h : el ∈ elems m a) :
    ∃ i < a.size, index m a el = some i ∧ elem m a i = el := by
  obtain ⟨j, hj, hel⟩ := mem_elems.mp h
  rw [index]
  cases hfind : (List.range a.size).find? (fun i => decide (elem m a i = el)) with
  | none =>
      have hno := List.find?_eq_none.mp hfind j (List.mem_range.mpr hj)
      simp only [decide_eq_true_eq] at hno
      exact absurd hel hno
  | some i =>
      have hmem := List.mem_of_find?_eq_some hfind
      have hval := List.find?_some hfind
      rw [decide_eq_true_eq] at hval
      exact ⟨i, List.mem_range.mp hmem, rfl, hval⟩

theorem mem_of_index {m : Mem} {a : OrdArr} {el i : Nat} (h : index m a el = some i) :
    el ∈ elems m a := by
  unfold index at h
  have helem : elem m a i = el := by simpa using List.find?_some h
  exact mem_elems.mpr ⟨i, List.mem_range.mp (List.mem_of_find?_eq_some h), helem⟩

/-! ## Insertion -/

section Insert

variable {m : Mem} {compar : Nat → Nat → Bool} {a : OrdArr} {el : Nat}

theorem insert_size : (insert m compar a el).2 = { a with size := a.size + 1 } := by
  unfold insert
  split <;> rfl

theorem insertPos_le : insertPos m compar a el ≤ a.size := by
  have hle := @List.findIdx_le_length _ (fun i => !compar (elem m a i) el) (List.range a.size)
  rwa [List.length_range] at hle

/-- One word beyond the elements is overwritten, and nothing further. -/
theorem insert_frame {x : Nat} (h : x < a.array ∨ a.array + 4 * (a.size + 1) ≤ x) :
    (insert m compar a el).1 x = m x := by
  have hle := @insertPos_le m compar a el
  unfold insert
  split
  · exact wr32_apply_of_ne (by omega)
  · simp only
    rw [wr32_apply_of_ne (by omega), copy_apply_of_not (by omega)]

theorem insert_elem (hel : el < 2 ^ 32) : ∀ i < a.size + 1,
    elem (insert m compar a el).1 a i
      = if i < insertPos m compar a el then elem m a i
        else if i = insertPos m compar a el then el else elem m a (i - 1) := by
  intro i hi
  have hle := @insertPos_le m compar a el
  unfold insert
  generalize insertPos m compar a el = p at hle ⊢
  by_cases hp : p = a.size
  · rw [if_pos hp]
    rcases Nat.lt_or_ge i p with hlt | hge
    · rw [if_pos hlt]
      exact rd32_wr32_of_disjoint (by omega)
    · obtain rfl : i = p := by omega
      rw [if_neg (Nat.lt_irrefl i), if_pos rfl, elem, hp]
      exact rd32_wr32_same _ hel
  · rw [if_neg hp]
    rcases Nat.lt_trichotomy i p with hlt | rfl | hgt
    · rw [if_pos hlt, elem, rd32_wr32_of_disjoint (by omega)]
      exact rd32_congr fun x h1 h2 => copy_apply_of_not (by omega)
    · rw [if_neg (Nat.lt_irrefl i), if_pos rfl, elem]
      exact rd32_wr32_same _ hel
    · rw [if_neg (by omega), if_neg (by omega), elem, rd32_wr32_of_disjoint (by omega)]
      refine rd32_eq_of_bytes fun k hk => ?_
      rw [copy_apply (by omega) (by omega)]
      congr 1
      omega

theorem insert_perm (hel : el < 2 ^ 32) :
    (elems (insert m compar a el).1 (insert m compar a el).2).Perm (el :: elems m a) := by
  have hp := @insertPos_le m compar a el
  have hget := @insert_elem m compar a el hel
  generalize insertPos m compar a el = p at hp hget
  have heq : elems (insert m compar a el).1 (insert m compar a el).2
      = (elems m a).take p ++ el :: (elems m a).drop p := by
    refine List.ext_getElem ?_ fun i h1 h2 => ?_
    · simp only [length_elems, insert_size, List.length_append, List.length_take,
        List.length_cons, List.length_drop]
      omega
    · rw [length_elems, insert_size] at h1
      rw [getElem_elems, insert_size]
      show elem (insert m compar a el).1 a i = _
      rw [hget i h1, List.getElem_append]
      simp only [List.length_take, length_elems]
      split
      · rw [dif_pos (by omega), List.getElem_take, getElem_elems]
      · rw [dif_neg (by omega)]
        rename_i hip
        split
        · rename_i hipe
          simp only [hipe, Nat.min_eq_left hp, Nat.sub_self, List.getElem_cons_zero]
        · obtain ⟨k, rfl⟩ : ∃ k, i = p + k + 1 := ⟨i - p - 1, by omega⟩
          simp only [Nat.min_eq_left hp, show p + k + 1 - p = k + 1 by omega,
            List.getElem_cons_succ, List.getElem_drop, getElem_elems]
          congr 1
  rw [heq]
  exact List.perm_middle.trans (by rw [List.take_append_drop])

/-- Where the comparison is that of a key, insertion keeps the order. -/
theorem insert_pairwise {key : Nat → Nat} (hcompar : ∀ x y, compar x y = decide (key x < key y))
    (hel : el < 2 ^ 32) (h : (elems m a).Pairwise fun x y => key x ≤ key y) :
    (elems (insert m compar a el).1 (insert m compar a el).2).Pairwise fun x y => key x ≤ key y := by
  have hle := @insertPos_le m compar a el
  have hbefore : ∀ i < insertPos m compar a el, key (elem m a i) < key el := fun i hi => by
    have hnot := List.not_of_lt_findIdx hi
    rw [List.getElem_range, hcompar] at hnot
    simpa using hnot
  have hat : ∀ i, insertPos m compar a el = i → i < a.size → key el ≤ key (elem m a i) := by
    rintro i rfl hi
    have hyes := @List.findIdx_getElem _ (fun i => !compar (elem m a i) el) (List.range a.size)
      (by rw [List.length_range]; exact hi)
    rw [List.getElem_range, hcompar] at hyes
    simpa [insertPos] using hyes
  have hold : ∀ i j, i < j → j < a.size → key (elem m a i) ≤ key (elem m a j) := by
    intro i j hij hj
    have := List.pairwise_iff_getElem.mp h i j (by rw [length_elems]; omega)
      (by rw [length_elems]; omega) hij
    rwa [getElem_elems, getElem_elems] at this
  rw [insert_size]
  refine List.pairwise_iff_getElem.mpr fun i j hi hj hij => ?_
  rw [length_elems] at hi hj
  dsimp only at hi hj
  rw [getElem_elems, getElem_elems]
  have hi' := @insert_elem m compar a el hel i hi
  have hj' := @insert_elem m compar a el hel j hj
  rw [show elem (insert m compar a el).1 { a with size := a.size + 1 } i
    = elem (insert m compar a el).1 a i from rfl, hi',
    show elem (insert m compar a el).1 { a with size := a.size + 1 } j
    = elem (insert m compar a el).1 a j from rfl, hj']
  generalize hp : insertPos m compar a el = p at hbefore hat hle ⊢
  rcases Nat.lt_trichotomy j p with hjp | rfl | hjp
  · rw [if_pos (hij.trans hjp), if_pos hjp]
    exact hold i j hij (by omega)
  · rw [if_pos hij, if_neg (Nat.lt_irrefl j), if_pos rfl]
    exact (hbefore i hij).le
  · have hnot : ¬ j < p := by omega
    have hne : ¬ j = p := by omega
    rw [if_neg hnot, if_neg hne]
    rcases Nat.lt_trichotomy i p with hip | rfl | hip
    · rw [if_pos hip]
      exact hold i (j - 1) (by omega) (by omega)
    · rw [if_neg (Nat.lt_irrefl i), if_pos rfl]
      have hfirst := hat i rfl (by omega)
      rcases Nat.eq_or_lt_of_le (show i ≤ j - 1 by omega) with heq | hlt
      · rw [← heq]
        exact hfirst
      · exact hfirst.trans (hold i (j - 1) hlt (by omega))
    · rw [if_neg (by omega), if_neg (by omega)]
      exact hold (i - 1) (j - 1) (by omega) (by omega)

end Insert

/-! ## Removal -/

section Remove

variable {m m' : Mem} {a a' : OrdArr} {i : Nat}

theorem remove_eq_some (h : i < a.size) : ∃ m', remove m a i
    = some (m', { a with size := a.size - 1 }) := ⟨_, if_pos h⟩

theorem remove_size (h : remove m a i = some (m', a')) :
    i < a.size ∧ a' = { a with size := a.size - 1 } := by
  unfold remove at h
  split at h
  · rename_i hi
    cases h
    exact ⟨hi, rfl⟩
  · cases h

theorem remove_frame (h : remove m a i = some (m', a')) {x : Nat}
    (hx : x < a.array ∨ a.array + 4 * a.size ≤ x) : m' x = m x := by
  have hi := (remove_size h).1
  unfold remove at h
  rw [if_pos hi] at h
  cases h
  exact copy_apply_of_not (by omega)

theorem remove_elems (h : remove m a i = some (m', a')) :
    elems m' a' = (elems m a).eraseIdx i := by
  obtain ⟨hi, rfl⟩ := remove_size h
  unfold remove at h
  rw [if_pos hi] at h
  cases h
  refine List.ext_getElem ?_ fun k h1 h2 => ?_
  · rw [length_elems, List.length_eraseIdx_of_lt (by rwa [length_elems]), length_elems]
  · rw [length_elems] at h1
    simp only at h1
    rw [getElem_elems, List.getElem_eraseIdx]
    split
    · rw [getElem_elems, elem, elem]
      refine rd32_congr fun x hx hx' => copy_apply_of_not ?_
      simp only at hx hx'
      omega
    · rw [getElem_elems, elem, elem]
      refine rd32_eq_of_bytes fun j hj => ?_
      simp only
      rw [copy_apply (by omega) (by omega)]
      congr 1
      omega

/-- Removing position `i` takes away one occurrence of the element there. -/
theorem remove_perm (h : remove m a i = some (m', a')) :
    (elem m a i :: elems m' a').Perm (elems m a) := by
  have hi := (remove_size h).1
  rw [remove_elems h, ← getElem_elems (by rwa [length_elems])]
  exact List.getElem_cons_eraseIdx_perm _

end Remove

end OrdArr

end Shitos
