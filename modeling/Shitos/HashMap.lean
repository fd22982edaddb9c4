import Mathlib.Data.List.Induction
import Mathlib.Logic.Function.Basic

/-!
# Hash maps

`hashmap_t` with its callbacks, over any type of keys. A chain is the list of
its entries, and every operation walks the one chain the key hashes to.

The abstract map of a hash map gives each key the value of the first entry
its chain has for it (`HashMap.toMap`). On maps that are `WellPlaced` the
operations are insertion and removal (`toMap_set`, `toMap_unlink`), and a
listing of the map has each binding once.
-/

namespace Shitos

namespace HashMap

/-! ## Callbacks -/

/-- The function pointers of `hashmap_t` that the lookups use. -/
structure Ops (K : Type) where
  hash : K → Nat
  compar : K → K → Int
  dup : K → K

variable {K : Type}

/-- Two keys compare equal. -/
def Ops.Same (o : Ops K) (a b : K) : Prop := o.compar a b = 0

instance (o : Ops K) (a b : K) : Decidable (o.Same a b) := inferInstanceAs (Decidable (_ = _))

/-- A comparison that is an equivalence, equal keys hashing equally, and
copies that are equal to their original. -/
structure Ops.Lawful (o : Ops K) : Prop where
  refl : ∀ a, o.Same a a
  symm : ∀ a b, o.Same a b → o.Same b a
  trans : ∀ a b c, o.Same a b → o.Same b c → o.Same a c
  hash : ∀ a b, o.Same a b → o.hash a = o.hash b
  dup : ∀ a, o.Same (o.dup a) a

theorem Ops.Lawful.congr_left {o : Ops K} (L : o.Lawful) {a b : K} (h : o.Same a b) (c : K) :
    o.Same a c ↔ o.Same b c :=
  ⟨fun hc => L.trans _ _ _ (L.symm _ _ h) hc, fun hc => L.trans _ _ _ h hc⟩

/-! ## The map -/

/-- `hashmap_entry_t` without the link. -/
structure Entry (K : Type) where
  key : K
  value : Nat

/-- `hashmap_t`. -/
structure Table (K : Type) where
  ops : Ops K
  sz : Nat
  entries : Nat → List (Entry K)

/-- `NULL`, as a value. -/
def null : Nat := 0

/-- `hashmap_create_str` and `hashmap_create_int`, for their callbacks. -/
def create (ops : Ops K) (sz : Nat) : Table K := ⟨ops, sz, fun _ => []⟩

/-! ## Walks along a chain -/

/-- The walk of `hashmap_get` and `hashmap_has`. -/
def walk (o : Ops K) (key : K) : List (Entry K) → Option (Entry K)
  | [] => none
  | entry :: next => if o.compar entry.key key ≠ 0 then walk o key next else some entry

/-- The walk of `hashmap_set`: the returned value, and the chain. A new entry
goes behind the last one. -/
def walkSet (o : Ops K) (key : K) (val : Nat) : List (Entry K) → Nat × List (Entry K)
  | [] => (null, [⟨o.dup key, val⟩])
  | entry :: next =>
      if o.compar entry.key key = 0 then (entry.value, { entry with value := val } :: next)
      else ((walkSet o key val next).1, entry :: (walkSet o key val next).2)

/-- The walk of `hashmap_delete` and `hashmap_pop`: the unlinked entry, and
the chain without it. -/
def walkUnlink (o : Ops K) (key : K) : List (Entry K) → Option (Entry K × List (Entry K))
  | [] => none
  | entry :: next =>
      if o.compar entry.key key ≠ 0 then
        (walkUnlink o key next).map fun r => (r.1, entry :: r.2)
      else some (entry, next)

namespace Table

variable (map : Table K)

/-- `map->hash(key) % map->sz`. -/
def bucket (key : K) : Nat := map.ops.hash key % map.sz

/-- `map->entries[b] = chain`. -/
def setChain (b : Nat) (chain : List (Entry K)) : Table K :=
  { map with entries := Function.update map.entries b chain }

/-- `hashmap_get`. -/
def get (key : K) : Nat :=
  match walk map.ops key (map.entries (map.bucket key)) with
  | some entry => entry.value
  | none => null

/-- `hashmap_has`. -/
def has (key : K) : Bool := (walk map.ops key (map.entries (map.bucket key))).isSome

/-- `hashmap_set`. -/
def set (key : K) (val : Nat) : Nat × Table K :=
  let r := walkSet map.ops key val (map.entries (map.bucket key))
  (r.1, map.setChain (map.bucket key) r.2)

/-- `hashmap_delete`. -/
def delete (key : K) : Table K :=
  match walkUnlink map.ops key (map.entries (map.bucket key)) with
  | none => map
  | some (_, chain) => map.setChain (map.bucket key) chain

/-- `hashmap_pop`. -/
def pop (key : K) : Nat × Table K :=
  match walkUnlink map.ops key (map.entries (map.bucket key)) with
  | none => (null, map)
  | some (entry, chain) => (entry.value, map.setChain (map.bucket key) chain)

/-- `hashmap_empty`. -/
def empty : Bool := (List.range map.sz).all fun i => (map.entries i).isEmpty

/-- All entries, in the order of `hashmap_keys` and `hashmap_values`. -/
def listing : List (Entry K) := (List.range map.sz).flatMap map.entries

/-- `hashmap_keys`. -/
def keys : List K := map.listing.map Entry.key

/-- `hashmap_values`. -/
def values : List Nat := map.listing.map Entry.value

end Table

/-! ## Abstract maps -/

/-- Insert or overwrite. -/
def insert (o : Ops K) (key : K) (val : Nat) (M : K → Option Nat) : K → Option Nat :=
  fun k => if o.Same key k then some val else M k

def erase (o : Ops K) (key : K) (M : K → Option Nat) : K → Option Nat :=
  fun k => if o.Same key k then none else M k

/-- The abstract map. -/
def Table.toMap (map : Table K) (key : K) : Option Nat :=
  (walk map.ops key (map.entries (map.bucket key))).map Entry.value

/-- Each entry is in the bucket of its key, and no two entries have the same
key. -/
structure WellPlaced (map : Table K) : Prop where
  placed : ∀ i, ∀ e ∈ map.entries i, map.bucket e.key = i
  distinct : ∀ i, (map.entries i).Pairwise fun a b => ¬map.ops.Same a.key b.key

/-! ## Chains -/

section Chains

variable {o : Ops K} {key : K} {chain : List (Entry K)}

theorem walk_cons (e : Entry K) : walk o key (e :: chain) =
    if o.Same e.key key then some e else walk o key chain := by
  rw [walk, ite_not]
  rfl

theorem walkSet_cons (e : Entry K) (val : Nat) : walkSet o key val (e :: chain) =
    if o.Same e.key key then (e.value, { e with value := val } :: chain)
    else ((walkSet o key val chain).1, e :: (walkSet o key val chain).2) := rfl

theorem walkUnlink_cons (e : Entry K) : walkUnlink o key (e :: chain) =
    if o.Same e.key key then some (e, chain)
    else (walkUnlink o key chain).map fun r => (r.1, e :: r.2) := by
  rw [walkUnlink, ite_not]
  rfl

theorem walk_some {e : Entry K} (h : walk o key chain = some e) :
    e ∈ chain ∧ o.Same e.key key := by
  induction chain with
  | nil => cases h
  | cons a chain ih =>
      rw [walk_cons] at h
      split at h
      · rename_i hsame
        cases h
        exact ⟨List.mem_cons_self, hsame⟩
      · exact ⟨List.mem_cons_of_mem _ (ih h).1, (ih h).2⟩

theorem walk_eq_none : walk o key chain = none ↔ ∀ e ∈ chain, ¬o.Same e.key key := by
  induction chain with
  | nil => exact ⟨fun _ e he => absurd he List.not_mem_nil, fun _ => rfl⟩
  | cons a chain ih =>
      rw [walk_cons, List.forall_mem_cons]
      split
      · rename_i hsame
        exact ⟨(nomatch ·), fun h => absurd hsame h.1⟩
      · rename_i hne
        exact ih.trans ⟨fun h => ⟨hne, h⟩, And.right⟩

/-- Two entries for one key do not occur together. -/
theorem walk_eq_some (L : o.Lawful) (hd : chain.Pairwise fun a b => ¬o.Same a.key b.key)
    {e : Entry K} (he : e ∈ chain) (hsame : o.Same e.key key) : walk o key chain = some e := by
  induction chain with
  | nil => exact absurd he List.not_mem_nil
  | cons a chain ih =>
      rw [List.pairwise_cons] at hd
      rw [walk_cons]
      rcases List.mem_cons.mp he with rfl | he
      · rw [if_pos hsame]
      · have hne : ¬o.Same a.key key := fun ha =>
          hd.1 e he (L.trans _ _ _ ha (L.symm _ _ hsame))
        rw [if_neg hne]
        exact ih hd.2 he

/-- The keys of a chain after `hashmap_set`. -/
theorem mem_walkSet {val : Nat} {e : Entry K} (h : e ∈ (walkSet o key val chain).2) :
    (∃ e' ∈ chain, e'.key = e.key) ∨ e.key = o.dup key := by
  induction chain with
  | nil =>
      rw [List.mem_singleton.mp h]
      exact Or.inr rfl
  | cons a chain ih =>
      rw [walkSet] at h
      split at h
      · rcases List.mem_cons.mp h with rfl | h
        · exact Or.inl ⟨a, List.mem_cons_self, rfl⟩
        · exact Or.inl ⟨e, List.mem_cons_of_mem _ h, rfl⟩
      · rcases List.mem_cons.mp h with rfl | h
        · exact Or.inl ⟨e, List.mem_cons_self, rfl⟩
        · rcases ih h with ⟨e', he', heq⟩ | heq
          · exact Or.inl ⟨e', List.mem_cons_of_mem _ he', heq⟩
          · exact Or.inr heq

theorem walkSet_distinct (L : o.Lawful) {val : Nat}
    (hd : chain.Pairwise fun a b => ¬o.Same a.key b.key) :
    (walkSet o key val chain).2.Pairwise fun a b => ¬o.Same a.key b.key := by
  induction chain with
  | nil => exact List.pairwise_singleton ..
  | cons a chain ih =>
      rw [List.pairwise_cons] at hd
      rw [walkSet_cons]
      split
      · exact List.pairwise_cons.mpr hd
      · rename_i hne
        refine List.pairwise_cons.mpr ⟨fun e he => ?_, ih hd.2⟩
        rcases mem_walkSet he with ⟨e', he', heq⟩ | heq
        · rw [← heq]
          exact hd.1 e' he'
        · rw [heq]
          exact fun h => hne (L.trans _ _ _ h (L.dup key))

theorem walkSet_fst {val : Nat} :
    (walkSet o key val chain).1 = ((walk o key chain).map Entry.value).getD null := by
  induction chain with
  | nil => rfl
  | cons a chain ih =>
      rw [walkSet_cons, walk_cons]
      by_cases hsame : o.Same a.key key
      · rw [if_pos hsame, if_pos hsame]
        rfl
      · rw [if_neg hsame, if_neg hsame]
        exact ih

theorem walk_walkSet (L : o.Lawful) {val : Nat} (k : K) :
    (walk o k (walkSet o key val chain).2).map Entry.value =
      if o.Same key k then some val else (walk o k chain).map Entry.value := by
  induction chain with
  | nil =>
      have hiff : o.Same (o.dup key) k ↔ o.Same key k := L.congr_left (L.dup key) k
      rw [walkSet, walk_cons]
      by_cases hk : o.Same key k
      · rw [if_pos hk, if_pos (hiff.mpr hk)]
        rfl
      · rw [if_neg hk, if_neg (mt hiff.mp hk)]
  | cons a chain ih =>
      rw [walkSet_cons]
      by_cases hsame : o.Same a.key key
      · have hiff : o.Same a.key k ↔ o.Same key k := L.congr_left hsame k
        rw [if_pos hsame, walk_cons, walk_cons]
        by_cases hk : o.Same key k
        · rw [if_pos hk, if_pos (hiff.mpr hk)]
          rfl
        · rw [if_neg hk, if_neg (mt hiff.mp hk), if_neg (mt hiff.mp hk)]
      · rw [if_neg hsame, walk_cons, walk_cons]
        by_cases ha : o.Same a.key k
        · have hk : ¬o.Same key k := fun hk => hsame (L.trans _ _ _ ha (L.symm _ _ hk))
          rw [if_pos ha, if_neg hk, if_pos ha]
        · rw [if_neg ha, if_neg ha]
          exact ih

theorem walkUnlink_fst : (walkUnlink o key chain).map Prod.fst = walk o key chain := by
  induction chain with
  | nil => rfl
  | cons a chain ih =>
      rw [walkUnlink_cons, walk_cons]
      split
      · rfl
      · rw [← ih, Option.map_map]
        rfl

/-- The chain after unlinking is the chain without one entry. -/
theorem walkUnlink_split {e : Entry K} {rest : List (Entry K)}
    (h : walkUnlink o key chain = some (e, rest)) :
    ∃ l₁ l₂, chain = l₁ ++ e :: l₂ ∧ rest = l₁ ++ l₂ ∧ o.Same e.key key := by
  induction chain generalizing rest with
  | nil => cases h
  | cons a chain ih =>
      rw [walkUnlink_cons] at h
      split at h
      · rename_i hsame
        cases h
        exact ⟨[], chain, rfl, rfl, hsame⟩
      · obtain ⟨⟨e', rest'⟩, hrec, heq⟩ := Option.map_eq_some_iff.mp h
        cases heq
        obtain ⟨l₁, l₂, rfl, rfl, hsame⟩ := ih hrec
        exact ⟨a :: l₁, l₂, rfl, rfl, hsame⟩

theorem walk_append (l₁ l₂ : List (Entry K)) (k : K) :
    walk o k (l₁ ++ l₂) = (walk o k l₁).or (walk o k l₂) := by
  induction l₁ with
  | nil => rfl
  | cons a l₁ ih =>
      rw [List.cons_append, walk_cons, walk_cons]
      split
      · rfl
      · exact ih

theorem walk_walkUnlink (L : o.Lawful) (hd : chain.Pairwise fun a b => ¬o.Same a.key b.key)
    {e : Entry K} {rest : List (Entry K)} (h : walkUnlink o key chain = some (e, rest)) (k : K) :
    walk o k rest = if o.Same key k then none else walk o k chain := by
  obtain ⟨l₁, l₂, rfl, rfl, hsame⟩ := walkUnlink_split h
  rw [List.pairwise_append, List.pairwise_cons] at hd
  obtain ⟨-, ⟨hafter, -⟩, hbefore⟩ := hd
  by_cases hk : o.Same key k
  · rw [if_pos hk, walk_eq_none]
    have hek : o.Same e.key k := L.trans _ _ _ hsame hk
    intro a ha hak
    rcases List.mem_append.mp ha with ha | ha
    · exact hbefore a ha e List.mem_cons_self (L.trans _ _ _ hak (L.symm _ _ hek))
    · exact hafter a ha (L.trans _ _ _ hek (L.symm _ _ hak))
  · have hek : ¬o.Same e.key k := fun h => hk (L.trans _ _ _ (L.symm _ _ hsame) h)
    rw [if_neg hk, walk_append, walk_append, walk_cons, if_neg hek]

end Chains

/-! ## The operations on the abstract map -/

section Operations

variable {map : Table K}

theorem WellPlaced.create (ops : Ops K) (sz : Nat) : WellPlaced (create ops sz) :=
  ⟨fun _ _ he => absurd he List.not_mem_nil, fun _ => List.Pairwise.nil⟩

@[simp] theorem setChain_entries (b : Nat) (chain : List (Entry K)) :
    (map.setChain b chain).entries = Function.update map.entries b chain := rfl

theorem WellPlaced.setChain (h : WellPlaced map) {b : Nat} {chain : List (Entry K)}
    (hplaced : ∀ e ∈ chain, map.bucket e.key = b)
    (hdistinct : chain.Pairwise fun a b => ¬map.ops.Same a.key b.key) :
    WellPlaced (map.setChain b chain) := by
  refine ⟨fun i e he => ?_, fun i => ?_⟩
  · show map.bucket e.key = i
    rw [setChain_entries] at he
    by_cases hi : i = b
    · rw [hi, Function.update_self] at he
      rw [hi]
      exact hplaced e he
    · rw [Function.update_of_ne hi] at he
      exact h.placed i e he
  · show (Function.update map.entries b chain i).Pairwise _
    by_cases hi : i = b
    · rw [hi, Function.update_self]
      exact hdistinct
    · rw [Function.update_of_ne hi]
      exact h.distinct i

theorem WellPlaced.set (h : WellPlaced map) (L : map.ops.Lawful) (key : K) (val : Nat) :
    WellPlaced (map.set key val).2 := by
  refine h.setChain (fun e he => ?_) (walkSet_distinct L (h.distinct _))
  rcases mem_walkSet he with ⟨e', he', heq⟩ | heq
  · rw [← heq]
    exact h.placed _ e' he'
  · rw [heq, Table.bucket, L.hash _ _ (L.dup key)]
    rfl

theorem WellPlaced.unlink (h : WellPlaced map) {key : K} {e : Entry K} {rest : List (Entry K)}
    (hrest : walkUnlink map.ops key (map.entries (map.bucket key)) = some (e, rest)) :
    WellPlaced (map.setChain (map.bucket key) rest) := by
  obtain ⟨l₁, l₂, hchain, rfl, -⟩ := walkUnlink_split hrest
  have hsub : (l₁ ++ l₂).Sublist (map.entries (map.bucket key)) := by
    rw [hchain]
    exact (List.Sublist.refl l₁).append (List.sublist_cons_self e l₂)
  exact h.setChain (fun a ha => h.placed _ a (hsub.subset ha)) ((h.distinct _).sublist hsub)

/-- Changing the chain of `key` changes the map on the keys of that bucket. -/
theorem toMap_setChain {key : K} {chain : List (Entry K)} (L : map.ops.Lawful)
    {M : K → Option Nat}
    (hchain : ∀ k, (walk map.ops k chain).map Entry.value =
      if map.ops.Same key k then M k
      else (walk map.ops k (map.entries (map.bucket key))).map Entry.value) :
    (map.setChain (map.bucket key) chain).toMap =
      fun k => if map.ops.Same key k then M k else map.toMap k := by
  funext k
  show (walk map.ops k (Function.update map.entries (map.bucket key) chain (map.bucket k))).map
    Entry.value = _
  by_cases hb : map.bucket k = map.bucket key
  · rw [hb, Function.update_self, hchain, Table.toMap, hb]
  · have hne : ¬map.ops.Same key k := fun hsame =>
      hb (by rw [Table.bucket, Table.bucket, L.hash _ _ hsame])
    rw [Function.update_of_ne hb, if_neg hne]
    rfl

theorem toMap_set (L : map.ops.Lawful) (key : K) (val : Nat) :
    (map.set key val).2.toMap = insert map.ops key val map.toMap :=
  toMap_setChain L fun k => walk_walkSet L k

theorem set_fst (key : K) (val : Nat) : (map.set key val).1 = (map.toMap key).getD null :=
  walkSet_fst

/-- A key without an entry is erased already. -/
theorem erase_eq_self (L : map.ops.Lawful) {key : K}
    (h : walkUnlink map.ops key (map.entries (map.bucket key)) = none) :
    map.toMap = erase map.ops key map.toMap := by
  have hnone : walk map.ops key (map.entries (map.bucket key)) = none := by
    rw [← walkUnlink_fst, h]
    rfl
  funext k
  unfold erase
  by_cases hk : map.ops.Same key k
  · rw [if_pos hk, Table.toMap, Table.bucket, ← L.hash _ _ hk]
    rw [Option.map_eq_none_iff, walk_eq_none]
    intro e he hek
    exact walk_eq_none.mp hnone e he (L.trans _ _ _ hek (L.symm _ _ hk))
  · rw [if_neg hk]

theorem toMap_unlink (h : WellPlaced map) (L : map.ops.Lawful) {key : K} {e : Entry K}
    {rest : List (Entry K)}
    (hrest : walkUnlink map.ops key (map.entries (map.bucket key)) = some (e, rest)) :
    (map.setChain (map.bucket key) rest).toMap = erase map.ops key map.toMap := by
  refine toMap_setChain L (M := fun _ => none) fun k => ?_
  rw [walk_walkUnlink L (h.distinct _) hrest]
  split <;> rfl

/-- `hashmap_delete` and `hashmap_pop` leave the same map. -/
theorem delete_eq_pop (key : K) : map.delete key = (map.pop key).2 := by
  unfold Table.delete Table.pop
  cases walkUnlink map.ops key (map.entries (map.bucket key)) <;> rfl

theorem WellPlaced.pop (h : WellPlaced map) (key : K) : WellPlaced (map.pop key).2 := by
  unfold Table.pop
  cases hrest : walkUnlink map.ops key (map.entries (map.bucket key)) with
  | none => exact h
  | some r => exact h.unlink hrest

theorem toMap_pop (h : WellPlaced map) (L : map.ops.Lawful) (key : K) :
    (map.pop key).2.toMap = erase map.ops key map.toMap := by
  unfold Table.pop
  cases hrest : walkUnlink map.ops key (map.entries (map.bucket key)) with
  | none => exact erase_eq_self L hrest
  | some r => exact toMap_unlink h L hrest

theorem pop_fst (key : K) : (map.pop key).1 = (map.toMap key).getD null := by
  unfold Table.pop Table.toMap
  rw [← walkUnlink_fst]
  cases walkUnlink map.ops key (map.entries (map.bucket key)) <;> rfl

end Operations

/-! ## Listings -/

/-- The map lists exactly the bindings of `M`, and its lookups follow `M`. -/
structure Refines (map : Table K) (M : K → Option Nat) : Prop where
  get : ∀ k, map.get k = (M k).getD null
  has : ∀ k, map.has k = true ↔ ∃ v, M k = some v
  empty : map.empty = true ↔ ∀ k, M k = none
  listed : ∀ e ∈ map.listing, M e.key = some e.value
  once : map.listing.Pairwise fun a b => ¬map.ops.Same a.key b.key
  complete : ∀ k v, M k = some v → ∃ e ∈ map.listing, map.ops.Same e.key k ∧ e.value = v
  placed : ∀ i, ∀ e ∈ map.entries i, map.ops.hash e.key % map.sz = i

section Listings

variable {map : Table K}

theorem mem_listing (h : WellPlaced map) (hsz : 1 ≤ map.sz) {e : Entry K} :
    e ∈ map.listing ↔ e ∈ map.entries (map.bucket e.key) := by
  rw [Table.listing, List.mem_flatMap]
  constructor
  · rintro ⟨i, -, he⟩
    rwa [h.placed i e he]
  · exact fun he => ⟨_, List.mem_range.mpr (Nat.mod_lt _ hsz), he⟩

theorem listing_pairwise (h : WellPlaced map) (L : map.ops.Lawful) :
    map.listing.Pairwise fun a b => ¬map.ops.Same a.key b.key := by
  refine List.pairwise_flatMap.mpr ⟨fun i _ => h.distinct i, ?_⟩
  refine List.nodup_range.imp fun {i j} hij a ha b hb hsame => hij ?_
  rw [← h.placed i a ha, ← h.placed j b hb, Table.bucket, Table.bucket, L.hash _ _ hsame]

theorem toMap_eq_some (h : WellPlaced map) (L : map.ops.Lawful) {e : Entry K}
    (he : e ∈ map.entries (map.bucket e.key)) : map.toMap e.key = some e.value := by
  rw [Table.toMap, walk_eq_some L (h.distinct _) he (L.refl _)]
  rfl

theorem WellPlaced.refines (h : WellPlaced map) (L : map.ops.Lawful) (hsz : 1 ≤ map.sz) :
    Refines map map.toMap where
  get k := by
    unfold Table.get Table.toMap
    cases walk map.ops k (map.entries (map.bucket k)) <;> rfl
  has k := by
    unfold Table.has Table.toMap
    cases walk map.ops k (map.entries (map.bucket k)) with
    | none => exact ⟨(nomatch ·), fun ⟨_, hv⟩ => nomatch hv⟩
    | some e => exact ⟨fun _ => ⟨e.value, rfl⟩, fun _ => rfl⟩
  empty := by
    rw [Table.empty, List.all_eq_true]
    constructor
    · intro hempty k
      have hchain := hempty (map.bucket k) (List.mem_range.mpr (Nat.mod_lt _ hsz))
      rw [Table.toMap, List.isEmpty_iff.mp hchain]
      rfl
    · intro hnone i hi
      rw [List.isEmpty_iff, List.eq_nil_iff_forall_not_mem]
      intro e he
      have hplaced := h.placed i e he
      rw [← hplaced] at he
      have hsome := toMap_eq_some h L he
      rw [hnone] at hsome
      cases hsome
  listed e he := toMap_eq_some h L ((mem_listing h hsz).mp he)
  once := listing_pairwise h L
  complete k v hk := by
    obtain ⟨e, he, rfl⟩ := Option.map_eq_some_iff.mp hk
    obtain ⟨hmem, hsame⟩ := walk_some he
    refine ⟨e, (mem_listing h hsz).mpr ?_, hsame, rfl⟩
    rwa [h.placed _ e hmem]
  placed := h.placed

end Listings

/-! ## Runs -/

inductive Op (K : Type) where
  | set (key : K) (val : Nat)
  | pop (key : K)
  | delete (key : K)

/-- One operation: what it returns, if anything, and the map after it. -/
def Table.exec (map : Table K) : Op K → Option Nat × Table K
  | .set key val => (some (map.set key val).1, (map.set key val).2)
  | .pop key => (some (map.pop key).1, (map.pop key).2)
  | .delete key => (none, map.delete key)

def Table.run (map : Table K) (ops : List (Op K)) : Table K :=
  ops.foldl (fun m op => (m.exec op).2) map

/-- The operation on abstract maps. -/
def Op.apply (o : Ops K) : Op K → (K → Option Nat) → K → Option Nat
  | .set key val => insert o key val
  | .pop key => erase o key
  | .delete key => erase o key

/-- What an operation on the abstract map `M` returns. -/
def Op.result (M : K → Option Nat) : Op K → Option Nat
  | .set key _ => some ((M key).getD null)
  | .pop key => some ((M key).getD null)
  | .delete _ => none

def applyAll (o : Ops K) (ops : List (Op K)) : K → Option Nat :=
  ops.foldl (fun M op => op.apply o M) fun _ => none

/-- One operation keeps the shape, and is the operation on abstract maps. -/
theorem WellPlaced.exec {map : Table K} (h : WellPlaced map) (L : map.ops.Lawful) (op : Op K) :
    WellPlaced (map.exec op).2 ∧ (map.exec op).2.toMap = op.apply map.ops map.toMap
      ∧ (map.exec op).2.ops = map.ops ∧ (map.exec op).2.sz = map.sz
      ∧ (map.exec op).1 = op.result map.toMap := by
  have hpop : ∀ key, (map.pop key).2.ops = map.ops ∧ (map.pop key).2.sz = map.sz := by
    intro key
    unfold Table.pop
    cases walkUnlink map.ops key (map.entries (map.bucket key)) <;> exact ⟨rfl, rfl⟩
  cases op with
  | set key val =>
      exact ⟨h.set L key val, toMap_set L key val, rfl, rfl, congrArg some (set_fst key val)⟩
  | pop key =>
      exact ⟨h.pop key, toMap_pop h L key, (hpop key).1, (hpop key).2,
        congrArg some (pop_fst key)⟩
  | delete key =>
      rw [Table.exec, delete_eq_pop]
      exact ⟨h.pop key, toMap_pop h L key, (hpop key).1, (hpop key).2, rfl⟩

theorem run_wellPlaced {o : Ops K} (L : o.Lawful) (sz : Nat) (ops : List (Op K)) :
    WellPlaced ((create o sz).run ops) ∧ ((create o sz).run ops).toMap = applyAll o ops
      ∧ ((create o sz).run ops).ops = o ∧ ((create o sz).run ops).sz = sz := by
  induction ops using List.reverseRecOn with
  | nil => exact ⟨WellPlaced.create o sz, rfl, rfl, rfl⟩
  | append_singleton ops op ih =>
      obtain ⟨hw, hmap, hops, hsz⟩ := ih
      have hstep := hw.exec (by rw [hops]; exact L) op
      rw [hmap, hops, hsz] at hstep
      rw [Table.run, applyAll, List.foldl_append, List.foldl_append]
      exact ⟨hstep.1, hstep.2.1, hstep.2.2.1, hstep.2.2.2.1⟩

/-- The callbacks of `hashmap_create_int`, on numbers. -/
def intOps : Ops Nat := ⟨id, fun a b => (a : Int) - b, id⟩

theorem intOps_lawful : intOps.Lawful := by
  have hsame : ∀ a b, intOps.Same a b ↔ a = b := by
    intro a b
    show (a : Int) - b = 0 ↔ a = b
    omega
  refine ⟨fun a => (hsame a a).mpr rfl, fun a b h => ?_, fun a b c h h' => ?_, fun a b h => ?_,
    fun a => (hsame a a).mpr rfl⟩
  · exact (hsame b a).mpr ((hsame a b).mp h).symm
  · exact (hsame a c).mpr (((hsame a b).mp h).trans ((hsame b c).mp h'))
  · rw [(hsame a b).mp h]

end HashMap

end Shitos
