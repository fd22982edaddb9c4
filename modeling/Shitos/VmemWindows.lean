import Shitos.VmemNested

/-!
# Windows for physical pages

Runs of `vmem_map_vaddr` and `vmem_map_vaddr_n`. The history of a run is the
list of its calls with the addresses they returned, and it tells which window
was recorded last for a page. Four things hold the same facts: the bitmap of
the windows, their page entries, the cache, and the addresses handed out
(`Consistent`). A call either hits the cache and changes nothing, or takes
windows that were clear and enters all its pages (`Mapping`).
-/

namespace Shitos

namespace Vmem

namespace Windows

open Paging RunScan

/-! ## The functions -/

/-- `vmem_map_page_find_first_n`. A search that runs off the end of
`map_pages` stops here, as in `mapPageFindFirst`. -/
def mapPageFindFirstN (n : Nat) : Prog Vm Nat := fun s =>
  match (findRun (MapPages.taken s.mapPages) n 0 MapPages.count).1 with
  | some i => if i + n ≤ mapPagesBits then .done (MapPages.addr i) s else .halted s
  | none => .halted s

/-- One turn of the second loop of `vmem_map_vaddr_n`. -/
def mapNth (malloc : Nat → Nat → Prog Vm Nat) (paddr vaddr i : Nat) : Prog Vm Unit := do
  frameMapAddr (windowPage (vaddr + i * 4096)) (Flags.rw true) (paddr + i * 4096)
  hashmapSet malloc (paddr + i * 4096) (vaddr + i * 4096)

/-- `vmem_map_vaddr_n`. -/
def mapVaddrN (malloc : Nat → Nat → Prog Vm Nat) (paddr sz : Nat) : Prog Vm Nat := do
  let nPages := (sz + paddr % 4096 + 4095) % 2 ^ 32 / 4096
  let vaddr ← mapPageFindFirstN nPages
  Prog.each (List.range nPages) fun i => Prog.modify (mapPageSet (vaddr + i * 4096))
  Prog.each (List.range nPages) (mapNth malloc (paddr / 4096 * 4096) vaddr)
  pure (vaddr + paddr % 4096)

/-! ## Runs -/

/-- The two calls. -/
inductive Call where
  | one (paddr : Nat)
  | many (paddr sz : Nat)
deriving DecidableEq, Repr

/-- The calls that have returned, with the returned addresses, the latest
first. -/
abbrev History := List (Call × Nat)

namespace Call

def paddr : Call → Nat
  | .one paddr => paddr
  | .many paddr _ => paddr

/-- How many bytes are asked for: those up to the end of the page, or `sz`. -/
def len : Call → Nat
  | .one paddr => 4096 - paddr % 4096
  | .many _ sz => sz

/-- The pages that hold these bytes. -/
def pages (c : Call) : Nat := (c.len + c.paddr % 4096 + 4095) / 4096

theorem pages_one (paddr : Nat) : (Call.one paddr).pages = 1 := by
  show (4096 - paddr % 4096 + paddr % 4096 + 4095) / 4096 = 1
  omega

theorem pages_many (paddr sz : Nat) :
    (Call.many paddr sz).pages = (sz + paddr % 4096 + 4095) / 4096 := rfl

/-- The call, its heap calls nested at most `n` deep. -/
def exec (n : Nat) : Call → Prog Vm Nat
  | .one paddr => mapVaddr (kmalloc n) paddr
  | .many paddr sz => mapVaddrN (kmalloc n) paddr sz

/-- Some bytes are asked for, and the frames that hold them have a bit in the
bitmap and are not frame 0. -/
def Enabled (s : Vm) (c : Call) : Prop :=
  1 ≤ c.len ∧ 0 < c.paddr / 4096 ∧ (c.paddr + c.len - 1) / 4096 < s.frameCount

end Call

/-- The window of an address. -/
def windowOf (a : Nat) : Nat := (a - mapPagesMemory) / 4096

/-- The call has been given window `w` for frame `f`. -/
def Assigns (e : Call × Nat) (w f : Nat) : Prop :=
  ∃ i < e.1.pages, w = windowOf e.2 + i ∧ f = e.1.paddr / 4096 + i

/-- The window recorded last for frame `f`. -/
def lastWindow : History → Nat → Option Nat
  | [], _ => none
  | (c, r) :: l, f =>
      if c.paddr / 4096 ≤ f ∧ f < c.paddr / 4096 + c.pages then
        some (windowOf r + (f - c.paddr / 4096))
      else lastWindow l f

/-- The runs from `s₀`, with their history. -/
inductive Run (s₀ : Vm) : History → Vm → Prop where
  | start : Run s₀ [] s₀
  | call {n : Nat} {c : Call} {r : Nat} {l : History} {s t : Vm} : Run s₀ l s → c.Enabled s →
      c.exec n s = .done r t → Run s₀ ((c, r) :: l) t

/-- What a window address translates to. -/
def translate (s : Vm) (a : Nat) : Option Nat :=
  let page := s.mapPt (windowOf a)
  if page.present then some (page.frame * 4096 + a % 4096) else none

/-- As `vmem_init` leaves it: the kernel's directory is in use, the heap ends
below the windows, and no page is cached. Physical addresses have 32 bits. -/
structure Booted (s : Vm) : Prop where
  current : s.current.pts = .kernelPts
  max : s.heap.heap.max ≤ mapPagesMemory
  cache : ∀ b, s.cache b = []
  frameCount : s.frameCount ≤ 2 ^ 20

/-! ## The cache -/

section Cache

variable {s t : Vm} {key val : Nat}

theorem hashmapGet_congr (h : t.cache = s.cache) (k : Nat) : hashmapGet t k = hashmapGet s k := by
  unfold hashmapGet
  rw [h]

theorem find?_chainSet {l l' : List (Nat × Nat)} (h : chainSet key val l = some l') (k : Nat) :
    (l'.find? fun e => e.1 = k)
      = if k = key then some (key, val) else l.find? fun e => e.1 = k := by
  induction l generalizing l' with
  | nil => cases h
  | cons a l ih =>
      rw [chainSet] at h
      split at h
      · rename_i hkey
        cases h
        by_cases hk : k = key
        · rw [if_pos hk, List.find?_cons_of_pos (by simp [hkey, hk]), hkey]
        · rw [if_neg hk, List.find?_cons_of_neg (by simpa [hkey] using Ne.symm hk),
            List.find?_cons_of_neg (by simpa [hkey] using Ne.symm hk)]
      · rename_i hkey
        obtain ⟨l'', hl'', rfl⟩ := Option.map_eq_some_iff.mp h
        by_cases hk : k = key
        · rw [List.find?_cons_of_neg (by simpa [hk] using hkey), ih hl'', if_pos hk, if_pos hk]
        · by_cases ha : a.1 = k
          · rw [List.find?_cons_of_pos (by simpa using ha), if_neg hk,
              List.find?_cons_of_pos (by simpa using ha)]
          · rw [List.find?_cons_of_neg (by simpa using ha), ih hl'', if_neg hk, if_neg hk,
              List.find?_cons_of_neg (by simpa using ha)]

theorem find?_append_new {l : List (Nat × Nat)} (h : ∀ e ∈ l, e.1 ≠ key) (k : Nat) :
    ((l ++ [(key, val)]).find? fun e => e.1 = k)
      = if k = key then some (key, val) else l.find? fun e => e.1 = k := by
  rw [List.find?_append]
  by_cases hk : k = key
  · have hnone : (l.find? fun e => e.1 = k) = none := by
      rw [List.find?_eq_none]
      intro e he
      simpa [hk] using h e he
    rw [hnone, if_pos hk, Option.none_or, List.find?_cons_of_pos (by simp [hk])]
  · rw [if_neg hk, List.find?_cons_of_neg (by simpa using Ne.symm hk), List.find?_nil,
      Option.or_none]

/-- A chain that answers `val` for `key`, and what it did for the others. -/
theorem hashmapGet_putChain {l : List (Nat × Nat)}
    (hl : ∀ k, (l.find? fun e => e.1 = k)
      = if k = key then some (key, val) else (s.cache (key % cacheSz)).find? fun e => e.1 = k)
    (k : Nat) :
    hashmapGet (putChain (key % cacheSz) l s) k = if k = key then val else hashmapGet s k := by
  unfold hashmapGet
  rw [putChain_cache]
  by_cases hb : k % cacheSz = key % cacheSz
  · rw [hb, Function.update_self, hl]
    by_cases hk : k = key
    · rw [if_pos hk, if_pos hk]
    · rw [if_neg hk, if_neg hk]
  · rw [Function.update_of_ne hb, if_neg fun hk => hb (by rw [hk])]

theorem ready_putChain (R : Ready s) {l : List (Nat × Nat)} {b : Nat}
    (hl : ∀ e ∈ l, Marked s (e.1 / 4096) ∧ e.2 ≠ 0) : Ready (putChain b l s) := by
  refine ⟨R.current, R.max, fun b' e he => ?_⟩
  rw [putChain_cache] at he
  by_cases hb : b' = b
  · rw [hb, Function.update_self] at he
    exact hl e he
  · rw [Function.update_of_ne hb] at he
    exact R.cached b' e he

/-- What `hashmap_set` does to the answers of the cache. Windows stay as they
are, as an allocation that returns has mapped nothing. -/
theorem hashmapSet_done {n : Nat} {u : Unit} (R : Ready s) (hkey : Marked s (key / 4096))
    (hval : val ≠ 0) (h : hashmapSet (kmalloc n) key val s = .done u t) :
    Ready t ∧ t.frameCount = s.frameCount ∧ t.mapPages = s.mapPages ∧ t.mapPt = s.mapPt
      ∧ (∀ f, Marked s f → Marked t f)
      ∧ ∀ k, hashmapGet t k = if k = key then val else hashmapGet s k := by
  by_cases hmiss : hashmapGet s key = 0
  · obtain ⟨q, s₁, hmalloc, rfl⟩ := hashmapSet_miss R hmiss h
    have hkept := kmalloc_kept n R hmalloc
    have R₁ := R.of_stays hkept.toStays
    have hnew := R.miss_iff.mp hmiss
    rw [hkept.cache, List.take_length]
    refine ⟨ready_putChain R₁ fun e he => ?_, hkept.frameCount, hkept.mapPages, hkept.mapPt,
      hkept.marked, fun k => ?_⟩
    · rcases List.mem_append.mp he with he | he
      · exact ⟨hkept.marked _ (R.cached _ e he).1, (R.cached _ e he).2⟩
      · rw [List.mem_singleton.mp he]
        exact ⟨hkept.marked _ hkey, hval⟩
    · rw [hashmapGet_putChain (fun k => by rw [hkept.cache]; exact find?_append_new hnew k) k,
        hashmapGet, hashmapGet, hkept.cache]
  · obtain ⟨chain, s₁, hchain, h⟩ := Prog.bind_eq_done.mp h
    obtain ⟨rfl, rfl⟩ := Prog.gets_eq_done.mp hchain
    cases hset : chainSet key val (s.cache (key % cacheSz)) with
    | none => exact absurd (R.miss_iff.mpr (chainSet_eq_none.mp hset)) hmiss
    | some l =>
        rw [hset] at h
        obtain rfl := Prog.modify_eq_done.mp h
        refine ⟨ready_putChain R fun e he => ?_, rfl, rfl, rfl, fun _ => id, fun k => ?_⟩
        · rcases mem_chainSet hset he with he | rfl
          · exact R.cached _ e he
          · exact ⟨hkey, hval⟩
        · exact hashmapGet_putChain (find?_chainSet hset) k

end Cache

/-! ## One call -/

/-- The `k` windows from `w` on map the frames from `f` on, and are recorded
for them; other windows and frames are as before. -/
structure Mapping (w f k : Nat) (s t : Vm) : Prop where
  ready : Ready t
  frameCount : t.frameCount = s.frameCount
  inside : ∀ i < k, (t.mapPt (w + i)).present = true ∧ (t.mapPt (w + i)).frame = f + i
  outside : ∀ v, v < w ∨ w + k ≤ v → t.mapPt v = s.mapPt v
  cached : ∀ g, hashmapGet t (g * 4096)
    = if f ≤ g ∧ g < f + k then windowAddr (w + (g - f)) else hashmapGet s (g * 4096)

/-- The bits of the `k` windows from `w` on have been set. -/
def Marks (w k : Nat) (s t : Vm) : Prop :=
  ∀ b, testBit t.mapPages b = (decide (w ≤ b ∧ b < w + k) || testBit s.mapPages b)

section Step

variable {n w f i k : Nat} {s t t₁ t' : Vm} {u : Unit}

theorem windowAddr_ne_zero (w : Nat) : windowAddr w ≠ 0 := by
  unfold windowAddr mapPagesMemory
  omega

theorem Mapping.empty (R : Ready s) (w f : Nat) : Mapping w f 0 s s :=
  ⟨R, rfl, fun _ hi => absurd hi (Nat.not_lt_zero _), fun _ _ => rfl,
    fun g => (if_neg (by omega)).symm⟩

/-- One more window is entered and recorded. -/
theorem Mapping.extend (M : Mapping w f i s t) (hstays : Stays t t₁)
    (hout : ∀ v, v ≠ w + i → t₁.mapPt v = t.mapPt v) (hpresent : (t₁.mapPt (w + i)).present = true)
    (hframe : (t₁.mapPt (w + i)).frame = f + i) (hmark : Marked t₁ (f + i))
    (hset : hashmapSet (kmalloc n) ((f + i) * 4096) (windowAddr (w + i)) t₁ = .done u t') :
    Mapping w f (i + 1) s t' ∧ t'.mapPages = t₁.mapPages := by
  obtain ⟨R, hcount, hpages, hpt, -, hget⟩ := hashmapSet_done (M.ready.of_stays hstays)
    (by rwa [Nat.mul_div_cancel _ (by decide)]) (windowAddr_ne_zero _) hset
  refine ⟨⟨R, hcount.trans (hstays.frameCount.trans M.frameCount), fun j hj => ?_, fun v hv => ?_,
    fun g => ?_⟩, hpages⟩
  · rw [hpt]
    by_cases hji : j = i
    · rw [hji]
      exact ⟨hpresent, hframe⟩
    · rw [hout _ (by omega)]
      exact M.inside j (by omega)
  · rw [hpt, hout v (by omega)]
    exact M.outside v (by omega)
  · rw [hget]
    by_cases hg : g = f + i
    · rw [if_pos (by rw [hg]), if_pos (by omega), hg, Nat.add_sub_cancel_left]
    · rw [if_neg (by omega), hashmapGet_congr hstays.cache, M.cached]
      by_cases hin : f ≤ g ∧ g < f + i
      · rw [if_pos hin, if_pos (by omega)]
      · rw [if_neg hin, if_neg (by omega)]

/-- A page that is not cached is mapped by a window that was clear. -/
theorem mapVaddr_mapping {paddr r : Nat} (R : Ready s) (hpos : 0 < paddr / 4096)
    (hmiss : hashmapGet s (paddr / 4096 * 4096) = 0)
    (h : mapVaddr (kmalloc n) paddr s = .done r t) :
    ∃ w < mapPagesBits, testBit s.mapPages w = false ∧ r = windowAddr w + paddr % 4096
      ∧ Mapping w (paddr / 4096) 1 s t ∧ Marks w 1 s t := by
  obtain ⟨w, hw, hclear, hr, s₁, u, htaken, hset⟩ := mapVaddr_miss hmiss h
  obtain ⟨M, hpages⟩ := (Mapping.empty R w (paddr / 4096)).extend htaken.toStays htaken.mapPt
    htaken.present (htaken.frame (Nat.ne_of_gt hpos)) htaken.mark hset
  refine ⟨w, hw, hclear, hr, M, fun b => ?_⟩
  rw [hpages, htaken.mapPages, testBit_setBit]
  congr 1
  exact decide_eq_decide.mpr (by omega)

theorem mapPageFindFirstN_done {v : Nat} (hk : 1 ≤ k)
    (h : mapPageFindFirstN k s = .done v t) :
    t = s ∧ ∃ w, v = windowAddr w ∧ w + k ≤ mapPagesBits
      ∧ ∀ j < k, testBit s.mapPages (w + j) = false := by
  unfold mapPageFindFirstN at h
  split at h
  · rename_i w hfind
    split at h
    · rename_i hend
      cases h
      obtain ⟨-, -, hfree, -⟩ := findRun_some hfind
      refine ⟨rfl, w, MapPages.addr_eq (by omega), hend, fun j hj => ?_⟩
      · rw [← MapPages.taken_eq (by omega)]
        exact hfree j hj
    · cases h
  · cases h

/-- The first loop only sets bits. -/
theorem mark_windows (h : Prog.each (List.range k)
      (fun i => Prog.modify (mapPageSet (windowAddr w + i * 4096))) s = .done u t) :
    Stays s t ∧ t.mapPt = s.mapPt ∧ Marks w k s t := by
  refine Prog.each_range_done (I := fun i t => Stays s t ∧ t.mapPt = s.mapPt ∧ Marks w i s t)
    (fun i _ t t' u ht hstep => ?_) ⟨Stays.refl s, rfl, fun b => ?_⟩ h
  · obtain rfl := Prog.modify_eq_done.mp hstep
    obtain ⟨hstays, hpt, hmarks⟩ := ht
    refine ⟨hstays.trans (stays_mapPageSet _ _), hpt, fun b => ?_⟩
    have hidx : (windowAddr w + i * 4096 - mapPagesMemory) / 4096 = w + i := by
      unfold windowAddr
      omega
    rw [mapPageSet, hidx, testBit_setBit, hmarks, ← Bool.or_assoc, ← Bool.decide_or]
    congr 1
    exact decide_eq_decide.mpr (by omega)
  · rw [decide_eq_false (by omega), Bool.false_or]

theorem mapNth_done (M : Mapping w f i s t) (hpos : 0 < f)
    (h : mapNth (kmalloc n) (f * 4096) (windowAddr w) i t = .done u t') :
    Mapping w f (i + 1) s t' ∧ t'.mapPages = t.mapPages := by
  have hpage : windowPage (windowAddr w + i * 4096) = .mapEntry (w + i) := by
    unfold windowPage windowAddr
    congr 1
    omega
  obtain ⟨u₁, t₁, hmap, hset⟩ := Prog.bind_eq_done.mp h
  rw [hpage, ← Nat.add_mul] at hmap
  rw [← Nat.add_mul, show windowAddr w + i * 4096 = windowAddr (w + i) by
    unfold windowAddr; omega] at hset
  obtain ⟨hentered, hpresent, hframe, hmark⟩ := frameMapAddr_entered hmap
  rw [Nat.mul_div_cancel _ (by decide)] at hframe hmark
  obtain ⟨M', hpages⟩ := M.extend hentered.toStays
    (fun v hv => hentered.mapPt v fun heq => hv (PagePtr.mapEntry.inj heq).symm) hpresent
    (hframe (by omega)) hmark hset
  exact ⟨M', hpages.trans hentered.mapPages⟩

/-- The pages of a range are mapped by windows in a row that were clear. -/
theorem mapVaddrN_mapping {paddr sz r : Nat} (R : Ready s) (hpos : 0 < paddr / 4096)
    (hpages : (sz + paddr % 4096 + 4095) % 2 ^ 32 / 4096 = k) (hk : 1 ≤ k)
    (h : mapVaddrN (kmalloc n) paddr sz s = .done r t) :
    ∃ w, w + k ≤ mapPagesBits ∧ (∀ j < k, testBit s.mapPages (w + j) = false)
      ∧ r = windowAddr w + paddr % 4096 ∧ Mapping w (paddr / 4096) k s t ∧ Marks w k s t := by
  unfold mapVaddrN at h
  rw [hpages] at h
  obtain ⟨v, s₀, hfind, h⟩ := Prog.bind_eq_done.mp h
  obtain ⟨rfl, w, rfl, hend, hclear⟩ := mapPageFindFirstN_done hk hfind
  obtain ⟨u₁, s₁, hmark, h⟩ := Prog.bind_eq_done.mp h
  obtain ⟨hstays, hpt, hmarks⟩ := mark_windows hmark
  obtain ⟨u₂, s₂, hmap, h⟩ := Prog.bind_eq_done.mp h
  obtain ⟨rfl, rfl⟩ := Prog.pure_eq_done.mp h
  have M₀ := Mapping.empty (R.of_stays hstays) w (paddr / 4096)
  obtain ⟨M, hpages⟩ := Prog.each_range_done
    (I := fun i t => Mapping w (paddr / 4096) i s₁ t ∧ t.mapPages = s₁.mapPages)
    (fun i _ t t' u ht hstep => by
      obtain ⟨M', hpages⟩ := mapNth_done ht.1 hpos hstep
      exact ⟨M', hpages.trans ht.2⟩) ⟨M₀, rfl⟩ hmap
  refine ⟨w, hend, hclear, rfl, ⟨M.ready, M.frameCount.trans hstays.frameCount, M.inside,
    fun v hv => ?_, fun g => ?_⟩, fun b => ?_⟩
  · rw [M.outside v hv, hpt]
  · rw [M.cached, hashmapGet_congr hstays.cache]
  · rw [hpages, hmarks]

end Step

/-! ## The history and the state -/

/-- The bitmap, the page entries, the cache and the addresses of the history
agree. -/
structure Consistent (l : History) (s : Vm) : Prop where
  ready : Ready s
  frameCount : s.frameCount ≤ 2 ^ 20
  cached : ∀ f, hashmapGet s (f * 4096)
    = match lastWindow l f with
      | some w => windowAddr w
      | none => 0
  assigned : ∀ e ∈ l, ∀ w f, Assigns e w f →
    w < mapPagesBits ∧ testBit s.mapPages w = true
      ∧ (s.mapPt w).present = true ∧ (s.mapPt w).frame = f
  returned : ∀ e ∈ l, 1 ≤ e.1.len ∧ ∃ w, e.2 = windowAddr w + e.1.paddr % 4096

section History

variable {l : History} {s t : Vm} {c : Call} {n r w f : Nat}

theorem windowOf_windowAddr (w : Nat) {off : Nat} (h : off < 4096) :
    windowOf (windowAddr w + off) = w := by
  unfold windowOf windowAddr
  omega

theorem windowOf_add (w : Nat) {off : Nat} :
    windowOf (windowAddr w + off) = w + off / 4096 := by
  unfold windowOf windowAddr
  omega

/-- What a history records comes from one of its calls. -/
theorem lastWindow_assigns (h : lastWindow l f = some w) : ∃ e ∈ l, Assigns e w f := by
  induction l with
  | nil => cases h
  | cons e l ih =>
      obtain ⟨c, r⟩ := e
      rw [lastWindow] at h
      split at h
      · rename_i hf
        cases h
        exact ⟨_, List.mem_cons_self, f - c.paddr / 4096, by dsimp only; omega, rfl, by
          dsimp only; omega⟩
      · obtain ⟨e, he, h⟩ := ih h
        exact ⟨e, List.mem_cons_of_mem _ he, h⟩

/-- How a call that returns has changed the state. -/
inductive Answer (l : History) (s t : Vm) (c : Call) (r : Nat) : Prop where
  | hit {w : Nat} : (∃ paddr, c = .one paddr) → lastWindow l (c.paddr / 4096) = some w →
      r = windowAddr w + c.paddr % 4096 → t = s → Answer l s t c r
  | new {w : Nat} : w + c.pages ≤ mapPagesBits →
      (∀ j < c.pages, testBit s.mapPages (w + j) = false) → r = windowAddr w + c.paddr % 4096 →
      Mapping w (c.paddr / 4096) c.pages s t → Marks w c.pages s t → Answer l s t c r

/-- A page that is recorded is answered from the cache. -/
theorem Consistent.hit (C : Consistent l s) {paddr : Nat}
    (hlast : lastWindow l (paddr / 4096) = some w) :
    (Call.one paddr).exec n s = .done (windowAddr w + paddr % 4096) s := by
  have hget := C.cached (paddr / 4096)
  rw [hlast] at hget
  rw [Call.exec, mapVaddr_hit (by rw [hget]; exact windowAddr_ne_zero w), hget]

theorem Consistent.answer (C : Consistent l s) (henabled : c.Enabled s)
    (h : c.exec n s = .done r t) : Answer l s t c r := by
  obtain ⟨hlen, hpos, hlt⟩ := henabled
  have hcount := C.frameCount
  cases c with
  | one paddr =>
      have hone := Call.pages_one paddr
      cases hlast : lastWindow l (paddr / 4096) with
      | some w =>
          rw [C.hit hlast] at h
          cases h
          exact .hit ⟨paddr, rfl⟩ hlast rfl rfl
      | none =>
          have hmiss := C.cached (paddr / 4096)
          rw [hlast] at hmiss
          obtain ⟨w, hw, hclear, hr, M, hmarks⟩ := mapVaddr_mapping C.ready hpos hmiss h
          refine .new (w := w) (by rw [hone]; exact hw) (fun j hj => ?_) hr (hone ▸ M)
            (hone ▸ hmarks)
          rw [hone] at hj
          rw [show j = 0 by omega]
          exact hclear
  | many paddr sz =>
      have hlen : 1 ≤ sz := hlen
      have hpos : 0 < paddr / 4096 := hpos
      have hlt : (paddr + sz - 1) / 4096 < s.frameCount := hlt
      -- the range ends within the frames, so its size has not wrapped
      have hpages : (sz + paddr % 4096 + 4095) % 2 ^ 32 / 4096 = (Call.many paddr sz).pages := by
        rw [Call.pages_many]
        omega
      have hk : 1 ≤ (Call.many paddr sz).pages := by
        rw [Call.pages_many]
        omega
      obtain ⟨w, hend, hclear, hr, M, hmarks⟩ := mapVaddrN_mapping C.ready hpos hpages hk h
      exact .new hend hclear hr M hmarks

/-- What was assigned before stays so, as windows are only taken when clear. -/
theorem Consistent.step (C : Consistent l s) (hlen : 1 ≤ c.len) (A : Answer l s t c r) :
    Consistent ((c, r) :: l) t := by
  cases A with
  | @hit w hone hlast hr ht =>
      subst ht
      obtain ⟨paddr, rfl⟩ := hone
      have hpages := Call.pages_one paddr
      have hwindow : windowOf r = w := by
        rw [hr, windowOf_windowAddr w (Nat.mod_lt _ (by decide))]
      have hrecord : ∀ g, lastWindow ((Call.one paddr, r) :: l) g = lastWindow l g := by
        intro g
        rw [lastWindow, hpages, hwindow]
        split
        · rename_i hg
          obtain rfl : g = (Call.one paddr).paddr / 4096 := by omega
          rw [hlast, Nat.sub_self, Nat.add_zero]
        · rfl
      refine ⟨C.ready, C.frameCount, fun g => ?_, fun e he v g hassign => ?_, fun e he => ?_⟩
      · rw [hrecord]
        exact C.cached g
      · rcases List.mem_cons.mp he with rfl | he
        · obtain ⟨e, he, hlastAssign⟩ := lastWindow_assigns hlast
          obtain ⟨i, hi, rfl, rfl⟩ := hassign
          rw [hpages] at hi
          obtain rfl : i = 0 := by omega
          rw [hwindow]
          exact C.assigned e he _ _ hlastAssign
        · exact C.assigned e he v g hassign
      · rcases List.mem_cons.mp he with rfl | he
        · exact ⟨hlen, w, hr⟩
        · exact C.returned e he
  | @new w hend hclear hr M hmarks =>
      have hwindow : windowOf r = w := by
        rw [hr, windowOf_windowAddr w (Nat.mod_lt _ (by decide))]
      refine ⟨M.ready, M.frameCount ▸ C.frameCount, fun g => ?_, fun e he v g hassign => ?_,
        fun e he => ?_⟩
      · rw [M.cached, lastWindow, hwindow]
        split
        · rfl
        · exact C.cached g
      · rcases List.mem_cons.mp he with rfl | he
        · obtain ⟨i, hi, rfl, rfl⟩ := hassign
          rw [hwindow]
          have hbit : testBit t.mapPages (w + i) = true := by
            rw [hmarks, decide_eq_true (by dsimp only at hi; omega), Bool.true_or]
          exact ⟨by dsimp only at hi; omega, hbit, M.inside i hi⟩
        · obtain ⟨hv, hbit, hpresent, hframe⟩ := C.assigned e he v g hassign
          have hout : v < w ∨ w + c.pages ≤ v := by
            by_contra hin
            have hset := hclear (v - w) (by omega)
            rw [Nat.add_sub_cancel' (by omega), hbit] at hset
            cases hset
          rw [M.outside v hout]
          exact ⟨hv, by rw [hmarks, hbit, Bool.or_true], hpresent, hframe⟩
      · rcases List.mem_cons.mp he with rfl | he
        · exact ⟨hlen, w, hr⟩
        · exact C.returned e he

theorem Run.consistent {s₀ : Vm} (hboot : Booted s₀) (hrun : Run s₀ l s) : Consistent l s := by
  induction hrun with
  | start =>
      refine ⟨⟨hboot.current, hboot.max, fun b e he => ?_⟩, hboot.frameCount, fun f => ?_,
        fun e he => absurd he List.not_mem_nil, fun e he => absurd he List.not_mem_nil⟩
      · rw [hboot.cache] at he
        exact absurd he List.not_mem_nil
      · rw [hashmapGet, hboot.cache]
        rfl
  | call _ henabled hexec ih => exact ih.step henabled.1 (ih.answer henabled hexec)

/-- The bytes asked for lie in the windows of the call. -/
theorem Consistent.translates (C : Consistent l s) {e : Call × Nat} (he : e ∈ l) {k : Nat}
    (hk : k < e.1.len) : translate s (e.2 + k) = some (e.1.paddr + k) := by
  obtain ⟨-, w, hr⟩ := C.returned e he
  have hwindow : windowOf e.2 = w := by
    rw [hr, windowOf_windowAddr w (Nat.mod_lt _ (by decide))]
  have haddr : e.2 + k = windowAddr w + (e.1.paddr % 4096 + k) := by omega
  have hassign : Assigns e (w + (e.1.paddr % 4096 + k) / 4096)
      (e.1.paddr / 4096 + (e.1.paddr % 4096 + k) / 4096) := by
    refine ⟨(e.1.paddr % 4096 + k) / 4096, ?_, by rw [hwindow], rfl⟩
    unfold Call.pages
    omega
  obtain ⟨-, -, hpresent, hframe⟩ := C.assigned e he _ _ hassign
  unfold translate
  rw [haddr, windowOf_add]
  dsimp only
  rw [if_pos hpresent, hframe]
  congr 1
  unfold windowAddr mapPagesMemory
  omega

/-- The windows are exclusive and stable. In every run, each window that was
handed out is marked and maps the one page it was assigned to, and what was
returned translates to the bytes that were asked for. A call takes only clear
windows, except that a page that has a window gets the one recorded last for
it, and nothing changes. -/
theorem windows_exclusive {s₀ : Vm} (hboot : Booted s₀) (hrun : Run s₀ l s) :
    (∀ e ∈ l, e.2 % 4096 = e.1.paddr % 4096
        ∧ ∀ k < e.1.len, translate s (e.2 + k) = some (e.1.paddr + k))
      ∧ (∀ e ∈ l, ∀ w f, Assigns e w f → w < mapPagesBits ∧ testBit s.mapPages w = true
        ∧ (s.mapPt w).present = true ∧ (s.mapPt w).frame = f)
      ∧ (∀ e ∈ l, ∀ e' ∈ l, ∀ w f f', Assigns e w f → Assigns e' w f' → f = f')
      ∧ (∀ n paddr w, lastWindow l (paddr / 4096) = some w →
        (Call.one paddr).exec n s = .done (windowAddr w + paddr % 4096) s)
      ∧ ∀ n c r t, c.Enabled s → c.exec n s = .done r t →
        ((∃ paddr, c = .one paddr) ∧ lastWindow l (c.paddr / 4096) = some (windowOf r) ∧ t = s)
          ∨ ∀ w f, Assigns (c, r) w f → testBit s.mapPages w = false := by
  have C := hrun.consistent hboot
  refine ⟨fun e he => ⟨?_, fun k hk => C.translates he hk⟩, C.assigned,
    fun e he e' he' w f f' h h' => ?_, fun n paddr w hlast => C.hit hlast,
    fun n c r t henabled hexec => ?_⟩
  · obtain ⟨-, w, hr⟩ := C.returned e he
    rw [hr]
    unfold windowAddr mapPagesMemory
    omega
  · exact (C.assigned e he w f h).2.2.2.symm.trans (C.assigned e' he' w f' h').2.2.2
  · cases C.answer henabled hexec with
    | @hit w hone hlast hr ht =>
        refine Or.inl ⟨hone, ?_, ht⟩
        rw [hlast, hr, windowOf_windowAddr w (Nat.mod_lt _ (by decide))]
    | @new w hend hclear hr M hmarks =>
        refine Or.inr fun v f hassign => ?_
        obtain ⟨i, hi, rfl, rfl⟩ := hassign
        dsimp only at hi ⊢
        rw [hr, windowOf_windowAddr w (Nat.mod_lt _ (by decide))]
        exact hclear i hi

end History

theorem windows_exclusive_text : ∃ r s, Run bootVm [(.many 0xb8f00 0x1200, r)] s
    ∧ r % 4096 = 0xf00 ∧ ∀ k < 0x1200, translate s (r + k) = some (0xb8f00 + k) := by
  have hexec : ((Call.many 0xb8f00 0x1200).exec 1 bootVm).returned.isSome = true := by
    decide +kernel
  cases hs : (Call.many 0xb8f00 0x1200).exec 1 bootVm with
  | done r s =>
      have henabled : (Call.many 0xb8f00 0x1200).Enabled bootVm := ⟨by decide, by decide, by decide⟩
      have hrun := Run.start.call henabled hs
      have hboot : Booted bootVm := ⟨rfl, by decide, fun _ => rfl, by decide⟩
      obtain ⟨hoff, hbytes⟩ := (windows_exclusive hboot hrun).1 _ List.mem_cons_self
      exact ⟨r, s, hrun, hoff.trans (show 0xb8f00 % 4096 = 0xf00 by decide), hbytes⟩
  | halted s => rw [hs] at hexec; cases hexec
  | deep s => rw [hs] at hexec; cases hexec

end Windows

end Vmem

end Shitos
