import Shitos.VmemFrames

/-!
# An address space

The pages of the current directory, the frames that they map, and what the
frames hold. A page gets a table and a frame as `vmem_get_page` and
`vmem_frame_alloc` give them, and a byte is stored in the frame that its page
maps. The kernel stores to any page that is present; a store to one that is not
is a page fault, from which `_page_fault` does not return.

The pages below the kernel's part map different frames (`Good`). So mapping a page
makes that page writable in user mode and changes nothing else (`Maps`), and a
store changes one byte (`store_done`).
-/

namespace Shitos

namespace AddrSpace

open Paging Vmem

/-- The directory entries that have a table, the entry of each page in its table,
and the contents of the frames. -/
structure As where
  frames : Mem
  frameCount : Nat
  tables : Nat → Bool
  pages : Nat → Page
  bytes : Nat → Nat → UInt8

/-- `vmem_frame_find_first`, and `vmem_frame_set` of the frame. -/
def takeFrame : Prog As Nat := fun s =>
  match findFirst s.frames 0x100 s.frameCount with
  | some frame => .done frame { s with frames := setBit s.frames frame }
  | none => .halted s

/-- `vmem_get_page(p << PAGE_BITS, VMEM_GET_CREATE)`: the entry of page `p`, in a new
table if there is none. -/
def getPage (p : Nat) : Prog As Nat := do
  let table ← Prog.gets fun s => s.tables (p / 1024)
  if table then pure p
  else do
    let _ ← takeFrame
    Prog.modify fun s => { s with
      tables := Function.update s.tables (p / 1024) true
      pages := fun q => if q / 1024 = p / 1024 then Page.zero else s.pages q }
    pure p

/-- The first block of `vmem_frame_alloc`. -/
def fillFrame (p : Nat) : Prog As Unit := do
  let page ← Prog.gets fun s => s.pages p
  if page.frame ≠ 0 then pure ()
  else do
    let frame ← takeFrame
    Prog.modify fun s => { s with
      pages := Function.update s.pages p { s.pages p with frame := frame } }

/-- `vmem_frame_alloc`. -/
def frameAlloc (p : Nat) (flags : Flags) : Prog As Unit := do
  fillFrame p
  Prog.modify fun s => { s with
    pages := Function.update s.pages p (Page.withFlags (s.pages p) flags) }

/-- `vmem_frame_alloc(vmem_get_page(addr, VMEM_GET_CREATE), VMEM_FLAG_WRITE)`. -/
def mapPage (addr : Nat) : Prog As Unit := do
  let p ← getPage (addr / 4096)
  frameAlloc p (Flags.rw false)

/-- The page is there, so the kernel can store to it. -/
def Present (s : As) (p : Nat) : Prop := s.tables (p / 1024) = true ∧ (s.pages p).present = true

instance (s : As) (p : Nat) : Decidable (Present s p) := inferInstanceAs (Decidable (_ ∧ _))

/-- The page is there, and user mode may write to it. -/
def UserWritable (s : As) (p : Nat) : Prop :=
  Present s p ∧ (s.pages p).user = true ∧ (s.pages p).write = true

/-- A byte is stored by the kernel. -/
def storeByte (a : Nat) (b : UInt8) : Prog As Unit := fun s =>
  if Present s (a / 4096) then
    let frame := (s.pages (a / 4096)).frame
    .done () { s with
      bytes := Function.update s.bytes frame (Function.update (s.bytes frame) (a % 4096) b) }
  else .halted s

/-- Bytes are stored one behind another. -/
def store : Nat → List UInt8 → Prog As Unit
  | _, [] => pure ()
  | a, b :: l => do
      storeByte a b
      store ((a + 1) % 2 ^ 32) l

/-- The byte at an address. -/
def byteAt (s : As) (a : Nat) : Option UInt8 :=
  if Present s (a / 4096) then some (s.bytes (s.pages (a / 4096)).frame (a % 4096)) else none

/-- Where the kernel's part of an address space starts. -/
def kernelBase : Nat := 0xc0000000

/-- Page `p` has the frame `f`. -/
def Holds (s : As) (p f : Nat) : Prop :=
  p < kernelBase / 4096 ∧ s.tables (p / 1024) = true ∧ (s.pages p).frame = f ∧ f ≠ 0

/-- A page that is present has a frame, no two have the same, and the frames are
marked as used. -/
structure Good (s : As) : Prop where
  backed : ∀ p < kernelBase / 4096, Present s p → (s.pages p).frame ≠ 0
  inj : ∀ p q f, Holds s p f → Holds s q f → p = q
  marked : ∀ p f, Holds s p f → testBit s.frames f = true

section Mapping

variable {s t : As} {p : Nat}

theorem takeFrame_done {f : Nat} (h : takeFrame s = .done f t) :
    t = { s with frames := setBit s.frames f } ∧ testBit s.frames f = false ∧ f ≠ 0 := by
  unfold takeFrame at h
  split at h
  · rename_i frame hfind
    obtain ⟨rfl, rfl⟩ := Outcome.done.inj h
    obtain ⟨hlo, -, hbit⟩ := findFirst_spec hfind
    exact ⟨rfl, hbit, by omega⟩
  · cases h

/-- A table is added, if there is none. -/
structure Opens (p : Nat) (s t : As) : Prop where
  table : t.tables (p / 1024) = true
  same : ∀ q, s.tables (q / 1024) = true → t.tables (q / 1024) = true ∧ t.pages q = s.pages q
  empty : ∀ q, s.tables (q / 1024) = false → t.tables (q / 1024) = true → t.pages q = Page.zero
  marked : ∀ f, testBit s.frames f = true → testBit t.frames f = true
  bytes : t.bytes = s.bytes

/-- An entry gets a frame, if it has none. -/
structure Fills (p : Nat) (s t : As) : Prop where
  tables : t.tables = s.tables
  others : ∀ q ≠ p, t.pages q = s.pages q
  filled : (t.pages p).frame ≠ 0
  same : (s.pages p).frame ≠ 0 → (t.pages p).frame = (s.pages p).frame
  fresh : (s.pages p).frame = 0 →
    testBit s.frames (t.pages p).frame = false ∧ testBit t.frames (t.pages p).frame = true
  marked : ∀ f, testBit s.frames f = true → testBit t.frames f = true
  bytes : t.bytes = s.bytes

theorem marked_setBit {bits : Mem} {f g : Nat} (h : testBit bits g = true) :
    testBit (setBit bits f) g = true := by
  rw [testBit_setBit, h, Bool.or_true]

theorem getPage_opens {q : Nat} (h : getPage p s = .done q t) : q = p ∧ Opens p s t := by
  obtain ⟨table, s', hs, hrest⟩ := Prog.bind_eq_done.mp h
  obtain ⟨rfl, rfl⟩ := Prog.gets_eq_done.mp hs
  rcases Prog.ite_eq_done.mp hrest with ⟨htable, hret⟩ | ⟨htable, hnew⟩
  · obtain ⟨rfl, rfl⟩ := Prog.pure_eq_done.mp hret
    refine ⟨rfl, htable, fun q hq => ⟨hq, rfl⟩, fun q hq hq' => ?_, fun _ hf => hf, rfl⟩
    exact absurd (hq.symm.trans hq') (by decide)
  · obtain ⟨f, s₁, hf, hset⟩ := Prog.bind_eq_done.mp hnew
    obtain ⟨u, s₂, hmod, hret⟩ := Prog.bind_eq_done.mp hset
    obtain ⟨rfl, rfl⟩ := Prog.pure_eq_done.mp hret
    obtain ⟨rfl, -, -⟩ := takeFrame_done hf
    obtain rfl := Prog.modify_eq_done.mp hmod
    have htables : ∀ i, i ≠ p / 1024 →
        Function.update s.tables (p / 1024) true i = s.tables i :=
      fun i hi => Function.update_of_ne hi ..
    refine ⟨rfl, Function.update_self .., fun q hq => ?_, fun q hq hq' => ?_,
      fun _ hf => marked_setBit hf, rfl⟩
    · have hne : q / 1024 ≠ p / 1024 := fun heq => htable (heq ▸ hq)
      exact ⟨(htables _ hne).trans hq, if_neg hne⟩
    · by_cases heq : q / 1024 = p / 1024
      · exact if_pos heq
      · exact absurd (hq.symm.trans ((htables _ heq).symm.trans hq')) (by decide)

theorem fillFrame_fills {u : Unit} (h : fillFrame p s = .done u t) : Fills p s t := by
  obtain ⟨page, s', hs, hrest⟩ := Prog.bind_eq_done.mp h
  obtain ⟨rfl, rfl⟩ := Prog.gets_eq_done.mp hs
  rcases Prog.ite_eq_done.mp hrest with ⟨hframe, hret⟩ | ⟨hframe, hnew⟩
  · obtain ⟨-, rfl⟩ := Prog.pure_eq_done.mp hret
    exact ⟨rfl, fun _ _ => rfl, hframe, fun _ => rfl, fun hzero => absurd hzero hframe,
      fun _ hf => hf, rfl⟩
  · obtain ⟨f, s₁, hf, hmod⟩ := Prog.bind_eq_done.mp hnew
    obtain ⟨rfl, hbit, hne⟩ := takeFrame_done hf
    obtain rfl := Prog.modify_eq_done.mp hmod
    have hpage : (Function.update s.pages p { s.pages p with frame := f } p).frame = f := by
      rw [Function.update_self]
    refine ⟨rfl, fun q hq => Function.update_of_ne hq .., ?_, fun hnz => ?_, fun _ => ?_,
      fun _ hg => marked_setBit hg, rfl⟩
    · exact fun hzero => hne (hpage.symm.trans hzero)
    · exact absurd hnz hframe
    · show testBit s.frames
          (Function.update s.pages p { s.pages p with frame := f } p).frame = false
        ∧ testBit (setBit s.frames f)
          (Function.update s.pages p { s.pages p with frame := f } p).frame = true
      rw [hpage, testBit_setBit, decide_eq_true rfl, Bool.true_or]
      exact ⟨hbit, rfl⟩

/-- `vmem_frame_alloc` of a page for user mode. -/
theorem frameAlloc_fills {u : Unit} (h : frameAlloc p (Flags.rw false) s = .done u t) :
    Fills p s t ∧ (t.pages p).present = true ∧ (t.pages p).user = true
      ∧ (t.pages p).write = true := by
  obtain ⟨u', s₁, hfill, hmod⟩ := Prog.bind_eq_done.mp h
  have hfills := fillFrame_fills hfill
  obtain rfl := Prog.modify_eq_done.mp hmod
  have hpage : Function.update s₁.pages p (Page.withFlags (s₁.pages p) (Flags.rw false)) p
      = Page.withFlags (s₁.pages p) (Flags.rw false) := Function.update_self ..
  have hframe : (Function.update s₁.pages p (Page.withFlags (s₁.pages p) (Flags.rw false)) p).frame
      = (s₁.pages p).frame := by
    rw [hpage]
    rfl
  refine ⟨⟨hfills.tables, fun q hq => ?_, ?_, fun hnz => hframe.trans (hfills.same hnz),
    fun hzero => ?_, hfills.marked, hfills.bytes⟩, congrArg Page.present hpage,
    congrArg Page.user hpage, congrArg Page.write hpage⟩
  · exact (Function.update_of_ne hq ..).trans (hfills.others q hq)
  · exact fun hzero => hfills.filled (hframe.symm.trans hzero)
  · show testBit s.frames (Function.update s₁.pages p _ p).frame = false
      ∧ testBit s₁.frames (Function.update s₁.pages p _ p).frame = true
    rw [hframe]
    exact hfills.fresh hzero

/-- What mapping a page does. -/
structure Maps (p : Nat) (s t : As) : Prop where
  good : Good s → Good t
  present : ∀ q, Present t q ↔ q = p ∨ Present s q
  user : ∀ q, UserWritable t q ↔ q = p ∨ UserWritable s q
  keep : Good s → ∀ a < kernelBase, ∀ v, byteAt s a = some v → byteAt t a = some v

theorem present_zero {s : As} {q : Nat} (h : s.pages q = Page.zero) : ¬ Present s q := by
  rintro ⟨-, hpresent⟩
  rw [h] at hpresent
  exact absurd hpresent (by decide)

/-- The other pages stay as they are: those of a new table are empty. -/
theorem present_others {s₁ : As} (hopen : Opens p s s₁) (hfill : Fills p s₁ t) {q : Nat}
    (hq : q ≠ p) : (Present t q ↔ Present s q) ∧ (Present s q → t.pages q = s.pages q)
      ∧ ∀ f, Holds t q f → Holds s q f := by
  have hpages := hfill.others q hq
  have htables : t.tables (q / 1024) = s₁.tables (q / 1024) := by rw [hfill.tables]
  by_cases ht : s.tables (q / 1024) = true
  · obtain ⟨hkeep, hsame⟩ := hopen.same q ht
    have heq : t.pages q = s.pages q := hpages.trans hsame
    refine ⟨?_, fun _ => heq, fun f hf => ?_⟩
    · rw [Present, Present, heq, htables, hkeep, ht]
    · obtain ⟨hlt, -, hframe, hne⟩ := hf
      exact ⟨hlt, ht, heq ▸ hframe, hne⟩
  · have hnone : s.tables (q / 1024) = false := Bool.eq_false_iff.mpr ht
    have hzero : t.tables (q / 1024) = true → t.pages q = Page.zero := fun htable =>
      hpages.trans (hopen.empty q hnone (htables ▸ htable))
    refine ⟨⟨fun h => absurd h (present_zero (hzero h.1)), fun h => absurd h.1 ht⟩,
      fun h => absurd h.1 ht, fun f hf => ?_⟩
    obtain ⟨-, htable, hframe, hne⟩ := hf
    rw [hzero htable] at hframe
    exact absurd hframe.symm hne

/-- The frame of the page is its own, or a new one. -/
theorem holds_page {s₁ : As} (hopen : Opens p s s₁) (hfill : Fills p s₁ t) {f : Nat}
    (h : Holds t p f) :
    Holds s p f ∨ testBit s.frames f = false ∧ testBit t.frames f = true := by
  obtain ⟨hlt, -, hframe, hne⟩ := h
  by_cases hold : (s₁.pages p).frame = 0
  · obtain ⟨hclear, hset⟩ := hfill.fresh hold
    rw [hframe] at hclear hset
    refine Or.inr ⟨Bool.eq_false_iff.mpr fun hm => ?_, hset⟩
    rw [hopen.marked f hm] at hclear
    exact absurd hclear (by decide)
  · by_cases ht : s.tables (p / 1024) = true
    · refine Or.inl ⟨hlt, ht, ?_, hne⟩
      rw [← (hopen.same p ht).2, ← hfill.same hold, hframe]
    · rw [hopen.empty p (Bool.eq_false_iff.mpr ht) hopen.table] at hold
      exact absurd rfl hold

theorem mapPage_maps {addr : Nat} {u : Unit} (h : mapPage addr s = .done u t) :
    Maps (addr / 4096) s t := by
  obtain ⟨p, s₁, hget, halloc⟩ := Prog.bind_eq_done.mp h
  obtain ⟨rfl, hopen⟩ := getPage_opens hget
  obtain ⟨hfill, hpresent, huser, hwrite⟩ := frameAlloc_fills halloc
  generalize addr / 4096 = p at hopen hfill hpresent huser hwrite ⊢
  have htable : t.tables (p / 1024) = true := by
    rw [hfill.tables]
    exact hopen.table
  have hthere : Present t p := ⟨htable, hpresent⟩
  have hiff : ∀ q, Present t q ↔ q = p ∨ Present s q := fun q => by
    by_cases hq : q = p
    · exact ⟨fun _ => Or.inl hq, fun _ => hq ▸ hthere⟩
    · rw [(present_others hopen hfill hq).1]
      exact ⟨Or.inr, fun h => h.resolve_left hq⟩
  refine ⟨fun hgood => ⟨fun q hlt hq => ?_, fun q q' f hq hq' => ?_, fun q f hq => ?_⟩, hiff,
    fun q => ?_, fun hgood a ha v hv => ?_⟩
  · by_cases hqp : q = p
    · exact hqp ▸ hfill.filled
    · obtain ⟨hsame, hpage, -⟩ := present_others hopen hfill hqp
      rw [hpage (hsame.mp hq)]
      exact hgood.backed q hlt (hsame.mp hq)
  · have hnew : ∀ r, r ≠ p → Holds t r f → Holds t p f → r = p := fun r hr hholds hpage => by
      have hold := (present_others hopen hfill hr).2.2 f hholds
      rcases holds_page hopen hfill hpage with hown | ⟨hclear, -⟩
      · exact hgood.inj r p f hold hown
      · exact absurd ((hgood.marked r f hold).symm.trans hclear) (by decide)
    by_cases hqp : q = p
    · by_cases hqp' : q' = p
      · rw [hqp, hqp']
      · exact hqp.trans (hnew q' hqp' hq' (hqp ▸ hq)).symm
    · by_cases hqp' : q' = p
      · exact (hnew q hqp hq (hqp' ▸ hq')).trans hqp'.symm
      · exact hgood.inj q q' f ((present_others hopen hfill hqp).2.2 f hq)
          ((present_others hopen hfill hqp').2.2 f hq')
  · have hmarked : testBit s.frames f = true → testBit t.frames f = true := fun hm =>
      hfill.marked f (hopen.marked f hm)
    by_cases hqp : q = p
    · rcases holds_page hopen hfill (hqp ▸ hq) with hown | ⟨-, hset⟩
      · exact hmarked (hgood.marked p f hown)
      · exact hset
    · exact hmarked (hgood.marked q f ((present_others hopen hfill hqp).2.2 f hq))
  · by_cases hq : q = p
    · exact ⟨fun _ => Or.inl hq, fun _ => hq ▸ ⟨hthere, huser, hwrite⟩⟩
    · obtain ⟨hsame, hpage, -⟩ := present_others hopen hfill hq
      constructor
      · rintro ⟨hq', hu, hw⟩
        rw [hpage (hsame.mp hq')] at hu hw
        exact Or.inr ⟨hsame.mp hq', hu, hw⟩
      · rintro (heq | ⟨hq', hu, hw⟩)
        · exact absurd heq hq
        · refine ⟨hsame.mpr hq', ?_⟩
          rw [hpage hq']
          exact ⟨hu, hw⟩
  · unfold byteAt at hv ⊢
    split at hv
    · rename_i hold
      have hframe : (t.pages (a / 4096)).frame = (s.pages (a / 4096)).frame := by
        by_cases hq : a / 4096 = p
        · have hbacked := hgood.backed (a / 4096) (Nat.div_lt_of_lt_mul (by
            unfold kernelBase at *; omega)) hold
          rw [hq] at hold hbacked ⊢
          have hsame := (hopen.same p hold.1).2
          rw [hfill.same (by rw [hsame]; exact hbacked), hsame]
        · rw [(present_others hopen hfill hq).2.1 hold]
      rw [if_pos ((hiff _).mpr (Or.inr hold)), hframe, hfill.bytes, hopen.bytes]
      exact hv
    · cases hv

end Mapping

/-! ## Stores -/

section Stores

variable {s t : As}

/-- A store leaves the pages as they are. -/
structure SamePages (s t : As) : Prop where
  tables : t.tables = s.tables
  pages : t.pages = s.pages
  frames : t.frames = s.frames
  count : t.frameCount = s.frameCount

theorem SamePages.refl (s : As) : SamePages s s := ⟨rfl, rfl, rfl, rfl⟩

theorem SamePages.trans {u : As} (h : SamePages s t) (h' : SamePages t u) : SamePages s u :=
  ⟨h'.tables.trans h.tables, h'.pages.trans h.pages, h'.frames.trans h.frames,
    h'.count.trans h.count⟩

theorem SamePages.present (h : SamePages s t) (q : Nat) : Present t q ↔ Present s q := by
  rw [Present, Present, h.tables, h.pages]

theorem SamePages.user (h : SamePages s t) (q : Nat) : UserWritable t q ↔ UserWritable s q := by
  rw [UserWritable, UserWritable, h.present, h.pages]

theorem SamePages.good (h : SamePages s t) (hs : Good s) : Good t := by
  have hholds : ∀ p f, Holds t p f ↔ Holds s p f := fun p f => by
    rw [Holds, Holds, h.tables, h.pages]
  refine ⟨fun p hlt hp => ?_, fun p q f hp hq => ?_, fun p f hp => ?_⟩
  · rw [h.pages]
    exact hs.backed p hlt ((h.present p).mp hp)
  · exact hs.inj p q f ((hholds p f).mp hp) ((hholds q f).mp hq)
  · rw [h.frames]
    exact hs.marked p f ((hholds p f).mp hp)

theorem storeByte_done {a : Nat} {b : UInt8} {u : Unit} (h : storeByte a b s = .done u t) :
    SamePages s t ∧ byteAt t a = some b
      ∧ (Good s → a < kernelBase → ∀ a' < kernelBase, a' ≠ a → byteAt t a' = byteAt s a') := by
  unfold storeByte at h
  split at h
  · rename_i hpresent
    obtain ⟨-, rfl⟩ := Outcome.done.inj h
    refine ⟨⟨rfl, rfl, rfl, rfl⟩, ?_, fun hgood ha a' ha' hne => ?_⟩
    · show (if Present s (a / 4096) then some (Function.update s.bytes (s.pages (a / 4096)).frame
        (Function.update (s.bytes (s.pages (a / 4096)).frame) (a % 4096) b)
          (s.pages (a / 4096)).frame (a % 4096)) else none) = some b
      rw [if_pos hpresent, Function.update_self, Function.update_self]
    · show (if Present s (a' / 4096) then some (Function.update s.bytes (s.pages (a / 4096)).frame
        (Function.update (s.bytes (s.pages (a / 4096)).frame) (a % 4096) b)
          (s.pages (a' / 4096)).frame (a' % 4096)) else none) = byteAt s a'
      rw [byteAt]
      by_cases hpresent' : Present s (a' / 4096)
      · rw [if_pos hpresent', if_pos hpresent']
        by_cases hframe : (s.pages (a' / 4096)).frame = (s.pages (a / 4096)).frame
        · -- The same frame is the same page, so the addresses differ inside it.
          have hlt : a / 4096 < kernelBase / 4096 := by unfold kernelBase at *; omega
          have hlt' : a' / 4096 < kernelBase / 4096 := by unfold kernelBase at *; omega
          have hpage : a' / 4096 = a / 4096 := hgood.inj _ _ (s.pages (a / 4096)).frame
            ⟨hlt', hpresent'.1, hframe, hgood.backed _ hlt hpresent⟩
            ⟨hlt, hpresent.1, rfl, hgood.backed _ hlt hpresent⟩
          have hoff : a' % 4096 ≠ a % 4096 := by omega
          rw [hframe, Function.update_self, Function.update_of_ne hoff]
        · rw [Function.update_of_ne hframe]
      · rw [if_neg hpresent', if_neg hpresent']
  · cases h

/-- What has been stored is there, and everything else is as it was. -/
theorem store_done {a : Nat} {l : List UInt8} {u : Unit} (hgood : Good s)
    (hfit : a + l.length ≤ kernelBase) (h : store a l s = .done u t) :
    SamePages s t ∧ (∀ i < l.length, byteAt t (a + i) = l[i]?)
      ∧ ∀ a' < kernelBase, a' < a ∨ a + l.length ≤ a' → byteAt t a' = byteAt s a' := by
  induction l generalizing a s with
  | nil =>
      obtain ⟨-, rfl⟩ := Prog.pure_eq_done.mp h
      exact ⟨SamePages.refl s, fun i hi => absurd hi (Nat.not_lt_zero i), fun _ _ _ => rfl⟩
  | cons b l ih =>
      rw [List.length_cons] at hfit ⊢
      obtain ⟨u', s₁, hb, hrest⟩ := Prog.bind_eq_done.mp h
      obtain ⟨hsame₁, hbyte, hother⟩ := storeByte_done hb
      have ha : (a + 1) % 2 ^ 32 = a + 1 := Nat.mod_eq_of_lt (by unfold kernelBase at hfit; omega)
      rw [ha] at hrest
      obtain ⟨hsame, hbytes, hrest⟩ := ih (hsame₁.good hgood) (by omega) hrest
      refine ⟨hsame₁.trans hsame, fun i hi => ?_, fun a' ha' hout => ?_⟩
      · cases i with
        | zero =>
            rw [Nat.add_zero, List.getElem?_cons_zero, hrest a (by omega) (Or.inl (by omega)),
              hbyte]
        | succ i =>
            rw [List.getElem?_cons_succ, ← hbytes i (by omega)]
            congr 1
            omega
      · rw [hrest a' ha' (by omega), hother hgood (by omega) a' ha' (by omega)]

end Stores

/-! ## Runs that return -/

section Returns

variable {s t : As} {k : Nat}

/-- The frames that can still be had. -/
def freeFrames (s : As) : Finset Nat :=
  (Finset.range (s.frameCount / 32 * 32)).filter fun f =>
    0x100 ≤ f ∧ testBit s.frames f = false

/-- At least `k` frames can still be had. -/
def Room (k : Nat) (s : As) : Prop := k ≤ (freeFrames s).card

theorem Room.mono {n : Nat} (h : Room n s) (hk : k ≤ n) : Room k s := Nat.le_trans hk h

theorem SamePages.room (h : SamePages s t) (hs : Room k s) : Room k t := by
  rw [Room, freeFrames, h.count, h.frames]
  exact hs

theorem takeFrame_returns (hs : Room (k + 1) s) :
    ∃ f t, takeFrame s = .done f t ∧ Room k t := by
  obtain ⟨g, hg⟩ := Finset.card_pos.mp (Nat.lt_of_lt_of_le (Nat.succ_pos k) hs)
  obtain ⟨hrange, hlow, hclear⟩ := Finset.mem_filter.mp hg
  obtain ⟨f, hf⟩ : ∃ f, findFirst s.frames 0x100 s.frameCount = some f :=
    findFirst_isSome hlow (Finset.mem_range.mp hrange) hclear
  obtain ⟨hflow, hfhigh, hfclear⟩ := findFirst_spec hf
  have htake : takeFrame s = .done f { s with frames := setBit s.frames f } := by
    unfold takeFrame
    rw [hf]
  refine ⟨f, _, htake, ?_⟩
  -- Only the frame that is taken is lost.
  have hsub : (freeFrames s).erase f ⊆ freeFrames { s with frames := setBit s.frames f } :=
    fun x hx => by
      obtain ⟨hne, hx⟩ := Finset.mem_erase.mp hx
      obtain ⟨hxrange, hxlow, hxclear⟩ := Finset.mem_filter.mp hx
      refine Finset.mem_filter.mpr ⟨hxrange, hxlow, ?_⟩
      rw [testBit_setBit, decide_eq_false hne, hxclear]
      rfl
  have hmem : f ∈ freeFrames s :=
    Finset.mem_filter.mpr ⟨Finset.mem_range.mpr hfhigh, hflow, hfclear⟩
  have hcard := Finset.card_le_card hsub
  rw [Finset.card_erase_of_mem hmem] at hcard
  unfold Room at hs ⊢
  omega

/-- A page is mapped if there are frames for it and its table. -/
theorem mapPage_returns {addr : Nat} (hs : Room (k + 2) s) :
    ∃ t, mapPage addr s = .done () t ∧ Room k t := by
  obtain ⟨s₁, hget, hs₁⟩ :
      ∃ s₁, getPage (addr / 4096) s = .done (addr / 4096) s₁ ∧ Room (k + 1) s₁ := by
    by_cases htable : s.tables (addr / 4096 / 1024) = true
    · exact ⟨s, Prog.bind_eq_done.mpr ⟨_, s, Prog.gets_eq_done.mpr ⟨rfl, rfl⟩,
        Prog.ite_eq_done.mpr (Or.inl ⟨htable, Prog.pure_eq_done.mpr ⟨rfl, rfl⟩⟩)⟩,
        hs.mono (by omega)⟩
    · obtain ⟨f, s', htake, hs'⟩ := takeFrame_returns hs
      exact ⟨_, Prog.bind_eq_done.mpr ⟨_, s, Prog.gets_eq_done.mpr ⟨rfl, rfl⟩,
        Prog.ite_eq_done.mpr (Or.inr ⟨htable, Prog.bind_eq_done.mpr ⟨f, s', htake,
          Prog.bind_eq_done.mpr ⟨⟨⟩, _, Prog.modify_eq_done.mpr rfl,
            Prog.pure_eq_done.mpr ⟨rfl, rfl⟩⟩⟩⟩)⟩, hs'⟩
  obtain ⟨s₂, hfill, hs₂⟩ :
      ∃ s₂, fillFrame (addr / 4096) s₁ = .done () s₂ ∧ Room k s₂ := by
    by_cases hframe : (s₁.pages (addr / 4096)).frame ≠ 0
    · exact ⟨s₁, Prog.bind_eq_done.mpr ⟨_, s₁, Prog.gets_eq_done.mpr ⟨rfl, rfl⟩,
        Prog.ite_eq_done.mpr (Or.inl ⟨hframe, Prog.pure_eq_done.mpr ⟨rfl, rfl⟩⟩)⟩,
        hs₁.mono (by omega)⟩
    · obtain ⟨f, s', htake, hs'⟩ := takeFrame_returns hs₁
      exact ⟨_, Prog.bind_eq_done.mpr ⟨_, s₁, Prog.gets_eq_done.mpr ⟨rfl, rfl⟩,
        Prog.ite_eq_done.mpr (Or.inr ⟨hframe,
          Prog.bind_eq_done.mpr ⟨f, s', htake, Prog.modify_eq_done.mpr rfl⟩⟩)⟩, hs'⟩
  exact ⟨_, Prog.bind_eq_done.mpr ⟨_, s₁, hget,
    Prog.bind_eq_done.mpr ⟨(), s₂, hfill, Prog.modify_eq_done.mpr rfl⟩⟩, hs₂⟩

/-- A store returns if its pages are there. -/
theorem store_returns {a : Nat} {l : List UInt8} (hfit : a + l.length ≤ kernelBase)
    (hl : ∀ i < l.length, Present s ((a + i) / 4096)) :
    ∃ t, store a l s = .done () t ∧ SamePages s t := by
  induction l generalizing a s with
  | nil => exact ⟨s, Prog.pure_eq_done.mpr ⟨rfl, rfl⟩, SamePages.refl s⟩
  | cons b l ih =>
      rw [List.length_cons] at hfit hl
      obtain ⟨s₁, hbyte⟩ : ∃ s₁, storeByte a b s = .done () s₁ := ⟨_, if_pos (hl 0 (by omega))⟩
      have hsame := (storeByte_done hbyte).1
      have ha : (a + 1) % 2 ^ 32 = a + 1 := Nat.mod_eq_of_lt (by unfold kernelBase at hfit; omega)
      obtain ⟨t, hrest, ht⟩ : ∃ t, store (a + 1) l s₁ = .done () t ∧ SamePages s₁ t :=
        ih (by omega) fun i hi => by
          rw [hsame.present, Nat.add_assoc, Nat.add_comm 1 i]
          exact hl (i + 1) (by omega)
      exact ⟨t, Prog.bind_eq_done.mpr ⟨(), s₁, hbyte, by rw [ha]; exact hrest⟩, hsame.trans ht⟩

end Returns

end AddrSpace

end Shitos
