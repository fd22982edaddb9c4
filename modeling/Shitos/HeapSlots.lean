import Shitos.HeapAlign

/-!
# The slots of the index

Nothing on the way of an allocation or a free compares the size of the index with
its capacity. A call is a run of steps (`Call.events`): a hole serves the request,
pages are mapped, the new room goes to a hole, a segment is freed. Three of them
may list one more hole than before (`AddsEntry`), and the index keeps to its slots
exactly if each time that one of them does, a slot is free (`slots_iff`).

None of this needs a well-formed heap: how many holes the index lists is a matter
of the branches that the code takes.
-/

namespace Shitos

namespace Heap

/-! ## Calls and their steps -/

/-- A step of a call, or a store by a user. -/
inductive Event where
  | serve (size align : Nat)
  | map (size : Nat)
  | grow (oldSz oldEnd : Nat)
  | free (p : Nat)
  | store (a : Nat) (v : UInt8)
deriving DecidableEq

/-- One step; `none` is a failed assertion. -/
def Event.exec (P : Pages) (s : St) : Event → Option St
  | .serve size align => (allocServed s size align).map Prod.snd
  | .map size => expand P s ((sub32 s.heap.stop s.heap.start + realSize size) % 2 ^ 32)
  | .grow oldSz oldEnd => some (growHole s oldSz oldEnd)
  | .free p => Heap.free s p
  | .store a v => some ⟨fun x => if x = a then v else s.mem x, s.heap⟩

inductive Call where
  | alloc (size align : Nat)
  | free (p : Nat)
  | store (a : Nat) (v : UInt8)
deriving DecidableEq

/-- One call, in which `vmem_heap_alloc` nests at most `d` deep. -/
def Call.exec (P : Pages) (d : Nat) (s : St) : Call → Option St
  | .alloc size align => (Heap.alloc P d s size align).map Prod.snd
  | .free p => Heap.free s p
  | .store a v => (Event.store a v).exec P s

/-- The steps of `vmem_heap_alloc`. -/
def allocEvents (P : Pages) : Nat → St → Nat → Nat → List Event
  | 0, _, _, _ => []
  | n + 1, s, size, align =>
      match holeFind s (realSize size) align with
      | some _ => [.serve size align]
      | none =>
          let oldSz := sub32 s.heap.stop s.heap.start
          .map size :: .grow oldSz s.heap.stop ::
            match (Event.map size).exec P s with
            | none => []
            | some t => allocEvents P n (growHole t oldSz s.heap.stop) size align

def Call.events (P : Pages) (d : Nat) (s : St) : Call → List Event
  | .alloc size align => allocEvents P d s size align
  | .free p => [.free p]
  | .store a v => [.store a v]

/-- A run of steps. -/
def execAll (P : Pages) : St → List Event → Option St
  | s, [] => some s
  | s, e :: es => (e.exec P s).bind fun s => execAll P s es

/-- The states of a run of steps, the first one included. -/
def visits (P : Pages) : St → List Event → List St
  | s, [] => [s]
  | s, e :: es => s ::
      match e.exec P s with
      | none => []
      | some s => visits P s es

/-- The states of a run of calls, with those inside the calls. -/
def visited (P : Pages) (d : Nat) : St → List Call → List St
  | s, [] => [s]
  | s, c :: cs => visits P s (c.events P d s) ++
      match c.exec P d s with
      | none => []
      | some s => visited P d s cs

/-! ## Which steps list one more hole -/

/-- What an aligned allocation leaves of the hole `i` behind the segment. -/
def restSz (s : St) (i n align : Nat) : Nat :=
  let orig := s.heap.index.elem s.mem i
  sub32 (alignHole s.mem orig align).2.1
    (if sub32 (hdrSize s.mem orig) n < headerSz + footerSz then hdrSize s.mem orig else n)

/-- The memory in which the segment `hdr` has been marked as a hole. -/
def markMem (s : St) (hdr : Nat) : Mem := setAlign (setHole s.mem hdr 1) hdr 0

/-- `free` takes what is in front of the block for a hole. -/
def JoinsLeft (s : St) (p : Nat) : Prop := LeftHole (markMem s (sub32 p headerSz)) (sub32 p headerSz)

instance (s : St) (p : Nat) : Decidable (JoinsLeft s p) := inferInstanceAs (Decidable (LeftHole _ _))

/-- `free` takes what is behind the block for a hole. -/
def JoinsRight (s : St) (p : Nat) : Prop :=
  let hdr := sub32 p headerSz
  let ftr := hdr + hdrSize s.mem hdr - footerSz
  RightHole (unifyLeft (markMem s hdr) hdr ftr).1 (ftr + footerSz)

instance (s : St) (p : Nat) : Decidable (JoinsRight s p) :=
  inferInstanceAs (Decidable (RightHole _ _))

/-- The step lists one more hole than it takes off the index. -/
def AddsEntry (s : St) : Event → Prop
  | .serve size align =>
      match holeFind s (realSize size) align with
      | none => False
      | some i => align ≠ 0 ∧ 0 < restSz s i (realSize size) align
  | .map _ => False
  | .grow _ _ => (highestHole s).1 = none
  | .free p => p ≠ 0 ∧ ¬JoinsLeft s p ∧ ¬JoinsRight s p
  | .store _ _ => False

instance (s : St) (e : Event) : Decidable (AddsEntry s e) :=
  match e with
  | .serve size align =>
      match h : holeFind s (realSize size) align with
      | none => isFalse fun ha => by rw [AddsEntry, h] at ha; exact ha
      | some i => decidable_of_iff (align ≠ 0 ∧ 0 < restSz s i (realSize size) align)
          (by rw [AddsEntry, h])
  | .map _ => isFalse fun ha => ha
  | .grow _ _ => inferInstanceAs (Decidable (_ = none))
  | .free _ => inferInstanceAs (Decidable (_ ∧ _ ∧ _))
  | .store _ _ => isFalse fun ha => ha

/-- Every step of the run that lists one more hole finds a free slot. -/
def Slots (P : Pages) : St → List Event → Prop
  | _, [] => True
  | s, e :: es =>
      match e.exec P s with
      | none => True
      | some t => (AddsEntry s e → s.heap.index.size < s.heap.index.maxSize) ∧ Slots P t es

def CallSlots (P : Pages) (d : Nat) : St → List Call → Prop
  | _, [] => True
  | s, c :: cs => Slots P s (c.events P d s) ∧
      match c.exec P d s with
      | none => True
      | some t => CallSlots P d t cs

/-- A run can be checked by executing it. -/
def decidableSlots (P : Pages) : ∀ (es : List Event) (s : St), Decidable (Slots P s es)
  | [], _ => isTrue trivial
  | e :: es, s =>
      match h : e.exec P s with
      | none => isTrue (by rw [Slots, h]; trivial)
      | some t =>
          have := decidableSlots P es t
          decidable_of_iff
            ((AddsEntry s e → s.heap.index.size < s.heap.index.maxSize) ∧ Slots P t es)
            (by rw [Slots, h])

instance (P : Pages) (s : St) (es : List Event) : Decidable (Slots P s es) := decidableSlots P es s

def decidableCallSlots (P : Pages) (d : Nat) :
    ∀ (cs : List Call) (s : St), Decidable (CallSlots P d s cs)
  | [], _ => isTrue trivial
  | c :: cs, s =>
      match h : c.exec P d s with
      | none => decidable_of_iff (Slots P s (c.events P d s)) (by rw [CallSlots, h, and_true])
      | some t =>
          have := decidableCallSlots P d cs t
          decidable_of_iff (Slots P s (c.events P d s) ∧ CallSlots P d t cs) (by rw [CallSlots, h])

instance (P : Pages) (d : Nat) (s : St) (cs : List Call) : Decidable (CallSlots P d s cs) :=
  decidableCallSlots P d cs s

/-! ## One step -/

/-- The index and the start of the heap stay where they are. -/
structure SameIndex (s t : St) : Prop where
  start : t.heap.start = s.heap.start
  array : t.heap.index.array = s.heap.index.array
  maxSize : t.heap.index.maxSize = s.heap.index.maxSize

theorem SameIndex.refl (s : St) : SameIndex s s := ⟨rfl, rfl, rfl⟩

theorem SameIndex.trans {s t u : St} (h : SameIndex s t) (h' : SameIndex t u) : SameIndex s u :=
  ⟨h'.start.trans h.start, h'.array.trans h.array, h'.maxSize.trans h.maxSize⟩

theorem SameHeap.index {s t : St} (h : SameHeap s t) : SameIndex s t := ⟨h.start, h.array, h.maxSize⟩

/-- The outcome of a step: how many holes the index lists. -/
structure Counted (s t : St) (adds : Prop) : Prop where
  same : SameIndex s t
  more : adds → t.heap.index.size = s.heap.index.size + 1
  fewer : ¬adds → t.heap.index.size ≤ s.heap.index.size

section Step

variable {P : Pages} {s t : St}

theorem Counted.of_insert (m : Mem) (el : Nat) {adds : Prop} (h : adds) :
    Counted s (St.insert ⟨m, s.heap⟩ el) adds where
  same := ((SameHeap.of_mem s m).trans (insert_same _ el)).index
  more _ := insert_index_size _ el
  fewer hn := absurd h hn

theorem Counted.of_mem (m : Mem) {adds : Prop} (h : ¬adds) : Counted s ⟨m, s.heap⟩ adds where
  same := (SameHeap.of_mem s m).index
  more ha := absurd ha h
  fewer _ := Nat.le_refl _

theorem counted_remove {i : Nat} (h : s.remove i = some t) :
    SameHeap s t ∧ t.heap.index.size + 1 = s.heap.index.size := by
  have hi : i < s.heap.index.size := by
    by_contra hi
    rw [St.remove, OrdArr.remove, if_neg hi] at h
    cases h
  obtain ⟨t', ht, hsame, hsize, -⟩ := remove_spec hi
  rw [h] at ht
  obtain rfl := Option.some.inj ht
  exact ⟨hsame, hsize⟩

theorem allocHole_same {s t : St} {i n align q : Nat}
    (h : allocHole s i n align = some (q, t)) : SameHeap s t := by
  obtain ⟨orig, hget, h⟩ := Option.bind_eq_some_iff.mp h
  dsimp only at h
  generalize (if sub32 (hdrSize s.mem orig) n < headerSz + footerSz then hdrSize s.mem orig
    else n) = z at h
  split at h
  · simp only [Option.pure_def, Option.bind_eq_bind, Option.bind_some] at h
    split at h
    · obtain rfl := (Prod.mk.inj (Option.some.inj h)).2
      exact (SameHeap.of_mem s _).trans (insert_same _ _)
    · obtain rfl := (Prod.mk.inj (Option.some.inj h)).2
      exact SameHeap.of_mem s _
  · obtain ⟨u, hrem, h⟩ := Option.bind_eq_some_iff.mp h
    have hsame := (counted_remove hrem).1
    simp only [Option.pure_def, Option.bind_eq_bind, Option.bind_some] at h
    split at h
    · obtain rfl := (Prod.mk.inj (Option.some.inj h)).2
      exact hsame.trans ((SameHeap.of_mem u _).trans (insert_same _ _))
    · obtain rfl := (Prod.mk.inj (Option.some.inj h)).2
      exact hsame.trans (SameHeap.of_mem u _)

theorem counted_serve {size align : Nat} (h : (Event.serve size align).exec P s = some t) :
    Counted s t (AddsEntry s (.serve size align)) := by
  obtain ⟨⟨p, t'⟩, hserved, rfl⟩ := Option.map_eq_some_iff.mp h
  obtain ⟨i, hfind, halloc⟩ := Option.bind_eq_some_iff.mp hserved
  have hi : i < s.heap.index.size := List.mem_range.mp (List.mem_of_find?_eq_some hfind)
  have hget : s.get i = some (s.heap.index.elem s.mem i) := if_pos hi
  have hadds : AddsEntry s (.serve size align)
      ↔ align ≠ 0 ∧ 0 < restSz s i (realSize size) align := by
    rw [AddsEntry, hfind]
  have hindex := (allocHole_same halloc).index
  by_cases halign : align ≠ 0
  · have hrest : restSz s i (realSize size) align = sub32
      (alignHole s.mem (s.heap.index.elem s.mem i) align).2.1
      (if sub32 (hdrSize s.mem (s.heap.index.elem s.mem i)) (realSize size) < headerSz + footerSz
        then hdrSize s.mem (s.heap.index.elem s.mem i) else realSize size) := rfl
    simp only [allocHole, hget, if_pos halign, Option.bind_eq_bind, Option.bind_some,
      Option.pure_def] at halloc
    rw [← hrest] at halloc
    split at halloc
    · rename_i hpos
      obtain rfl := (Prod.mk.inj (Option.some.inj halloc)).2
      exact Counted.of_insert _ _ (hadds.mpr ⟨halign, hpos⟩)
    · rename_i hpos
      obtain rfl := (Prod.mk.inj (Option.some.inj halloc)).2
      exact Counted.of_mem _ fun ha => hpos (hadds.mp ha).2
  · obtain ⟨s₁, hrem, -, hsize, -⟩ := remove_spec hi
    have hnot : ¬AddsEntry s (.serve size align) := fun ha => halign (hadds.mp ha).1
    simp only [allocHole, hget, if_neg halign, hrem, Option.bind_eq_bind, Option.bind_some,
      Option.pure_def] at halloc
    generalize (if sub32 (hdrSize s.mem (s.heap.index.elem s.mem i)) (realSize size)
      < headerSz + footerSz then hdrSize s.mem (s.heap.index.elem s.mem i)
      else realSize size) = n at halloc
    split at halloc
    · obtain rfl := (Prod.mk.inj (Option.some.inj halloc)).2
      refine ⟨hindex, fun ha => absurd ha hnot, fun _ => ?_⟩
      rw [insert_index_size]
      dsimp only
      omega
    · obtain rfl := (Prod.mk.inj (Option.some.inj halloc)).2
      refine ⟨hindex, fun ha => absurd ha hnot, fun _ => ?_⟩
      dsimp only
      omega

theorem counted_map {size : Nat} (h : (Event.map size).exec P s = some t) :
    Counted s t (AddsEntry s (.map size)) := by
  unfold Event.exec expand at h
  dsimp only at h
  split at h
  · obtain rfl := Option.some.inj h
    exact ⟨⟨rfl, rfl, rfl⟩, fun ha => ha.elim, fun _ => Nat.le_refl _⟩
  · exact nomatch h

theorem counted_grow (s : St) (oldSz oldEnd : Nat) :
    Counted s (growHole s oldSz oldEnd) (AddsEntry s (.grow oldSz oldEnd)) := by
  have hadds : AddsEntry s (.grow oldSz oldEnd) ↔ (highestHole s).1 = none := Iff.rfl
  rw [growHole]
  rcases hhigh : highestHole s with ⟨_ | i, hdr⟩
  · exact Counted.of_insert _ _ (hadds.mpr (by rw [hhigh]))
  · refine Counted.of_mem _ fun ha => ?_
    rw [hadds, hhigh] at ha
    cases ha

theorem counted_unifyRight {hdr ftr : Nat} (h : unifyRight s hdr ftr = some t) :
    SameHeap s t ∧ t.heap.index.size + (if RightHole s.mem (ftr + footerSz) then 1 else 0)
      = s.heap.index.size := by
  unfold unifyRight at h
  dsimp only at h
  split at h
  · rename_i hright
    rw [if_pos hright]
    obtain ⟨i, hi, hrem⟩ := Option.bind_eq_some_iff.mp h
    obtain ⟨hsame, hsize⟩ := counted_remove hrem
    exact ⟨(SameHeap.of_mem s _).trans hsame, hsize⟩
  · rename_i hright
    rw [if_neg hright]
    obtain rfl := Option.some.inj h
    exact ⟨SameHeap.refl s, rfl⟩

theorem unifyLeft_adds (m : Mem) (hdr ftr : Nat) :
    (unifyLeft m hdr ftr).2.2 = decide (¬LeftHole m hdr) := by
  unfold unifyLeft
  split
  · rename_i hleft
    simp [hleft]
  · rename_i hleft
    simp [hleft]

theorem counted_free {p : Nat} (h : (Event.free p).exec P s = some t) :
    Counted s t (AddsEntry s (.free p)) := by
  have hexec : Heap.free s p = some t := h
  have hadds : AddsEntry s (.free p) ↔ p ≠ 0 ∧ ¬JoinsLeft s p ∧ ¬JoinsRight s p := Iff.rfl
  unfold Heap.free at hexec
  by_cases hp : p = 0
  · rw [if_pos hp] at hexec
    obtain rfl := Option.some.inj hexec
    exact Counted.of_mem s.mem fun ha => ha.1 hp
  rw [if_neg hp] at hexec
  dsimp only at hexec
  split at hexec
  · obtain ⟨s₁, hright, hdone⟩ := Option.bind_eq_some_iff.mp hexec
    obtain ⟨hsame, hsize⟩ := counted_unifyRight hright
    have hadd : (unifyLeft (markMem s (sub32 p headerSz)) (sub32 p headerSz)
        (sub32 p headerSz + hdrSize s.mem (sub32 p headerSz) - footerSz)).2.2
        = decide (¬JoinsLeft s p) := unifyLeft_adds _ _ _
    have hsize' : s₁.heap.index.size + (if JoinsRight s p then 1 else 0) = s.heap.index.size := hsize
    have hsame' : SameIndex s s₁ := (SameHeap.trans (SameHeap.of_mem s _) hsame).index
    have ht : t = if decide (¬JoinsLeft s p) then s₁.insert (unifyLeft (markMem s (sub32 p headerSz))
        (sub32 p headerSz) (sub32 p headerSz + hdrSize s.mem (sub32 p headerSz) - footerSz)).2.1
        else s₁ := by
      rw [← hadd]
      exact (Option.some.inj hdone).symm
    by_cases hleft : JoinsLeft s p
    · rw [if_neg (by simpa using hleft)] at ht
      subst ht
      refine ⟨hsame', fun ha => absurd hleft (hadds.mp ha).2.1, fun _ => ?_⟩
      omega
    · rw [if_pos (by simpa using hleft)] at ht
      subst ht
      refine ⟨hsame'.trans (insert_same _ _).index, fun ha => ?_, fun ha => ?_⟩
      · rw [insert_index_size]
        rw [if_neg (hadds.mp ha).2.2] at hsize'
        omega
      · rw [insert_index_size]
        have hright : JoinsRight s p := by
          by_contra hright
          exact ha (hadds.mpr ⟨hp, hleft, hright⟩)
        rw [if_pos hright] at hsize'
        omega
  · exact nomatch hexec

theorem counted_event {e : Event} (h : e.exec P s = some t) : Counted s t (AddsEntry s e) := by
  cases e with
  | serve size align => exact counted_serve h
  | map size => exact counted_map h
  | grow oldSz oldEnd =>
      obtain rfl := Option.some.inj h
      exact counted_grow s oldSz oldEnd
  | free p => exact counted_free h
  | store a v =>
      obtain rfl := Option.some.inj h
      exact Counted.of_mem _ fun ha => ha

/-- A step keeps the index to its slots exactly if it finds one for what it adds. -/
theorem Counted.slots_iff {adds : Prop} (h : Counted s t adds)
    (hs : s.heap.index.size ≤ s.heap.index.maxSize) :
    t.heap.index.size ≤ t.heap.index.maxSize
      ↔ (adds → s.heap.index.size < s.heap.index.maxSize) := by
  rw [h.same.maxSize]
  by_cases ha : adds
  · rw [h.more ha]
    exact ⟨fun hlt _ => hlt, fun hlt => hlt ha⟩
  · exact ⟨fun _ hadds => absurd hadds ha, fun _ => (h.fewer ha).trans hs⟩

end Step

/-! ## Runs -/

section Runs

variable {P : Pages} {d : Nat} {s t : St}

theorem visits_same {es : List Event} (ht : t ∈ visits P s es) : SameIndex s t := by
  induction es generalizing s with
  | nil => exact List.mem_singleton.mp ht ▸ SameIndex.refl _
  | cons e es ih =>
      rcases List.mem_cons.mp ht with rfl | ht
      · exact SameIndex.refl _
      · cases hexec : e.exec P s with
        | none =>
            rw [hexec] at ht
            exact absurd ht List.not_mem_nil
        | some u =>
            rw [hexec] at ht
            exact (counted_event hexec).same.trans (ih ht)

theorem visits_self (P : Pages) (s : St) (es : List Event) : s ∈ visits P s es := by
  cases es with
  | nil => exact List.mem_cons_self
  | cons e es => exact List.mem_cons_self

theorem visits_slots {es : List Event} (hs : s.heap.index.size ≤ s.heap.index.maxSize) :
    (∀ t ∈ visits P s es, t.heap.index.size ≤ t.heap.index.maxSize) ↔ Slots P s es := by
  induction es generalizing s with
  | nil => exact ⟨fun _ => trivial, fun _ t ht => List.mem_singleton.mp ht ▸ hs⟩
  | cons e es ih =>
      rw [visits, List.forall_mem_cons, Slots]
      cases hexec : e.exec P s with
      | none => exact ⟨fun _ => trivial, fun _ => ⟨hs, fun t ht => absurd ht List.not_mem_nil⟩⟩
      | some u =>
          have hstep := (counted_event hexec).slots_iff hs
          constructor
          · rintro ⟨-, hrest⟩
            have hu := hrest u (visits_self P u es)
            exact ⟨hstep.mp hu, (ih hu).mp hrest⟩
          · rintro ⟨hadds, hrest⟩
            exact ⟨hs, (ih (hstep.mpr hadds)).mpr hrest⟩

theorem execAll_mem {es : List Event} (h : execAll P s es = some t) : t ∈ visits P s es := by
  induction es generalizing s with
  | nil => exact Option.some.inj h ▸ List.mem_cons_self
  | cons e es ih =>
      obtain ⟨u, hexec, hrest⟩ := Option.bind_eq_some_iff.mp h
      rw [visits, hexec]
      exact List.mem_cons_of_mem _ (ih hrest)

theorem alloc_events (n : Nat) {size align p : Nat} (h : alloc P n s size align = some (p, t)) :
    execAll P s (allocEvents P n s size align) = some t := by
  induction n generalizing s with
  | zero => exact nomatch h
  | succ n ih =>
      rw [alloc] at h
      rw [allocEvents]
      cases hfind : holeFind s (realSize size) align with
      | some i =>
          rw [hfind] at h
          dsimp only at h
          have hserve : (Event.serve size align).exec P s = some t := by
            rw [Event.exec, allocServed, hfind, Option.bind_eq_bind, Option.bind_some, h]
            rfl
          dsimp only
          rw [execAll, hserve]
          rfl
      | none =>
          rw [hfind] at h
          obtain ⟨u, hmap, hrest⟩ := Option.bind_eq_some_iff.mp h
          have hmap' : (Event.map size).exec P s = some u := hmap
          dsimp only
          rw [execAll, hmap', Option.bind_some, execAll, Event.exec, Option.bind_some]
          exact ih hrest

/-- A call that returns has taken its steps. -/
theorem call_events {c : Call} (h : c.exec P d s = some t) :
    execAll P s (c.events P d s) = some t := by
  cases c with
  | alloc size align =>
      obtain ⟨⟨p, u⟩, halloc, rfl⟩ := Option.map_eq_some_iff.mp h
      exact alloc_events d halloc
  | free p =>
      have hfree : (Event.free p).exec P s = some t := h
      rw [Call.events, execAll, hfree]
      rfl
  | store a v =>
      have hstore : (Event.store a v).exec P s = some t := h
      rw [Call.events, execAll, hstore]
      rfl

theorem visited_same {calls : List Call} (ht : t ∈ visited P d s calls) : SameIndex s t := by
  induction calls generalizing s with
  | nil => exact List.mem_singleton.mp ht ▸ SameIndex.refl _
  | cons c calls ih =>
      rcases List.mem_append.mp ht with ht | ht
      · exact visits_same ht
      · cases hexec : c.exec P d s with
        | none =>
            rw [hexec] at ht
            exact absurd ht List.not_mem_nil
        | some u =>
            rw [hexec] at ht
            exact (visits_same (execAll_mem (call_events hexec))).trans (ih ht)

/-- The index keeps to its slots in a run exactly if every step that lists one more
hole finds a free one. -/
theorem slots_iff (calls : List Call) (hs : s.heap.index.size ≤ s.heap.index.maxSize) :
    (∀ t ∈ visited P d s calls, t.heap.index.size ≤ t.heap.index.maxSize)
      ↔ CallSlots P d s calls := by
  induction calls generalizing s with
  | nil => exact ⟨fun _ => trivial, fun _ t ht => List.mem_singleton.mp ht ▸ hs⟩
  | cons c calls ih =>
      rw [visited, CallSlots, List.forall_mem_append, visits_slots hs]
      refine and_congr_right fun hslots => ?_
      cases hexec : c.exec P d s with
      | none => exact ⟨fun _ => trivial, fun _ t ht => absurd ht List.not_mem_nil⟩
      | some u => exact ih ((visits_slots hs).mpr hslots u (execAll_mem (call_events hexec)))

theorem visited_self (P : Pages) (d : Nat) (s : St) (calls : List Call) :
    s ∈ visited P d s calls := by
  cases calls with
  | nil => exact List.mem_cons_self
  | cons c calls => exact List.mem_append_left _ (visits_self P s _)

theorem create_index {m : Mem} {start stop max indexSz : Nat} {kernel : Bool}
    (h : create m start stop max indexSz kernel = some s) :
    s.heap.index = ⟨start, 1, indexSz⟩ := by
  unfold create at h
  split at h
  · obtain rfl := Option.some.inj h
    rw [St.insert, OrdArr.insert_size]
    rfl
  · cases h

end Runs

/-- **The index keeps to its slots** in every state of a run, also in those inside a
call, exactly if it has a slot at all and each step that lists one more hole finds a
free one. Then no insertion writes past the array into the heap. -/
theorem index_slots_iff {m : Mem} {start stop max indexSz : Nat} {kernel : Bool} {s : St}
    (hcreate : create m start stop max indexSz kernel = some s) (P : Pages) (d : Nat)
    (calls : List Call) :
    ((∀ t ∈ visited P d s calls, t.heap.index.size ≤ indexSz)
        ↔ 0 < indexSz ∧ CallSlots P d s calls)
      ∧ (start + 4 * indexSz ≤ s.heap.start → 0 < indexSz ∧ CallSlots P d s calls →
        ∀ t ∈ visited P d s calls,
          t.heap.index.array + 4 * t.heap.index.size ≤ t.heap.start) := by
  have hindex := create_index hcreate
  have hiff : (∀ t ∈ visited P d s calls, t.heap.index.size ≤ indexSz)
      ↔ 0 < indexSz ∧ CallSlots P d s calls := by
    have hmax : ∀ t ∈ visited P d s calls, t.heap.index.maxSize = indexSz := fun t ht => by
      rw [(visited_same ht).maxSize, hindex]
    have hslots := @slots_iff P d s calls
    rw [hindex] at hslots
    constructor
    · intro h
      have hpos : 0 < indexSz := by
        have := h s (visited_self P d s calls)
        rw [hindex] at this
        exact this
      exact ⟨hpos, (hslots hpos).mp fun t ht => by rw [hmax t ht]; exact h t ht⟩
    · rintro ⟨hpos, h⟩ t ht
      rw [← hmax t ht]
      exact (hslots hpos).mpr h t ht
  refine ⟨hiff, fun hwrap h t ht => ?_⟩
  have hsize := hiff.mpr h t ht
  have hsame := visited_same ht
  rw [hsame.start, hsame.array, hindex]
  dsimp only
  omega

theorem index_slots_iff_small :
    (∀ t ∈ visited samePages 2 smallHeap [.alloc 8 0, .free 0x200c], t.heap.index.size ≤ 1)
      ∧ ∀ t ∈ visited samePages 2 smallHeap [.alloc 8 0, .free 0x200c],
        t.heap.index.array + 4 * t.heap.index.size ≤ t.heap.start := by
  have hcreate : create (fun _ => 0) 0x1000 0x4000 0x4000 1 false = some smallHeap := rfl
  have hslots : 0 < 1 ∧ CallSlots samePages 2 smallHeap [.alloc 8 0, .free 0x200c] := by
    decide +kernel
  obtain ⟨hiff, hbelow⟩ := index_slots_iff hcreate samePages 2 [.alloc 8 0, .free 0x200c]
  exact ⟨hiff.mpr hslots, hbelow (by decide) hslots⟩

/-- Three blocks on a heap with one slot: with the first one free there are two
holes. -/
theorem index_overruns : ∃ t ∈ visited samePages 2 smallHeap
    [.alloc 8 0, .alloc 8 0, .alloc 8 0, .free 0x200c],
    smallHeap.heap.index.maxSize = 1 ∧ t.heap.index.size = 2 := by
  decide +kernel

end Heap

end Shitos
