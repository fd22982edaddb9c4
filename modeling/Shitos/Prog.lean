/-!
# Programs with a state and three ends

A stateful computation ends with a value, is halted for good (a failed
assertion, a fatal error), or goes deeper than the recursion depth it was
given. The three ends are kept apart, so that termination can be stated:
what is never `deep` for some depth has terminated.

`Triple P m Q H D` is the Hoare triple with one postcondition for each end.
The rules below are those of any such logic; loops over a list have an
invariant rule.
-/

namespace Shitos

universe u v

inductive Outcome (σ : Type u) (α : Type v) where
  | done (a : α) (s : σ)
  | halted (s : σ)
  | deep (s : σ)

/-- The state, if there is a value. -/
def Outcome.returned {σ : Type u} {α : Type v} : Outcome σ α → Option σ
  | .done _ s => some s
  | _ => none

/-- A computation on states of type `σ`. -/
def Prog (σ : Type u) (α : Type v) := σ → Outcome σ α

namespace Prog

variable {σ : Type u} {α β : Type v}

def pure (a : α) : Prog σ α := fun s => .done a s

def bind (m : Prog σ α) (f : α → Prog σ β) : Prog σ β := fun s =>
  match m s with
  | .done a s => f a s
  | .halted s => .halted s
  | .deep s => .deep s

instance : Monad (Prog σ) where
  pure := pure
  bind := bind

/-- A value read off the state. -/
def gets (f : σ → α) : Prog σ α := fun s => .done (f s) s

def modify (f : σ → σ) : Prog σ PUnit := fun s => .done ⟨⟩ (f s)

def halt : Prog σ α := fun s => .halted s

def tooDeep : Prog σ α := fun s => .deep s

/-- Go on only if the assertion holds. -/
def assert (b : σ → Bool) : Prog σ PUnit := fun s => if b s then .done ⟨⟩ s else .halted s

/-- Run `f` on each element, in order. -/
def each {ι : Type} : List ι → (ι → Prog σ PUnit) → Prog σ PUnit
  | [], _ => pure ⟨⟩
  | i :: l, f => bind (f i) fun _ => each l f

/-- The steps after a step that is done run in the state it leaves. -/
theorem bind_run {m : Prog σ α} {f : α → Prog σ β} {s t : σ} {a : α} (h : m s = .done a t) :
    (m >>= f) s = f a t := by
  show Prog.bind m f s = f a t
  rw [Prog.bind, h]

theorem bind_done_eq (m : Prog σ α) : (m >>= fun a => Pure.pure a) = m := by
  funext s
  show Prog.bind m Prog.pure s = m s
  unfold Prog.bind
  cases m s with
  | done a t => rfl
  | halted t => rfl
  | deep t => rfl

theorem bind_bind {γ : Type v} (m : Prog σ α) (f : α → Prog σ β) (g : β → Prog σ γ) :
    ((m >>= f) >>= g) = m >>= fun a => f a >>= g := by
  funext s
  show Prog.bind (Prog.bind m f) g s = Prog.bind m (fun a => Prog.bind (f a) g) s
  unfold Prog.bind
  cases m s with
  | done a t => rfl
  | halted t => rfl
  | deep t => rfl

instance : LawfulMonad (Prog σ) :=
  LawfulMonad.mk' (Prog σ) bind_done_eq (fun _ _ => rfl) bind_bind

/-- A loop over two lists is two loops. -/
theorem each_append {ι : Type} (l l' : List ι) (g : ι → Prog σ PUnit) :
    each (l ++ l') g = (do each l g; each l' g) := by
  induction l with
  | nil => rfl
  | cons i l ih =>
      show (g i >>= fun _ => each (l ++ l') g) = (g i >>= fun _ => each l g) >>= _
      rw [ih, bind_assoc]

/-- A loop in a loop is one loop. -/
theorem each_flatMap {ι κ : Type} (l : List κ) (items : κ → List ι) (g : ι → Prog σ PUnit) :
    each l (fun k => each (items k) g) = each (l.flatMap items) g := by
  induction l with
  | nil => rfl
  | cons k l ih =>
      rw [List.flatMap_cons, each_append, ← ih]
      rfl

/-! ## Runs that return -/

section Returns

variable {m m' : Prog σ α} {f : α → Prog σ β} {s t : σ}

theorem bind_eq_done {b : β} : (m >>= f) s = .done b t ↔
    ∃ a s', m s = .done a s' ∧ f a s' = .done b t := by
  show Prog.bind m f s = .done b t ↔ _
  unfold Prog.bind
  constructor
  · intro h
    cases hm : m s with
    | done a s' => rw [hm] at h; exact ⟨a, s', rfl, h⟩
    | halted s' => rw [hm] at h; cases h
    | deep s' => rw [hm] at h; cases h
  · rintro ⟨a, s', hm, hf⟩
    rw [hm]
    exact hf

theorem pure_eq_done {a b : α} : (Pure.pure a : Prog σ α) s = .done b t ↔ a = b ∧ s = t := by
  show Outcome.done a s = .done b t ↔ _
  rw [Outcome.done.injEq]

theorem gets_eq_done {g : σ → α} {a : α} : gets g s = .done a t ↔ g s = a ∧ s = t := by
  rw [gets, Outcome.done.injEq]

theorem modify_eq_done {g : σ → σ} {u : PUnit} : modify g s = .done u t ↔ g s = t := by
  rw [modify, Outcome.done.injEq]
  exact ⟨And.right, fun h => ⟨rfl, h⟩⟩

theorem assert_eq_done {b : σ → Bool} {u : PUnit} :
    assert b s = .done u t ↔ b s = true ∧ s = t := by
  unfold assert
  cases hb : b s with
  | true =>
      rw [if_pos rfl, Outcome.done.injEq]
      exact ⟨fun h => ⟨rfl, h.2⟩, fun h => ⟨rfl, h.2⟩⟩
  | false =>
      rw [if_neg (by decide)]
      exact ⟨(nomatch ·), fun h => absurd h.1 (by decide)⟩

theorem ite_eq_done {c : Prop} [Decidable c] {a : α} :
    (if c then m else m') s = .done a t ↔
      (c ∧ m s = .done a t) ∨ (¬c ∧ m' s = .done a t) := by
  by_cases hc : c
  · rw [if_pos hc]
    exact ⟨fun h => Or.inl ⟨hc, h⟩, fun h => h.elim And.right fun h => absurd hc h.1⟩
  · rw [if_neg hc]
    exact ⟨fun h => Or.inr ⟨hc, h⟩, fun h => h.elim (fun h => absurd h.1 hc) And.right⟩

/-- What every turn of the loop preserves holds when it returns. -/
theorem each_done {ι : Type} {l : List ι} {g : ι → Prog σ PUnit} {I : σ → Prop} {u : PUnit}
    (hstep : ∀ i ∈ l, ∀ s s' u, I s → g i s = .done u s' → I s') (hs : I s)
    (h : each l g s = .done u t) : I t := by
  induction l generalizing s with
  | nil =>
      obtain ⟨-, rfl⟩ := pure_eq_done.mp h
      exact hs
  | cons i l ih =>
      obtain ⟨v, s', hi, hrest⟩ := bind_eq_done.mp h
      exact ih (fun j hj => hstep j (List.mem_cons_of_mem _ hj))
        (hstep i List.mem_cons_self s s' v hs hi) hrest

/-- A loop does not return if one of its turns cannot, as the turns before it
leave things. -/
theorem each_stuck {ι : Type} {l : List ι} {g : ι → Prog σ PUnit} {I : σ → Prop}
    {G : ι → Prop}
    (hstep : ∀ i ∈ l, G i → ∀ s s' u, I s → g i s = .done u s' → I s')
    (hstuck : ∀ i ∈ l, ¬G i → ∀ s, I s → ∀ u s', g i s ≠ .done u s')
    (hbad : ∃ i ∈ l, ¬G i) (hs : I s) (u : PUnit) : each l g s ≠ .done u t := by
  intro h
  induction l generalizing s with
  | nil =>
      obtain ⟨i, hi, -⟩ := hbad
      exact absurd hi List.not_mem_nil
  | cons i l ih =>
      obtain ⟨v, s', hi, hrest⟩ := bind_eq_done.mp h
      by_cases hgood : G i
      · refine ih (fun j hj => hstep j (List.mem_cons_of_mem _ hj))
          (fun j hj => hstuck j (List.mem_cons_of_mem _ hj)) ?_
          (hstep i List.mem_cons_self hgood s s' v hs hi) hrest
        obtain ⟨j, hj, hne⟩ := hbad
        rcases List.mem_cons.mp hj with rfl | hj
        · exact absurd hgood hne
        · exact ⟨j, hj, hne⟩
      · exact hstuck i List.mem_cons_self hgood s hs v s' hi

/-- A loop returns if each of its turns does, as the turns before it leave things. -/
theorem each_returns {ι : Type} {l : List ι} {g : ι → Prog σ PUnit} {I : σ → Prop}
    (hstep : ∀ i ∈ l, ∀ s, I s → ∃ s', g i s = .done ⟨⟩ s' ∧ I s') (hs : I s) :
    ∃ t, each l g s = .done ⟨⟩ t ∧ I t := by
  induction l generalizing s with
  | nil => exact ⟨s, rfl, hs⟩
  | cons i l ih =>
      obtain ⟨s', hi, hs'⟩ := hstep i List.mem_cons_self s hs
      obtain ⟨t, hrest, ht⟩ := ih (fun j hj => hstep j (List.mem_cons_of_mem _ hj)) hs'
      exact ⟨t, bind_eq_done.mpr ⟨⟨⟩, s', hi, hrest⟩, ht⟩

end Returns

/-! ## Triples -/

structure Triple (P : σ → Prop) (m : Prog σ α) (Q : α → σ → Prop) (H D : σ → Prop) : Prop where
  apply : ∀ s, P s → match m s with
    | .done a s => Q a s
    | .halted s => H s
    | .deep s => D s

namespace Triple

variable {P P' : σ → Prop} {Q Q' : α → σ → Prop} {H D H' D' : σ → Prop}
variable {m : Prog σ α} {f : α → Prog σ β} {R : β → σ → Prop}

theorem mono (h : Triple P m Q H D) (hP : ∀ s, P' s → P s) (hQ : ∀ a s, Q a s → Q' a s)
    (hH : ∀ s, H s → H' s) (hD : ∀ s, D s → D' s) : Triple P' m Q' H' D' := by
  refine ⟨fun s hs => ?_⟩
  have hm := h.apply s (hP s hs)
  cases hms : m s with
  | done a t => rw [hms] at hm; exact hQ a t hm
  | halted t => rw [hms] at hm; exact hH t hm
  | deep t => rw [hms] at hm; exact hD t hm

theorem pre (h : Triple P m Q H D) (hP : ∀ s, P' s → P s) : Triple P' m Q H D :=
  h.mono hP (fun _ _ => id) (fun _ => id) fun _ => id

theorem bind (h : Triple P m Q H D) (h' : ∀ a, Triple (Q a) (f a) R H D) :
    Triple P (m >>= f) R H D := by
  refine ⟨fun s hs => ?_⟩
  have hm := h.apply s hs
  show match Prog.bind m f s with
    | .done a s => R a s
    | .halted s => H s
    | .deep s => D s
  unfold Prog.bind
  cases hms : m s with
  | done a t => rw [hms] at hm; exact (h' a).apply t hm
  | halted t => rw [hms] at hm; exact hm
  | deep t => rw [hms] at hm; exact hm

theorem pure {a : α} (h : ∀ s, P s → Q a s) : Triple P (Pure.pure a) Q H D := ⟨h⟩

theorem gets {g : σ → α} (h : ∀ s, P s → Q (g s) s) : Triple P (Prog.gets g) Q H D := ⟨h⟩

theorem modify {g : σ → σ} {Q : PUnit → σ → Prop} (h : ∀ s, P s → Q ⟨⟩ (g s)) :
    Triple P (Prog.modify g) Q H D := ⟨h⟩

theorem halt (h : ∀ s, P s → H s) : Triple P (Prog.halt : Prog σ α) Q H D := ⟨h⟩

theorem tooDeep (h : ∀ s, P s → D s) : Triple P (Prog.tooDeep : Prog σ α) Q H D := ⟨h⟩

theorem assert {b : σ → Bool} {Q : PUnit → σ → Prop} (h : ∀ s, P s → b s = true → Q ⟨⟩ s)
    (h' : ∀ s, P s → b s = false → H s) : Triple P (Prog.assert b) Q H D := by
  refine ⟨fun s hs => ?_⟩
  unfold Prog.assert
  cases hb : b s with
  | true => exact h s hs hb
  | false => exact h' s hs hb

theorem ite {c : Prop} [Decidable c] {m' : Prog σ α} (h : c → Triple P m Q H D)
    (h' : ¬c → Triple P m' Q H D) : Triple P (if c then m else m') Q H D := by
  by_cases hc : c
  · rw [if_pos hc]; exact h hc
  · rw [if_neg hc]; exact h' hc

/-- A fact that does not depend on the state may be taken out of the
precondition. -/
theorem assume {p : Prop} (h : p → Triple P m Q H D) :
    Triple (fun s => p ∧ P s) m Q H D := ⟨fun s hs => (h hs.1).apply s hs.2⟩

/-- The invariant rule: the position in the list is part of the invariant. -/
theorem each {ι : Type} {l : List ι} {g : ι → Prog σ PUnit} {I : List ι → σ → Prop}
    (h : ∀ pre i post, l = pre ++ i :: post →
      Triple (I pre) (g i) (fun _ => I (pre ++ [i])) H D) :
    Triple (I []) (Prog.each l g) (fun _ => I l) H D := by
  suffices hgen : ∀ (post pre : List ι), l = pre ++ post →
      Triple (I pre) (Prog.each post g) (fun _ => I l) H D from hgen l [] rfl
  intro post
  induction post with
  | nil =>
      intro pre hl
      rw [List.append_nil] at hl
      rw [hl]
      exact Triple.pure fun _ => id
  | cons i post ih =>
      intro pre hl
      refine Triple.bind (h pre i post hl) fun _ => ih (pre ++ [i]) ?_
      rw [hl, List.append_assoc, List.singleton_append]

end Triple

/-- The invariant rule for a counted loop that returns. -/
theorem each_range_done {n : Nat} {g : Nat → Prog σ PUnit} {I : Nat → σ → Prop} {s t : σ}
    {u : PUnit}
    (hstep : ∀ i < n, ∀ s s' u, I i s → g i s = .done u s' → I (i + 1) s') (hs : I 0 s)
    (h : each (List.range n) g s = .done u t) : I n t := by
  have hloop : Triple (fun s => I 0 s) (each (List.range n) g)
      (fun _ s => I (List.range n).length s) (fun _ => True) (fun _ => True) := by
    refine @Triple.each σ _ _ _ _ g (fun pre s => I pre.length s) fun pre i post hl =>
      ⟨fun s hs => ?_⟩
    have hi : i = pre.length := by
      have hget : (List.range n)[pre.length]? = some i := by
        rw [hl, List.getElem?_append_right (Nat.le_refl _), Nat.sub_self]
        rfl
      obtain ⟨hlt, heq⟩ := List.getElem?_eq_some_iff.mp hget
      rw [List.getElem_range] at heq
      exact heq.symm
    have hmem : i ∈ List.range n := hl ▸ List.mem_append_right _ List.mem_cons_self
    have hlt : i < n := List.mem_range.mp hmem
    cases hgi : g i s with
    | done u s' =>
        show I (pre ++ [i]).length s'
        rw [List.length_append, ← hi]
        exact hstep i hlt s s' u (by rw [hi]; exact hs) hgi
    | halted s' => trivial
    | deep s' => trivial
  have hdone := hloop.apply s hs
  rw [h, List.length_range] at hdone
  exact hdone

end Prog

end Shitos
