import Mathlib.Algebra.Ring.Nat
import Mathlib.Data.List.Infix
import Mathlib.Data.List.TakeWhile

/-!
# Components of a list

The components of a list are the runs between its separators, without the
empty ones (`components`). A list of components can be written out again, with
a separator in front of each (`render`), and reading that back gives the
components (`components_render`).

A stack of components can be worked off by a word whose letters are components:
one letter is skipped, one pops the stack, all others are pushed (`settle`). A
stack without the two special letters is what pushing it onto the empty stack
gives (`settle_plain`).
-/

namespace Shitos

namespace Components

section Split

variable {α : Type*} [DecidableEq α] {sep : α} {l a b : List α}

/-- The runs between the separators. -/
def parts (sep : α) (l : List α) : List (List α) := l.splitOn sep

/-- The runs that are not empty. -/
def components (sep : α) (l : List α) : List (List α) := (parts sep l).filter (· ≠ [])

/-- The components, each with a separator in front of it. -/
def render (sep : α) (cs : List (List α)) : List α := cs.flatMap (sep :: ·)

/-- A component: not empty, and without a separator. -/
structure Component (sep : α) (c : List α) : Prop where
  ne_nil : c ≠ []
  noSep : sep ∉ c

theorem components_nil : components sep [] = [] := by simp [components, parts]

/-- A separator divides the components. -/
theorem components_append (sep : α) (a b : List α) :
    components sep (a ++ sep :: b) = components sep a ++ components sep b := by
  rw [components, parts, List.splitOn_append_cons_self, List.filter_append, components, components,
    parts, parts]

theorem components_sep_cons : components sep (sep :: b) = components sep b := by
  rw [← List.nil_append (sep :: b), components_append, components_nil, List.nil_append]

theorem components_of_notMem (h : sep ∉ a) : components sep a = if a = [] then [] else [a] := by
  rw [components, parts, List.splitOn_eq_singleton h]
  by_cases ha : a = []
  · simp [ha]
  · simp [ha]

theorem Component.components (h : Component sep a) : components sep a = [a] := by
  rw [components_of_notMem h.noSep, if_neg h.ne_nil]

/-- What is in front of the first component does not matter. -/
theorem components_dropWhile : ∀ l : List α,
    components sep (l.dropWhile (· = sep)) = components sep l
  | [] => rfl
  | x :: l => by
      rw [List.dropWhile_cons]
      by_cases hx : x = sep
      · rw [if_pos (decide_eq_true hx), components_dropWhile l, hx, components_sep_cons]
      · rw [if_neg (by simpa using hx)]

theorem takeWhile_component (hne : l ≠ []) (hhead : l.head? ≠ some sep) :
    Component sep (l.takeWhile (· ≠ sep)) := by
  refine ⟨?_, fun hmem => ?_⟩
  · cases l with
    | nil => exact absurd rfl hne
    | cons x l =>
        have hx : x ≠ sep := fun h => hhead (by rw [h]; rfl)
        rw [List.takeWhile_cons, if_pos (decide_eq_true hx)]
        exact List.cons_ne_nil _ _
  · simpa using List.mem_takeWhile_imp hmem

/-- The first component, and those of the rest. -/
theorem components_cons (hne : l ≠ []) (hhead : l.head? ≠ some sep) :
    components sep l
      = l.takeWhile (· ≠ sep) :: components sep (l.dropWhile (· ≠ sep)).tail := by
  have hfirst := (takeWhile_component hne hhead).components
  have hsplit := List.takeWhile_append_dropWhile (p := (· ≠ sep)) (l := l)
  cases hrest : l.dropWhile (· ≠ sep) with
  | nil =>
      rw [hrest, List.append_nil] at hsplit
      rw [List.tail_nil, components_nil, ← hfirst, hsplit]
  | cons x rest =>
      have hx : x = sep := by
        have := List.head?_dropWhile_not (· ≠ sep) l
        rw [hrest] at this
        simpa using this
      rw [hrest, hx] at hsplit
      rw [List.tail_cons, ← List.singleton_append, ← hfirst, ← components_append, hsplit]

theorem component_of_mem {c : List α} (h : c ∈ components sep l) : Component sep c := by
  induction hn : l.length using Nat.strongRecOn generalizing l with
  | ind n ih =>
      rw [← components_dropWhile] at h
      have hhead := List.head?_dropWhile_not (· = sep) l
      have hle : (l.dropWhile (· = sep)).length ≤ l.length := (List.dropWhile_sublist _).length_le
      generalize l.dropWhile (· = sep) = l' at h hhead hle
      by_cases hne : l' = []
      · rw [hne, components_nil] at h
        exact absurd h List.not_mem_nil
      have hhead' : l'.head? ≠ some sep := by
        intro heq
        rw [heq] at hhead
        simp at hhead
      rw [components_cons hne hhead'] at h
      rcases List.mem_cons.mp h with rfl | h
      · exact takeWhile_component hne hhead'
      · have hpos : 0 < l'.length := List.length_pos_iff.mpr hne
        have hdrop := (List.dropWhile_sublist (· ≠ sep) (l := l')).length_le
        refine ih _ ?_ h rfl
        rw [List.length_tail]
        omega

/-- **Reading back** what has been written out. -/
theorem components_render {cs : List (List α)} (h : ∀ c ∈ cs, Component sep c) :
    components sep (render sep cs) = cs := by
  induction cs with
  | nil => exact components_nil
  | cons c cs ih =>
      obtain ⟨hc, hcs⟩ := List.forall_mem_cons.mp h
      rw [render, List.flatMap_cons, List.cons_append, components_sep_cons]
      cases cs with
      | nil =>
          rw [List.flatMap_nil, List.append_nil]
          exact hc.components
      | cons d cs =>
          have hrest := ih hcs
          rw [render, List.flatMap_cons, List.cons_append, components_sep_cons] at hrest
          rw [List.flatMap_cons, List.cons_append, components_append, hc.components, hrest]
          rfl

omit [DecidableEq α] in
theorem length_render (cs : List (List α)) :
    (render sep cs).length = (cs.map fun c => c.length + 1).sum := by
  rw [render, List.length_flatMap]
  rfl

theorem parts_render {c : List α} {cs : List (List α)} (h : ∀ d ∈ c :: cs, Component sep d) :
    parts sep (c ++ render sep cs) = c :: cs := by
  induction cs generalizing c with
  | nil =>
      rw [render, List.flatMap_nil, List.append_nil]
      exact List.splitOn_eq_singleton (h c List.mem_cons_self).noSep
  | cons d cs ih =>
      obtain ⟨hc, hcs⟩ := List.forall_mem_cons.mp h
      rw [parts, render, List.flatMap_cons, List.cons_append, List.splitOn_append_cons_self,
        List.splitOn_eq_singleton hc.noSep]
      exact congrArg (c :: ·) (ih hcs)

omit [DecidableEq α] in
/-- What is written out does not end in a separator. -/
theorem getLast?_render {cs : List (List α)} (h : ∀ c ∈ cs, Component sep c) :
    (render sep cs).getLast? ≠ some sep := by
  rcases List.eq_nil_or_concat cs with rfl | ⟨cs, c, rfl⟩
  · simp [render]
  · have hc := h c (by simp)
    rw [List.concat_eq_append, render, List.flatMap_append, List.flatMap_singleton,
      List.append_cons, List.getLast?_append_of_ne_nil _ hc.ne_nil]
    exact fun hlast => hc.noSep (List.mem_of_getLast? hlast)

end Split

/-! ## The stack -/

section Stack

variable {β : Type*} [DecidableEq β] {skip pop : β} {stack cs : List β} {c : β}

/-- One component: skipped, a pop, or pushed. -/
def settleStep (skip pop : β) (stack : List β) (c : β) : List β :=
  if c = skip then stack else if c = pop then stack.dropLast else stack ++ [c]

/-- The stack after the components of a word. -/
def settle (skip pop : β) (stack cs : List β) : List β := cs.foldl (settleStep skip pop) stack

/-- A component that is pushed. -/
def Plain (skip pop c : β) : Prop := c ≠ skip ∧ c ≠ pop

theorem settle_append (a b : List β) :
    settle skip pop stack (a ++ b) = settle skip pop (settle skip pop stack a) b :=
  List.foldl_append

theorem settleStep_mem (h : c ∈ settleStep skip pop stack b) :
    c ∈ stack ∨ Plain skip pop c ∧ c = b := by
  unfold settleStep at h
  split at h
  · exact Or.inl h
  · split at h
    · exact Or.inl (List.mem_of_mem_dropLast h)
    · rename_i hskip hpop
      rcases List.mem_append.mp h with h | h
      · exact Or.inl h
      · obtain rfl := List.mem_singleton.mp h
        exact Or.inr ⟨⟨hskip, hpop⟩, rfl⟩

theorem settleStep_eq_push (stack : List β) (c : β) :
    settleStep skip pop stack c = stack ++ [c] ↔ Plain skip pop c := by
  have hlen : ∀ l : List β, l.length ≤ stack.length → l ≠ stack ++ [c] := by
    intro l hl heq
    rw [heq, List.length_append, List.length_singleton] at hl
    omega
  unfold settleStep
  split
  · exact ⟨fun heq => absurd heq (hlen _ (Nat.le_refl _)), fun hp => absurd ‹c = skip› hp.1⟩
  · split
    · refine ⟨fun heq => absurd heq (hlen _ ?_), fun hp => absurd ‹c = pop› hp.2⟩
      rw [List.length_dropLast]
      exact Nat.sub_le _ _
    · exact ⟨fun _ => ⟨‹_›, ‹_›⟩, fun _ => rfl⟩

/-- What is on the stack was there before, or is one of the components, and no
special one. -/
theorem settle_mem {cs : List β} (h : c ∈ settle skip pop stack cs) :
    c ∈ stack ∨ Plain skip pop c ∧ c ∈ cs := by
  induction cs generalizing stack with
  | nil => exact Or.inl h
  | cons b cs ih =>
      rcases ih h with h | ⟨hp, h⟩
      · rcases settleStep_mem h with h | ⟨hp, rfl⟩
        · exact Or.inl h
        · exact Or.inr ⟨hp, List.mem_cons_self⟩
      · exact Or.inr ⟨hp, List.mem_cons_of_mem _ h⟩

/-- Components without the special ones are pushed in order. -/
theorem settle_plain (h : ∀ c ∈ cs, Plain skip pop c) :
    settle skip pop stack cs = stack ++ cs := by
  induction cs generalizing stack with
  | nil => exact (List.append_nil _).symm
  | cons b cs ih =>
      obtain ⟨hb, hcs⟩ := List.forall_mem_cons.mp h
      have hstep : settleStep skip pop stack b = stack ++ [b] := by
        rw [settleStep, if_neg hb.1, if_neg hb.2]
      show settle skip pop (settleStep skip pop stack b) cs = _
      rw [hstep, ih hcs, List.append_assoc, List.singleton_append]

/-- What lies at the bottom of the stack can be left out from the start only where
the stack is emptied on the way. -/
theorem settle_bottom {bottom top : List β} (hbottom : bottom ≠ []) :
    settle skip pop (bottom ++ top) cs = settle skip pop top cs
      ↔ ∃ front, front <+: cs ∧ settle skip pop (bottom ++ top) front = [] := by
  induction cs generalizing bottom top with
  | nil =>
      constructor
      · intro h
        exact absurd (List.append_left_eq_self.mp h) hbottom
      · rintro ⟨front, hfront, hempty⟩
        rw [List.prefix_nil.mp hfront] at hempty
        exact absurd (List.append_eq_nil_iff.mp hempty).1 hbottom
  | cons c cs ih =>
      have hfirst : (∃ front, front <+: c :: cs ∧ settle skip pop (bottom ++ top) front = [])
          ↔ ∃ front, front <+: cs
            ∧ settle skip pop (settleStep skip pop (bottom ++ top) c) front = [] := by
        constructor
        · rintro ⟨front, hprefix, hempty⟩
          cases front with
          | nil => exact absurd (List.append_eq_nil_iff.mp hempty).1 hbottom
          | cons x front =>
              obtain ⟨rfl, hfront⟩ := List.cons_prefix_cons.mp hprefix
              exact ⟨front, hfront, hempty⟩
        · rintro ⟨front, hfront, hempty⟩
          exact ⟨c :: front, List.cons_prefix_cons.mpr ⟨rfl, hfront⟩, hempty⟩
      rw [hfirst]
      show settle skip pop (settleStep skip pop (bottom ++ top) c) cs
        = settle skip pop (settleStep skip pop top c) cs ↔ _
      simp only [settleStep]
      by_cases hskip : c = skip
      · rw [if_pos hskip, if_pos hskip]
        exact ih hbottom
      by_cases hpop : c = pop
      · rw [if_neg hskip, if_neg hskip, if_pos hpop, if_pos hpop]
        by_cases htop : top = []
        · subst htop
          rw [List.append_nil, List.dropLast_nil]
          by_cases hlast : bottom.dropLast = []
          · rw [hlast]
            exact ⟨fun _ => ⟨[], List.nil_prefix, rfl⟩, fun _ => rfl⟩
          · rw [← List.append_nil bottom.dropLast]
            exact ih hlast
        · rw [List.dropLast_append_of_ne_nil htop]
          exact ih hbottom
      · rw [if_neg hskip, if_neg hskip, if_neg hpop, if_neg hpop, List.append_assoc]
        exact ih hbottom

/-- A word leads to the same stack from a stack and from the empty one exactly where
it empties the former on the way. -/
theorem settle_eq_settle_nil :
    settle skip pop stack cs = settle skip pop [] cs
      ↔ ∃ front, front <+: cs ∧ settle skip pop stack front = [] := by
  by_cases hstack : stack = []
  · exact ⟨fun _ => ⟨[], List.nil_prefix, hstack⟩, fun _ => by rw [hstack]⟩
  · have h : settle skip pop (stack ++ []) cs = settle skip pop [] cs
        ↔ ∃ front, front <+: cs ∧ settle skip pop (stack ++ []) front = [] :=
      settle_bottom hstack
    rwa [List.append_nil] at h

end Stack

end Components

end Shitos
