import Mathlib.Data.List.Nodup

/-!
# Chains of pointers

`Links f xs e` says that the pointers `f` lead through the elements of `xs` in
order and from the last of them to `e`. A doubly linked list is two such
chains, one for each direction, over a list and over its reverse, so that one
lemma for each change of a chain serves both: an element is put in
(`Links.insert`), taken out (`Links.remove`), or a second chain is hung on
(`Links.join`). Each change stores a pointer at the last element before the
place, if there is one (`setOpt`).
-/

namespace Shitos

variable {α : Type} {f g : α → Option α} {xs ys zs : List α} {a b : α} {e : Option α}

def Links (f : α → Option α) : List α → Option α → Prop
  | [], _ => True
  | a :: xs, e => f a = xs.head?.or e ∧ Links f xs e

/-- The elements met when following `f` from `p`, for at most `n` steps. -/
def walk (f : α → Option α) : Nat → Option α → List α
  | 0, _ => []
  | _ + 1, none => []
  | n + 1, some a => a :: walk f n (f a)

/-- All elements met when following `f` from `p`, if `n` steps are enough. -/
def follow (f : α → Option α) : Nat → Option α → Option (List α)
  | _, none => some []
  | 0, some _ => none
  | n + 1, some a => (follow f n (f a)).map (a :: ·)

theorem links_append : Links f (xs ++ ys) e ↔ Links f xs (ys.head?.or e) ∧ Links f ys e := by
  induction xs with
  | nil => exact (and_iff_right trivial).symm
  | cons a xs ih =>
      rw [List.cons_append, Links, Links, ih, List.head?_append, Option.or_assoc, and_assoc]

theorem Links.congr (h : Links f xs e) (hfg : ∀ a ∈ xs, g a = f a) : Links g xs e := by
  induction xs with
  | nil => trivial
  | cons a xs ih =>
      exact ⟨(hfg a List.mem_cons_self).trans h.1,
        ih h.2 fun b hb => hfg b (List.mem_cons_of_mem _ hb)⟩

/-- The pointer of an element in the middle. -/
theorem Links.apply (h : Links f (ys ++ a :: zs) e) : f a = zs.head?.or e :=
  (links_append.mp h).2.1

theorem Links.walk_eq (h : Links f xs none) : ∀ {n : Nat}, xs.length ≤ n →
    walk f n xs.head? = xs := by
  induction xs with
  | nil =>
      intro n _
      cases n <;> rfl
  | cons a xs ih =>
      intro n hn
      obtain ⟨n, rfl⟩ := Nat.exists_eq_succ_of_ne_zero (Nat.ne_of_gt (Nat.zero_lt_of_lt hn))
      rw [List.head?_cons, walk, h.1, Option.or_none, ih h.2 (Nat.le_of_succ_le_succ hn)]

theorem Links.follow_eq (h : Links f xs none) : ∀ {n : Nat}, xs.length ≤ n →
    follow f n xs.head? = some xs := by
  induction xs with
  | nil =>
      intro n _
      cases n <;> rfl
  | cons a xs ih =>
      intro n hn
      obtain ⟨n, rfl⟩ := Nat.exists_eq_succ_of_ne_zero (Nat.ne_of_gt (Nat.zero_lt_of_lt hn))
      rw [List.head?_cons, follow, h.1, Option.or_none, ih h.2 (Nat.le_of_succ_le_succ hn),
        Option.map_some]

/-! ## Storing a pointer -/

section SetOpt

variable [DecidableEq α] {p q : Option α} {v w : Option α} {x : α}

/-- The store of `v` at `p`, if `p` is not NULL. -/
def setOpt (f : α → Option α) (p v : Option α) : α → Option α :=
  fun x => if some x = p then v else f x

@[simp] theorem setOpt_none : setOpt f none v = f := by
  funext x
  exact if_neg nofun

@[simp] theorem setOpt_self : setOpt f (some x) v x = v := if_pos rfl

theorem setOpt_of_ne (h : some x ≠ p) : setOpt f p v x = f x := if_neg h

theorem setOpt_comm (h : p ≠ q) :
    setOpt (setOpt f p v) q w = setOpt (setOpt f q w) p v := by
  funext x
  by_cases hq : some x = q
  · rw [setOpt, if_pos hq, setOpt_of_ne (hq ▸ h.symm), setOpt, if_pos hq]
  · rw [setOpt_of_ne hq]
    by_cases hp : some x = p
    · rw [setOpt, if_pos hp, setOpt, if_pos hp]
    · rw [setOpt_of_ne hp, setOpt_of_ne hp, setOpt_of_ne hq]

theorem setOpt_eq_self (h : ∀ x, some x = p → f x = v) : setOpt f p v = f := by
  funext x
  by_cases hp : some x = p
  · rw [setOpt, if_pos hp, h x hp]
  · exact setOpt_of_ne hp

/-- A store outside a chain. -/
theorem Links.setOpt_of_notMem (h : Links f xs e) (hp : ∀ a ∈ xs, some a ≠ p) :
    Links (setOpt f p v) xs e :=
  h.congr fun a ha => setOpt_of_ne (hp a ha)

/-- The last element of a chain is made to point elsewhere. -/
theorem Links.relinkLast (h : Links f xs e) (hnodup : xs.Nodup) (v : Option α) :
    Links (setOpt f xs.getLast? v) xs v := by
  rcases List.eq_nil_or_concat xs with rfl | ⟨ys, b, rfl⟩
  · trivial
  · rw [List.concat_eq_append] at h hnodup ⊢
    rw [List.getLast?_concat, links_append]
    refine ⟨((links_append.mp h).1).setOpt_of_notMem fun a ha hab => ?_, ?_, trivial⟩
    · obtain rfl := Option.some.inj hab
      exact List.disjoint_of_nodup_append hnodup ha List.mem_cons_self
    · rw [setOpt_self]
      rfl

/-- Two chains in one, the second at the end of the first. -/
theorem Links.join {e' : Option α} (hys : Links f ys e') (hzs : Links f zs e)
    (hnodup : (ys ++ zs).Nodup) :
    Links (setOpt f ys.getLast? (zs.head?.or e)) (ys ++ zs) e := by
  refine links_append.mpr ⟨hys.relinkLast (List.Nodup.of_append_left hnodup) _, ?_⟩
  refine hzs.setOpt_of_notMem fun a ha hlast => ?_
  exact List.disjoint_of_nodup_append hnodup (List.mem_of_getLast? hlast.symm) ha

/-- An element is put between `ys` and `zs`. -/
theorem Links.insert (h : Links f (ys ++ zs) e) (hnodup : (ys ++ zs).Nodup) (ha : a ∉ ys ++ zs) :
    Links (setOpt (setOpt f (some a) (zs.head?.or e)) ys.getLast? (some a)) (ys ++ a :: zs) e := by
  obtain ⟨hys, hzs⟩ := links_append.mp h
  have hnew : ∀ b ∈ ys ++ zs, some b ≠ some a := by
    rintro b hb hba
    exact ha (Option.some.inj hba ▸ hb)
  have hys' : Links (setOpt f (some a) (zs.head?.or e)) ys (zs.head?.or e) :=
    hys.setOpt_of_notMem fun b hb => hnew b (List.mem_append_left _ hb)
  have hzs' : Links (setOpt f (some a) (zs.head?.or e)) (a :: zs) e :=
    ⟨setOpt_self, hzs.setOpt_of_notMem fun b hb => hnew b (List.mem_append_right _ hb)⟩
  refine hys'.join hzs' ?_
  exact List.nodup_middle.mpr (List.nodup_cons.mpr ⟨ha, hnodup⟩)

/-- The element between `ys` and `zs` is taken out. -/
theorem Links.remove (h : Links f (ys ++ a :: zs) e) (hnodup : (ys ++ a :: zs).Nodup)
    (v : Option α) :
    Links (setOpt (setOpt f ys.getLast? (zs.head?.or e)) (some a) v) (ys ++ zs) e := by
  obtain ⟨hys, -, hzs⟩ := links_append.mp h
  obtain ⟨ha, hnodup'⟩ := List.nodup_cons.mp (List.nodup_middle.mp hnodup)
  refine (hys.join hzs hnodup').setOpt_of_notMem fun b hb hba => ?_
  exact ha (Option.some.inj hba ▸ hb)

end SetOpt

end Shitos
