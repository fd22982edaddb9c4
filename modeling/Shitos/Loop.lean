import Shitos.Tiling

/-!
# Loops over records in a buffer

A loop that walks through records whose lengths it reads from the buffer may
fail to end, and may leave the buffer. `Turn` is what one turn of such a loop
does, `loop` runs a loop for a number of turns, and `Finishes` says that it ends
inside the buffer. A loop that only moves from piece to piece of a tiling
ends (`Finishes.along`).
-/

namespace Shitos

/-- One turn of a loop: go on, leave the loop, or touch memory outside the
buffer. -/
inductive Turn (σ ρ : Type*)
  | next (s : σ)
  | stop (r : ρ)
  | outside

/-- How a loop has ended after a number of turns. -/
inductive Ending (ρ : Type*)
  | done (r : ρ)
  | outside
  | running
deriving DecidableEq

section Walk

variable {σ ρ : Type*} {turn : σ → Turn σ ρ} {s s' : σ} {r : ρ}

/-- At most `n` turns of a loop. -/
def loop (turn : σ → Turn σ ρ) : Nat → σ → Ending ρ
  | 0, _ => .running
  | n + 1, s =>
      match turn s with
      | .next s => loop turn n s
      | .stop r => .done r
      | .outside => .outside

/-- The loop ends inside the buffer, with the result `r`. -/
def Finishes (turn : σ → Turn σ ρ) (s : σ) (r : ρ) : Prop := ∃ n, loop turn n s = .done r

theorem loop_next (h : turn s = .next s') (n : Nat) : loop turn (n + 1) s = loop turn n s' := by
  rw [loop, h]

theorem loop_stop (h : turn s = .stop r) (n : Nat) : loop turn (n + 1) s = .done r := by
  rw [loop, h]

theorem loop_outside (h : turn s = .outside) (n : Nat) : loop turn (n + 1) s = .outside := by
  rw [loop, h]

theorem Finishes.of_stop (h : turn s = .stop r) : Finishes turn s r := ⟨1, loop_stop h 0⟩

theorem Finishes.of_next (h : turn s = .next s') : Finishes turn s' r → Finishes turn s r := by
  rintro ⟨n, hn⟩
  exact ⟨n + 1, (loop_next h n).trans hn⟩

/-- What has been decided after `n` turns stays so. -/
theorem loop_add {n : Nat} (h : loop turn n s ≠ .running) (k : Nat) :
    loop turn (n + k) s = loop turn n s := by
  induction n generalizing s with
  | zero => exact absurd rfl h
  | succ n ih =>
      rw [Nat.succ_add]
      cases hturn : turn s with
      | next s' =>
          rw [loop_next hturn] at h ⊢
          rw [loop_next hturn]
          exact ih h
      | stop r => rw [loop_stop hturn, loop_stop hturn]
      | outside => rw [loop_outside hturn, loop_outside hturn]

/-- A loop that has left its buffer does not end inside it. -/
theorem not_finishes_of_outside {n : Nat} (h : loop turn n s = .outside) : ¬Finishes turn s r := by
  rintro ⟨k, hk⟩
  have h₁ := loop_add (show loop turn n s ≠ .running by rw [h]; exact fun h => nomatch h) k
  have h₂ := loop_add (show loop turn k s ≠ .running by rw [hk]; exact fun h => nomatch h) n
  rw [Nat.add_comm, h₂, hk, h] at h₁
  cases h₁

/-- A loop that moves along the pieces of a tiling, and stops behind them, ends. -/
theorem Finishes.along {P : Nat → σ → Prop} {len : Nat → Nat} {es : List Nat} {e : Nat}
    (hstep : ∀ g s, g ∈ es → P g s →
      (∃ r, turn s = .stop r) ∨ ∃ s', turn s = .next s' ∧ P (g + len g) s')
    (hend : ∀ s, P e s → ∃ r, turn s = .stop r) :
    ∀ (post : List Nat) (g : Nat) (s : σ), (∀ q ∈ post, q ∈ es) → Tiles id len g post e → P g s →
      ∃ r, Finishes turn s r := by
  intro post
  induction post with
  | nil =>
      intro g s _ htiles hs
      obtain rfl : g = e := htiles
      obtain ⟨r, hr⟩ := hend s hs
      exact ⟨r, Finishes.of_stop hr⟩
  | cons p post ih =>
      intro g s hsub htiles hs
      obtain ⟨rfl, -, htiles⟩ := htiles
      rcases hstep _ s (hsub p List.mem_cons_self) hs with ⟨r, hr⟩ | ⟨s', hs', hat⟩
      · exact ⟨r, Finishes.of_stop hr⟩
      · obtain ⟨r, hr⟩ := ih _ s' (fun q hq => hsub q (List.mem_cons_of_mem _ hq)) htiles hat
        exact ⟨r, Finishes.of_next hs' hr⟩

end Walk

/-- Pieces of length at least `k` are as many as fit. -/
theorem Tiles.length_le {α : Type*} {addr size : α → Nat} {k : Nat} {l : List α} :
    ∀ {a b : Nat}, Tiles addr size a l b → (∀ x ∈ l, k ≤ size x) → a + k * l.length ≤ b := by
  induction l with
  | nil => intro a b h _; exact Nat.le_of_eq h
  | cons x l ih =>
      intro a b h hk
      obtain ⟨-, -, htail⟩ := h
      have hx := hk x List.mem_cons_self
      have := ih htail fun y hy => hk y (List.mem_cons_of_mem _ hy)
      rw [List.length_cons, Nat.mul_succ]
      omega

end Shitos
