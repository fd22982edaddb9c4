/-!
# Clients of a service

A client makes a call, gets an answer, and goes on with what it makes of it. What
a service promises is a contract over abstract states: which calls may be made,
and which answers they may get (`Contract`). If each single call is answered that
way, then so are all calls of a client that keeps to the contract, whatever it makes
of the answers (`attended_of_step`).

A service may give up, on conditions of its own. Nothing is said of what it does
from then on.
-/

namespace Shitos

/-- A program that makes calls and goes on with the answers. -/
inductive Client (ι ο : Type) where
  | stop
  | call (i : ι) (next : ο → Client ι ο)

/-- Which calls may be made in an abstract state, and what may come of them. -/
structure Contract (α ι ο : Type) where
  legal : α → ι → Prop
  step : α → ι → ο → α → Prop

section Client

variable {α ι ο σ : Type} {K : Contract α ι ο} {R : α → σ → Prop}
  {exec : σ → ι → Option (ο × σ)} {lost : ι → σ → Option (ο × σ) → Prop}

/-- The client makes only legal calls, whatever is answered. -/
def Client.Legal (K : Contract α ι ο) : Client ι ο → α → Prop
  | .stop, _ => True
  | .call i next, a => K.legal a i ∧ ∀ o a', K.step a i o a' → (next o).Legal K a'

/-- All calls of the client are answered as the contract has it, until the client
stops, or the service is lost in one of them. The states stay related by `R`. -/
inductive Attended (K : Contract α ι ο) (R : α → σ → Prop) (exec : σ → ι → Option (ο × σ))
    (lost : ι → σ → Option (ο × σ) → Prop) : Client ι ο → α → σ → Prop
  | stop {a : α} {s : σ} (h : R a s) : Attended K R exec lost .stop a s
  | call {a a' : α} {s s' : σ} {i : ι} {o : ο} {next : ο → Client ι ο} (h : R a s)
      (hexec : exec s i = some (o, s')) (hstep : K.step a i o a')
      (hnext : Attended K R exec lost (next o) a' s') : Attended K R exec lost (.call i next) a s
  | lost {a : α} {s : σ} {i : ι} {next : ο → Client ι ο} (h : R a s)
      (hlost : lost i s (exec s i)) : Attended K R exec lost (.call i next) a s

/-- One call is answered as the contract has it. -/
def Answers (K : Contract α ι ο) (R : α → σ → Prop) (exec : σ → ι → Option (ο × σ))
    (lost : ι → σ → Option (ο × σ) → Prop) (a : α) (s : σ) (i : ι) : Prop :=
  lost i s (exec s i) ∨ ∃ o s' a', exec s i = some (o, s') ∧ K.step a i o a' ∧ R a' s'

/-- Attending to each call is attending to all clients. -/
theorem attended_of_step (hstep : ∀ a s i, R a s → K.legal a i → Answers K R exec lost a s i)
    (c : Client ι ο) : ∀ {a : α} {s : σ}, R a s → c.Legal K a → Attended K R exec lost c a s := by
  induction c with
  | stop => exact fun h _ => .stop h
  | call i next ih =>
      intro a s h hlegal
      obtain ⟨hi, hnext⟩ := hlegal
      obtain hlost | ⟨o, s', a', hexec, ha, h'⟩ := hstep a s i h hi
      · exact .lost h hlost
      · exact .call h hexec ha (ih o h' (hnext o a' ha))

/-- What each legal step keeps holds in all states of a run. -/
theorem Attended.invariant {J : α → Prop}
    (hJ : ∀ a i o a', J a → K.legal a i → K.step a i o a' → J a') {c : Client ι ο} {a : α} {s : σ}
    (h : Attended K R exec lost c a s) (hlegal : c.Legal K a) (ha : J a) :
    Attended K (fun a s => R a s ∧ J a) exec lost c a s := by
  induction h with
  | stop h => exact .stop ⟨h, ha⟩
  | call h hexec hstep _ ih =>
      exact .call ⟨h, ha⟩ hexec hstep (ih (hlegal.2 _ _ hstep) (hJ _ _ _ _ ha hlegal.1 hstep))
  | lost h hlost => exact .lost ⟨h, ha⟩ hlost

end Client

end Shitos
