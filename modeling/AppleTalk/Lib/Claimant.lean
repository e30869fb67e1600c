import Mathlib.Data.List.Chain
import Mathlib.Tactic.SplitIfs

/-!
# Asking before taking

A claimant asks a number of times, an interval apart, whether anybody minds its candidate, and
takes it once a whole interval has passed in silence after the last request. Whoever minds makes it
start over with another candidate. The rounds and the claims are built with the proofs of what they
waited for, so there is no claim that came too soon.
-/

/-- How often a claimant asks, and how far apart. -/
structure Claimant.Rules where
  tries : ℕ
  interval : ℕ

/-- The requests for one candidate: when they were sent, and from when on the next thing may
happen. -/
structure Claimant.Round (R : Claimant.Rules) where
  times : List ℕ
  due : ℕ
  apart : times.IsChain fun t t' => t + R.interval ≤ t'
  rested : ∀ t ∈ times.getLast?, t + R.interval ≤ due
  count : times.length ≤ R.tries

/-- Somebody who asks for a candidate, or has taken it after all its requests and a rest. -/
inductive Claimant (R : Claimant.Rules) (κ : Type*)
  | asking (k : κ) (r : Claimant.Round R)
  | holding (k : κ) (r : Claimant.Round R) (since : ℕ) (full : r.times.length = R.tries)
    (rest : r.due ≤ since)

namespace Claimant

variable {R : Rules} {κ : Type*}

namespace Round

/-- Nothing was asked yet. -/
def start (R : Rules) (now : ℕ) : Round R where
  times := []
  due := now
  apart := List.isChain_nil
  rested := by
    rintro t ⟨⟩
  count := Nat.zero_le _

/-- One more request. -/
def ask (r : Round R) (now : ℕ) (hdue : r.due ≤ now) (hleft : r.times.length < R.tries) :
    Round R where
  times := r.times ++ [now]
  due := now + R.interval
  apart := by
    refine List.isChain_append.2 ⟨r.apart, List.isChain_singleton now, ?_⟩
    intro t ht t' ht'
    obtain rfl : now = t' := by simpa using ht'
    exact (r.rested t ht).trans hdue
  rested := by
    intro t ht
    obtain rfl : now = t := by simpa using ht
    exact le_rfl
  count := by
    rw [List.length_append, List.length_singleton]
    exact hleft

end Round

/-- What the clock makes of a claimant, and the candidate it asks for, if it does. -/
def tick (c : Claimant R κ) (now : ℕ) : Claimant R κ × Option κ :=
  match c with
  | .asking k r =>
    if hdue : r.due ≤ now then
      if hleft : r.times.length < R.tries then (.asking k (r.ask now hdue hleft), some k)
      else (.holding k r now (le_antisymm r.count (not_lt.1 hleft)) hdue, none)
    else (.asking k r, none)
  | c => (c, none)

/-- Somebody minds: another candidate takes the place of the one asked for. -/
def refuse (c : Claimant R κ) (k : κ) (now : ℕ) : Claimant R κ :=
  match c with
  | .asking _ _ => .asking k (.start R now)
  | c => c

theorem tick_ask {k : κ} {r : Round R} {now : ℕ} (hdue : r.due ≤ now)
    (hleft : r.times.length < R.tries) :
    tick (.asking k r) now = (.asking k (r.ask now hdue hleft), some k) := by
  unfold tick
  dsimp only
  rw [dif_pos hdue, dif_pos hleft]

theorem tick_take {k : κ} {r : Round R} {now : ℕ} (hdue : r.due ≤ now)
    (hfull : r.times.length = R.tries) :
    tick (.asking k r) now = (.holding k r now hfull hdue, none) := by
  unfold tick
  dsimp only
  rw [dif_pos hdue, dif_neg hfull.not_lt]

end Claimant
