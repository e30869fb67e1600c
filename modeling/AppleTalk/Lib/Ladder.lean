import AppleTalk.Lib.Watchdog
import Mathlib.Order.Nat

/-!
# Soft state

What nobody confirms climbs a ladder: it may stay on a rung for so long, a tick that finds it there
any longer moves it to the next, and from the last rung a tick takes it away. However far ticks are
apart, they put a bound on the whole climb.
-/

/-- How long a rung may be held, and which rung is the last. -/
structure Ladder where
  hold : ℕ → ℕ
  top : ℕ
  hold_pos : ∀ rung, 0 < hold rung

namespace Ladder

/-- On a rung since some time. -/
structure State where
  rung : ℕ
  since : ℕ
  deriving DecidableEq, Repr

variable (L : Ladder)

/-- What a tick leaves. -/
def tick (now : ℕ) (s : State) : Option State :=
  if now - s.since < L.hold s.rung then some s
  else if s.rung < L.top then some ⟨s.rung + 1, now⟩
  else none

/-- By when a rung is reached that nothing was above at the start, with ticks at most a gap
apart. -/
def reach (gap start : ℕ) : ℕ → ℕ
  | 0 => start
  | rung + 1 => reach gap start rung + L.hold rung + gap

/-- When the climb is over. -/
def ends (gap start : ℕ) : ℕ := L.reach gap start L.top + L.hold L.top

/-- Nothing has confirmed the state since the start, and the last tick has found it so. -/
structure Climbing (gap start last : ℕ) (s : State) : Prop where
  rung : s.rung ≤ L.top
  since : s.since ≤ L.reach gap start s.rung
  last : last < L.reach gap start s.rung + L.hold s.rung

variable {L} {gap start last now : ℕ} {s s' : State}

theorem reach_succ (L : Ladder) (gap start rung : ℕ) :
    L.reach gap start (rung + 1) = L.reach gap start rung + L.hold rung + gap := rfl

theorem start_le_reach (L : Ladder) (gap start rung : ℕ) : start ≤ L.reach gap start rung := by
  induction rung with
  | zero => exact le_rfl
  | succ rung ih =>
    rw [reach_succ]
    omega

theorem reach_mono (L : Ladder) (gap start : ℕ) {i j : ℕ} (h : i ≤ j) :
    L.reach gap start i + L.hold i ≤ L.reach gap start j + L.hold j := by
  induction h with
  | refl => exact le_rfl
  | step _ ih =>
    rename_i j _
    have hpos := L.hold_pos (j + 1)
    rw [reach_succ]
    omega

/-- What was on its rung by the start climbs from then on. -/
theorem climbing_of_le (hrung : s.rung ≤ L.top) (h : s.since ≤ start) :
    L.Climbing gap start start s where
  rung := hrung
  since := h.trans (start_le_reach ..)
  last := by
    have hle := start_le_reach L gap start s.rung
    have hpos := L.hold_pos s.rung
    omega

/-- Moving on to the next rung within a gap is climbing, by a tick or between two. -/
theorem Climbing.next (h : L.Climbing gap start last s) (hgap : now ≤ last + gap)
    (htop : s.rung < L.top) {last' : ℕ} (hlast' : last' = last ∨ last' = now) :
    L.Climbing gap start last' ⟨s.rung + 1, now⟩ := by
  have hlast := h.last
  have hpos := L.hold_pos (s.rung + 1)
  refine ⟨htop, ?_, ?_⟩
  · show now ≤ L.reach gap start (s.rung + 1)
    rw [reach_succ]
    omega
  · show last' < L.reach gap start (s.rung + 1) + L.hold (s.rung + 1)
    rw [reach_succ]
    rcases hlast' with rfl | rfl <;> omega

/-- **One tick** keeps the climb. -/
theorem Climbing.tick (h : L.Climbing gap start last s) (hgap : now ≤ last + gap)
    (ht : L.tick now s = some s') : L.Climbing gap start now s' := by
  have hsince := h.since
  unfold Ladder.tick at ht
  split_ifs at ht with hfresh htop
  · obtain rfl := Option.some.inj ht
    exact ⟨h.rung, hsince, by omega⟩
  · obtain rfl := Option.some.inj ht
    exact h.next hgap htop (Or.inr rfl)

/-- **The climb has an end.** -/
theorem Climbing.lt_ends (h : L.Climbing gap start last s) : last < L.ends gap start :=
  h.last.trans_le (reach_mono L gap start h.rung)

end Ladder

/-! ### A watchdog on its ladder -/

namespace Watchdog

/-- A partner is trusted for as long as it may be silent, and then there is a rung for each
probe. -/
def Limits.ladder (L : Limits) (hretry : 0 < L.retry) : Ladder where
  hold rung := if rung = 0 then L.silence + 1 else L.retry
  top := L.tries
  hold_pos rung := by
    split_ifs
    · exact Nat.succ_pos _
    · exact hretry

/-- The rung of a partner. -/
def State.rung : State → Ladder.State
  | .trusted heard => ⟨0, heard⟩
  | .tested tries last => ⟨tries, last⟩

/-- A test that has begun has sent a probe. -/
def State.Begun : State → Prop
  | .trusted _ => True
  | .tested tries _ => 0 < tries

variable {L : Limits} {hretry : 0 < L.retry} {s s' : State} {gap start last now : ℕ}

/-- A tick of the watchdog is a tick of the ladder. -/
theorem tick_rung (hs : s.Begun) :
    (tick L now s).1.map State.rung = (L.ladder hretry).tick now s.rung := by
  unfold Ladder.tick tick
  cases s with
  | trusted heard =>
    show _ = if now - heard < L.silence + 1 then some (Ladder.State.mk 0 heard) else
      if 0 < L.tries then some (Ladder.State.mk 1 now) else none
    rw [if_pos L.tries_pos]
    dsimp only
    split_ifs with hlate hfresh hfresh
    · omega
    · rfl
    · rfl
    · omega
  | tested tries last =>
    have hhold : (L.ladder hretry).hold tries = L.retry := if_neg (Nat.pos_iff_ne_zero.1 hs)
    show _ = if now - last < (L.ladder hretry).hold tries then some (Ladder.State.mk tries last)
      else if tries < L.tries then some (Ladder.State.mk (tries + 1) now) else none
    rw [hhold]
    dsimp only
    split_ifs <;> first | rfl | omega

theorem State.Begun.tick (hs : s.Begun) (ht : (Watchdog.tick L now s).1 = some s') : s'.Begun := by
  rcases tick_cases L now s with h | ⟨h, -⟩ | ⟨h, -⟩ <;> rw [h] at ht <;> cases ht
  · exact hs
  · exact Nat.succ_pos _

theorem State.Begun.poke (hs : s.Begun) : (poke now s).Begun := by
  cases s with
  | trusted heard => exact Nat.one_pos
  | tested tries last => exact hs

/-- A poke within a gap keeps the climb. -/
theorem climbing_poke (h : (L.ladder hretry).Climbing gap start last s.rung)
    (hgap : now ≤ last + gap) : (L.ladder hretry).Climbing gap start last (poke now s).rung := by
  cases s with
  | trusted heard => exact h.next hgap L.tries_pos (Or.inl rfl)
  | tested tries last => exact h

theorem reach_ladder (L : Limits) (hretry : 0 < L.retry) (gap start k : ℕ) :
    (L.ladder hretry).reach gap start (k + 1) =
      start + L.silence + 1 + gap + k * (L.retry + gap) := by
  induction k with
  | zero =>
    show start + (L.silence + 1) + gap = _
    omega
  | succ k ih =>
    rw [Ladder.reach_succ, ih, show (L.ladder hretry).hold (k + 1) = L.retry from rfl, Nat.succ_mul]
    omega

/-- A silent partner is given up after its silence and a retry and a gap for each probe. -/
theorem ends_ladder (L : Limits) (hretry : 0 < L.retry) (gap start : ℕ) :
    (L.ladder hretry).ends gap start = start + L.silence + 1 + L.tries * (L.retry + gap) := by
  obtain ⟨k, hk⟩ := Nat.exists_eq_succ_of_ne_zero (Nat.pos_iff_ne_zero.1 L.tries_pos)
  show (L.ladder hretry).reach gap start L.tries + (L.ladder hretry).hold L.tries = _
  rw [hk, reach_ladder, show (L.ladder hretry).hold (k + 1) = L.retry from rfl, Nat.succ_mul]
  omega

end Watchdog
