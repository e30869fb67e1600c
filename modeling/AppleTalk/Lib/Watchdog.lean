import Mathlib.Order.Lattice
import Mathlib.Data.List.Basic

/-!
# A watchdog that may be poked

A watchdog waits while what it watches has been silent for long enough, then probes it a fixed
number of times and gives it up. A poke is a probe that somebody else asks for: it starts the test
of a partner that is still trusted, and leaves a test that is going on as it is.
-/

namespace Watchdog

/-- How long a partner may be silent, how far probes are apart and how many go unanswered. -/
structure Limits where
  silence : ℕ
  retry : ℕ
  tries : ℕ
  tries_pos : 0 < tries

/-- A partner that was heard at some time, or that was sent some probes, the last one at some
time. -/
inductive State
  | trusted (heard : ℕ)
  | tested (tries last : ℕ)
  deriving DecidableEq, Repr

inductive Beat
  | tick
  | poke
  deriving DecidableEq, Repr

/-- What a tick leaves, and the probes it sends. -/
def tick (L : Limits) (now : ℕ) : State → Option State × ℕ
  | .trusted heard =>
    if L.silence < now - heard then (some (.tested 1 now), 1) else (some (.trusted heard), 0)
  | .tested tries last =>
    if L.retry ≤ now - last then
      if L.tries ≤ tries then (none, 0) else (some (.tested (tries + 1) now), 1)
    else (some (.tested tries last), 0)

def poke (now : ℕ) : State → State
  | .trusted _ => .tested 1 now
  | .tested tries last => .tested tries last

/-- The tick at which the partner is given up, counting from `k`, and how many probes the ticks
before it sent, counting from `n`. -/
def fate (L : Limits) : ℕ → ℕ → State → List (Beat × ℕ) → Option (ℕ × ℕ)
  | _, _, _, [] => none
  | k, n, s, (.tick, now) :: bs =>
    match tick L now s with
    | (none, _) => some (k, n)
    | (some s', m) => fate L (k + 1) (n + m) s' bs
  | k, n, s, (.poke, now) :: bs => fate L k n (poke now s) bs

/-- No poke finds a trusted partner. -/
def Undisturbed (L : Limits) : State → List (Beat × ℕ) → Prop
  | _, [] => True
  | s, (.tick, now) :: bs => ∀ s', (tick L now s).1 = some s' → Undisturbed L s' bs
  | s, (.poke, now) :: bs => (∀ heard, s ≠ .trusted heard) ∧ Undisturbed L (poke now s) bs

/-- The probes a partner has been sent. -/
def spent : State → ℕ
  | .trusted _ => 0
  | .tested tries _ => tries

def isTick (b : Beat × ℕ) : Bool := b.1 = .tick

/-- Ticks alone. -/
def ticks (ts : List ℕ) : List (Beat × ℕ) := ts.map fun now => (.tick, now)

variable {L : Limits} {s s' : State} {now k n m : ℕ} {bs cs : List (Beat × ℕ)}

/-! ### One tick -/

/-- What a tick can do: nothing, or send one probe, or give the partner up. -/
theorem tick_cases (L : Limits) (now : ℕ) (s : State) :
    tick L now s = (some s, 0) ∨
      (tick L now s = (some (.tested (spent s + 1) now), 1) ∧ spent s < L.tries) ∨
      tick L now s = (none, 0) ∧ L.tries ≤ spent s := by
  cases s with
  | trusted heard =>
    unfold tick
    dsimp only
    split_ifs
    · exact Or.inr (Or.inl ⟨rfl, L.tries_pos⟩)
    · exact Or.inl rfl
  | tested tries last =>
    unfold tick
    dsimp only
    split_ifs with h1 h2
    · exact Or.inr (Or.inr ⟨rfl, h2⟩)
    · exact Or.inr (Or.inl ⟨rfl, Nat.lt_of_not_le h2⟩)
    · exact Or.inl rfl

theorem tick_late {heard : ℕ} (h : L.silence < now - heard) :
    tick L now (.trusted heard) = (some (.tested 1 now), 1) := if_pos h

theorem tick_due {tries last : ℕ} (h : L.retry ≤ now - last) (ht : tries < L.tries) :
    tick L now (.tested tries last) = (some (.tested (tries + 1) now), 1) :=
  (if_pos h).trans (if_neg (Nat.not_le.2 ht))

theorem tick_over {tries last : ℕ} (h : L.retry ≤ now - last) (ht : L.tries ≤ tries) :
    tick L now (.tested tries last) = (none, 0) := (if_pos h).trans (if_pos ht)

theorem fate_tick (h : tick L now s = (some s', m)) :
    fate L k n s ((.tick, now) :: bs) = fate L (k + 1) (n + m) s' bs := by
  rw [fate, h]

theorem fate_dead (h : tick L now s = (none, m)) :
    fate L k n s ((.tick, now) :: bs) = some (k, n) := by
  rw [fate, h]

/-! ### Undisturbed runs -/

theorem poke_tested (h : ∀ heard, s ≠ .trusted heard) : poke now s = s := by
  cases s with
  | trusted heard => exact absurd rfl (h heard)
  | tested tries last => rfl

theorem undisturbed_ticks (s : State) (ts : List ℕ) : Undisturbed L s (ticks ts) := by
  induction ts generalizing s with
  | nil => trivial
  | cons now ts ih => exact fun s' _ => ih s'

theorem undisturbed_filter (s : State) (bs : List (Beat × ℕ)) :
    Undisturbed L s (bs.filter isTick) := by
  induction bs generalizing s with
  | nil => trivial
  | cons b bs ih =>
    obtain ⟨b, now⟩ := b
    cases b with
    | tick =>
      rw [List.filter_cons_of_pos rfl]
      exact fun s' _ => ih s'
    | poke =>
      rw [List.filter_cons_of_neg (by simp [isTick])]
      exact ih s

/-- Beats that do not disturb may be followed by ticks. -/
theorem undisturbed_append_ticks (ts : List ℕ) :
    Undisturbed L s (bs ++ ticks ts) ↔ Undisturbed L s bs := by
  induction bs generalizing s with
  | nil => simpa [Undisturbed] using undisturbed_ticks s ts
  | cons b bs ih =>
    obtain ⟨b, now⟩ := b
    cases b with
    | tick => exact forall₂_congr fun s' _ => ih
    | poke => exact and_congr_right fun _ => ih

/-- Pokes that find a test going on change nothing. -/
theorem fate_filter (h : Undisturbed L s bs) :
    fate L k n s bs = fate L k n s (bs.filter isTick) := by
  induction bs generalizing s k n with
  | nil => rfl
  | cons b bs ih =>
    obtain ⟨b, now⟩ := b
    cases b with
    | tick =>
      rw [List.filter_cons_of_pos rfl]
      cases ht : tick L now s with
      | mk o m =>
        cases o with
        | none => rw [fate_dead ht, fate_dead ht]
        | some s' =>
          rw [fate_tick ht, fate_tick ht]
          exact ih (h s' (by rw [ht]))
    | poke =>
      rw [List.filter_cons_of_neg (by simp [isTick]), fate, poke_tested h.1]
      have hrest := h.2
      rw [poke_tested h.1] at hrest
      exact ih hrest

/-! ### The probes before the end -/

/-- An undisturbed partner is given up after all the probes. -/
theorem Undisturbed.count (h : Undisturbed L s bs) {k' n' : ℕ}
    (hf : fate L k n s bs = some (k', n')) : n' = n + (L.tries - spent s) := by
  induction bs generalizing s k n with
  | nil => cases hf
  | cons b bs ih =>
    obtain ⟨b, now⟩ := b
    cases b with
    | tick =>
      rcases tick_cases L now s with ht | ⟨ht, hlt⟩ | ⟨ht, hle⟩
      · rw [fate_tick ht] at hf
        exact ih (h s (by rw [ht])) hf
      · rw [fate_tick ht] at hf
        have hn : n' = n + 1 + (L.tries - (spent s + 1)) := ih (h _ (by rw [ht])) hf
        omega
      · rw [fate_dead ht] at hf
        cases hf
        omega
    | poke =>
      rw [fate, poke_tested h.1] at hf
      have hrest := h.2
      rw [poke_tested h.1] at hrest
      exact ih hrest hf

/-- A partner that was poked while it was trusted is given up with one probe less. -/
theorem count_of_disturbed (h : ¬Undisturbed L s bs) {k' n' : ℕ}
    (hf : fate L k n s bs = some (k', n')) : spent s = 0 ∧ n' + 1 = n + L.tries := by
  induction bs generalizing s k n with
  | nil => cases hf
  | cons b bs ih =>
    obtain ⟨b, now⟩ := b
    cases b with
    | tick =>
      rcases tick_cases L now s with ht | ⟨ht, -⟩ | ⟨ht, -⟩
      · rw [fate_tick ht] at hf
        refine ih (fun hu => h fun s' hs' => ?_) hf
        rw [ht] at hs'
        exact Option.some.inj hs' ▸ hu
      · rw [fate_tick ht] at hf
        have hn := ih (fun hu => h fun s' hs' => ?_) hf
        · exact absurd hn.1 (by simp [spent])
        · rw [ht] at hs'
          exact Option.some.inj hs' ▸ hu
      · refine absurd (fun s' hs' => ?_) h
        rw [ht] at hs'
        cases hs'
    | poke =>
      cases s with
      | trusted heard =>
        -- The poke counts as the first probe, and the ticks send the others.
        refine ⟨rfl, ?_⟩
        rw [fate] at hf
        have hpos := L.tries_pos
        by_cases hu : Undisturbed L (.tested 1 now) bs
        · have hn := hu.count hf
          simp only [spent] at hn
          omega
        · exact absurd (ih hu hf).1 (by simp [spent])
      | tested tries last =>
        rw [fate] at hf
        exact ih (fun hu => h ⟨fun heard => by simp, hu⟩) hf

/-! ### Every partner is given up in the end -/

/-- The time at which the next probe is due. -/
def due (L : Limits) (last start : ℕ) : ℕ := max start (last + L.retry)

theorem retry_le_due (L : Limits) (last start : ℕ) : L.retry ≤ due L last start - last := by
  unfold due
  omega

/-- A test that goes on is over after as many ticks as probes are left and one more. -/
theorem exists_fate_tested (L : Limits) (left k n tries last start : ℕ)
    (hle : L.tries ≤ tries + left) :
    ∃ ts, List.IsChain (· ≤ ·) (start :: ts) ∧
      (fate L k n (.tested tries last) (ticks ts)).isSome := by
  have hover : ∀ k n tries last start, L.tries ≤ tries →
      ∃ ts, List.IsChain (· ≤ ·) (start :: ts) ∧
        (fate L k n (.tested tries last) (ticks ts)).isSome := by
    intro k n tries last start hend
    refine ⟨[due L last start], List.isChain_cons_cons.2 ⟨le_max_left _ _, by simp⟩, ?_⟩
    rw [ticks, List.map_singleton, fate_dead (tick_over (retry_le_due L last start) hend)]
    rfl
  induction left generalizing k n tries last start with
  | zero => exact hover k n tries last start hle
  | succ left ih =>
    by_cases hend : L.tries ≤ tries
    · exact hover k n tries last start hend
    · obtain ⟨ts, hts, hf⟩ :=
        ih (k + 1) (n + 1) (tries + 1) (due L last start) (due L last start) (by omega)
      refine ⟨due L last start :: ts, List.isChain_cons_cons.2 ⟨le_max_left _ _, hts⟩, ?_⟩
      rw [ticks, List.map_cons,
        fate_tick (tick_due (retry_le_due L last start) (Nat.lt_of_not_le hend))]
      exact hf

theorem exists_fate (L : Limits) (k n : ℕ) (s : State) (start : ℕ) :
    ∃ ts, List.IsChain (· ≤ ·) (start :: ts) ∧ (fate L k n s (ticks ts)).isSome := by
  cases s with
  | tested tries last => exact exists_fate_tested L L.tries k n tries last start (by omega)
  | trusted heard =>
    obtain ⟨ts, hts, hf⟩ := exists_fate_tested L L.tries (k + 1) (n + 1) 1
      (max start (heard + L.silence + 1)) (max start (heard + L.silence + 1)) (by omega)
    refine ⟨_ :: ts, List.isChain_cons_cons.2 ⟨le_max_left start (heard + L.silence + 1), hts⟩, ?_⟩
    rw [ticks, List.map_cons, fate_tick (tick_late (by omega))]
    exact hf

/-- Whatever came before, ticks bring the end. -/
theorem exists_fate_append (L : Limits) (k n : ℕ) (s : State) (bs : List (Beat × ℕ)) (start : ℕ) :
    ∃ ts, List.IsChain (· ≤ ·) (start :: ts) ∧ (fate L k n s (bs ++ ticks ts)).isSome := by
  induction bs generalizing s k n with
  | nil => exact exists_fate L k n s start
  | cons b bs ih =>
    obtain ⟨b, now⟩ := b
    cases b with
    | tick =>
      cases ht : tick L now s with
      | mk o m =>
        cases o with
        | none => exact ⟨[], by simp, by rw [List.cons_append, fate_dead ht]; rfl⟩
        | some s' =>
          obtain ⟨ts, hts, hf⟩ := ih (k + 1) (n + m) s'
          exact ⟨ts, hts, by rw [List.cons_append, fate_tick ht]; exact hf⟩
    | poke => exact ih k n (poke now s)

/-- **When pokes are neutral.** Taking the pokes out of a run changes neither the tick at which the
partner is given up nor the probes sent before it, however the run goes on, just in case no poke
finds a trusted partner. -/
theorem neutral_iff (L : Limits) (k n : ℕ) (s : State) (bs : List (Beat × ℕ)) (start : ℕ) :
    (∀ ts, List.IsChain (· ≤ ·) (start :: ts) →
        fate L k n s (bs ++ ticks ts) = fate L k n s (bs.filter isTick ++ ticks ts)) ↔
      Undisturbed L s bs := by
  have hfilter : ∀ ts, bs.filter isTick ++ ticks ts = (bs ++ ticks ts).filter isTick := by
    intro ts
    have hts : (ticks ts).filter isTick = ticks ts := by
      refine List.filter_eq_self.2 fun b hb => ?_
      obtain ⟨now, -, rfl⟩ := List.mem_map.1 hb
      rfl
    rw [List.filter_append, hts]
  constructor
  · intro h
    by_contra hu
    obtain ⟨ts, hts, hf⟩ := exists_fate_append L k n s bs start
    obtain ⟨⟨k', n'⟩, hf⟩ := Option.isSome_iff_exists.1 hf
    have hsame := h ts hts
    rw [hf, hfilter] at hsame
    have hdisturbed : ¬Undisturbed L s (bs ++ ticks ts) := fun h' =>
      hu ((undisturbed_append_ticks ts).1 h')
    obtain ⟨h0, hless⟩ := count_of_disturbed hdisturbed hf
    have hall := (undisturbed_filter s (bs ++ ticks ts)).count hsame.symm
    have hpos := L.tries_pos
    omega
  · intro hu ts _
    rw [hfilter]
    exact fate_filter ((undisturbed_append_ticks ts).2 hu)

end Watchdog
