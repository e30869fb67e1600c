import AppleTalk.Lib.Claimant
import Mathlib.Data.Set.Insert
import Mathlib.Logic.Function.Basic
import Mathlib.Logic.Relation

/-!
# Claimants among each other

Several claimants share a medium. Who asks for a key asks everybody; who is asking for the same key
gives way when it hears that, and who holds the key says so. Letters take their time, but none more
than `delay`. If a whole round of requests takes longer than a letter there and one back, no two
claimants ever hold the same key, in whatever order things happen.
-/

namespace Claimant

variable {R : Rules} {κ : Type*}

/-- Times an interval apart, and an interval of rest. -/
theorem le_due {interval due t : ℕ} {ts : List ℕ}
    (hchain : (t :: ts).IsChain fun t t' => t + interval ≤ t')
    (hlast : ∀ u ∈ (t :: ts).getLast?, u + interval ≤ due) :
    t + (t :: ts).length * interval ≤ due := by
  induction ts generalizing t with
  | nil => simpa using hlast t rfl
  | cons u ts ih =>
    obtain ⟨hstep, hchain⟩ := List.isChain_cons_cons.1 hchain
    have hrest := ih hchain fun v hv => hlast v (by simpa using hv)
    rw [List.length_cons, Nat.succ_mul]
    omega

/-- A round that began at some time is not over before it has had all its intervals. -/
theorem Round.le_due (r : Round R) {t : ℕ} (h : r.times.head? = some t) :
    t + r.times.length * R.interval ≤ r.due := by
  have hapart := r.apart
  have hrested := r.rested
  cases hts : r.times with
  | nil => simp [hts] at h
  | cons u ts =>
    rw [hts] at h hapart hrested
    obtain rfl := Option.some.inj h
    exact Claimant.le_due hapart hrested

/-- The claimant has asked for the key from then on, and perhaps taken it. -/
def Announced (k : κ) (t : ℕ) : Claimant R κ → Prop
  | .asking k' r => k' = k ∧ r.times.head? = some t
  | .holding k' r _ _ _ => k' = k ∧ r.times.head? = some t

def Holds (k : κ) : Claimant R κ → Prop
  | .asking _ _ => False
  | .holding k' _ _ _ _ => k' = k

/-- The claimant does not hold a key from a time still to come. -/
def Began (now : ℕ) : Claimant R κ → Prop
  | .asking _ _ => True
  | .holding _ _ since _ _ => since ≤ now

/-- Who holds a key was heard to ask for it for a whole round. -/
theorem Holds.since {c : Claimant R κ} {k : κ} {t now : ℕ} (h : c.Holds k)
    (ht : c.Announced k t) (hnow : c.Began now) : t + R.tries * R.interval ≤ now := by
  cases c with
  | asking => exact h.elim
  | holding k' r since full rest =>
    calc t + R.tries * R.interval = t + r.times.length * R.interval := by rw [full]
      _ ≤ r.due := r.le_due ht.2
      _ ≤ since := rest
      _ ≤ now := hnow

theorem Holds.announced {c : Claimant R κ} {k : κ} (h : c.Holds k) (htries : 0 < R.tries) :
    ∃ t, c.Announced k t := by
  cases c with
  | asking => exact h.elim
  | holding k' r since full rest =>
    have hne : r.times ≠ [] := fun he => by
      rw [he] at full
      exact htries.ne full
    obtain ⟨t, ts, hts⟩ := List.exists_cons_of_ne_nil hne
    exact ⟨t, h, by rw [hts]; rfl⟩

end Claimant

namespace Contention

open Claimant

variable {R : Rules} {ι κ : Type*}

/-- A request for a key, or the word of who holds it. -/
structure Letter (ι κ : Type*) where
  source : ι
  dest : ι
  key : κ
  asks : Bool
  sent : ℕ

structure State (R : Rules) (ι κ : Type*) where
  who : ι → Claimant R κ
  mail : Set (Letter ι κ)
  now : ℕ

/-- A letter has had its effect: its reader does not ask for the key any more, or it holds the key
and has told the writer so. -/
def Answered (s : State R ι κ) (m : Letter ι κ) : Prop :=
  match s.who m.dest with
  | .asking k _ => k ≠ m.key
  | .holding k _ _ _ _ => k = m.key → m.asks →
      { source := m.dest, dest := m.source, key := m.key, asks := false, sent := s.now } ∈ s.mail

/-- Nobody has asked for anything yet. -/
structure Fresh (s : State R ι κ) : Prop where
  unasked : ∀ i, ∃ k r, s.who i = .asking k r ∧ r.times = []
  silent : s.mail = ∅

/-- The claim that `j` began at `t` runs into `i`: either its request is on the way to `i`, or the
word of `i`, who holds the key, is on the way back. -/
def Doomed (delay : ℕ) (s : State R ι κ) (i j : ι) (k : κ) (t : ℕ) : Prop :=
  { source := j, dest := i, key := k, asks := true, sent := t } ∈ s.mail ∨
    (s.who i).Holds k ∧ ∃ t' ≤ t + delay,
      { source := i, dest := j, key := k, asks := false, sent := t' } ∈ s.mail

/-- Of any two who want one key, the claim of one runs into the other. -/
structure Inv (delay : ℕ) (s : State R ι κ) : Prop where
  timely : ∀ m ∈ s.mail, s.now ≤ m.sent + delay
  began : ∀ i, (s.who i).Began s.now
  doomed : ∀ i j, i ≠ j → ∀ k t u, (s.who i).Announced k t → (s.who j).Announced k u →
    Doomed delay s i j k u ∨ Doomed delay s j i k t

variable {delay : ℕ} {s s' : State R ι κ} {i j : ι} {k : κ} {t : ℕ}

/-- A claim that runs into another is not a round old. -/
theorem Doomed.recent (hinv : ∀ m ∈ s.mail, s.now ≤ m.sent + delay)
    (h : Doomed delay s i j k t) : s.now ≤ t + 2 * delay := by
  rcases h with hm | ⟨-, t', ht', hm⟩
  · have hle := hinv _ hm
    dsimp only at hle
    omega
  · have hle := hinv _ hm
    dsimp only at hle
    omega

/-- **One holder each.** -/
theorem Inv.unique (h : Inv delay s) (hdelay : 2 * delay < R.tries * R.interval) (hij : i ≠ j)
    (hi : (s.who i).Holds k) : ¬(s.who j).Holds k := by
  intro hj
  have htries : 0 < R.tries := Nat.pos_of_ne_zero fun h0 => by simp [h0] at hdelay
  obtain ⟨t, ht⟩ := hi.announced htries
  obtain ⟨u, hu⟩ := hj.announced htries
  have hti := hi.since ht (h.began i)
  have huj := hj.since hu (h.began j)
  rcases h.doomed i j hij k t u ht hu with hd | hd
  · have := hd.recent h.timely
    omega
  · have := hd.recent h.timely
    omega

theorem Fresh.inv (h : Fresh s) : Inv delay s where
  timely m hm := by simp [h.silent] at hm
  began i := by
    obtain ⟨k, r, hi, -⟩ := h.unasked i
    rw [hi]
    trivial
  doomed i j _ k t u ht := by
    obtain ⟨k', r, hi, hr⟩ := h.unasked i
    rw [hi] at ht
    cases (congrArg List.head? hr).symm.trans ht.2

theorem Doomed.mono (h : Doomed delay s i j k t) (hmail : s.mail ⊆ s'.mail)
    (hi : (s.who i).Holds k → (s'.who i).Holds k) : Doomed delay s' i j k t := by
  rcases h with hm | ⟨hh, t', ht', hm⟩
  · exact Or.inl (hmail hm)
  · exact Or.inr ⟨hi hh, t', ht', hmail hm⟩

/-- **A letter that arrives** has had its effect on the claim that runs into its reader. -/
theorem Inv.arrive (h : Inv delay s) (hdelay : 2 * delay < R.tries * R.interval)
    {L : Set (Letter ι κ)} (hL : ∀ m ∈ L, Answered { s with mail := s.mail \ L } m) :
    Inv delay { s with mail := s.mail \ L } := by
  have hpair : ∀ {a b k t u}, (s.who a).Announced k t → (s.who b).Announced k u →
      Doomed delay s a b k u → Doomed delay { s with mail := s.mail \ L } a b k u := by
    intro a b k t u ha hb hd
    rcases hd with hmem | ⟨hh, t', ht', hmem⟩
    · by_cases he : { source := b, dest := a, key := k, asks := true, sent := u } ∈ L
      · -- The request has reached `a`, who holds the key then and says so.
        have hm := hL _ he
        have hsent := h.timely _ hmem
        unfold Answered at hm
        dsimp only at hm hsent
        cases hwho : s.who a with
        | asking k' r =>
          rw [hwho] at hm ha
          exact absurd ha.1 hm
        | holding k' r since full rest =>
          rw [hwho] at hm ha
          refine Or.inr ⟨?_, s.now, hsent, hm ha.1 rfl⟩
          show (s.who a).Holds k
          rw [hwho]
          exact ha.1
      · exact Or.inl ⟨hmem, he⟩
    · by_cases he : { source := a, dest := b, key := k, asks := false, sent := t' } ∈ L
      · -- The holder's word has reached `b`, who gives way: it is too early for it to hold the key.
        exfalso
        have hm := hL _ he
        have hsent := h.timely _ hmem
        unfold Answered at hm
        dsimp only at hm hsent
        cases hwho : s.who b with
        | asking k' r =>
          rw [hwho] at hm hb
          exact hm hb.1
        | holding k' r since full rest =>
          have hholds : (s.who b).Holds k := by
            rw [hwho] at hb ⊢
            exact hb.1
          have hlate := hholds.since hb (h.began b)
          omega
      · exact Or.inr ⟨hh, t', ht', hmem, he⟩
  constructor
  · exact fun m' hm' => h.timely m' hm'.1
  · exact h.began
  · intro a b hab k t u ha hb
    exact (h.doomed a b hab k t u ha hb).imp (hpair ha hb) (hpair hb ha)

/-! ### Steps -/

variable [DecidableEq ι]

/-- What may happen. -/
inductive Step (delay : ℕ) : State R ι κ → State R ι κ → Prop
  /-- Time passes, though not beyond what a letter may take. -/
  | pass {s : State R ι κ} (t : ℕ) (hnow : s.now ≤ t) (hdue : ∀ m ∈ s.mail, t ≤ m.sent + delay) :
    Step delay s { s with now := t }
  /-- Letters are written. -/
  | post {s : State R ι κ} (L : Set (Letter ι κ)) (hL : ∀ m ∈ L, m.sent = s.now) :
    Step delay s { s with mail := s.mail ∪ L }
  /-- One asks everybody else. -/
  | ask {s : State R ι κ} (i : ι) {k : κ} {r : Round R} (hi : s.who i = .asking k r)
    (hdue : r.due ≤ s.now) (hleft : r.times.length < R.tries)
    (htold : ∀ j, j ≠ i →
      { source := i, dest := j, key := k, asks := true, sent := s.now } ∈ s.mail) :
    Step delay s { s with who := Function.update s.who i (.asking k (r.ask s.now hdue hleft)) }
  /-- One takes its key. -/
  | take {s : State R ι κ} (i : ι) {k : κ} {r : Round R} (hi : s.who i = .asking k r)
    (hdue : r.due ≤ s.now) (hfull : r.times.length = R.tries) :
    Step delay s { s with who := Function.update s.who i (.holding k r s.now hfull hdue) }
  /-- One gives way, for whatever reason. -/
  | yield {s : State R ι κ} (i : ι) (k : κ) {k' : κ} {r : Round R} (hi : s.who i = .asking k' r) :
    Step delay s { s with who := Function.update s.who i (.asking k (.start R s.now)) }
  /-- Letters arrive. -/
  | arrive {s : State R ι κ} (L : Set (Letter ι κ))
    (hL : ∀ m ∈ L, Answered { s with mail := s.mail \ L } m) :
    Step delay s { s with mail := s.mail \ L }

/-- One changes, and lets go of nothing: what it claims now it claimed before, or it has told
everybody. -/
theorem Inv.update (h : Inv delay s) {c : Claimant R κ} (hbegan : c.Began s.now)
    (hholds : ∀ k, (s.who i).Holds k → c.Holds k)
    (hclaims : ∀ k t, c.Announced k t → (s.who i).Announced k t ∨
      ∀ j, j ≠ i → { source := i, dest := j, key := k, asks := true, sent := t } ∈ s.mail) :
    Inv delay { s with who := Function.update s.who i c } := by
  have hkeeps : ∀ j k, (s.who j).Holds k → (Function.update s.who i c j).Holds k := by
    intro j k hj
    rcases eq_or_ne j i with rfl | hne
    · rw [Function.update_self]
      exact hholds k hj
    · rwa [Function.update_of_ne hne]
  have hmono : ∀ a b k t, Doomed delay s a b k t →
      Doomed delay { s with who := Function.update s.who i c } a b k t := fun a b k t hd =>
    hd.mono (Set.Subset.refl _) (hkeeps a k)
  constructor
  · exact h.timely
  · intro j
    dsimp only
    rcases eq_or_ne j i with rfl | hne
    · rwa [Function.update_self]
    · rw [Function.update_of_ne hne]
      exact h.began j
  · intro a b hab k t u ha hb
    dsimp only at ha hb
    have hpair : ∀ {a b t u}, a ≠ b → (s.who a).Announced k t → (s.who b).Announced k u →
        Doomed delay { s with who := Function.update s.who i c } a b k u ∨
          Doomed delay { s with who := Function.update s.who i c } b a k t := fun hab ha hb =>
      (h.doomed _ _ hab _ _ _ ha hb).imp (hmono _ _ _ _) (hmono _ _ _ _)
    rcases eq_or_ne a i with rfl | hai
    · rw [Function.update_self] at ha
      rw [Function.update_of_ne hab.symm] at hb
      rcases hclaims k t ha with ha | htold
      · exact hpair hab ha hb
      · exact Or.inr (Or.inl (htold b hab.symm))
    · rw [Function.update_of_ne hai] at ha
      rcases eq_or_ne b i with rfl | hbi
      · rw [Function.update_self] at hb
        rcases hclaims k u hb with hb | htold
        · exact hpair hab ha hb
        · exact Or.inl (Or.inl (htold a hab))
      · rw [Function.update_of_ne hbi] at hb
        exact hpair hab ha hb

/-- **One step.** -/
theorem Inv.step (h : Inv delay s) (hdelay : 2 * delay < R.tries * R.interval)
    (hs : Step delay s s') : Inv delay s' := by
  cases hs with
  | pass t hnow hdue =>
    refine ⟨hdue, fun i => ?_, h.doomed⟩
    have hbegan := h.began i
    cases hi : s.who i with
    | asking k r => trivial
    | holding k r since full rest =>
      rw [hi] at hbegan
      exact le_trans hbegan hnow
  | post L hL =>
    refine ⟨?_, h.began, fun a b hab k t u ha hb => ?_⟩
    · rintro m (hm | hm)
      · exact h.timely m hm
      · dsimp only
        rw [hL m hm]
        exact Nat.le_add_right _ _
    · exact (h.doomed a b hab k t u ha hb).imp (fun hd => hd.mono Set.subset_union_left id)
        (fun hd => hd.mono Set.subset_union_left id)
  | @ask i k r hi hdue hleft htold =>
    refine h.update trivial (fun k' hk' => ?_) ?_
    · rw [hi] at hk'
      exact hk'.elim
    · -- The claim is an old one, or it begins now and everybody is being told.
      rintro k' t ⟨rfl, ht⟩
      rw [hi]
      rcases hr : r.times with _ | ⟨u, us⟩
      · refine Or.inr ?_
        obtain rfl : s.now = t := by simpa [Round.ask, hr] using ht
        exact htold
      · exact Or.inl ⟨rfl, by simpa [Round.ask, hr] using ht⟩
  | @take i k r hi hdue hfull =>
    refine h.update (le_refl s.now) (fun k' hk' => ?_) fun k' t hk' => Or.inl ?_
    · rw [hi] at hk'
      exact hk'.elim
    · rw [hi]
      exact hk'
  | @yield i k k' r hi =>
    refine h.update trivial (fun k'' hk'' => ?_) fun k'' t hk'' => ?_
    · rw [hi] at hk''
      exact hk''.elim
    · cases hk''.2
  | arrive L hL => exact h.arrive hdelay hL

/-- **Whatever happens.** -/
theorem inv_of_reaches (hs : Fresh s) (hdelay : 2 * delay < R.tries * R.interval)
    (h : Relation.ReflTransGen (Step delay) s s') : Inv delay s' := by
  induction h with
  | refl => exact hs.inv
  | tail _ hstep ih => exact ih.step hdelay hstep

end Contention
