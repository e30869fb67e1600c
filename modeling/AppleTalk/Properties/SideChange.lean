import AppleTalk.Bridge.Outcome

/-!
# A side change needs proof of a move

A node the bridge believes on one link comes to be believed on the other only when its entry
aged out in between, or when the old link was asked and stayed silent for the whole window of
the question. The invariant behind it ties every move-check in flight to a doubted entry as old
as the question itself, so the two clocks never race.
-/

namespace AppleTalk

namespace Bridge

/-! ### Move-checks -/

/-- To the same link, the same question. -/
theorem Action.Asks.congr {x : Addr} {a : Action} {s t : Side} (h : a.Asks x s)
    (hst : s.sameAs t) : a.Asks x t := by
  cases s with
  | ether mac =>
    cases t with
    | ether mac' => cases a <;> exact h
    | «local» => cases hst
  | «local» =>
    cases t with
    | ether mac' => cases hst
    | «local» => exact h

namespace Slot

/-- A move-check in flight is about a doubted entry of the other side, as old as the question. -/
def Checked (s : Slot) : Prop :=
  ∀ q side, s.pending = some q → q.movedTo = some side →
    ∃ e, s.entry = some e ∧ e.doubted = true ∧ e.confirmed = q.asked ∧ e.side.sameAs side = false

theorem checked_of_none {s : Slot} (h : s.pending = none) : s.Checked := by
  intro q side hq
  rw [h] at hq
  cases hq

/-- A question that is no move-check needs nothing of the entry. -/
theorem checked_of_unmoved {s : Slot} (h : ∀ q, s.pending = some q → q.movedTo = none) :
    s.Checked := by
  intro q side hq hm
  rw [h q hq] at hm
  cases hm

theorem Checked.expired {s : Slot} (h : s.Checked) (now : Instant) : (s.expired now).Checked := by
  intro q side hq hm
  obtain ⟨hp, hdue, he⟩ := expired_pending hq
  obtain ⟨e, hent, hd, hc, hs⟩ := h q side hp hm
  refine ⟨e, ?_, hd, hc, hs⟩
  have hfresh : since now e.confirmed < ENTRY_TTL := by
    rw [hc]
    exact hdue.trans (by decide)
  rw [he]
  simp [fresh, hent, hfresh]

theorem Checked.sighted {s : Slot} (h : s.Checked) (side : Side) (now : Instant) :
    (s.sighted side now).Checked := by
  unfold Slot.sighted
  cases he : s.entry with
  | none =>
    intro q side' hq hm
    obtain ⟨e, hent, -⟩ := h q side' hq hm
    rw [he] at hent
    cases hent
  | some e =>
    dsimp only
    split_ifs with h1 h2 h3 h4
    · exact h
    · intro q side' hq hm
      obtain rfl := Option.some.inj hq
      obtain rfl := Option.some.inj hm
      exact ⟨_, rfl, rfl, rfl, by simpa using h1⟩
    · exact checked_of_none rfl
    · exact h
    · refine checked_of_unmoved fun q hq => ?_
      have hq : s.pending = some q := hq
      simpa [hq] using h3

theorem Checked.outcome {ours x : Addr} {i : In} {now : Instant} {s s' : Slot} {acts : List Action}
    (h : s.Checked) (ho : Outcome ours x i now s s' acts) : s'.Checked := by
  cases ho with
  | quiet | defended | cached => exact h
  | asked owed _ _ _ _ _ =>
    refine checked_of_unmoved fun q hq => ?_
    obtain rfl := Option.some.inj hq
    rfl
  | acked | proxied => exact checked_of_none rfl

end Slot

theorem Slot.Checked.recorded {b : Bridge} {n : UInt8} (h : (b.slot n).Checked) (i : In)
    (now : Instant) : ((b.recorded i now).slot n).Checked := by
  rw [slot_recorded]
  cases b.heard i n with
  | none => exact h.expired now
  | some side => exact (h.expired now).sighted side now

namespace Run

/-- Every move-check of every state of a run is about a doubted entry. -/
theorem checked (r : Run) (k : ℕ) (n : UInt8) : ((r.state k).slot n).Checked := by
  induction k with
  | zero => exact Slot.checked_of_none rfl
  | succ k ih => exact (ih.recorded _ _).outcome (step_outcome _ n _ _)

/-! ### What counts as proof -/

/-- The step hears from the node on the side: a Response, an acknowledgement or a datagram. -/
def Hears (r : Run) (n : UInt8) (side : Side) (k : ℕ) : Prop :=
  ∃ s, (r.state k).heard (r.input k) n = some s ∧ s.sameAs side

/-- The node's entry is dropped in the step: what it was confirmed by is a lifetime old. -/
def Expires (r : Run) (n : UInt8) (k : ℕ) : Prop :=
  ∃ e, (r.state k).nodes.get? n = some e ∧ ENTRY_TTL ≤ since (r.time k) e.confirmed

/-- Between two steps the node's entry expired, or a question was put to the old side and its
whole window passed without the node speaking there. -/
def MoveProven (r : Run) (n : UInt8) (old : Side) (speaks : ℕ → Prop) (i j : ℕ) : Prop :=
  (∃ k, i ≤ k ∧ k < j ∧ r.Expires n k) ∨
    ∃ k m, i ≤ k ∧ k < m ∧ m < j ∧ r.time k + QUERY_TIMEOUT ≤ r.time m ∧
      (∃ a ∈ r.sent k, a.Asks ⟨r.addr.net, n⟩ old) ∧ ∀ l, k < l → l < m → ¬speaks l

/-- The node is held on the side, and every move-check in flight was put to that side by a step
since which it has been silent there. -/
def Watched (r : Run) (n : UInt8) (side : Side) (i k : ℕ) : Prop :=
  (∃ e, (r.state k).nodes.get? n = some e ∧ e.side.sameAs side) ∧
    ∀ q s, (r.state k).pending.get? n = some q → q.movedTo = some s →
      ∃ l, i ≤ l ∧ l < k ∧ r.time l = q.asked ∧
        (∃ a ∈ r.sent l, a.Asks ⟨r.addr.net, n⟩ side) ∧
        ∀ l', l < l' → l' < k → ¬r.Hears n side l'

/-- **One step of a watched node**: its move is proven, or it stays watched. -/
theorem Watched.step {r : Run} {n : UInt8} {side : Side} {i k : ℕ} (h : r.Watched n side i k)
    (hik : i ≤ k) :
    r.MoveProven n side (r.Hears n side) i (k + 1) ∨ r.Watched n side i (k + 1) := by
  obtain ⟨⟨e, he, hside⟩, hcheck⟩ := h
  by_cases hexp : ENTRY_TTL ≤ since (r.time k) e.confirmed
  · exact Or.inl (Or.inl ⟨k, hik, Nat.lt_succ_self k, e, he, hexp⟩)
  rcases Slot.expired_entry (s := (r.state k).slot n) he (not_le.1 hexp) with hkept | hdue
  swap
  · -- the move-check ran out with the old side silent
    obtain ⟨q, s, hq, hm, hwait⟩ := hdue
    obtain ⟨l, hil, hlk, htime, hasks, hsilent⟩ := hcheck q s hq hm
    refine Or.inl (Or.inr ⟨l, k, hil, hlk, Nat.lt_succ_self k, ?_, hasks, hsilent⟩)
    rw [htime]
    exact not_lt.1 fun h => absurd hwait (not_le.2 (since_lt_query_iff.2 h))
  right
  have hrec := slot_recorded (r.state k) n (r.time k) (r.input k)
  have hout := step_outcome (r.state k) n (r.time k) (r.input k)
  -- what survives expiry of a move-check is the move-check itself
  have hold : ∀ q s, (((r.state k).slot n).expired (r.time k)).pending = some q →
      q.movedTo = some s → ¬r.Hears n side k → ∃ l, i ≤ l ∧ l < k + 1 ∧ r.time l = q.asked ∧
        (∃ a ∈ r.sent l, a.Asks ⟨r.addr.net, n⟩ side) ∧
        ∀ l', l < l' → l' < k + 1 → ¬r.Hears n side l' := by
    intro q s hq hm hquiet
    obtain ⟨l, hil, hlk, htime, hasks, hsilent⟩ := hcheck q s (Slot.expired_pending hq).1 hm
    refine ⟨l, hil, Nat.lt_succ_of_lt hlk, htime, hasks, fun l' hl hl' => ?_⟩
    rcases Nat.lt_succ_iff_lt_or_eq.1 hl' with hl' | rfl
    · exact hsilent l' hl hl'
    · exact hquiet
  unfold Watched
  change (∃ e, ((r.state (k + 1)).slot n).entry = some e ∧ _) ∧
    ∀ q s, ((r.state (k + 1)).slot n).pending = some q → _
  cases hheard : (r.state k).heard (r.input k) n with
  | none =>
    rw [hheard] at hrec
    dsimp only at hrec
    refine ⟨⟨e, by rw [← hkept, ← hrec]; exact hout.entry_eq, hside⟩, fun q s hq hm => ?_⟩
    refine hold q s (hrec ▸ hout.moved hq hm) hm ?_
    rintro ⟨t, ht, -⟩
    rw [hheard] at ht
    cases ht
  | some seen =>
    rw [hheard] at hrec
    dsimp only at hrec
    constructor
    · obtain ⟨e', he', hs⟩ := Slot.sighted_entry hkept seen (r.time k)
      exact ⟨e', by rw [← he', ← hrec]; exact hout.entry_eq, Side.sameAs_trans hs hside⟩
    · intro q s hq hm
      have hq := hout.moved hq hm
      rw [hrec] at hq
      obtain ⟨hdiff, hq⟩ := Slot.sighted_moved hkept hq hm
      rcases hq with hq | ⟨hasked, htrust⟩
      · refine hold q s hq hm ?_
        rintro ⟨t, ht, hts⟩
        rw [hheard] at ht
        obtain rfl := Option.some.inj ht
        have := Side.sameAs_trans hside (Side.sameAs_symm hts)
        rw [hdiff] at this
        cases this
      · obtain ⟨a, ha, hasks⟩ := step_asks (r.state k) n (r.time k) hheard hkept hdiff htrust
        rw [addr_state] at hasks
        refine ⟨k, hik, Nat.lt_succ_self k, hasked.symm, ⟨a, ha, hasks.congr hside⟩, ?_⟩
        intro l' hl hl'
        omega

theorem MoveProven.mono {r : Run} {n : UInt8} {old : Side} {speaks : ℕ → Prop} {i j : ℕ}
    (h : r.MoveProven n old speaks i j) : r.MoveProven n old speaks i (j + 1) := by
  rcases h with ⟨k, hik, hkj, hexp⟩ | ⟨k, m, hik, hkm, hmj, hrest⟩
  · exact Or.inl ⟨k, hik, Nat.lt_succ_of_lt hkj, hexp⟩
  · exact Or.inr ⟨k, m, hik, hkm, Nat.lt_succ_of_lt hmj, hrest⟩

/-- A node live on a side is watched from there on. -/
theorem watched_of_live {r : Run} {n : UInt8} {side : Side} {i : ℕ}
    (h : (r.state i).live n = some side) : r.Watched n side i i := by
  unfold live at h
  cases he : (r.state i).nodes.get? n with
  | none => simp [he] at h
  | some e =>
    rw [he] at h
    dsimp only at h
    rw [Option.ite_none_left_eq_some] at h
    obtain ⟨htrust, hs⟩ := h
    obtain rfl := Option.some.inj hs
    refine ⟨⟨e, he, by cases e.side <;> rfl⟩, fun q s hq hm => ?_⟩
    obtain ⟨e', he', hd, -⟩ := r.checked i n q s hq hm
    have he' : (r.state i).nodes.get? n = some e' := he'
    rw [he] at he'
    obtain rfl := Option.some.inj he'
    exact absurd hd htrust

/-- **A side change needs proof of a move.** -/
theorem side_change_proven (r : Run) {n : UInt8} {i j : ℕ} (hij : i ≤ j) {old new : Side}
    (hi : (r.state i).live n = some old) (hj : (r.state j).live n = some new)
    (hne : old.sameAs new = false) : r.MoveProven n old (r.Hears n old) i j := by
  have hrun : ∀ k, i ≤ k → r.MoveProven n old (r.Hears n old) i k ∨ r.Watched n old i k := by
    intro k hik
    induction k, hik using Nat.le_induction with
    | base => exact Or.inr (watched_of_live hi)
    | succ k hik ih =>
      rcases ih with h | h
      · exact Or.inl h.mono
      · exact h.step hik
  rcases hrun j hij with h | ⟨⟨e, he, hside⟩, -⟩
  · exact h
  · obtain ⟨⟨e', he', hnew⟩, -⟩ := watched_of_live hj
    rw [he] at he'
    obtain rfl := Option.some.inj he'
    have := Side.sameAs_trans (Side.sameAs_symm hside) hnew
    rw [hne] at this
    cases this

/-- A node of Ethernet is heard once on LocalTalk, something arrives a second later, then
nothing. -/
def strayRun (next : In) : Run where
  addr := ⟨10, 1⟩
  mac := ⟨2, 0, 0, 0, 0, 1⟩
  amt := [(⟨10, 7⟩, ⟨2, 0, 0, 0, 0, 7⟩)]
  start := 0
  input
    | 0 => In.local ⟨9, 7, LLAP_LONG_DDP, [0, 13, 0, 0, 0, 10, 0, 10, 9, 7, 4, 4, 4]⟩
    | 1 => next
    | _ => .tick
  time k := fromSecs k
  clock _ _ h := Nat.mul_le_mul_right _ h

theorem side_change_proven_stray :
    (strayRun .tick).MoveProven 7 (.ether ⟨2, 0, 0, 0, 0, 7⟩)
      ((strayRun .tick).Hears 7 (.ether ⟨2, 0, 0, 0, 0, 7⟩)) 0 3 :=
  side_change_proven (strayRun .tick) (Nat.zero_le 3) (by decide +kernel)
    (show ((strayRun .tick).state 3).live 7 = some Side.local by decide +kernel) rfl

/-- A Request of the node's own, on the side it is believed on, is no sighting: the bridge moves
it all the same. -/
theorem side_change_despite_request :
    ¬∀ (r : Run) (n : UInt8) (i j : ℕ) (old new : Side), i ≤ j →
      (r.state i).live n = some old → (r.state j).live n = some new → old.sameAs new = false →
      r.MoveProven n old (fun k => In.From ⟨r.addr.net, n⟩ old (r.input k)) i j := by
  intro h
  let a : Aarp := ⟨1, ⟨2, 0, 0, 0, 0, 7⟩, ⟨10, 7⟩, MacAddr.zero, ⟨10, 9⟩⟩
  let r := strayRun (.ether ⟨frame ⟨2, 0, 0, 0, 0, 7⟩ BROADCAST_MAC AARP a.toBytes, .aarp a⟩)
  rcases h r 7 0 3 (.ether ⟨2, 0, 0, 0, 0, 7⟩) Side.local (by decide) (by decide +kernel)
    (by decide +kernel) rfl with ⟨k, -, hk, e, he, hexp⟩ | ⟨k, m, -, hkm, hm, hwait, -, hsilent⟩
  · have hfresh : ∀ k < 3, ((r.state k).nodes.get? 7).all
        (fun e => since (r.time k) e.confirmed < ENTRY_TTL) := by decide +kernel
    have := hfresh k hk
    rw [he, Option.all_some, decide_eq_true_iff] at this
    exact absurd hexp (Nat.not_le_of_lt this)
  · have hlate : ∀ k < 3, ∀ m < 3, r.time k + QUERY_TIMEOUT ≤ r.time m → k < 1 ∧ 1 < m := by
      decide +kernel
    obtain ⟨hk, hm⟩ := hlate k (hkm.trans hm) m hm hwait
    exact hsilent 1 hk hm rfl

end Run

end Bridge

end AppleTalk
