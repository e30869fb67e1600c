import AppleTalk.Bridge.Outcome

/-!
# Claims are denied only on live evidence

A lapACK denies a node ID and an AARP Response answers for an address. Every question in flight
goes back to the step that put it, so a denial that settles a debt has both the claim and the
evidence behind it, each no older than the window of a question.
-/

namespace AppleTalk

namespace Bridge

namespace Run

/-- The question in flight about the node goes back to the step that put it, for the debt that
step's input left. Nobody was denied the node's ID since. -/
def Founded (r : Run) (n : UInt8) (k : ℕ) : Prop :=
  ∀ q, (r.state k).pending.get? n = some q → n ≠ 0 ∧ n ≠ 255 ∧
    ∃ l < k, r.time l = q.asked ∧
      (q.movedTo = none → In.Owes ⟨r.addr.net, n⟩ (r.input l) q.owed ∧
        q.owed.Put ⟨r.addr.net, n⟩ (r.sent l)) ∧
      ∀ m, l ≤ m → m < k → ∀ a ∈ r.sent m, ¬a.Acks n

theorem Founded.step {r : Run} {n : UInt8} {k : ℕ} (h : r.Founded n k) (hn : n ≠ r.addr.node) :
    r.Founded n (k + 1) := by
  intro q hq
  have hx : (⟨r.addr.net, n⟩ : Addr) ≠ r.addr := fun he => hn (congrArg Addr.node he)
  obtain ⟨hacks, hq⟩ := (r.outcome k n).pending hx hq
  have hlast : ∀ m, k ≤ m → m < k + 1 → ∀ a ∈ r.sent m, ¬a.Acks n := by
    intro m hkm hm
    obtain rfl : m = k := by omega
    exact hacks
  rcases hq with hq | ⟨h0, h255, hasked, howes, hput⟩
  · rcases recorded_pending (r.state k) n (r.time k) hq with ⟨hq, -⟩ | ⟨side, hh, rfl⟩
    · obtain ⟨h0, h255, l, hl, htime, hdebt, hquiet⟩ := h q hq
      refine ⟨h0, h255, l, Nat.lt_succ_of_lt hl, htime, hdebt, fun m hlm hm => ?_⟩
      rcases Nat.lt_succ_iff_lt_or_eq.1 hm with hm | rfl
      · exact hquiet m hlm hm
      · exact hacks
    · obtain ⟨h0, h255, -⟩ := (heard_eq_some_iff.1 hh).2
      exact ⟨h0, h255, k, Nat.lt_succ_self k, rfl, fun hm => absurd hm (by simp), hlast⟩
  · exact ⟨h0, h255, k, Nat.lt_succ_self k, hasked.symm, fun _ => ⟨howes, hput⟩, hlast⟩

/-- Every question of every state of a run is founded. -/
theorem founded (r : Run) {n : UInt8} (hn : n ≠ r.addr.node) (k : ℕ) : r.Founded n k := by
  induction k with
  | zero =>
    intro q hq
    cases hq
  | succ k ih => exact ih.step hn

/-- A debt a step settles was left less than the window of a question ago. -/
theorem debt_of_settled {r : Run} {n : UInt8} (hn : n ≠ r.addr.node) {k : ℕ} {q : Pending}
    (hq : (r.seen k n).pending = some q) (hm : q.movedTo = none) :
    n ≠ 0 ∧ n ≠ 255 ∧ ∃ l < k, r.time k < r.time l + QUERY_TIMEOUT ∧
      In.Owes ⟨r.addr.net, n⟩ (r.input l) q.owed ∧ q.owed.Put ⟨r.addr.net, n⟩ (r.sent l) ∧
      ∀ m, l ≤ m → m < k → ∀ a ∈ r.sent m, ¬a.Acks n := by
  rcases recorded_pending (r.state k) n (r.time k) hq with ⟨hq, hdue⟩ | ⟨side, -, rfl⟩
  · obtain ⟨h0, h255, l, hl, htime, hdebt, hquiet⟩ := r.founded hn k q hq
    refine ⟨h0, h255, l, hl, ?_, (hdebt hm).1, (hdebt hm).2, hquiet⟩
    rw [htime]
    exact since_lt_query_iff.1 hdue
  · cases hm

/-- A step that denies a node's ID pays a claim's debt on Ethernet's word. -/
theorem acks_evidence {r : Run} {n : UInt8} (hn : n ≠ r.addr.node) {k : ℕ} {a : Action}
    (ha : a ∈ r.sent k) (hacks : a.Acks n) :
    (r.input k).IsResponse ⟨r.addr.net, n⟩ ∧
      ∃ l < k, (r.input l).IsEnq n ∧ r.time k < r.time l + QUERY_TIMEOUT ∧
        ∀ m, l ≤ m → m < k → ∀ a ∈ r.sent m, ¬a.Acks n := by
  have hx : (⟨r.addr.net, n⟩ : Addr) ≠ r.addr := fun he => hn (congrArg Addr.node he)
  obtain ⟨hi, q, hq, hm, ho⟩ := (r.outcome k n).of_acks hx ha hacks
  obtain ⟨-, -, l, hl, htime, howes, -, hquiet⟩ := debt_of_settled hn hq hm
  rw [ho] at howes
  exact ⟨hi, l, hl, howes, htime, hquiet⟩

/-- A step that answers for an address has its node live on LocalTalk, and answers a Request or
what LocalTalk was asked. -/
theorem names_evidence {r : Run} {n : UInt8} (hn : n ≠ r.addr.node) {k : ℕ} {a : Action}
    (ha : a ∈ r.sent k) (hnames : a.Names ⟨r.addr.net, n⟩) :
    (r.state (k + 1)).live n = some Side.local ∧
      ((r.input k).IsRequest ⟨r.addr.net, n⟩ ∨ (r.input k).IsAck n ∧
        ∃ l < k, (∃ a ∈ r.sent l, a.Asks ⟨r.addr.net, n⟩ Side.local) ∧
          r.time k < r.time l + QUERY_TIMEOUT) := by
  have hx : (⟨r.addr.net, n⟩ : Addr) ≠ r.addr := fun he => hn (congrArg Addr.node he)
  have hout := r.outcome k n
  have hlive : (r.state (k + 1)).live n = (r.seen k n).live := by
    rw [live_slot, Slot.live, Slot.live, hout.entry_eq]
  rw [hlive]
  rcases hout.of_names hx ha hnames with ⟨hi, hl⟩ | ⟨hi, hl, q, «to», m, hq, hm, ho⟩
  · exact ⟨hl, Or.inl hi⟩
  · obtain ⟨h0, h255, l, hlk, htime, -, hput, -⟩ := debt_of_settled hn hq hm
    rw [ho] at hput
    refine ⟨hl.resolve_left ?_, Or.inr ⟨hi, l, hlk, hput, htime⟩⟩
    -- the answer is itself a sighting, so there is an entry by the time the debt is paid
    have hh : (r.state k).heard (r.input k) n = some Side.local :=
      heard_eq_some_iff.2 ⟨sighting_of_ack hi, (r.real_state k n).2 ⟨h0, h255, hn⟩⟩
    rw [seen, slot_recorded, hh]
    exact Slot.sighted_ne_none _ _ _

/-- **Claims are denied only on live evidence.** -/
theorem denied_on_evidence (r : Run) {n : UInt8} (hn : n ≠ r.addr.node) (k : ℕ) :
    (∀ a ∈ r.sent k, a.Acks n → (r.input k).IsResponse ⟨r.addr.net, n⟩ ∧
      ∃ l < k, (r.input l).IsEnq n ∧ r.time k < r.time l + QUERY_TIMEOUT ∧
        ∀ m, l ≤ m → m < k → ∀ a ∈ r.sent m, ¬a.Acks n) ∧
    (∀ a ∈ r.sent k, a.Names ⟨r.addr.net, n⟩ → (r.state (k + 1)).live n = some Side.local ∧
      ((r.input k).IsRequest ⟨r.addr.net, n⟩ ∨ (r.input k).IsAck n ∧
        ∃ l < k, (∃ a ∈ r.sent l, a.Asks ⟨r.addr.net, n⟩ Side.local) ∧
          r.time k < r.time l + QUERY_TIMEOUT)) ∧
    ((r.input k).IsEnq n ∨ (r.input k).IsProbe ⟨r.addr.net, n⟩ →
      ∀ a ∈ r.sent k, ¬a.Acks n ∧ ¬a.Names ⟨r.addr.net, n⟩) := by
  refine ⟨fun a ha => acks_evidence hn ha, fun a ha => names_evidence hn ha, ?_⟩
  intro hclaim a ha
  have hlocal : ∀ l, r.input k = In.local l → l.typ = LLAP_ENQ := by
    intro l hl
    rw [hl] at hclaim
    rcases hclaim with h | ⟨a, ha, -⟩
    · exact h.1
    · cases ha
  have hether : ∀ a, (r.input k).aarp = some a → a.op = 3 := by
    intro a ha
    rcases hclaim with h | ⟨a', ha', hop, -⟩
    · cases hk : r.input k with
      | ether p => rw [hk] at h; cases h
      | _ => rw [hk] at ha; cases ha
    · rw [ha] at ha'
      obtain rfl := Option.some.inj ha'
      exact hop
  constructor
  · intro hacks
    obtain ⟨⟨a', ha', hop, -⟩, -⟩ := acks_evidence hn ha hacks
    rw [hether a' ha'] at hop
    exact absurd hop (by decide)
  · intro hnames
    obtain ⟨-, ⟨a', ha', hop, -⟩ | ⟨hack, -⟩⟩ := names_evidence hn ha hnames
    · rw [hether a' ha'] at hop
      exact absurd hop (by decide)
    · cases hk : r.input k with
      | «local» l =>
        rw [hk] at hack
        have := hack.1
        rw [hlocal l hk] at this
        exact absurd this (by decide)
      | _ => rw [hk] at hack; cases hack

/-- A LocalTalk node claims an ID that a node of Ethernet holds, and the holder answers. -/
def claimRun (before : In) : Run where
  addr := ⟨10, 1⟩
  mac := ⟨2, 0, 0, 0, 0, 1⟩
  amt := []
  start := 0
  input
    | 0 => before
    | 1 => In.local (.control 7 7 LLAP_ENQ)
    | 2 =>
      let a : Aarp := ⟨2, ⟨2, 0, 0, 0, 0, 7⟩, ⟨10, 7⟩, ⟨2, 0, 0, 0, 0, 1⟩, ⟨10, 1⟩⟩
      .ether ⟨frame ⟨2, 0, 0, 0, 0, 7⟩ ⟨2, 0, 0, 0, 0, 1⟩ AARP a.toBytes, .aarp a⟩
    | _ => .tick
  time k := fromMillis k
  clock _ _ h := Nat.mul_le_mul_right _ h

theorem denied_on_evidence_claim :
    ((claimRun .tick).input 2).IsResponse ⟨10, 7⟩ ∧
      ∃ l < 2, ((claimRun .tick).input l).IsEnq 7 ∧
        (claimRun .tick).time 2 < (claimRun .tick).time l + QUERY_TIMEOUT ∧
        ∀ m, l ≤ m → m < 2 → ∀ a ∈ (claimRun .tick).sent m, ¬a.Acks 7 :=
  (denied_on_evidence (claimRun .tick) (n := 7) (by decide) 2).1
    (.toLocal (.control 7 7 LLAP_ACK)) (by decide +kernel) ⟨rfl, rfl⟩

end Run

end Bridge

end AppleTalk
