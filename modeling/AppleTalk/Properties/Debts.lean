import AppleTalk.Properties.Denials
import AppleTalk.Properties.SideChange

/-!
# The debt of a claim

A LocalTalk node that claims an ID is owed a lapACK if Ethernet holds it. The debt lives in the
one question in flight about the ID: an enquiry that finds another question there leaves none,
and the holder's answer is then told to nobody, unless the enquiry is repeated in time.
-/

namespace AppleTalk

namespace Bridge

/-! ### The debt while it stands -/

namespace Slot

/-- Nothing known of the node puts it on LocalTalk, or in doubt. -/
def Elsewhere (s : Slot) : Prop :=
  ∀ e, s.entry = some e → e.doubted = false ∧ e.side ≠ Side.local

/-- A claim's debt is outstanding and not due before the time has passed. -/
def Indebted (s : Slot) (t : Instant) : Prop :=
  s.Elsewhere ∧ ∃ q, s.pending = some q ∧ q.movedTo = none ∧ q.owed = .localAck ∧
    t < q.asked + QUERY_TIMEOUT

theorem Elsewhere.fresh {s : Slot} (h : s.Elsewhere) (now : Instant) : (s.fresh now).Elsewhere := by
  intro e he
  exact h e (Option.filter_eq_some_iff.1 he).1

/-- A move-check would be about a doubted entry. -/
theorem Elsewhere.unmoved {s : Slot} (h : s.Elsewhere) (hc : s.Checked) {q : Pending}
    (hq : s.pending = some q) : q.movedTo = none := by
  cases hm : q.movedTo with
  | none => rfl
  | some side =>
    obtain ⟨e, he, hd, -⟩ := hc q side hq hm
    rw [(h e he).1] at hd
    cases hd

theorem Elsewhere.expired {s : Slot} (h : s.Elsewhere) (hc : s.Checked) (now : Instant) :
    (s.expired now).Elsewhere := by
  unfold Slot.expired
  split_ifs
  · unfold resolved
    cases hq : (s.fresh now).pending with
    | none => exact h.fresh now
    | some q =>
      dsimp only
      rw [h.unmoved hc hq]
      exact h.fresh now
  · exact h.fresh now

/-- A sighting on Ethernet confirms what is known. -/
theorem Elsewhere.sighted_eq {s : Slot} (h : s.Elsewhere)
    (hm : ∀ q, s.pending = some q → q.movedTo = none) {side : Side} (hside : side ≠ Side.local)
    (now : Instant) :
    s.sighted side now = { s with entry := some ⟨side, now, false⟩ } := by
  unfold Slot.sighted
  cases he : s.entry with
  | none => rfl
  | some e =>
    obtain ⟨htrust, hlink⟩ := h e he
    have hsame : e.side.sameAs side := by
      cases hs : e.side with
      | «local» => exact absurd hs hlink
      | ether mac =>
        cases side with
        | «local» => exact absurd rfl hside
        | ether mac' => rfl
    have hunmoved : s.pending.any (fun q => q.movedTo.isSome) = false := by
      cases hq : s.pending with
      | none => rfl
      | some q => simp [hm q hq]
    dsimp only
    rw [if_neg (by simp [hsame]), if_neg (by simp [hunmoved]), if_neg (by simp [htrust])]

theorem Elsewhere.sighted {s : Slot} (h : s.Elsewhere) (hc : s.Checked) {side : Side}
    (hside : side ≠ Side.local) (now : Instant) : (s.sighted side now).Elsewhere := by
  rw [h.sighted_eq (fun _ => h.unmoved hc) hside]
  intro e he
  obtain rfl := Option.some.inj he
  exact ⟨rfl, hside⟩

theorem Indebted.expired {s : Slot} {t now : Instant} (h : s.Indebted t) (hnow : now ≤ t) :
    (s.expired now).Indebted t := by
  obtain ⟨hother, q, hq, hm, ho, ht⟩ := h
  have hdue : s.due now = false := by
    have : since now q.asked < QUERY_TIMEOUT := since_lt_query_iff.2 (lt_of_le_of_lt hnow ht)
    simpa [due, hq] using this
  unfold Slot.expired
  rw [if_neg (by simp [hdue])]
  exact ⟨hother.fresh now, q, hq, hm, ho, ht⟩

theorem Indebted.sighted {s : Slot} {t : Instant} (h : s.Indebted t) {side : Side}
    (hside : side ≠ Side.local) (now : Instant) : (s.sighted side now).Indebted t := by
  obtain ⟨hother, q, hq, hm, ho, ht⟩ := h
  have hunmoved : ∀ q', s.pending = some q' → q'.movedTo = none := fun q' hq' => by
    rw [← Option.some.inj (hq.symm.trans hq')]
    exact hm
  have hkept := hother.sighted (checked_of_unmoved hunmoved) hside now
  rw [hother.sighted_eq hunmoved hside] at hkept ⊢
  exact ⟨hkept, q, hq, hm, ho, ht⟩

/-- While a claim's debt stands, a step pays it or leaves it standing. -/
theorem Indebted.outcome {ours x : Addr} {i : In} {now t : Instant} {s s' : Slot}
    {acts : List Action} (h : s.Indebted t) (ho : Outcome ours x i now s s' acts) (hx : x ≠ ours) :
    (∃ a ∈ acts, a.Acks x.node) ∨ s'.Indebted t := by
  have ⟨_, q, hq, hm, howed, _⟩ := h
  cases ho with
  | quiet | cached => exact Or.inr h
  | defended hx' => exact absurd hx' hx
  | asked _ _ hs _ _ _ =>
    rw [hs] at hq
    cases hq
  | acked _ _ _ _ _ hack _ => exact Or.inl ⟨_, hack, rfl, rfl⟩
  | proxied q' _ _ hs _ howed' _ _ =>
    rw [hs] at hq
    obtain rfl := Option.some.inj hq
    rw [howed] at howed'
    cases howed'

end Slot

/-! ### The two steps of a claim -/

variable {b : Bridge} {i : In} {n : UInt8} {now : Instant}

/-- An enquiry is a question to Ethernet, put unless one is in flight. -/
theorem slot_step_enq (hi : i.IsEnq n) (hn : b.Real n) :
    (b.step i now).1.slot n = ((b.slot n).expired now).asked ⟨now, .localAck, none⟩ := by
  cases i with
  | «local» l =>
    obtain ⟨henq, rfl⟩ := hi
    have hown : l.dst ≠ (b.expire now).1.addr.node := by
      rw [(expire_fixed b now).1]
      exact hn.2.2
    unfold step onLocal
    dsimp only
    rw [if_neg (by rw [henq]; decide), if_pos henq, if_neg hown, slot_ask,
      if_pos ⟨rfl, hn.1, hn.2.1⟩, slot_expire]
  | _ => cases hi

/-- An enquiry shows its sender nowhere. -/
theorem heard_of_enq (hi : i.IsEnq n) (m : UInt8) : b.heard i m = none := by
  cases i with
  | «local» l =>
    obtain ⟨henq, -⟩ := hi
    have hs : b.sighting (In.local l) = none := by
      unfold sighting
      dsimp only
      rw [henq, if_neg (by decide)]
    rw [heard, hs, Option.bind_none]
  | _ => cases hi

theorem body_of_aarp {p : Packet} {a : Aarp} (h : (In.ether p).aarp = some a) :
    p.body = .aarp a := by
  cases hp : p.body <;> simp [In.aarp, hp] at h ⊢
  exact h

/-- An answer that denies an ID is one the bridge hears. -/
theorem heard_of_acks (hn : b.Real n) (hi : i.IsResponse ⟨b.addr.net, n⟩) {a : Action}
    (ha : a ∈ (b.step i now).2) (hacks : a.Acks n) : ∃ mac, b.heard i n = some (.ether mac) := by
  obtain ⟨x, haarp, hop, hsrc⟩ := hi
  cases i with
  | ether p =>
    by_cases hframe : p.frame.src = b.mac ∨ p.frame.snap = false
    · exfalso
      have hquiet : ((b.expire now).1.onEther p now).2 = [] := by
        rw [← (expire_fixed b now).2] at hframe
        unfold onEther
        split_ifs with hsrc' hsnap
        · rfl
        · rfl
        · exact absurd hframe (by simpa [hsrc'] using hsnap)
      have ha : a ∈ (b.expire now).2 ++ ((b.expire now).1.onEther p now).2 := ha
      rw [hquiet, List.append_nil] at ha
      exact (quiet_of_asking (expire_asking b now) ⟨b.addr.net, n⟩ a ha).1 hacks
    · refine ⟨x.srcHw, heard_eq_some_iff.2 ⟨?_, hn⟩⟩
      unfold sighting
      dsimp only
      rw [if_neg hframe, body_of_aarp haarp]
      dsimp only
      rw [if_pos ⟨hop, by rw [hsrc]⟩, hsrc]
  | _ => cases haarp

/-- The holder's answer pays the debt that stands. -/
theorem step_pays (hi : i.IsResponse ⟨b.addr.net, n⟩) {mac : MacAddr}
    (hh : b.heard i n = some (.ether mac)) {q : Pending}
    (hq : ((b.recorded i now).slot n).pending = some q) (hm : q.movedTo = none)
    (ho : q.owed = .localAck) : .toLocal (.control n n LLAP_ACK) ∈ (b.step i now).2 := by
  obtain ⟨ha, hb⟩ := expire_fixed b now
  obtain ⟨a, haarp, hop, hsrc⟩ := hi
  rw [← heard_congr ha hb] at hh
  obtain ⟨hs, -⟩ := heard_eq_some_iff.1 hh
  rw [← ha] at hsrc
  unfold recorded record at hq
  rw [hs] at hq
  unfold step
  refine List.mem_append_right _ ?_
  generalize b.expire now = r at hs hq hsrc ⊢
  cases i with
  | ether p =>
    unfold sighting at hs
    dsimp only at hs hq ⊢
    have hframe : ¬(p.frame.src = r.1.mac ∨ p.frame.snap = false) := by
      intro h
      rw [if_pos h] at hs
      cases hs
    rw [if_neg hframe] at hs
    rw [not_or] at hframe
    have hbody : p.body = .aarp a := body_of_aarp haarp
    rw [hbody] at hs
    dsimp only at hs
    rw [if_pos ⟨hop, by rw [hsrc]⟩] at hs
    obtain ⟨hnode, hside⟩ := Prod.mk.inj (Option.some.inj hs)
    unfold onEther
    rw [if_neg hframe.1, if_neg (by simpa using hframe.2), hbody]
    dsimp only
    unfold etherAarp
    cases hact : aarpAction a r.1.addr r.1.mac false
    case answerTo dst => exact absurd hop (op_of_answerTo hact)
    case conflict | ignore =>
      dsimp only
      rw [if_pos hop, if_neg (by rw [hsrc]; exact not_not.2 rfl), hnode, hside]
      refine List.mem_append_right _ ?_
      unfold settle
      rw [show (r.1.confirm n (.ether mac) now).1.pending.get? n = some q from hq]
      dsimp only
      rw [if_neg (by simp [hm]), ho]
      exact List.mem_singleton.2 rfl
  | _ => cases haarp

namespace Run

/-- A LocalTalk node claims an ID, and while nothing puts it on LocalTalk or in doubt its holder
answers from Ethernet within the window of a question. -/
structure Claim (r : Run) (n : UInt8) (i j : ℕ) : Prop where
  real : n ≠ 0 ∧ n ≠ 255 ∧ n ≠ r.addr.node
  before : i < j
  enq : (r.input i).IsEnq n
  elsewhere : (((r.state i).slot n).expired (r.time i)).Elsewhere
  response : (r.input j).IsResponse ⟨r.addr.net, n⟩
  /-- The Response is one the bridge hears: Phase 2, and not its own frame come back. -/
  arrives : ∃ mac, (r.state j).heard (r.input j) n = some (.ether mac)
  inTime : r.time j < r.time i + QUERY_TIMEOUT
  silent : ∀ m, i < m → m < j → (r.state m).heard (r.input m) n ≠ some Side.local

/-- The holder answers, and the bridge hears it. -/
def Answered (r : Run) (n : UInt8) (m : ℕ) : Prop :=
  (r.input m).IsResponse ⟨r.addr.net, n⟩ ∧
    ∃ mac, (r.state m).heard (r.input m) n = some (.ether mac)

/-- The claimant is told that the ID is taken. -/
def Paid (r : Run) (n : UInt8) (i j : ℕ) : Prop :=
  ∃ k, i ≤ k ∧ k ≤ j ∧ ∃ a ∈ r.sent k, a.Acks n

/-- The enquiry finds no question about the ID in flight, or an earlier enquiry's that is still in
flight when the answer comes. -/
def Unobstructed (r : Run) (n : UInt8) (i j : ℕ) : Prop :=
  ∀ q, (((r.state i).slot n).expired (r.time i)).pending = some q →
    q.owed = .localAck ∧ r.time j < q.asked + QUERY_TIMEOUT

/-- An unobstructed claim leaves its debt. -/
theorem Claim.indebted {r : Run} {n : UInt8} {i j : ℕ} (h : r.Claim n i j)
    (hfree : r.Unobstructed n i j) : ((r.state (i + 1)).slot n).Indebted (r.time j) := by
  have hslot : (r.state (i + 1)).slot n =
      (((r.state i).slot n).expired (r.time i)).asked ⟨r.time i, .localAck, none⟩ :=
    slot_step_enq h.enq ((r.real_state i n).2 h.real)
  have hchecked := (r.checked i n).expired (r.time i)
  have hother := h.elsewhere
  unfold Unobstructed at hfree
  rw [hslot]
  generalize ((r.state i).slot n).expired (r.time i) = s at hchecked hother hfree ⊢
  unfold Slot.asked
  cases hs : s.pending with
  | none => exact ⟨hother, _, rfl, rfl, rfl, h.inTime⟩
  | some q =>
    obtain ⟨howed, ht⟩ := hfree q hs
    exact ⟨hother, q, hs, hother.unmoved hchecked hs, howed, ht⟩

/-- An unobstructed claim is paid. -/
theorem Claim.paid {r : Run} {n : UInt8} {i j : ℕ} (h : r.Claim n i j)
    (hfree : r.Unobstructed n i j) : r.Paid n i j := by
  have hx : (⟨r.addr.net, n⟩ : Addr) ≠ r.addr := fun he => h.real.2.2 (congrArg Addr.node he)
  have hseen : ∀ m, m ≤ j → ((r.state m).slot n).Indebted (r.time j) →
      (r.state m).heard (r.input m) n ≠ some Side.local → (r.seen m n).Indebted (r.time j) := by
    intro m hmj hm hquiet
    have hexp := hm.expired (r.clock hmj)
    rw [seen, slot_recorded]
    cases hh : (r.state m).heard (r.input m) n with
    | none => exact hexp
    | some side => exact hexp.sighted (fun he => hquiet (by rw [hh, he])) (r.time m)
  have hrun : ∀ m, i + 1 ≤ m → m ≤ j →
      r.Paid n i j ∨ ((r.state m).slot n).Indebted (r.time j) := by
    intro m him
    induction m, him using Nat.le_induction with
    | base => exact fun _ => Or.inr (h.indebted hfree)
    | succ m him ih =>
      intro hmj
      rcases ih (by omega) with hpaid | hm
      · exact Or.inl hpaid
      · have hs := hseen m (by omega) hm (h.silent m (by omega) (by omega))
        rcases hs.outcome (r.outcome m n) hx with hpaid | hstands
        · exact Or.inl ⟨m, by omega, by omega, hpaid⟩
        · exact Or.inr hstands
  rcases hrun j h.before le_rfl with hpaid | hj
  · exact hpaid
  · obtain ⟨mac, hh⟩ := h.arrives
    obtain ⟨-, q, hq, hm, ho, -⟩ := hseen j le_rfl hj (by simp [hh])
    have hresponse : (r.input j).IsResponse ⟨(r.state j).addr.net, n⟩ := by
      rw [addr_state]
      exact h.response
    exact ⟨j, h.before.le, le_rfl, _, step_pays hresponse hh hq hm ho, rfl, rfl⟩

/-! ### The claim made again -/

/-- While the claim lasts nothing puts the ID on LocalTalk or in doubt. -/
theorem Claim.elsewhere_at {r : Run} {n : UInt8} {i j : ℕ} (h : r.Claim n i j) {m : ℕ}
    (him : i ≤ m) (hmj : m < j) : (((r.state m).slot n).expired (r.time m)).Elsewhere := by
  have hx : (⟨r.addr.net, n⟩ : Addr) ≠ r.addr := fun he => h.real.2.2 (congrArg Addr.node he)
  induction m, him using Nat.le_induction with
  | base => exact h.elsewhere
  | succ m him ih =>
    have hm := ih (by omega)
    have hquiet : (r.state m).heard (r.input m) n ≠ some Side.local := by
      rcases him.eq_or_lt with rfl | hlt
      · rw [heard_of_enq h.enq]
        simp
      · exact h.silent m hlt (by omega)
    have hseen : (r.seen m n).Elsewhere := by
      rw [seen, slot_recorded]
      cases hh : (r.state m).heard (r.input m) n with
      | none => exact hm
      | some side =>
        exact hm.sighted ((r.checked m n).expired _) (fun he => hquiet (by rw [hh, he])) _
    have hnext : ((r.state (m + 1)).slot n).Elsewhere := by
      intro e he
      rw [(r.outcome m n).entry_eq] at he
      exact hseen e he
    exact hnext.expired (r.checked (m + 1) n) _

/-- Every enquiry of the claim and every answer after it make a claim of their own. -/
theorem Claim.again {r : Run} {n : UInt8} {i j : ℕ} (h : r.Claim n i j) {k m : ℕ} (hik : i ≤ k)
    (hkm : k < m) (hmj : m ≤ j) (henq : (r.input k).IsEnq n) (hans : r.Answered n m) :
    r.Claim n k m where
  real := h.real
  before := hkm
  enq := henq
  elsewhere := h.elsewhere_at hik (by omega)
  response := hans.1
  arrives := hans.2
  inTime := calc
    r.time m ≤ r.time j := r.clock hmj
    _ < r.time i + QUERY_TIMEOUT := h.inTime
    _ ≤ r.time k + QUERY_TIMEOUT := Nat.add_le_add_right (r.clock hik) _
  silent t ht ht' := h.silent t (by omega) (by omega)

/-- A question that is no move-check stands since the step that put it. -/
theorem stands_since (r : Run) {n : UInt8} (hn : n ≠ r.addr.node) {m : ℕ} {q : Pending}
    (hq : ((r.state m).slot n).pending = some q) (hm : q.movedTo = none) :
    ∃ l < m, In.Owes ⟨r.addr.net, n⟩ (r.input l) q.owed ∧
      ∀ t, l < t → t ≤ m → ((r.state t).slot n).pending = some q := by
  have hx : (⟨r.addr.net, n⟩ : Addr) ≠ r.addr := fun he => hn (congrArg Addr.node he)
  induction m with
  | zero => cases hq
  | succ m ih =>
    rcases ((r.outcome m n).pending hx hq).2 with hseen | ⟨-, -, -, howes, -⟩
    · rcases recorded_pending (r.state m) n (r.time m) hseen with ⟨hstood, -⟩ | ⟨side, -, rfl⟩
      · obtain ⟨l, hl, howes, hstands⟩ := ih hstood
        refine ⟨l, by omega, howes, fun t hlt htm => ?_⟩
        rcases Nat.le_or_eq_of_le_succ htm with htm | rfl
        · exact hstands t hlt htm
        · exact hq
      · cases hm
    · refine ⟨m, by omega, howes, fun t hlt htm => ?_⟩
      obtain rfl : t = m + 1 := by omega
      exact hq

/-- **A claim is paid** if and only if one of its enquiries, the first or a later one, is
unobstructed up to an answer. -/
theorem claim_paid_iff (r : Run) {n : UInt8} {i j : ℕ} (h : r.Claim n i j) :
    r.Paid n i j ↔ ∃ k m, i ≤ k ∧ k < m ∧ m ≤ j ∧ (r.input k).IsEnq n ∧ r.Answered n m ∧
      r.Unobstructed n k m := by
  have hx : (⟨r.addr.net, n⟩ : Addr) ≠ r.addr := fun he => h.real.2.2 (congrArg Addr.node he)
  constructor
  · rintro ⟨m, him, hmj, a, ha, hacks⟩
    obtain ⟨hi, q, hseen, hmoved, howed⟩ := (r.outcome m n).of_acks hx ha hacks
    rcases recorded_pending (r.state m) n (r.time m) hseen with ⟨hq, hdue⟩ | ⟨side, -, rfl⟩
    swap
    · cases hmoved
    obtain ⟨l, hlm, howes, hstands⟩ := r.stands_since h.real.2.2 hq hmoved
    rw [howed] at howes
    have him : i < m := by
      refine lt_of_le_of_ne him fun he => ?_
      obtain ⟨x, haarp, -⟩ := hi
      have henq := h.enq
      rw [he] at henq
      cases hin : r.input m with
      | «local» l => rw [hin] at haarp; cases haarp
      | _ => rw [hin] at henq; cases henq
    have henq : (r.input (max i l)).IsEnq n := by
      rcases max_choice i l with he | he <;> rw [he]
      · exact h.enq
      · exact howes
    have hreal := (r.real_state m n).2 h.real
    have hi' : (r.input m).IsResponse ⟨(r.state m).addr.net, n⟩ := by
      rw [addr_state]
      exact hi
    refine ⟨max i l, m, le_max_left i l, max_lt him hlm, hmj, henq,
      ⟨hi, heard_of_acks hreal hi' ha hacks⟩, fun q' hq' => ?_⟩
    -- what the enquiry finds in flight it leaves in flight, and that is the question paid
    have hleft := hstands (max i l + 1) (by omega) (by omega)
    have hslot : (r.state (max i l + 1)).slot n =
        (((r.state (max i l)).slot n).expired (r.time (max i l))).asked
          ⟨r.time (max i l), .localAck, none⟩ :=
      slot_step_enq henq ((r.real_state _ n).2 h.real)
    rw [hslot, Slot.asked, if_pos (by rw [hq']; rfl), hq'] at hleft
    obtain rfl := Option.some.inj hleft
    exact ⟨howed, since_lt_query_iff.1 hdue⟩
  · rintro ⟨k, m, hik, hkm, hmj, henq, hans, hfree⟩
    obtain ⟨t, hkt, htm, hpaid⟩ := (h.again hik hkm hmj henq hans).paid hfree
    exact ⟨t, hik.trans hkt, htm.trans hmj, hpaid⟩

/-- The claim of the example run. -/
theorem claim_claimRun {before : In}
    (h : ((((claimRun before).state 1).slot 7).expired ((claimRun before).time 1)).entry = none) :
    (claimRun before).Claim 7 1 2 where
  real := show (7 : UInt8) ≠ 0 ∧ (7 : UInt8) ≠ 255 ∧ (7 : UInt8) ≠ 1 by decide
  before := by decide
  enq := ⟨rfl, rfl⟩
  elsewhere := by
    intro e he
    rw [h] at he
    cases he
  response := ⟨_, rfl, rfl, rfl⟩
  arrives := by
    refine ⟨⟨2, 0, 0, 0, 0, 7⟩, ?_⟩
    rw [heard_congr (b := (claimRun before).state 0) ((claimRun before).addr_state 2)
      ((claimRun before).mac_state 2)]
    rfl
  inTime := show fromMillis 2 < fromMillis 1 + QUERY_TIMEOUT by decide
  silent m := by omega

theorem claim_paid_alone : (claimRun .tick).Paid 7 1 2 := by
  have hclaim : (claimRun .tick).Claim 7 1 2 := claim_claimRun (by decide +kernel)
  refine (claim_paid_iff (claimRun .tick) hclaim).2
    ⟨1, 2, le_rfl, by decide, le_rfl, hclaim.enq, ⟨hclaim.response, hclaim.arrives⟩, ?_⟩
  intro q hq
  have hnone : ((((claimRun .tick).state 1).slot 7).expired ((claimRun .tick).time 1)).pending =
      none := by decide +kernel
  rw [hnone] at hq
  cases hq

/-- A datagram for the ID has both links asked who holds it; the claim that comes next leaves no
debt, and the holder's answer is not passed on. -/
theorem claim_unpaid : ¬∀ (r : Run) (n : UInt8) (i j : ℕ), r.Claim n i j → r.Paid n i j := by
  intro h
  let data : Bytes := [0, 13, 0, 0, 0, 10, 0, 10, 7, 9, 4, 4, 10]
  let before : In := .ether ⟨frame ⟨2, 0, 0, 0, 0, 9⟩ BROADCAST_MAC DDP data,
    .ddp ⟨0, 13, 0, ⟨10, 7⟩, 4, ⟨10, 9⟩, 4, 10, []⟩ .unknown⟩
  obtain ⟨k, hk1, hk2, a, ha, -⟩ :=
    h (claimRun before) 7 1 2 (claim_claimRun (by decide +kernel))
  have hsent : ∀ k ≤ 2, 1 ≤ k → (claimRun before).sent k = [] := by decide +kernel
  rw [hsent k hk2 hk1] at ha
  cases ha

end Run

end Bridge

end AppleTalk
