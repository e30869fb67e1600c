import AppleTalk.Router.Calls
import AppleTalk.Router.Pending

/-!
# The sender connection invariant

The state, the sequence number and the outstanding packet of the connection a peer opened are set
by separate assignments in ten places. One invariant ties them together, over every call of the
peers in any order.
-/

namespace AppleTalk

/-! ### The invariant -/

/-- A sequenced packet waits for its ack. -/
def Sender.Waits (s : Sender) : Prop := s = .waitRiRspAck ∨ s = .waitRiUpdAck ∨ s = .waitRdAck

namespace Sending

/-- What ties our side of the connection the peer opened together. -/
structure Coherent (s : Sending) : Prop where
  waits : s.outstanding ≠ none ↔ s.sender.Waits
  carried : ∀ o, s.outstanding = some o → o.seq = s.seq ∧ o.seq ≠ 0 ∧ 1 ≤ o.tries ∧
    o.tries ≤ RETRIES ∧ ∃ dh cmd, o.bytes = (Aurp.routing dh s.conn o.seq cmd).toBytes
  paging : s.pages ≠ [] → s.sender = .waitRiRspAck
  single : (s.pending.map Peer.startOf).Nodup
  shut : s.sender = .unconnected →
    s.outstanding = none ∧ s.pages = [] ∧ s.pending = [] ∧ s.conn = 0

theorem coherent_closed : closed.Coherent where
  waits := by simp [closed, Sender.Waits]
  carried o ho := by cases ho
  paging h := absurd rfl h
  single := List.nodup_nil
  shut _ := ⟨rfl, rfl, rfl, rfl⟩

/-- An open connection with nothing outstanding. -/
theorem coherent_idle {s : Sending} (hs : s.sender = .connected) (ho : s.outstanding = none)
    (hp : s.pages = []) (hn : (s.pending.map Peer.startOf).Nodup) : s.Coherent where
  waits := by simp [hs, ho, Sender.Waits]
  carried o h := by
    rw [ho] at h
    cases h
  paging h := absurd hp h
  single := hn
  shut h := by
    rw [hs] at h
    cases h

namespace Coherent

theorem idle {s : Sending} (h : s.Coherent) (hs : s.sender = .connected) :
    s.outstanding = none ∧ s.pages = [] := by
  constructor
  · by_contra ho
    have := h.waits.1 ho
    simp [hs, Sender.Waits] at this
  · by_contra hp
    have := h.paging hp
    rw [hs] at this
    cases this

/-- With nothing outstanding an open connection is idle. -/
theorem connected {s : Sending} (h : s.Coherent) (hs : s.sender ≠ .unconnected)
    (ho : s.outstanding = none) : s.sender = .connected := by
  have hw : ¬s.sender.Waits := fun hw => h.waits.2 hw ho
  unfold Sender.Waits at hw
  cases hsender : s.sender with
  | unconnected => exact absurd hsender hs
  | connected => rfl
  | waitRiRspAck => exact absurd (Or.inl hsender) hw
  | waitRiUpdAck => exact absurd (Or.inr (Or.inl hsender)) hw
  | waitRdAck => exact absurd (Or.inr (Or.inr hsender)) hw

end Coherent

end Sending

namespace Peer

open Sending

/-- Sending a sequenced packet leaves it outstanding. -/
theorem coherent_sequenced (p : Peer) (cmd : Cmd) (nets : List UInt16) (now : Instant)
    {sender : Sender} (hs : sender.Waits) (hp : p.pages ≠ [] → sender = .waitRiRspAck)
    (hn : (p.pending.map startOf).Nodup) :
    ({ (p.sendSequenced cmd nets now).1 with sender := sender } : Peer).sending.Coherent where
  waits := by simp [sendSequenced, sending, hs]
  carried o ho := by
    obtain rfl := Option.some.inj ho
    exact ⟨rfl, succ_ne_zero _, le_rfl, show 1 ≤ RETRIES by decide, _, _, rfl⟩
  paging := hp
  single := hn
  shut h := by
    have hs' : sender = .unconnected := h
    rw [hs'] at hs
    simp [Sender.Waits] at hs

theorem coherent_sendPage {p : Peer} (hp : p.pages ≠ [])
    (hn : (p.pending.map startOf).Nodup) (now : Instant) :
    (p.sendPage now).1.sending.Coherent := by
  obtain ⟨tuples, rest, hp⟩ := List.exists_cons_of_ne_nil hp
  unfold sendPage
  rw [hp]
  exact coherent_sequenced { p with pages := rest } _ _ now (Or.inl rfl) (fun _ => rfl) hn

theorem coherent_openReq {p : Peer} (h : p.sending.Coherent) (conn version : UInt16)
    (options : List (UInt8 × Bytes)) (now : Instant) :
    (p.openReq conn version options now).1.sending.Coherent := by
  unfold openReq
  dsimp only
  split_ifs with h1 h2 h3 h4 h5
  · exact h
  · exact h
  · have ho : p.outstanding = none := by simpa using h4.2
    have hpages : p.pages = [] := (h.idle (h.connected h3.1 ho)).2
    exact coherent_sequenced { p with probing := true } nullUpd [] now (Or.inr (Or.inl rfl))
      (fun hp => absurd hpages hp) h.single
  · exact h
  · exact coherent_idle rfl rfl rfl h.single
  · exact coherent_idle rfl rfl rfl h.single

theorem coherent_riAck {p : Peer} (h : p.sending.Coherent) (seq : UInt16) (szi : Bool)
    (tables : Tables) (now : Instant) :
    (p.riAck seq szi tables now).1.sending.Coherent := by
  have hack := p.riAck_acked seq szi tables now
  generalize p.riAck seq szi tables now = r at hack ⊢
  cases hack with
  | ignored => exact h
  | paged ho hseq hs hp =>
    exact coherent_sendPage (p := { p with outstanding := none }) hp h.single now
  | idle ho hseq hs =>
    refine coherent_idle rfl rfl ?_ h.single
    rcases hs with ⟨-, hp⟩ | hs
    · exact hp
    · by_contra hp
      exact absurd (hs.symm.trans (h.paging hp)) (by simp)
  | closed => exact coherent_closed
  | unawaited ho hseq hs =>
    have hwaits : p.sender.Waits := h.waits.1 (by simp [sending, ho])
    rcases hs with hs | hs <;> simp [hs, Sender.Waits] at hwaits

theorem coherent_routing {p : Peer} (h : p.sending.Coherent) (conn seq : UInt16) (cmd : Cmd)
    (tables : Tables) (now : Instant) :
    (p.routing conn seq cmd tables now).peer.sending.Coherent := by
  generalize hq : (p.routing conn seq cmd tables now).peer = q
  have hr := p.routing_routed conn seq cmd tables now
  rw [hq] at hr
  cases hr with
  | same hsame => rwa [hsame.1]
  | opened sui version options hcmd => exact coherent_openReq h conn version options now
  | asked _ =>
    obtain ⟨tuples, rest, hx⟩ := exists_splitTuples tables.export
    exact coherent_sendPage (p := { p with
      seqSend := 0, outstanding := none, pages := splitTuples tables.export }) (by simp [hx])
      h.single now
  | acked szi hcmd _ => exact coherent_riAck h seq szi tables now
  | down _ => exact coherent_closed

theorem coherent_received {p : Peer} (h : p.sending.Coherent) («from» : Ipv4Addr) (pkt : Aurp)
    (tables : Tables) (now : Instant) :
    (p.received «from» pkt tables now).sending.Coherent := by
  cases pkt with
  | data dh ddp => exact h
  | routing dh conn seq cmd => exact coherent_routing (p := p.named dh «from») h conn seq cmd _ _

theorem coherent_receiverTimers {p : Peer} (h : p.sending.Coherent) (tables : Tables)
    (now : Instant) : (p.receiverTimers tables now).peer.sending.Coherent := by
  rcases p.receiverTimers_sender tables now with hsame | ⟨hs, p', hsame, he⟩
  · rwa [hsame.1]
  · have hpages : p'.pages = [] := by
      rw [show p'.pages = p.pages from congrArg Sending.pages hsame.1]
      exact (h.idle hs).2
    rw [he]
    refine coherent_sequenced p' nullUpd [] now (Or.inr (Or.inl rfl)) (absurd hpages) ?_
    rw [show p'.pending = p.pending from congrArg Sending.pending hsame.1]
    exact h.single

theorem coherent_senderTimers {p : Peer} (h : p.sending.Coherent) (now : Instant) :
    (p.senderTimers now).1.sending.Coherent := by
  have htimed := p.senderTimers_timed now
  generalize p.senderTimers now = r at htimed ⊢
  cases htimed with
  | waiting | idle => exact h
  | spent => exact coherent_closed
  | @again o ho _ htries =>
    obtain ⟨hseq, h0, -, -, hbytes⟩ := h.carried o ho
    have hwaits := h.waits.1 (by simp [sending, ho])
    refine ⟨by simp [sending, show p.sender.Waits from hwaits], fun o' ho' => ?_, h.paging,
      h.single, fun hs => absurd (h.shut hs).1 (by simp [sending, ho])⟩
    obtain rfl := Option.some.inj ho'
    exact ⟨hseq, h0, by simp, htries, hbytes⟩
  | updated ho hs _ _ hr =>
    rw [hr]
    exact coherent_sequenced { p with pending := [], lastUpdate := now } _ _ now
      (Or.inr (Or.inl rfl)) (absurd (h.idle hs).2) List.nodup_nil

theorem coherent_timed {p : Peer} (h : p.sending.Coherent) (scan : Bool) (now : Instant) :
    (p.timed scan now).sending.Coherent := by
  unfold timed
  refine coherent_senderTimers (coherent_receiverTimers ?_ _ now) now
  rwa [(p.scan_sameSender scan now).1]

theorem coherent_hear {p : Peer} (h : p.sending.Coherent) (evs : List EventTuple) :
    (p.hear evs).sending.Coherent := by
  unfold hear
  split_ifs with hs
  · exact h
  · exact ⟨h.waits, h.carried, h.paging, nodup_foldl_queue evs h.single, fun hs' => absurd hs' hs⟩

theorem coherent_shut {p : Peer} (h : p.sending.Coherent) (now : Instant) :
    (p.shut now).sending.Coherent := by
  unfold shut
  split_ifs
  · exact h
  · exact coherent_sequenced { p with outstanding := none, pages := [] } _ _ now
      (Or.inr (Or.inr rfl)) (absurd rfl) h.single

/-- Every change of an entry keeps its side of the connection coherent. -/
theorem Change.coherent {ip : Ipv4Addr} {c : Peers.Call × Instant} {p q : Peer}
    (hc : Change ip c p q) (h : p.sending.Coherent) : q.sending.Coherent := by
  cases hc with
  | kept | named | taken => exact h
  | received bytes tables pkt _ _ => exact coherent_received h ip pkt tables c.2
  | timed scan => exact coherent_timed h scan c.2
  | heard evs => exact coherent_hear h evs
  | pinged => rwa [(p.pinged_sameSender c.2).1]
  | shut _ => exact coherent_shut h c.2

end Peer

namespace Peers

/-- Every peer's side of the connection it opened is coherent. -/
def Coherent (s : Peers) : Prop := ∀ ip p, s.entry ip = some p → p.sending.Coherent

theorem Coherent.next {s : Peers} (h : s.Coherent) (c : Call × Instant) : (s.next c).Coherent := by
  intro ip q hq
  obtain ⟨p, hp, hc⟩ := entry_next hq
  refine hc.coherent ?_
  rcases hp with hp | ⟨-, configured, rfl⟩
  · exact h ip p hp
  · exact Sending.coherent_closed

theorem Reached.coherent {s : Peers} (h : s.Reached) : s.Coherent :=
  h.invariant (fun _ _ _ _ _ ip p hp => by cases hp) fun _ c h => h.next c

/-- **The sender connection invariant.** -/
theorem sender_invariant («local» : Di) (openPeering : Bool) (configured : List Str)
    (nanos : UInt16) (now : Instant) (cs : List (Call × Instant)) :
    ((new «local» openPeering configured nanos now).after cs).Coherent :=
  Reached.coherent ⟨«local», openPeering, configured, nanos, now, cs, rfl⟩

end Peers

end AppleTalk
