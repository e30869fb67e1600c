import AppleTalk.Properties.Reopenings
import AppleTalk.Router.CoreMoves

/-!
# What keeps a connection alive

The connection we opened is to be tested once the peer's routing packets have been missing for a
while. The time a peer was last heard is reset by what it answers us on that connection, and by
every data packet from its address, so data traffic puts the test off.
-/

namespace AppleTalk

namespace Peer

/-! ### What resets the last-heard-from timer -/

/-- The packet is one that answers us on the connection we opened, and is taken. -/
def accepts (p : Peer) (conn : UInt16) : Cmd → Bool
  | .openRsp _ rateOrErr _ =>
    conn = p.connLocal ∧ p.receiver = .waitOpenRsp ∧ ¬rateOrErr < 0
  | .riRsp .. | .riUpd _ | .ziRsp .. => p.onReceiver conn
  | .tickleAck => conn = p.connLocal ∧ p.receiver = .waitTickleAck
  | _ => false

/-- Nothing was heard: the time stands, and the connection we opened is no further along than it
was. -/
structure Silent (p q : Peer) : Prop where
  heard : q.lastHeard = p.lastHeard
  opened : q.receiverOpen → p.receiverOpen

theorem Silent.refl (p : Peer) : p.Silent p := ⟨rfl, id⟩

theorem Silent.trans {p q r : Peer} (h : p.Silent q) (h' : q.Silent r) : p.Silent r :=
  ⟨h'.heard.trans h.heard, h.opened ∘ h'.opened⟩

/-- A connection that is where it was, or that we have only just asked for, or given up. -/
theorem silent_of_receiver {p q : Peer} (h : q.lastHeard = p.lastHeard)
    (hr : q.receiver = p.receiver ∨ q.receiver = .unconnected ∨ q.receiver = .waitOpenRsp) :
    p.Silent q := by
  refine ⟨h, fun ho => ?_⟩
  simp only [receiverOpen, decide_eq_true_eq] at ho ⊢
  rcases hr with hr | hr | hr
  · rwa [hr] at ho
  · exact absurd hr ho.1
  · exact absurd hr ho.2

theorem openReq_silent (p : Peer) (conn version : UInt16) (options : List (UInt8 × Bytes))
    (now : Instant) : p.Silent (p.openReq conn version options now).1 := by
  unfold openReq
  dsimp only
  split_ifs
  · exact .refl p
  · exact .refl p
  · exact silent_of_receiver rfl (Or.inl rfl)
  · exact .refl p
  · exact silent_of_receiver rfl (Or.inr (Or.inr rfl))
  · exact silent_of_receiver rfl (Or.inl rfl)

theorem sendPage_silent (p : Peer) (now : Instant) : p.Silent (p.sendPage now).1 := by
  unfold sendPage
  split
  · exact .refl p
  · exact silent_of_receiver rfl (Or.inl rfl)

theorem riAck_silent (p : Peer) (seq : UInt16) (szi : Bool) (tables : Tables) (now : Instant) :
    p.Silent (p.riAck seq szi tables now).1 := by
  have hsame : ∀ q : Peer, q.lastHeard = p.lastHeard → q.receiver = p.receiver → p.Silent q :=
    fun q h hr => silent_of_receiver h (Or.inl hr)
  have h := p.riAck_acked seq szi tables now
  generalize p.riAck seq szi tables now = r at h ⊢
  cases h with
  | ignored => exact .refl p
  | paged => exact (hsame { p with outstanding := none } rfl rfl).trans (sendPage_silent _ now)
  | _ => exact hsame _ rfl rfl

/-- **A routing packet** that is taken as an answer sets the time, and no other does. -/
theorem routing_heard (p : Peer) (conn seq : UInt16) (cmd : Cmd) (tables : Tables)
    (now : Instant) :
    (p.accepts conn cmd → (p.routing conn seq cmd tables now).peer.lastHeard = now) ∧
      (p.accepts conn cmd = false → p.Silent (p.routing conn seq cmd tables now).peer) := by
  have hseq : ∀ last apply szi,
      (p.sequenced conn seq last tables now apply szi).peer.lastHeard = now := by
    intro last apply szi
    unfold sequenced
    dsimp only
    split
    · split_ifs <;> rfl
    · rfl
    · rfl
    · rfl
  unfold routing accepts
  dsimp only
  cases cmd with
  | openReq sui version options =>
    exact ⟨by simp, fun _ => openReq_silent p conn version options now⟩
  | riReq =>
    refine ⟨by simp, fun _ => ?_⟩
    dsimp only
    split_ifs
    · have hfresh : p.Silent { p with
          seqSend := 0, outstanding := none, pages := splitTuples tables.export } :=
        silent_of_receiver rfl (Or.inl rfl)
      exact hfresh.trans (sendPage_silent _ now)
    · exact .refl p
  | riAck szi =>
    refine ⟨by simp, fun _ => ?_⟩
    dsimp only
    split_ifs
    · exact riAck_silent p seq szi tables now
    · exact .refl p
  | openRsp env rateOrErr options =>
    dsimp only
    by_cases h : conn = p.connLocal ∧ p.receiver = .waitOpenRsp
    · rw [if_pos h]
      by_cases hr : rateOrErr < 0
      · rw [if_pos hr]
        refine ⟨fun ha => absurd hr ?_, fun _ => silent_of_receiver rfl (Or.inr (Or.inl rfl))⟩
        simp only [decide_eq_true_eq] at ha
        exact ha.2.2
      · rw [if_neg hr]
        exact ⟨fun _ => rfl, fun ha => by simp [h.1, h.2, hr] at ha⟩
    · rw [if_neg h]
      refine ⟨fun ha => ?_, fun _ => .refl p⟩
      simp only [decide_eq_true_eq] at ha
      exact absurd ⟨ha.1, ha.2.1⟩ h
  | riRsp last tuples =>
    dsimp only
    split_ifs with h
    · exact ⟨fun _ => hseq _ _ _, fun ha => by simp [h] at ha⟩
    · exact ⟨fun ha => absurd ha h, fun _ => .refl p⟩
  | riUpd events =>
    dsimp only
    split_ifs with h
    · exact ⟨fun _ => hseq _ _ _, fun ha => by simp [h] at ha⟩
    · exact ⟨fun ha => absurd ha h, fun _ => .refl p⟩
  | rd code =>
    refine ⟨by simp, fun _ => ?_⟩
    dsimp only
    split_ifs
    · exact silent_of_receiver rfl (Or.inr (Or.inl rfl))
    · exact .refl p
  | ziRsp extended zones =>
    dsimp only
    split_ifs with h
    · exact ⟨fun _ => rfl, fun ha => by simp [h] at ha⟩
    · exact ⟨fun ha => absurd ha h, fun _ => .refl p⟩
  | tickleAck =>
    dsimp only
    split_ifs with h
    · exact ⟨fun _ => rfl, fun ha => by simp [h] at ha⟩
    · exact ⟨fun ha => absurd (by simpa using ha) h, fun _ => .refl p⟩
  | gznRsp | gdzlRsp => exact ⟨by simp, fun _ => .refl p⟩
  | _ =>
    refine ⟨by simp, fun _ => ?_⟩
    dsimp only
    split_ifs <;> exact .refl p

theorem scan_silent (p : Peer) (scan : Bool) (now : Instant) :
    p.Silent (if scan then p.reconnect now else (p, .nil)).1 := by
  rcases p.scan_cases scan now with hscan | ⟨-, -, hscan⟩
  · rw [hscan]
    exact .refl p
  · rw [hscan]
    exact silent_of_receiver rfl (Or.inr (Or.inr rfl))

theorem receiverTimers_silent (p : Peer) (tables : Tables) (now : Instant) :
    p.Silent (p.receiverTimers tables now).peer := by
  have h := p.receiverTimers_timed tables now
  generalize p.receiverTimers tables now = r at h ⊢
  cases h with
  | idle => exact .refl p
  | unanswered | lost | probed => exact silent_of_receiver rfl (Or.inr (Or.inl rfl))
  | reopened | asked | retested => exact silent_of_receiver rfl (Or.inl rfl)
  | tested hr => exact ⟨rfl, fun _ => by simp [receiverOpen, hr]⟩

theorem timed_silent (p : Peer) (scan : Bool) (now : Instant) : p.Silent (p.timed scan now) := by
  obtain ⟨hr, h⟩ := senderTimers_kept
    ((if scan then p.reconnect now else (p, .nil)).1.receiverTimers .new now).peer now
  exact ((p.scan_silent scan now).trans (receiverTimers_silent _ .new now)).trans
    (silent_of_receiver h (Or.inl hr))

/-- What is no packet from the peer tells nothing of it. -/
theorem Change.silent {ip : Ipv4Addr} {c : Peers.Call × Instant} {p q : Peer}
    (h : Change ip c p q)
    (hc : ∀ bytes tables, c.1 = .packet ip bytes tables → Aurp.parse bytes = none) :
    p.Silent q := by
  cases h with
  | kept | named => exact silent_of_receiver rfl (Or.inl rfl)
  | taken => exact silent_of_receiver rfl (Or.inl rfl)
  | received bytes tables pkt hp hpkt =>
    rw [hc bytes tables hp] at hpkt
    cases hpkt
  | timed scan => exact timed_silent p scan c.2
  | heard evs =>
    unfold hear
    split_ifs
    · exact .refl p
    · exact silent_of_receiver rfl (Or.inl rfl)
  | pinged =>
    unfold Peer.pinged
    cases hr : p.receiver with
    | connected => exact ⟨rfl, fun _ => by simp [receiverOpen, hr]⟩
    | waitTickleAck => exact ⟨rfl, fun _ => by simp [receiverOpen, hr]⟩
    | _ => exact .refl p
  | shut _ =>
    unfold Peer.shut
    split_ifs
    · exact .refl p
    · exact silent_of_receiver rfl (Or.inl rfl)

end Peer

namespace Peers

/-! ### What was heard from an address -/

/-- When the connection we opened to an address was last answered, and the latest data packet from
it since. -/
structure Contact where
  answered : Option Instant
  data : Option Instant
  deriving DecidableEq, Repr

/-- A call brings an answer, or a data packet, or neither. -/
def Contact.next (ip : Ipv4Addr) (s : Peers) (k : Contact) (c : Call × Instant) : Contact :=
  match c.1 with
  | .packet «from» bytes _ =>
    if «from» = ip then
      match Aurp.parse bytes with
      | some (.data ..) => { k with data := some c.2 }
      | some (.routing _ conn _ cmd) =>
        if (s.entry ip).any fun p => p.accepts conn cmd then ⟨some c.2, none⟩ else k
      | none => k
    else k
  | _ => k

/-- What was heard from an address over a run of calls. -/
def contact (ip : Ipv4Addr) : Peers → Contact → List (Call × Instant) → Contact
  | _, k, [] => k
  | s, k, c :: cs => contact ip (s.next c) (k.next ip s c) cs

/-- The time a peer we have a connection open to was last heard is that of its latest answer, or of
the latest data packet since. -/
def Timed (ip : Ipv4Addr) (s : Peers) (k : Contact) : Prop :=
  ∀ p, s.entry ip = some p → p.receiverOpen →
    ∃ a, k.answered = some a ∧ p.lastHeard = k.data.getD a

/-- A packet that can be read acts on the entry of its address, or on a new one. -/
theorem entry_packet {s : Peers} {ip : Ipv4Addr} {bytes : Bytes} {tables : Tables} {pkt : Aurp}
    {now : Instant} {q : Peer} (hpkt : Aurp.parse bytes = some pkt)
    (hq : (s.next (.packet ip bytes tables, now)).entry ip = some q) :
    ∃ p, (s.entry ip = some p ∨ p.receiver = .unconnected ∧ s.entry ip = none) ∧
      q = p.received ip pkt tables now := by
  cases he : s.entry ip with
  | some p =>
    exact ⟨p, Or.inl rfl, Option.some.inj (hq.symm.trans (entry_received hpkt he tables now))⟩
  | none =>
    rcases entry_admitted hpkt he tables now with hnone | hnew
    · cases hnone.symm.trans hq
    · exact ⟨_, Or.inr ⟨rfl, rfl⟩, Option.some.inj (hq.symm.trans hnew)⟩

theorem Timed.next {ip : Ipv4Addr} {s : Peers} {k : Contact} (h : Timed ip s k)
    (c : Call × Instant) : Timed ip (s.next c) (k.next ip s c) := by
  intro q hq ho
  obtain ⟨c, now⟩ := c
  by_cases hc : ∃ bytes tables pkt, c = .packet ip bytes tables ∧ Aurp.parse bytes = some pkt
  · obtain ⟨bytes, tables, pkt, rfl, hpkt⟩ := hc
    obtain ⟨p, hp, rfl⟩ := entry_packet hpkt hq
    unfold Contact.next
    dsimp only
    rw [if_pos rfl, hpkt]
    cases pkt with
    | data dh ddp =>
      have hopen : p.receiverOpen := ho
      rcases hp with hp | ⟨hu, -⟩
      · obtain ⟨a, ha, -⟩ := h p hp hopen
        exact ⟨a, ha, rfl⟩
      · simp [Peer.receiverOpen, hu] at hopen
    | routing dh conn seq cmd =>
      obtain ⟨hheard, hsilent⟩ := (p.named dh ip).routing_heard conn seq cmd tables now
      rcases hp with hp | ⟨hu, hnone⟩
      · dsimp only
        rw [hp, Option.any_some]
        by_cases ha : p.accepts conn cmd
        · rw [if_pos ha]
          exact ⟨now, rfl, hheard ha⟩
        · rw [if_neg ha]
          have hs := hsilent (Bool.eq_false_iff.2 ha)
          obtain ⟨a, ha, hp⟩ := h p hp (hs.opened ho)
          exact ⟨a, ha, hs.heard.trans hp⟩
      · have ha : p.accepts conn cmd = false := by
          cases cmd <;> simp [Peer.accepts, Peer.onReceiver, Peer.receiverOpen, hu]
        have hopen : p.receiverOpen := (hsilent ha).opened ho
        simp [Peer.receiverOpen, hu] at hopen
  · have hk : k.next ip s (c, now) = k := by
      unfold Contact.next
      cases c with
      | packet «from» bytes tables =>
        dsimp only
        split_ifs with hip
        · cases hpkt : Aurp.parse bytes with
          | none => rfl
          | some pkt => exact absurd ⟨bytes, tables, pkt, by rw [hip], hpkt⟩ hc
        · rfl
      | _ => rfl
    rw [hk]
    obtain ⟨p, hp, hchange⟩ := entry_next hq
    have hs := hchange.silent fun bytes tables hcall => by
      cases hpkt : Aurp.parse bytes with
      | none => rfl
      | some pkt => exact absurd ⟨bytes, tables, pkt, hcall, hpkt⟩ hc
    rcases hp with hp | ⟨-, configured, rfl⟩
    · obtain ⟨a, ha, hp⟩ := h p hp (hs.opened ho)
      exact ⟨a, ha, hs.heard.trans hp⟩
    · exact absurd (hs.opened ho) (by simp [Peer.receiverOpen, Peer.new])

theorem Timed.after {ip : Ipv4Addr} {s : Peers} {k : Contact} (h : Timed ip s k)
    (cs : List (Call × Instant)) : Timed ip (s.after cs) (contact ip s k cs) := by
  induction cs generalizing s k with
  | nil => exact h
  | cons c cs ih => exact ih (h.next c)

/-! ### The test of a connection -/

/-- The tick sends a Tickle on the connection we opened, and waits for its ack. -/
def Tickles (s : Peers) (ip : Ipv4Addr) (p : Peer) (tables : Tables) (now : Instant) : Prop :=
  (p.connLocal, 0, .tickle) ∈ sentTo ip (s.call (.tick tables, now)).2 ∧
    ∃ q, (s.next (.tick tables, now)).entry ip = some q ∧ q.receiver = .waitTickleAck

/-- The tick of a connected peer: it is tested once it has not been heard for long enough. -/
theorem tickles_iff {s : Peers} (hs : s.Reached) {ip : Ipv4Addr} {p : Peer}
    (hp : s.entry ip = some p) (hr : p.receiver = .connected) (tables : Tables) (now : Instant) :
    s.Tickles ip p tables now ↔ LAST_HEARD < since now p.lastHeard := by
  have haddr := hs.addr ip p hp
  have hscan : ∀ scan : Bool, (if scan then p.reconnect now else (p, .nil)) = (p, .nil) :=
    fun scan => (p.scan_cases scan now).resolve_right fun hopen => by cases hr.symm.trans hopen.2.1
  constructor
  · rintro ⟨-, q, hq, hwait⟩
    by_contra hlate
    -- Nothing is due, so the connection stays as it is.
    have hentry := (entry_ticked s tables now ip).symm.trans hq
    obtain ⟨hentry, -⟩ := Option.filter_eq_some_iff.1 hentry
    obtain ⟨p', hp', rfl⟩ := Option.map_eq_some_iff.1 hentry
    obtain rfl : p = p' := Option.some.inj (hp.symm.trans hp')
    unfold Peer.timed at hwait
    rw [hscan, (Peer.senderTimers_kept _ now).1] at hwait
    have htimed := p.receiverTimers_timed .new now
    generalize p.receiverTimers .new now = r at htimed hwait
    cases htimed with
    | idle => cases hr.symm.trans hwait
    | tested _ hlate' => exact hlate hlate'
    | unanswered hr' => rcases hr' with hr' | hr' <;> cases hr.symm.trans hr'
    | reopened hr' | asked hr' | retested hr' | lost hr' | probed hr' => cases hr.symm.trans hr'
  · intro hlate
    have htimers : ∀ t, p.receiverTimers t now =
        { peer := { p with receiver := .waitTickleAck, recvTries := 1, recvAt := now }
          tables := t
          out := .act (p.send p.connLocal 0 .tickle) } := by
      intro t
      unfold Peer.receiverTimers
      rw [hr]
      exact if_pos hlate
    constructor
    · obtain ⟨t, ht⟩ := (Core.sentTo_tick (c := ⟨tables, s⟩)
        (fun ip p hp => hs.addr ip p hp) ip now).2 p hp
      rw [show (s.call (.tick tables, now)).2 =
        (Core.step ⟨tables, s⟩ (.tick, now)).2 from rfl, ht]
      unfold Peer.timers
      dsimp only
      rw [sentTo_report, hscan, htimers]
      have htickle : sentTo ip [p.send p.connLocal 0 .tickle] = [(p.connLocal, 0, .tickle)] := by
        have hparse := Aurp.parse_routing { dst := p.di, src := p.local } p.connLocal 0 .tickle
        have hsend : p.send p.connLocal 0 .tickle = .toPeer ip
            (Aurp.routing { dst := p.di, src := p.local } p.connLocal 0 .tickle).toBytes := by
          rw [← haddr]
          rfl
        rw [hsend]
        unfold sentTo routingOf
        simp only [List.filterMap_cons, if_true, hparse]
        rfl
      simp only [Out.append_acts, sentTo_append, List.mem_append]
      refine Or.inl (Or.inl (Or.inr ?_))
      show _ ∈ sentTo ip [p.send p.connLocal 0 .tickle]
      rw [htickle]
      exact List.mem_singleton_self _
    · have hwait : ∀ scan, (p.timed scan now).receiver = .waitTickleAck := by
        intro scan
        unfold Peer.timed
        rw [hscan, (Peer.senderTimers_kept _ now).1, htimers]
      refine ⟨p.timed (RECONNECT_SCAN ≤ since now s.lastScan) now, ?_, hwait _⟩
      refine (entry_ticked s tables now ip).trans (Option.filter_eq_some_iff.2 ⟨?_, ?_⟩)
      · exact Option.map_eq_some_iff.2 ⟨p, hp, rfl⟩
      · simp [keeps, hwait]

/-- A data packet touches the entry's last-heard-from time, and no other timer. -/
theorem entry_data {s : Peers} {ip : Ipv4Addr} {p : Peer} (hp : s.entry ip = some p)
    {bytes : Bytes} {dh : DomainHeader} {ddp : Bytes}
    (hpkt : Aurp.parse bytes = some (.data dh ddp)) (tables : Tables) (now : Instant) :
    (s.next (.packet ip bytes tables, now)).entry ip =
      some { p with di := namedBy dh.src ip, lastHeard := now } :=
  entry_received hpkt hp tables now

/-- **What keeps a connection alive.** In every run, a connected peer whose latest answer is
overdue is tested by a tick just in case no data packet has come from it lately; and a data packet
leaves the timers of its sender alone just in case the peer was heard at that very instant. -/
theorem tested_iff_no_data («local» : Di) (openPeering : Bool) (configured : List Str)
    (nanos : UInt16) (start : Instant) (ip : Ipv4Addr) (cs : List (Call × Instant)) (p : Peer)
    (hp : ((new «local» openPeering configured nanos start).after cs).entry ip = some p) :
    (p.receiver = .connected →
      ∃ a, (contact ip (new «local» openPeering configured nanos start) ⟨none, none⟩ cs).answered =
          some a ∧
        ∀ tables now, LAST_HEARD < since now a →
          (((new «local» openPeering configured nanos start).after cs).Tickles ip p tables now ↔
            ∀ d ∈ (contact ip (new «local» openPeering configured nanos start)
              ⟨none, none⟩ cs).data, LAST_HEARD < since now d)) ∧
      ∀ bytes dh ddp tables now, Aurp.parse bytes = some (.data dh ddp) →
        ((∃ di, (((new «local» openPeering configured nanos start).after cs).next
            (.packet ip bytes tables, now)).entry ip = some { p with di := di }) ↔
          p.lastHeard = now) := by
  have hreached : ((new «local» openPeering configured nanos start).after cs).Reached :=
    ⟨_, _, _, _, _, cs, rfl⟩
  have hnew : Timed ip (new «local» openPeering configured nanos start) ⟨none, none⟩ :=
    fun p hp => (by cases hp)
  have hheard := hnew.after cs
  refine ⟨fun hr => ?_, fun bytes dh ddp tables now hpkt => ?_⟩
  · obtain ⟨a, ha, hlast⟩ := hheard p hp (by simp [Peer.receiverOpen, hr])
    refine ⟨a, ha, fun tables now hlate => ?_⟩
    rw [tickles_iff hreached hp hr, hlast]
    cases (contact ip (new «local» openPeering configured nanos start) ⟨none, none⟩ cs).data with
    | none => simpa using hlate
    | some d => simp
  · rw [entry_data hp hpkt]
    constructor
    · rintro ⟨di, hdi⟩
      exact (congrArg Peer.lastHeard (Option.some.inj hdi)).symm
    · rintro rfl
      exact ⟨_, rfl⟩

/-- The stranger answers our Open-Req, and then our RI-Req with an empty table. -/
def answers : List (Call × Instant) :=
  [opens 7, (.packet ⟨192, 0, 2, 1⟩ (peerPacket 1 0 (.openRsp 0 1 [])) .new, 0),
    (.packet ⟨192, 0, 2, 1⟩ (peerPacket 1 1 (.riRsp true [])) .new, 0)]

/-- And sends a data packet, eighty seconds later. -/
def talks : Call × Instant :=
  (.packet ⟨192, 0, 2, 1⟩ (Aurp.data ⟨.null, .null⟩ (0 :: 13 :: List.replicate 11 0)).toBytes .new,
    fromSecs 80)

/-- The stranger, once it is connected. -/
def answered : Peer := ((welcoming.after answers).entry ⟨192, 0, 2, 1⟩).get (by decide +kernel)

theorem entry_answered : (welcoming.after answers).entry ⟨192, 0, 2, 1⟩ = some answered :=
  (Option.some_get _).symm

theorem tested_iff_no_data_silent :
    (welcoming.after answers).Tickles ⟨192, 0, 2, 1⟩ answered .new (fromSecs 100) := by
  have hr : answered.receiver = .connected := by decide +kernel
  obtain ⟨a, ha, h⟩ := (tested_iff_no_data (.ip ⟨192, 0, 2, 9⟩) true [] 0 0 ⟨192, 0, 2, 1⟩ answers
    answered entry_answered).1 hr
  have hlast : contact ⟨192, 0, 2, 1⟩ welcoming ⟨none, none⟩ answers = ⟨some 0, none⟩ := by
    decide +kernel
  rw [show new _ _ _ _ _ = welcoming from rfl, hlast] at ha h
  cases ha
  refine (h .new (fromSecs 100) (by decide)).2 fun d hd => ?_
  cases hd

/-- A peer that last answered a hundred seconds ago is not tested, for the sake of one data packet
eighty seconds in. -/
theorem dead_not_tested :
    ¬∀ («local» : Di) (openPeering : Bool) (configured : List Str) (nanos : UInt16)
        (start : Instant) (ip : Ipv4Addr) (cs : List (Call × Instant)) (p : Peer) (a : Instant),
      let s := new «local» openPeering configured nanos start
      (s.after cs).entry ip = some p → p.receiver = .connected →
        (contact ip s ⟨none, none⟩ cs).answered = some a →
          ∀ tables now, LAST_HEARD < since now a → (s.after cs).Tickles ip p tables now := by
  intro h
  have hp : ((welcoming.after (answers ++ [talks])).entry ⟨192, 0, 2, 1⟩).isSome := by
    decide +kernel
  obtain ⟨p, hp⟩ := Option.isSome_iff_exists.1 hp
  have hr : ((welcoming.after (answers ++ [talks])).entry ⟨192, 0, 2, 1⟩).all
      (fun p => p.receiver = .connected) := by decide +kernel
  rw [hp, Option.all_some, decide_eq_true_iff] at hr
  obtain ⟨-, q, hq, hwait⟩ := h (.ip ⟨192, 0, 2, 9⟩) true [] 0 0 ⟨192, 0, 2, 1⟩
    (answers ++ [talks]) p 0 hp hr (by decide +kernel) .new (fromSecs 100) (by decide)
  have hstill : (((welcoming.after (answers ++ [talks])).next (.tick .new, fromSecs 100)).entry
      ⟨192, 0, 2, 1⟩).all (fun p => p.receiver = .connected) := by decide +kernel
  rw [show welcoming = new (.ip ⟨192, 0, 2, 9⟩) true [] 0 0 from rfl, hq, Option.all_some,
    decide_eq_true_iff, hwait] at hstill
  cases hstill

end Peers

end AppleTalk
