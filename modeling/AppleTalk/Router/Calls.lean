import AppleTalk.Router.Moves

/-!
# The peers by themselves

The tunnel peers as a machine of their own: whatever the rest of the router hands them, in any
order and with any tables. A call acts on each entry by one of a few changes, and each change
leaves our side of the connection the peer opened alone or is one of a few steps of the sender.
-/

namespace AppleTalk

/-! ### Calls -/

namespace Peers

/-- What the router asks of the peers. -/
inductive Call
  | packet («from» : Ipv4Addr) (bytes : Bytes) (tables : Tables)
  | tick (tables : Tables)
  | routeChanged (ch : List RouteChange) (tables : Tables)
  | resolved (name : Str) (addr : Ipv4Addr)
  | ping
  | pingReport
  | shutdown

/-- One call, and what it sends. -/
def call (s : Peers) (c : Call × Instant) : Peers × List Action :=
  match c.1 with
  | .packet «from» bytes tables =>
    let r := s.packet «from» bytes tables c.2
    (r.peers, r.acts)
  | .tick tables =>
    let r := s.tick tables c.2
    (r.peers, r.acts)
  | .routeChanged ch tables => (s.routeChanged ch tables, [])
  | .resolved name addr => (s.resolved name addr c.2, [])
  | .ping => s.ping c.2
  | .pingReport => (s.pingReport.1, [])
  | .shutdown => s.shutdown c.2

/-- The peers after a call. -/
def next (s : Peers) (c : Call × Instant) : Peers := (s.call c).1

/-- The peers after a run of calls. -/
def after (s : Peers) (cs : List (Call × Instant)) : Peers := Machine.run next s cs

/-- The entry of an address. -/
def entry (s : Peers) (ip : Ipv4Addr) : Option Peer := s.peers.get? ip

/-- The peers after some calls on peers just built. -/
def Reached (s : Peers) : Prop :=
  ∃ «local» openPeering configured nanos now cs,
    s = (new «local» openPeering configured nanos now).after cs

/-- The invariant rule of the peers. -/
theorem Reached.invariant {I : Peers → Prop} {s : Peers} (h : s.Reached)
    (hnew : ∀ «local» openPeering configured nanos now,
      I (new «local» openPeering configured nanos now))
    (hnext : ∀ s c, I s → I (next s c)) : I s := by
  obtain ⟨_, _, _, _, _, cs, rfl⟩ := h
  exact Machine.run_invariant hnext (hnew _ _ _ _ _) cs

theorem Reached.next {s : Peers} (h : s.Reached) (c : Call × Instant) : (s.next c).Reached := by
  obtain ⟨«local», openPeering, configured, nanos, now, cs, rfl⟩ := h
  exact ⟨«local», openPeering, configured, nanos, now, cs ++ [c],
    (Machine.run_append Peers.next _ cs [c]).symm⟩

end Peers

/-- What a call makes of the entry of an address. -/
inductive Peer.Change (ip : Ipv4Addr) (c : Peers.Call × Instant) : Peer → Peer → Prop
  | kept (p : Peer) : Change ip c p p
  | received (p : Peer) (bytes : Bytes) (tables : Tables) (pkt : Aurp)
    (hc : c.1 = .packet ip bytes tables) (hpkt : Aurp.parse bytes = some pkt) :
    Change ip c p (p.received ip pkt tables c.2)
  | timed (p : Peer) (scan : Bool) (tables : Tables) (hc : c.1 = .tick tables) :
    Change ip c p (p.timed scan c.2)
  | heard (p : Peer) (evs : List EventTuple) : Change ip c p (p.hear evs)
  | named (p : Peer) (name : Str) : Change ip c p { p with configured := some name }
  | pinged (p : Peer) : Change ip c p (p.pinged c.2)
  | taken (p : Peer) : Change ip c p (Peers.pingTaken p)
  | shut (p : Peer) (hc : c.1 = .shutdown) : Change ip c p (p.shut c.2)

namespace Peers

/-! ### What a call makes of an entry -/

section Entries

variable {s : Peers} {ip «from» addr : Ipv4Addr} {p : Peer} {bytes : Bytes} {pkt : Aurp}

/-- A packet from another address leaves an entry alone. -/
theorem entry_elsewhere (h : «from» ≠ ip) (tables : Tables) (now : Instant) :
    (s.next (.packet «from» bytes tables, now)).entry ip = s.entry ip :=
  (Core.packet_entry s tables «from» ip bytes now).trans (if_neg h)

/-- A packet that cannot be read leaves the entry of its address alone. -/
theorem entry_unread (hpkt : Aurp.parse bytes = none) (tables : Tables) (now : Instant) :
    (s.next (.packet ip bytes tables, now)).entry ip = s.entry ip := by
  refine (Core.packet_entry s tables ip ip bytes now).trans ?_
  unfold Core.entryStep
  dsimp only
  rw [if_pos rfl, hpkt]
  rfl

/-- A packet that can be read acts on the entry of its address. -/
theorem entry_received (hpkt : Aurp.parse bytes = some pkt) (hp : s.entry ip = some p)
    (tables : Tables) (now : Instant) :
    (s.next (.packet ip bytes tables, now)).entry ip = some (p.received ip pkt tables now) := by
  refine (Core.packet_entry s tables ip ip bytes now).trans ?_
  unfold Core.entryStep Core.recipient
  dsimp only
  rw [if_pos rfl, hpkt, show Core.entry ⟨tables, s⟩ ip = some p from hp]
  rfl

/-- Without an entry it is turned away, or acts on a new one that nobody configured. -/
theorem entry_admitted (hpkt : Aurp.parse bytes = some pkt) (hp : s.entry ip = none)
    (tables : Tables) (now : Instant) :
    (s.next (.packet ip bytes tables, now)).entry ip = none ∨
      (s.next (.packet ip bytes tables, now)).entry ip =
        some ((Peer.new ip none s.nextConn s.local now).received ip pkt tables now) := by
  have hentry : (s.next (.packet ip bytes tables, now)).entry ip = _ :=
    Core.packet_entry s tables ip ip bytes now
  rw [hentry]
  unfold Core.entryStep Core.recipient
  dsimp only
  rw [if_pos rfl, hpkt, show Core.entry ⟨tables, s⟩ ip = none from hp]
  dsimp only
  split_ifs
  · exact Or.inr rfl
  · exact Or.inl rfl

/-- A tick runs the timers of an entry and drops it if nothing keeps it. -/
theorem entry_ticked (s : Peers) (tables : Tables) (now : Instant) (ip : Ipv4Addr) :
    (s.next (.tick tables, now)).entry ip =
      ((s.entry ip).map fun p => p.timed (RECONNECT_SCAN ≤ since now s.lastScan) now).filter
        (keeps now) :=
  Core.tick_entry s tables ip now

/-- A name that resolved to an address with an entry is written there. -/
theorem entry_renamed (hp : s.entry addr = some p) (name : Str) (now : Instant) (ip : Ipv4Addr) :
    (s.next (.resolved name addr, now)).entry ip =
      if addr = ip then some { p with configured := some name } else s.entry ip := by
  show (s.resolved name addr now).peers.get? ip = _
  unfold resolved
  rw [show s.peers.get? addr = some p from hp]
  exact SortedMap.get?_insert s.peers addr ip _

/-- A name that resolved to an address without one gets a new entry, and loses any other. -/
theorem entry_resolved (hp : s.entry addr = none) (name : Str) (now : Instant) (ip : Ipv4Addr) :
    (s.next (.resolved name addr, now)).entry ip =
      if addr = ip then some (Peer.new addr (some name) s.nextConn s.local now)
      else (s.entry ip).filter fun p => p.configured ≠ some name := by
  show (s.resolved name addr now).peers.get? ip = _
  unfold resolved
  rw [show s.peers.get? addr = none from hp]
  dsimp only [create]
  rw [SortedMap.get?_insert, SortedMap.get?_retain]
  rfl

end Entries

/-- **The call rule.** An entry after a call is a change of the entry before it, or of a new one
where there was none. -/
theorem entry_next {s : Peers} {c : Call × Instant} {ip : Ipv4Addr} {q : Peer}
    (h : (s.next c).entry ip = some q) :
    ∃ p, (s.entry ip = some p ∨ s.entry ip = none ∧ ∃ configured,
        p = Peer.new ip configured s.nextConn s.local c.2) ∧ Peer.Change ip c p q := by
  obtain ⟨c, now⟩ := c
  have hkept : s.entry ip = some q → ∃ p, (s.entry ip = some p ∨ s.entry ip = none ∧
      ∃ configured, p = Peer.new ip configured s.nextConn s.local now) ∧
      Peer.Change ip (c, now) p q := fun hq => ⟨q, Or.inl hq, .kept q⟩
  cases c with
  | packet «from» bytes tables =>
    by_cases hip : «from» = ip
    · subst hip
      cases hpkt : Aurp.parse bytes with
      | none => exact hkept ((entry_unread hpkt tables now).symm.trans h)
      | some pkt =>
        cases he : s.entry «from» with
        | some p =>
          obtain rfl := Option.some.inj ((entry_received hpkt he tables now).symm.trans h)
          exact ⟨p, Or.inl rfl, .received p bytes tables pkt rfl hpkt⟩
        | none =>
          rcases entry_admitted hpkt he tables now with hnone | hnew
          · cases hnone.symm.trans h
          · obtain rfl := Option.some.inj (hnew.symm.trans h)
            exact ⟨_, Or.inr ⟨rfl, none, rfl⟩, .received _ bytes tables pkt rfl hpkt⟩
    · exact hkept ((entry_elsewhere hip tables now).symm.trans h)
  | tick tables =>
    rw [entry_ticked] at h
    obtain ⟨h, -⟩ := Option.filter_eq_some_iff.1 h
    obtain ⟨p, hp, rfl⟩ := Option.map_eq_some_iff.1 h
    exact ⟨p, Or.inl hp, .timed p _ tables rfl⟩
  | routeChanged ch tables =>
    have h : (s.routeChanged ch tables).peers.get? ip = some q := h
    unfold routeChanged at h
    rw [SortedMap.get?_mapValues] at h
    obtain ⟨p, hp, rfl⟩ := Option.map_eq_some_iff.1 h
    exact ⟨p, Or.inl hp, .heard p _⟩
  | resolved name addr =>
    cases he : s.entry addr with
    | some p =>
      rw [entry_renamed he] at h
      split_ifs at h with hip
      · subst hip
        obtain rfl := Option.some.inj h
        exact ⟨p, Or.inl he, .named p name⟩
      · exact hkept h
    | none =>
      rw [entry_resolved he] at h
      split_ifs at h with hip
      · subst hip
        obtain rfl := Option.some.inj h
        exact ⟨_, Or.inr ⟨he, some name, rfl⟩, .kept _⟩
      · exact hkept (Option.filter_eq_some_iff.1 h).1
  | ping =>
    obtain ⟨p, hp, rfl⟩ := Option.map_eq_some_iff.1 ((s.ping_get? ip now).symm.trans h)
    exact ⟨p, Or.inl hp, .pinged p⟩
  | pingReport =>
    have h : s.pingReport.1.peers.get? ip = some q := h
    rcases Core.samePeers_pingReport s ip with he | he
    · exact hkept (he.symm.trans h)
    · obtain ⟨p, hp, rfl⟩ := Option.map_eq_some_iff.1 (he.symm.trans h)
      exact ⟨p, Or.inl hp, .taken p⟩
  | shutdown =>
    obtain ⟨p, hp, rfl⟩ := Option.map_eq_some_iff.1 ((s.shutdown_get? ip now).symm.trans h)
    exact ⟨p, Or.inl hp, .shut p rfl⟩

end Peers

/-! ### The sender's side of an entry -/

namespace Peer

/-- Our side of the connection the peer opened is the same, down to the probe. -/
def SameSender (p q : Peer) : Prop := q.sending = p.sending ∧ q.probing = p.probing

theorem SameSender.rfl {p : Peer} : p.SameSender p := ⟨Eq.refl _, Eq.refl _⟩

/-- What a routing packet does to our side of the connection the peer opened. -/
inductive Routed (p : Peer) (conn seq : UInt16) (cmd : Cmd) (tables : Tables) (now : Instant) :
    Peer → Prop
  | same {q : Peer} (h : p.SameSender q) : Routed p conn seq cmd tables now q
  | opened (sui version : UInt16) (options : List (UInt8 × Bytes))
    (hcmd : cmd = .openReq sui version options) :
    Routed p conn seq cmd tables now (p.openReq conn version options now).1
  | asked (h : p.takesRiReq conn) :
    Routed p conn seq cmd tables now ({ p with
      seqSend := 0, outstanding := none, pages := splitTuples tables.export }.sendPage now).1
  | acked (szi : Bool) (hcmd : cmd = .riAck szi) (h : conn = p.connRemote) :
    Routed p conn seq cmd tables now (p.riAck seq szi tables now).1
  | down (code : Int16) (hcmd : cmd = .rd code) (h : p.onReceiver conn) :
    Routed p conn seq cmd tables now p.closeReceiver.closeSender

theorem sequenced_sameSender (p : Peer) (conn seq : UInt16) (last : Bool) (tables : Tables)
    (now : Instant) (apply : Tables × List RouteChange) (szi : Bool) :
    p.SameSender (p.sequenced conn seq last tables now apply szi).peer := by
  unfold sequenced
  dsimp only
  split
  · split_ifs <;> exact ⟨rfl, rfl⟩
  · exact ⟨rfl, rfl⟩
  · exact ⟨rfl, rfl⟩
  · exact ⟨rfl, rfl⟩

/-- **What a routing packet does to the sender's side.** -/
theorem routing_routed (p : Peer) (conn seq : UInt16) (cmd : Cmd) (tables : Tables)
    (now : Instant) :
    Routed p conn seq cmd tables now (p.routing conn seq cmd tables now).peer := by
  unfold routing
  dsimp only
  cases cmd with
  | openReq sui version options => exact .opened sui version options rfl
  | riReq =>
    dsimp only
    split_ifs with h
    · exact .asked h
    · exact .same .rfl
  | riAck szi =>
    dsimp only
    split_ifs with h
    · exact .acked szi rfl h
    · exact .same .rfl
  | rd code =>
    dsimp only
    split_ifs with h
    · exact .down code rfl h
    · exact .same .rfl
  | riRsp =>
    dsimp only
    split_ifs
    · exact .same (sequenced_sameSender _ _ _ _ _ _ _ _)
    · exact .same .rfl
  | riUpd =>
    dsimp only
    split_ifs
    · exact .same (sequenced_sameSender _ _ _ _ _ _ _ _)
    · exact .same .rfl
  | gznRsp => exact .same .rfl
  | gdzlRsp => exact .same .rfl
  | _ =>
    dsimp only
    split_ifs <;> exact .same ⟨rfl, rfl⟩

/-- What an accepted Open-Req leaves of the sender. -/
theorem openReq_cases (p : Peer) (conn version : UInt16) (options : List (UInt8 × Bytes))
    (now : Instant) :
    p.SameSender (p.openReq conn version options now).1 ∨
      (p.openReq conn version options now).1.sender = .waitRiUpdAck ∧ p.sender ≠ .unconnected ∧
        conn ≠ p.connRemote ∧ p.outstanding = none ∨
      version = 1 ∧ options = [] ∧ (p.sender = .unconnected ∨ conn = p.connRemote) ∧
        (p.openReq conn version options now).1.sender = .connected ∧
        (p.openReq conn version options now).1.probing = p.probing := by
  unfold openReq
  dsimp only
  split_ifs with h1 h2 h3 h4 h5
  · exact Or.inl .rfl
  · exact Or.inl .rfl
  · exact Or.inr (Or.inl ⟨rfl, h3.1, h3.2, by simpa using h4.2⟩)
  · exact Or.inl .rfl
  · exact Or.inr (Or.inr ⟨not_not.1 h1, not_not.1 h2, by tauto, rfl, rfl⟩)
  · exact Or.inr (Or.inr ⟨not_not.1 h1, not_not.1 h2, by tauto, rfl, rfl⟩)

/-- The timers of the connection we opened leave the other one alone, except that a peer whose
tickles went unanswered is probed on it. -/
theorem receiverTimers_sender (p : Peer) (tables : Tables) (now : Instant) :
    p.SameSender (p.receiverTimers tables now).peer ∨
      p.sender = .connected ∧ ∃ p', p.SameSender p' ∧
        (p.receiverTimers tables now).peer =
          { (p'.sendSequenced nullUpd [] now).1 with sender := .waitRiUpdAck } := by
  have h := p.receiverTimers_timed tables now
  generalize p.receiverTimers tables now = r at h ⊢
  cases h with
  | probed _ _ _ hs => exact Or.inr ⟨hs, p.closeReceiver, ⟨rfl, rfl⟩, rfl⟩
  | _ => exact Or.inl ⟨rfl, rfl⟩

theorem scan_sameSender (p : Peer) (scan : Bool) (now : Instant) :
    p.SameSender (if scan then p.reconnect now else (p, .nil)).1 := by
  rcases p.scan_cases scan now with hscan | ⟨-, -, hscan⟩
  · rw [hscan]
    exact .rfl
  · rw [hscan]
    exact ⟨rfl, rfl⟩

theorem pinged_sameSender (p : Peer) (now : Instant) : p.SameSender (p.pinged now) := by
  unfold pinged
  split <;> exact ⟨rfl, rfl⟩

/-- Every change of an entry keeps its outstanding packet the last it was sent. -/
theorem Change.ok {ip : Ipv4Addr} {c : Peers.Call × Instant} {p q : Peer} (h : Change ip c p q)
    (hok : p.sending.Ok) : q.sending.Ok := by
  cases h with
  | kept | named | taken => exact hok
  | received bytes tables pkt _ _ =>
    cases pkt with
    | data dh ddp => exact hok
    | routing dh conn seq cmd =>
      obtain ⟨sent, hm, -⟩ := (p.named dh ip).routing_sending conn seq cmd tables c.2
      exact Sending.Ok.move (s := p.sending) hok hm
  | timed scan tables _ =>
    obtain ⟨sent, hm, -⟩ := timers_sending [] hok scan false tables c.2
    exact hok.move hm
  | heard evs =>
    unfold hear
    split_ifs
    · exact hok
    · exact hok
  | pinged =>
    rw [p.pinged_sending c.2]
    exact hok
  | shut _ =>
    obtain ⟨sent, hm, -⟩ := p.shut_sending [] c.2
    exact hok.move hm

end Peer

namespace Peers

/-- In every run the outstanding packet of an entry is the last it was sent. -/
theorem Reached.ok {s : Peers} (h : s.Reached) : ∀ ip p, s.entry ip = some p → p.sending.Ok := by
  refine h.invariant (I := fun s => ∀ ip p, s.entry ip = some p → p.sending.Ok)
    (fun _ _ _ _ _ ip p hp => by cases hp) fun s c hs ip q hq => ?_
  obtain ⟨p, hp, hc⟩ := entry_next hq
  refine hc.ok ?_
  rcases hp with hp | ⟨-, configured, rfl⟩
  · exact hs ip p hp
  · exact Sending.Ok.none rfl

end Peers

end AppleTalk
