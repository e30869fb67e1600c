import AppleTalk.Router.Core

/-!
# How a peer's entry moves

The peer table changes one entry at a time, so every input of the core acts on the entry of an
address as a function of that entry. Reported route changes then queue events on it.
-/

namespace AppleTalk

open TableOp

namespace Peer

/-- Queue events on a peer we are sender to. -/
def hear (p : Peer) (evs : List EventTuple) : Peer :=
  if p.sender = .unconnected then p else { p with pending := evs.foldl queue p.pending }

@[simp] theorem hear_nil (p : Peer) : p.hear [] = p := by
  unfold hear
  split_ifs <;> rfl

/-- A peer whose domain identifier is what its last packet named. -/
def named (p : Peer) (dh : DomainHeader) («from» : Ipv4Addr) : Peer :=
  { p with di := namedBy dh.src «from» }

/-- What a packet leaves of its sender's entry. -/
def received (p : Peer) («from» : Ipv4Addr) (pkt : Aurp) (tables : Tables) (now : Instant) :
    Peer :=
  match pkt with
  | .data dh _ => { p.named dh «from» with lastHeard := now }
  | .routing dh conn seq cmd => ((p.named dh «from»).routing conn seq cmd tables now).peer

/-- What the timers leave of an entry; the tables do not matter. -/
def timed (p : Peer) (scan : Bool) (now : Instant) : Peer :=
  ((((if scan then p.reconnect now else (p, .nil)).1.receiverTimers .new now).peer).senderTimers
    now).1

theorem receiverTimers_peer (p : Peer) (t u : Tables) (now : Instant) :
    (p.receiverTimers t now).peer = (p.receiverTimers u now).peer := by
  unfold receiverTimers
  dsimp only
  split
  · split_ifs <;> rfl
  · split_ifs <;> rfl
  · split_ifs <;> rfl
  · split_ifs <;> rfl
  · rfl

theorem timers_peer (p : Peer) (scan zi : Bool) (tables : Tables) (now : Instant) :
    (p.timers scan zi tables now).peer = p.timed scan now := by
  simp only [timers, timed, receiverTimers_peer _ tables .new now]

/-- What the shutdown leaves of an entry. -/
def shut (p : Peer) (now : Instant) : Peer :=
  if p.sender = .unconnected ∨ p.sender = .waitRdAck then p
  else { ({ p with outstanding := none, pages := [] }.sendSequenced (.rd (-1)) [] now).1 with
    sender := .waitRdAck }

/-- What the operator's ping leaves of an entry. -/
def pinged (p : Peer) (now : Instant) : Peer :=
  match p.receiver with
  | .connected =>
    { p with receiver := .waitTickleAck, recvTries := 1, recvAt := now
             pingedAt := some now, pingRtt := none }
  | .waitTickleAck => { p with pingedAt := some now, pingRtt := none }
  | _ => p

end Peer

/-! ### What an entry keeps -/

namespace Peer

/-- The address an entry is for and the name it is configured under. -/
def identity (p : Peer) : Ipv4Addr × Option Str := (p.addr, p.configured)

theorem configured_eq {p q : Peer} (h : q.identity = p.identity) : q.configured = p.configured :=
  congrArg Prod.snd h

theorem hear_identity (p : Peer) (evs : List EventTuple) : (p.hear evs).identity = p.identity := by
  unfold hear
  split_ifs <;> rfl

theorem openReq_identity (p : Peer) (conn version : UInt16) (options : List (UInt8 × Bytes))
    (now : Instant) : (p.openReq conn version options now).1.identity = p.identity := by
  unfold openReq
  dsimp only
  split_ifs <;> rfl

theorem sendPage_identity (p : Peer) (now : Instant) :
    (p.sendPage now).1.identity = p.identity := by
  unfold sendPage
  split <;> rfl

theorem riAck_identity (p : Peer) (seq : UInt16) (szi : Bool) (tables : Tables) (now : Instant) :
    (p.riAck seq szi tables now).1.identity = p.identity := by
  have h := p.riAck_acked seq szi tables now
  generalize p.riAck seq szi tables now = r at h ⊢
  cases h with
  | paged => exact sendPage_identity _ now
  | _ => rfl

theorem sequenced_identity (p : Peer) (conn seq : UInt16) (last : Bool) (tables : Tables)
    (now : Instant) (apply : Tables × List RouteChange) (szi : Bool) :
    (p.sequenced conn seq last tables now apply szi).peer.identity = p.identity := by
  unfold sequenced
  dsimp only
  split
  · split_ifs <;> rfl
  · rfl
  · rfl
  · rfl

theorem routing_identity (p : Peer) (conn seq : UInt16) (cmd : Cmd) (tables : Tables)
    (now : Instant) : (p.routing conn seq cmd tables now).peer.identity = p.identity := by
  unfold routing
  dsimp only
  cases cmd with
  | openReq => exact openReq_identity _ _ _ _ _
  | riReq =>
    dsimp only
    split_ifs
    · exact sendPage_identity _ now
    · rfl
  | riAck =>
    dsimp only
    split_ifs
    · exact riAck_identity _ _ _ _ _
    · rfl
  | riRsp =>
    dsimp only
    split_ifs
    · exact sequenced_identity _ _ _ _ _ _ _ _
    · rfl
  | riUpd =>
    dsimp only
    split_ifs
    · exact sequenced_identity _ _ _ _ _ _ _ _
    · rfl
  | gznRsp => rfl
  | gdzlRsp => rfl
  | _ =>
    dsimp only
    split_ifs <;> rfl

theorem received_identity (p : Peer) («from» : Ipv4Addr) (pkt : Aurp) (tables : Tables)
    (now : Instant) : (p.received «from» pkt tables now).identity = p.identity := by
  cases pkt with
  | data dh ddp => rfl
  | routing dh conn seq cmd => exact routing_identity _ conn seq cmd tables now

theorem receiverTimers_identity (p : Peer) (tables : Tables) (now : Instant) :
    (p.receiverTimers tables now).peer.identity = p.identity := by
  have h := p.receiverTimers_timed tables now
  generalize p.receiverTimers tables now = r at h ⊢
  cases h <;> rfl

theorem senderTimers_identity (p : Peer) (now : Instant) :
    (p.senderTimers now).1.identity = p.identity := by
  have h := p.senderTimers_timed now
  generalize p.senderTimers now = r at h ⊢
  cases h with
  | updated _ _ _ _ hr =>
    rw [hr]
    rfl
  | _ => rfl

/-- The timers of the connection the peer opened leave the other one alone. -/
theorem senderTimers_kept (p : Peer) (now : Instant) :
    (p.senderTimers now).1.receiver = p.receiver ∧
      (p.senderTimers now).1.lastHeard = p.lastHeard := by
  have h := p.senderTimers_timed now
  generalize p.senderTimers now = r at h ⊢
  cases h with
  | updated _ _ _ _ hr =>
    rw [hr]
    exact ⟨rfl, rfl⟩
  | _ => exact ⟨rfl, rfl⟩

theorem timed_identity (p : Peer) (scan : Bool) (now : Instant) :
    (p.timed scan now).identity = p.identity := by
  unfold timed
  rw [senderTimers_identity, receiverTimers_identity]
  rcases p.scan_cases scan now with hscan | ⟨-, -, hscan⟩
  · rw [hscan]
  · rw [hscan]
    rfl

theorem shut_identity (p : Peer) (now : Instant) : (p.shut now).identity = p.identity := by
  unfold shut
  split_ifs <;> rfl

theorem pinged_identity (p : Peer) (now : Instant) : (p.pinged now).identity = p.identity := by
  unfold pinged
  split <;> rfl

@[simp] theorem hear_addr (p : Peer) (evs : List EventTuple) : (p.hear evs).addr = p.addr :=
  congrArg Prod.fst (p.hear_identity evs)

@[simp] theorem received_addr (p : Peer) («from» : Ipv4Addr) (pkt : Aurp) (tables : Tables)
    (now : Instant) : (p.received «from» pkt tables now).addr = p.addr :=
  congrArg Prod.fst (p.received_identity «from» pkt tables now)

theorem receiverTimers_addr (p : Peer) (tables : Tables) (now : Instant) :
    (p.receiverTimers tables now).peer.addr = p.addr :=
  congrArg Prod.fst (p.receiverTimers_identity tables now)

theorem senderTimers_addr (p : Peer) (now : Instant) : (p.senderTimers now).1.addr = p.addr :=
  congrArg Prod.fst (p.senderTimers_identity now)

@[simp] theorem timed_addr (p : Peer) (scan : Bool) (now : Instant) :
    (p.timed scan now).addr = p.addr :=
  congrArg Prod.fst (p.timed_identity scan now)

@[simp] theorem shut_addr (p : Peer) (now : Instant) : (p.shut now).addr = p.addr :=
  congrArg Prod.fst (p.shut_identity now)

@[simp] theorem pinged_addr (p : Peer) (now : Instant) : (p.pinged now).addr = p.addr :=
  congrArg Prod.fst (p.pinged_identity now)

end Peer

namespace Peers

theorem ping_get? (s : Peers) (ip : Ipv4Addr) (now : Instant) :
    (s.ping now).1.peers.get? ip = (s.peers.get? ip).map fun p => p.pinged now := by
  unfold ping
  dsimp only
  rw [SortedMap.mapAccum_eq_mapValues (g := fun p => p.pinged now), SortedMap.get?_mapValues]
  intro a k p
  cases h : p.receiver <;> simp only [Peer.pinged, h]

theorem shutdown_get? (s : Peers) (ip : Ipv4Addr) (now : Instant) :
    (s.shutdown now).1.peers.get? ip = (s.peers.get? ip).map fun p => p.shut now := by
  unfold shutdown
  dsimp only
  rw [SortedMap.mapAccum_eq_mapValues (g := fun p => p.shut now), SortedMap.get?_mapValues]
  intro a k p
  unfold Peer.shut
  dsimp only
  split_ifs <;> rfl

end Peers

namespace Core

/-- The entry of an address. -/
def entry (c : Core) (ip : Ipv4Addr) : Option Peer := c.peers.peers.get? ip

/-- The entry a packet from an address is delivered to: the one it has, or a new one if open
peering has room. -/
def recipient (c : Core) (ip : Ipv4Addr) (now : Instant) : Option Peer :=
  match c.entry ip with
  | some p => some p
  | none =>
    if c.peers.openPeering ∧ c.peers.peers.size < MAX_OPEN_PEERS then
      some (Peer.new ip none c.peers.nextConn c.peers.local now)
    else none

/-- The entry of an address after an input, before the route changes are reported. -/
def entryStep (c : Core) (i : CoreIn × Instant) (ip : Ipv4Addr) : Option Peer :=
  let now := i.2
  match i.1 with
  | .batch _ => c.entry ip
  | .packet «from» bytes =>
    if «from» = ip then
      match Aurp.parse bytes with
      | none => c.entry ip
      | some pkt => (c.recipient ip now).map fun p => p.received ip pkt c.tables now
    else c.entry ip
  | .tick =>
    ((c.entry ip).map fun p =>
      p.timed (RECONNECT_SCAN ≤ since now c.peers.lastScan) now).filter (Peers.keeps now)
  | .resolved name addr =>
    match c.entry addr with
    | some p => if addr = ip then some { p with configured := some name } else c.entry ip
    | none =>
      if addr = ip then some (Peer.new ip (some name) c.peers.nextConn c.peers.local now)
      else (c.entry ip).filter fun p => p.configured ≠ some name
  | .ping => (c.entry ip).map fun p => p.pinged now
  | .pingReport => c.peers.pingReport.1.peers.get? ip
  | .shutdown => (c.entry ip).map fun p => p.shut now

/-- The events an input reports. -/
def reported (c : Core) (i : CoreIn × Instant) : List EventTuple :=
  (applyAll c.tables (c.ops i)).2.filterMap (Peers.eventOf (c.next i).tables)

theorem report_entry (c : Core) (chs : List RouteChange) (ip : Ipv4Addr) :
    (c.report chs).entry ip =
      (c.entry ip).map fun p => p.hear (chs.filterMap (Peers.eventOf c.tables)) := by
  unfold report
  split_ifs with h
  · obtain rfl := List.isEmpty_iff.1 h
    simp
  · exact SortedMap.get?_mapValues _ _ _

theorem packet_entry (s : Peers) (tables : Tables) («from» ip : Ipv4Addr) (bytes : Bytes)
    (now : Instant) :
    ({ tables := (s.packet «from» bytes tables now).tables
       peers := (s.packet «from» bytes tables now).peers } : Core).entry ip =
      entryStep { tables := tables, peers := s } (.packet «from» bytes, now) ip := by
  have hput : ∀ (s : Peers) (p : Peer) pkt,
      (s.deliver p «from» pkt tables now).peers.peers =
        s.peers.insert «from» (p.received «from» pkt tables now) := by
    intro s p pkt
    cases pkt <;> rfl
  unfold entryStep recipient Peers.packet entry
  dsimp only
  cases Aurp.parse bytes with
  | none => simp
  | some pkt =>
    dsimp only
    by_cases hip : «from» = ip
    · subst hip
      simp only [if_true]
      cases hg : s.peers.get? «from» with
      | some p => simp [hput]
      | none =>
        dsimp only
        cases s.openPeering with
        | false => simp [Peers.turnAway, Peers.logUnknown, hg, apply_ite]
        | true =>
          by_cases hm : MAX_OPEN_PEERS ≤ s.peers.size
          · simp [Peers.turnAway, Peers.logUnknown, hg, hm, Nat.not_lt.2 hm, apply_ite]
          · simp [hm, Nat.lt_of_not_le hm, hput]
    · simp only [if_neg hip]
      cases hg : s.peers.get? «from» with
      | some p => simp [hput, SortedMap.get?_insert, hip]
      | none =>
        dsimp only
        split_ifs
        · simp [Peers.turnAway, Peers.logUnknown, apply_ite]
        · simp [Peers.turnAway, Peers.logUnknown, apply_ite]
        · simp [hput, Peers.create, SortedMap.get?_insert, hip]

theorem tick_entry (s : Peers) (tables : Tables) (ip : Ipv4Addr) (now : Instant) :
    ({ tables := (s.tick tables now).tables, peers := (s.tick tables now).peers } : Core).entry ip =
      entryStep { tables := tables, peers := s } (.tick, now) ip := by
  unfold entry entryStep Peers.tick
  dsimp only
  rw [SortedMap.get?_retain, SortedMap.mapAccum_eq_mapValues _ fun a k p =>
    p.timers_peer _ (ZI_REREQUEST ≤ since now s.lastZi) a.1 now, SortedMap.get?_mapValues]
  rfl

/-- **The entry rule.** Every input acts on the entry of an address as a function of that entry,
and then queues the events it reports. -/
theorem next_entry (c : Core) (i : CoreIn × Instant) (ip : Ipv4Addr) :
    (c.next i).entry ip = (c.entryStep i ip).map fun p => p.hear (c.reported i) := by
  obtain ⟨i, now⟩ := i
  have hnone : ∀ o : Option Peer, o = o.map fun p => p.hear [] := fun o => by simp
  cases i with
  | batch ops =>
    simp only [reported, next, step, report_entry, report_tables]
    rfl
  | packet «from» bytes =>
    have h := Prod.ext_iff.1 (c.peers.packet_eq «from» bytes c.tables now)
    simp only at h
    simp only [reported, ops, next, step, report_entry, report_tables, packet_entry, h.2]
  | tick =>
    have h := Prod.ext_iff.1 (c.peers.tick_eq c.tables now)
    simp only at h
    simp only [reported, ops, next, step, report_entry, report_tables, tick_entry, h.2]
  | resolved name addr =>
    refine Eq.trans ?_ (hnone _)
    simp only [next, step, entry, entryStep, Peers.resolved]
    cases hg : c.peers.peers.get? addr with
    | some p => simp only [SortedMap.get?_insert]
    | none =>
      simp only [Peers.create, SortedMap.get?_insert, SortedMap.get?_retain]
      split_ifs with h
      · rw [h]
      · rfl
  | ping =>
    refine Eq.trans ?_ (hnone _)
    exact c.peers.ping_get? ip now
  | pingReport => exact hnone _
  | shutdown =>
    refine Eq.trans ?_ (hnone _)
    exact c.peers.shutdown_get? ip now

/-- The two maps differ in nothing but the ping's own fields of some entries. -/
def SamePeers (m m' : SortedMap Ipv4Addr Peer) : Prop :=
  ∀ ip, m'.get? ip = m.get? ip ∨ m'.get? ip = (m.get? ip).map Peers.pingTaken

theorem SamePeers.insert {m m' : SortedMap Ipv4Addr Peer} (h : SamePeers m m') {ip : Ipv4Addr}
    {p : Peer} (hp : m'.get? ip = some p) : SamePeers m (m'.insert ip (Peers.pingTaken p)) := by
  intro ip'
  rw [SortedMap.get?_insert]
  split_ifs with he
  · subst he
    right
    rcases h ip with h | h
    · rw [← h, hp]
      rfl
    · obtain ⟨q, hq, rfl⟩ := Option.map_eq_some_iff.1 (h.symm.trans hp)
      rw [hq]
      rfl
  · exact h ip'

theorem samePeers_pingNamed {m : SortedMap Ipv4Addr Peer}
    {r : SortedMap Ipv4Addr Peer × String} (h : SamePeers m r.1) (name : Str) :
    SamePeers m (Peers.pingNamed r name).1 := by
  unfold Peers.pingNamed
  split
  · exact h
  · rename_i e he
    exact h.insert ((SortedMap.mem_entries_iff _ _).1 (List.mem_of_find?_eq_some he))

/-- The ping's report changes nothing of an entry but the ping's own fields. -/
theorem samePeers_pingReport (s : Peers) : SamePeers s.peers s.pingReport.1.peers := by
  have hnamed : ∀ (names : List Str) (r : SortedMap Ipv4Addr Peer × String),
      SamePeers s.peers r.1 → SamePeers s.peers (names.foldl Peers.pingNamed r).1 := by
    intro names
    induction names with
    | nil => exact fun r hr => hr
    | cons name names ih => exact fun r hr => ih _ (samePeers_pingNamed hr name)
  intro ip
  have h := hnamed s.configured (s.peers, Peers.pingHead) (fun ip => Or.inl rfl) ip
  simp only [Peers.pingReport]
  rw [SortedMap.mapAccum_eq_mapValues (g := fun p => if p.configured = none then
    Peers.pingTaken p else p), SortedMap.get?_mapValues]
  · rcases h with h | h <;> rw [h] <;> cases s.peers.get? ip with
    | none => exact Or.inl rfl
    | some p =>
      by_cases hc : p.configured = none <;> simp [Peers.pingTaken, hc]
  · intro a k p
    split_ifs <;> rfl

/-- Every entry is filed under its own address. -/
def Filed (c : Core) : Prop := ∀ ip p, c.entry ip = some p → p.addr = ip

theorem Filed.recipient {c : Core} (h : c.Filed) {ip : Ipv4Addr} {now : Instant} {p : Peer}
    (hp : c.recipient ip now = some p) : p.addr = ip := by
  unfold Core.recipient at hp
  split at hp
  · rename_i hq
    cases hp
    exact h ip p hq
  · split_ifs at hp
    cases hp
    rfl

theorem Filed.next {c : Core} (h : c.Filed) (i : CoreIn × Instant) : (c.next i).Filed := by
  intro ip p hp
  rw [next_entry] at hp
  obtain ⟨q, hq, rfl⟩ := Option.map_eq_some_iff.1 hp
  rw [Peer.hear_addr]
  obtain ⟨i, now⟩ := i
  unfold entryStep at hq
  cases i with
  | batch ops => exact h ip q hq
  | packet «from» bytes =>
    dsimp only at hq
    split_ifs at hq
    · split at hq
      · exact h ip q hq
      · obtain ⟨p', hp', rfl⟩ := Option.map_eq_some_iff.1 hq
        rw [Peer.received_addr, h.recipient hp']
    · exact h ip q hq
  | tick =>
    obtain ⟨hq, -⟩ := Option.filter_eq_some_iff.1 hq
    obtain ⟨p', hp', rfl⟩ := Option.map_eq_some_iff.1 hq
    rw [Peer.timed_addr, h ip p' hp']
  | resolved name addr =>
    dsimp only at hq
    split at hq
    · rename_i p' hp'
      split_ifs at hq with ha
      · cases hq
        rw [← ha]
        exact h addr p' hp'
      · exact h ip q hq
    · split_ifs at hq
      · cases hq
        rfl
      · exact h ip q (Option.filter_eq_some_iff.1 hq).1
  | ping =>
    obtain ⟨p', hp', rfl⟩ := Option.map_eq_some_iff.1 hq
    rw [Peer.pinged_addr, h ip p' hp']
  | pingReport =>
    rcases samePeers_pingReport c.peers ip with he | he
    · exact h ip q (he.symm.trans hq)
    · obtain ⟨p', hp', rfl⟩ := Option.map_eq_some_iff.1 (he.symm.trans hq)
      exact h ip p' hp'
  | shutdown =>
    obtain ⟨p', hp', rfl⟩ := Option.map_eq_some_iff.1 hq
    rw [Peer.shut_addr, h ip p' hp']

end Core

end AppleTalk
