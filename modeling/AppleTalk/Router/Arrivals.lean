import AppleTalk.Router.Reach
import AppleTalk.Router.Sent

/-!
# What a step hands to the forwarding rules

A step hands at most one datagram to the forwarding rules, off a cable or out of a tunnel. What
it sends besides is a link's own business, a tunnel's, or the datagrams a tick owes the cables.
-/

namespace AppleTalk

/-! ### Tunnel packets and log lines -/

/-- A packet to a tunnel peer, or a log line. -/
def Action.Remote : Action → Prop
  | .toPeer .. | .log _ => True
  | _ => False

theorem ToOnly.remote {ip : Ipv4Addr} {acts : List Action} (h : ToOnly ip acts) :
    ∀ a ∈ acts, a.Remote := by
  intro a ha
  rcases h a ha with ⟨m, rfl⟩ | ⟨b, rfl⟩ <;> trivial

theorem Router.changed_log (r : Router) (chs : List RouteChange) :
    ∀ a ∈ (changed r chs).2, ∃ m, a = .log m := by
  unfold changed
  split_ifs
  · simp
  · intro a ha
    obtain ⟨c, -, rfl⟩ := List.mem_map.1 ha
    exact ⟨_, rfl⟩

theorem Router.changed_remote (r : Router) (chs : List RouteChange) :
    ∀ a ∈ (changed r chs).2, a.Remote := by
  intro a ha
  obtain ⟨m, rfl⟩ := changed_log r chs a ha
  trivial

namespace Peers

theorem turnAway_remote (s : Peers) («from» : Ipv4Addr) (line : String) (tables : Tables)
    (now : Instant) : ∀ a ∈ (s.turnAway «from» line tables now).acts, a.Remote := by
  intro a ha
  unfold turnAway at ha
  dsimp only at ha
  split_ifs at ha
  · rw [List.mem_singleton.1 ha]
    trivial
  · cases ha

theorem deliver_remote (s : Peers) (p : Peer) («from» : Ipv4Addr) (pkt : Aurp) (tables : Tables)
    (now : Instant) : ∀ a ∈ (s.deliver p «from» pkt tables now).acts, a.Remote := by
  cases pkt with
  | data dh ddp => exact fun a ha => by cases ha
  | routing dh conn seq cmd =>
    have hr := (Peer.routing_toOnly { p with di := namedBy dh.src «from» } conn seq cmd tables
      now).remote
    simp only [deliver, Peer.report, List.forall_mem_append]
    refine ⟨⟨hr, ?_⟩, ?_⟩
    · intro a ha
      split_ifs at ha
      · rw [List.mem_singleton.1 ha]
        trivial
      · cases ha
    · intro a ha
      split_ifs at ha
      · rw [List.mem_singleton.1 ha]
        trivial
      · cases ha

theorem packet_remote (s : Peers) («from» : Ipv4Addr) (bytes : Bytes) (tables : Tables)
    (now : Instant) : ∀ a ∈ (s.packet «from» bytes tables now).acts, a.Remote := by
  unfold packet
  split
  · simp
  · split
    · exact deliver_remote s _ «from» _ tables now
    · split_ifs
      · exact turnAway_remote s «from» _ tables now
      · exact turnAway_remote s «from» _ tables now
      · exact deliver_remote _ _ «from» _ tables now

theorem tick_remote (s : Peers) (tables : Tables) (now : Instant) :
    ∀ a ∈ (s.tick tables now).acts, a.Remote := by
  refine SortedMap.mapAccum_keeps (I := fun a : Tables × List Action × List RouteChange =>
    ∀ x ∈ a.2.1, x.Remote) s.peers (by simp) fun a k p _ h => ?_
  exact List.forall_mem_append.2 ⟨h, (p.timers_toOnly _ _ _ _).remote⟩

theorem ping_remote (s : Peers) (now : Instant) : ∀ a ∈ (s.ping now).2, a.Remote := by
  refine SortedMap.mapAccum_keeps (I := fun acts : List Action => ∀ x ∈ acts, x.Remote) s.peers
    (by simp) fun acts k p _ h => ?_
  have hsend : ∀ x ∈ acts ++ [p.send p.connLocal 0 .tickle], x.Remote :=
    List.forall_mem_append.2 ⟨h, List.forall_mem_singleton.2 trivial⟩
  cases p.receiver <;> first | exact h | exact hsend

theorem shutdown_remote (s : Peers) (now : Instant) : ∀ a ∈ (s.shutdown now).2, a.Remote := by
  refine SortedMap.mapAccum_keeps (I := fun acts : List Action => ∀ x ∈ acts, x.Remote) s.peers
    (by simp) fun acts k p _ h => ?_
  dsimp only
  split_ifs
  · exact h
  · exact List.forall_mem_append.2 ⟨h, (Peer.sendSequenced_toOnly _ _ _ now).remote⟩

/-- A packet with a datagram in it changes no table and is answered with nothing. -/
theorem packet_ddp {s : Peers} {«from» : Ipv4Addr} {bytes : Bytes} {tables : Tables}
    {now : Instant} {b : Bytes} (h : (s.packet «from» bytes tables now).ddp = some b) :
    (s.packet «from» bytes tables now).tables = tables ∧
      (s.packet «from» bytes tables now).chs = [] ∧
      (s.packet «from» bytes tables now).acts = [] := by
  have hdeliver : ∀ (s : Peers) (p : Peer) (pkt : Aurp),
      (s.deliver p «from» pkt tables now).ddp = some b →
      (s.deliver p «from» pkt tables now).tables = tables ∧
        (s.deliver p «from» pkt tables now).chs = [] ∧
        (s.deliver p «from» pkt tables now).acts = [] := by
    intro s p pkt h
    cases pkt with
    | data dh ddp => exact ⟨rfl, rfl, rfl⟩
    | routing => cases h
  unfold packet at h ⊢
  split at h
  · cases h
  · split at h
    · exact hdeliver _ _ _ h
    · split_ifs at h ⊢
      · cases h
      · cases h
      · exact hdeliver _ _ _ h

end Peers

/-! ### What a link sends itself -/

/-- Address resolution, a claim or a log line: nothing with a datagram in it. -/
def Action.Link : Action → Prop
  | .toEther _ f => f.proto = AARP
  | .toLlap _ l => l.data = [] ∧ (l.typ = LLAP_ENQ ∨ l.typ = LLAP_ACK)
  | .setNode .. | .log _ => True
  | .toPeer .. => False

namespace Port

theorem tick_link (p : Port) (now : Instant) : ∀ a ∈ (p.tick now).2, a.Link := by
  intro a ha
  unfold tick claimed at ha
  dsimp only at ha
  split_ifs at ha with h1 h2 h3
  · cases ha
  · simp only [List.mem_cons, List.not_mem_nil, or_false] at ha
    rcases ha with rfl | rfl <;> trivial
  · rw [List.mem_singleton.1 ha]
    trivial
  · split at ha
    · rw [List.mem_singleton.1 ha]
      rfl
    · rw [List.mem_singleton.1 ha]
      exact ⟨rfl, Or.inl rfl⟩

theorem inboundEther_link (host : Host) (p : Port) (packet : Packet) (now : Instant) :
    ∀ a ∈ (p.inboundEther host packet now).2.2, a.Link := by
  intro a ha
  unfold inboundEther at ha
  split at ha
  · split_ifs at ha
    · cases ha
    · dsimp only at ha
      split at ha
      · unfold inboundAarp at ha
        dsimp only at ha
        split at ha
        · split_ifs at ha
          · cases ha
          · rw [List.mem_singleton.1 ha]
            trivial
        · rw [List.mem_singleton.1 ha]
          rfl
        · cases ha
      · cases ha
      · cases ha
  · cases ha

theorem inboundLlap_link (host : Host) (p : Port) (l : Llap) (now : Instant) :
    ∀ a ∈ (p.inboundLlap host l now).2.2, a.Link := by
  intro a ha
  unfold inboundLlap at ha
  dsimp only at ha
  split_ifs at ha
  all_goals first
    | (rw [List.mem_singleton.1 ha]
       exact ⟨rfl, Or.inr rfl⟩)
    | cases ha

end Port

/-! ### What a port hands up -/

/-- The frame is what a capture can deliver: the body beside an Ethernet frame is its own. -/
def In.Decoded : In → Prop
  | .ether _ packet => packet.Decoded
  | _ => True

namespace Port

variable {host : Host} {p : Port} {now : Instant}

theorem inboundEther_ddp {packet : Packet} {d : Ddp}
    (h : (p.inboundEther host packet now).2.1 = .ddp d) :
    ∃ body, packet.body = .ddp d body ∧
      p.inboundEther host packet now = ({ p with amt := glean p.amt packet }, .ddp d, []) := by
  unfold inboundEther at h ⊢
  split at h
  · split_ifs at h with hsrc
    rw [if_neg hsrc]
    dsimp only at h ⊢
    split at h
    · cases h
    · rename_i body hb
      cases h
      exact ⟨body, hb, by simp⟩
    · cases h
  · cases h

theorem inboundLlap_ddp {l : Llap} {d : Ddp} (h : (p.inboundLlap host l now).2.1 = .ddp d) :
    p.inboundLlap host l now = (p, .ddp d, []) := by
  unfold inboundLlap at h ⊢
  dsimp only at h ⊢
  split_ifs at h ⊢
  · exact congrArg (fun i => (p, i, [])) h
  · exact congrArg (fun i => (p, i, [])) h

/-- A LocalTalk port reads a datagram from one of the two headers. -/
theorem inboundLlap_reads {l : Llap} {d : Ddp} (h : (p.inboundLlap host l now).2.1 = .ddp d) :
    l.typ = LLAP_SHORT_DDP ∧ Ddp.fromShort l.data p.range.1 l.dst l.src = some d ∨
      l.typ = LLAP_LONG_DDP ∧ Ddp.parse l.data = some d := by
  have hl : ∀ o, lifted o = .ddp d → o = some d := by
    intro o ho
    cases o with
    | none => cases ho
    | some d' => cases ho; rfl
  unfold inboundLlap at h
  dsimp only at h
  split_ifs at h with _ _ _ _ hs hlong
  · exact Or.inl ⟨hs, hl _ h⟩
  · exact Or.inr ⟨hlong, hl _ h⟩

end Port

/-! ### What arrives -/

/-- A datagram handed to the forwarding rules: where it came from, its body, and the router that
takes it up. -/
structure Arrival where
  router : Router
  origin : Origin
  ddp : Ddp
  body : DdpBody

namespace Router

variable (host : Host)

/-- The datagram a step hands to the forwarding rules. -/
def arrival (r : Router) (i : In) (now : Instant) : Option Arrival :=
  match i with
  | .ether id packet =>
    (r.port id).bind fun p =>
      let a := p.inboundEther host packet now
      match a.2.1, packet.body with
      | .ddp d, .ddp _ body => some ⟨r.setPort a.1, .port id, d, body⟩
      | _, _ => none
  | .llap id l =>
    (r.port id).bind fun p =>
      let a := p.inboundLlap host l now
      match a.2.1 with
      | .ddp d => some ⟨r.setPort a.1, .port id, d, decodeDdpBody d⟩
      | _ => none
  | .aurp «from» bytes =>
    let a := r.peers.packet «from» bytes r.tables now
    (a.ddp.bind Ddp.parse).map fun d =>
      ⟨(changed { r with peers := a.peers, tables := a.tables } a.chs).1, .peer «from», d,
        decodeDdpBody d⟩
  | _ => none

/-- What is handed over was read from a header, its body from the datagram. -/
theorem arrival_reads {host : Host} {r : Router} {i : In} (hi : i.Decoded) {now : Instant}
    {x : Arrival} (h : r.arrival host i now = some x) :
    x.body = decodeDdpBody x.ddp ∧ ((∃ b, Ddp.parse b = some x.ddp) ∨
      ∃ b net dst src, Ddp.fromShort b net dst src = some x.ddp) := by
  cases i with
  | ether id packet =>
    obtain ⟨p, -, h⟩ := Option.bind_eq_some_iff.1 h
    dsimp only at h
    split at h
    · rename_i d d' body hin hb
      cases h
      obtain ⟨body', hb', -⟩ := Port.inboundEther_ddp hin
      rw [hb] at hb'
      cases hb'
      obtain ⟨hparse, rfl⟩ := Packet.Decoded.ddp hi hb
      exact ⟨rfl, Or.inl ⟨_, hparse⟩⟩
    · cases h
  | llap id l =>
    obtain ⟨p, -, h⟩ := Option.bind_eq_some_iff.1 h
    dsimp only at h
    split at h
    · rename_i d hin
      cases h
      rcases Port.inboundLlap_reads hin with ⟨-, hd⟩ | ⟨-, hd⟩
      · exact ⟨rfl, Or.inr ⟨_, _, _, _, hd⟩⟩
      · exact ⟨rfl, Or.inl ⟨_, hd⟩⟩
    · cases h
  | aurp «from» bytes =>
    obtain ⟨d, hd, rfl⟩ := Option.map_eq_some_iff.1 h
    obtain ⟨b, -, hparse⟩ := Option.bind_eq_some_iff.1 hd
    exact ⟨rfl, Or.inl ⟨b, hparse⟩⟩
  | _ => cases h

/-- Nothing that arrives is our own. -/
theorem arrival_origin {host : Host} {r : Router} {i : In} {now : Instant} {x : Arrival}
    (h : r.arrival host i now = some x) : x.origin ≠ .here := by
  cases i with
  | ether id packet =>
    obtain ⟨p, -, h⟩ := Option.bind_eq_some_iff.1 h
    dsimp only at h
    split at h
    · cases h
      simp
    · cases h
  | llap id l =>
    obtain ⟨p, -, h⟩ := Option.bind_eq_some_iff.1 h
    dsimp only at h
    split at h
    · cases h
      simp
    · cases h
  | aurp «from» bytes =>
    obtain ⟨d, -, rfl⟩ := Option.map_eq_some_iff.1 h
    simp
  | _ => cases h

/-- What a step can send. -/
inductive Acts (r : Router) (i : In) (now : Instant) : Action → Prop
  | remote {a : Action} (h : a.Remote) : Acts r i now a
  | link {a : Action} (h : a.Link) : Acts r i now a
  | owed {a : Action} {e : Emit} (hi : i = .tick)
      (he : e ∈ ((r.aged now).local.tick (r.aged now).ports (r.aged now).tables now).2)
      (ha : a ∈ (r.aged now).emit host e) : Acts r i now a
  | arrived {a : Action} {x : Arrival} (hx : r.arrival host i now = some x)
      (ha : a ∈ (x.router.arrived host x.origin x.ddp x.body now).2) : Acts r i now a

variable {host}

theorem tickPorts_link (now : Instant) (ports : List Port) :
    ∀ a ∈ (tickPorts now ports).2, a.Link := by
  induction ports with
  | nil => exact fun a ha => by cases ha
  | cons p ports ih => exact List.forall_mem_append.2 ⟨p.tick_link now, ih⟩

/-- Whatever a step sends, its core sends it, it is a log line or a link's own business, a tick
owes it or it comes of the datagram that arrived. -/
theorem mem_step {r : Router} {i : In} {now : Instant} {a : Action}
    (h : a ∈ (r.step host i now).2) :
    a ∈ Core.acts r.core (r.coreInputs host (.input i, now)) ∨ (∃ m, a = .log m) ∨ a.Link ∨
      (i = .tick ∧ ∃ e ∈ ((r.aged now).local.tick (r.aged now).ports (r.aged now).tables now).2,
        a ∈ (r.aged now).emit host e) ∨
      ∃ x, r.arrival host i now = some x ∧
        a ∈ (x.router.arrived host x.origin x.ddp x.body now).2 := by
  cases i with
  | ether id packet =>
    refine Or.inr (Or.inr ?_)
    unfold step at h
    dsimp only at h
    cases hp : r.port id with
    | none => simp [hp] at h
    | some p =>
      rw [hp] at h
      rcases List.mem_append.1 h with h | h
      · exact Or.inl (p.inboundEther_link host packet now a h)
      · unfold inbound at h
        cases hin : (p.inboundEther host packet now).2.1 with
        | ddp d =>
          cases hb : packet.body with
          | ddp d' body =>
            simp only [hin, hb] at h
            exact Or.inr (Or.inr ⟨⟨_, .port id, d, body⟩,
              by simp only [arrival, hp, Option.bind_some, hin, hb]; rfl, h⟩)
          | _ => simp [hin, hb] at h
        | _ => simp [hin] at h
  | llap id l =>
    refine Or.inr (Or.inr ?_)
    unfold step at h
    dsimp only at h
    cases hp : r.port id with
    | none => simp [hp] at h
    | some p =>
      rw [hp] at h
      rcases List.mem_append.1 h with h | h
      · exact Or.inl (p.inboundLlap_link host l now a h)
      · unfold inbound at h
        cases hin : (p.inboundLlap host l now).2.1 with
        | ddp d =>
          simp only [hin] at h
          exact Or.inr (Or.inr ⟨⟨_, .port id, d, decodeDdpBody d⟩,
            by simp only [arrival, hp, Option.bind_some, hin]; rfl, h⟩)
        | _ => simp [hin] at h
  | aurp «from» bytes =>
    unfold step at h
    dsimp only at h
    rcases List.mem_append.1 h with h | h
    · rcases List.mem_append.1 h with h | h
      · exact Or.inl (List.mem_append_left _ h)
      · exact Or.inr (Or.inl (changed_log _ _ a h))
    · cases hd : (r.peers.packet «from» bytes r.tables now).ddp.bind Ddp.parse with
      | none => simp [hd] at h
      | some d =>
        rw [hd] at h
        exact Or.inr (Or.inr (Or.inr (Or.inr ⟨⟨_, .peer «from», d, decodeDdpBody d⟩,
          by simp only [arrival, hd, Option.map_some], h⟩)))
  | tick =>
    unfold step at h
    dsimp only at h
    rcases List.mem_append.1 h with h | h
    · rcases List.mem_append.1 h with h | h
      · rcases List.mem_append.1 h with h | h
        · rcases List.mem_append.1 h with h | h
          · exact Or.inr (Or.inr (Or.inl (tickPorts_link now r.ports a h)))
          · exact Or.inr (Or.inl (changed_log _ _ a h))
        · exact Or.inr (Or.inr (Or.inr (Or.inl ⟨rfl, List.mem_flatMap.1 h⟩)))
      · refine Or.inl (List.mem_append_right _ (List.mem_append_left _ ?_))
        rw [← aged_core]
        exact h
    · exact Or.inr (Or.inl (changed_log _ _ a h))
  | ping => exact Or.inl (List.mem_append_left _ h)
  | pingReport => exact Or.inr (Or.inl ⟨_, List.mem_singleton.1 h⟩)

theorem coreActs_remote (c : Core) (is : List (CoreIn × Instant)) :
    ∀ a ∈ Core.acts c is, a.Remote := by
  induction is generalizing c with
  | nil => simp [Core.acts]
  | cons i is ih =>
    refine List.forall_mem_append.2 ⟨?_, ih _⟩
    obtain ⟨i, now⟩ := i
    cases i with
    | packet «from» bytes => exact c.peers.packet_remote «from» bytes c.tables now
    | tick => exact c.peers.tick_remote c.tables now
    | ping => exact c.peers.ping_remote now
    | shutdown => exact c.peers.shutdown_remote now
    | _ => simp [Core.step]

/-- **Everything a step sends** is a tunnel's or a link's own business, owed by a tick, or comes of
the datagram that arrived. -/
theorem acts_of_mem {r : Router} {i : In} {now : Instant} {a : Action}
    (h : a ∈ (r.step host i now).2) : r.Acts host i now a := by
  rcases mem_step h with h | ⟨m, rfl⟩ | h | ⟨rfl, e, he, ha⟩ | ⟨x, hx, ha⟩
  · exact .remote (coreActs_remote _ _ a h)
  · exact .remote trivial
  · exact .link h
  · exact .owed rfl he ha
  · exact .arrived hx ha

/-- A step with a datagram sends what comes of it, after what its link sends itself. -/
theorem step_of_arrival {r : Router} {i : In} {now : Instant} {x : Arrival}
    (hx : r.arrival host i now = some x) :
    ∃ own, (r.step host i now).2 =
        own ++ (x.router.arrived host x.origin x.ddp x.body now).2 ∧
      ∀ a ∈ own, a.Link := by
  cases i with
  | ether id packet =>
    obtain ⟨p, hp, hx⟩ := Option.bind_eq_some_iff.1 hx
    dsimp only at hx
    split at hx
    · rename_i d d' body hin hb
      cases hx
      refine ⟨(p.inboundEther host packet now).2.2, ?_, p.inboundEther_link host packet now⟩
      simp only [step, inbound, hp, hin, hb]
    · cases hx
  | llap id l =>
    obtain ⟨p, hp, hx⟩ := Option.bind_eq_some_iff.1 hx
    dsimp only at hx
    split at hx
    · rename_i d hin
      cases hx
      refine ⟨(p.inboundLlap host l now).2.2, ?_, p.inboundLlap_link host l now⟩
      simp only [step, inbound, hp, hin]
    · cases hx
  | aurp «from» bytes =>
    obtain ⟨d, hd, rfl⟩ := Option.map_eq_some_iff.1 hx
    obtain ⟨b, hb, -⟩ := Option.bind_eq_some_iff.1 hd
    obtain ⟨-, hch, hacts⟩ := Peers.packet_ddp hb
    refine ⟨[], ?_, by simp⟩
    simp [step, hd, hch, hacts, changed]
  | _ => cases hx

/-- Whatever comes of the datagram that arrived, the step sends. -/
theorem mem_step_of_arrived {r : Router} {i : In} {now : Instant} {x : Arrival}
    (hx : r.arrival host i now = some x) {a : Action}
    (ha : a ∈ (x.router.arrived host x.origin x.ddp x.body now).2) :
    a ∈ (r.step host i now).2 := by
  obtain ⟨own, hstep, -⟩ := step_of_arrival hx
  rw [hstep]
  exact List.mem_append_right _ ha

end Router

/-! ### What becomes of it -/

namespace Arrival

/-- The datagram with the network its cable stands for filled in. -/
def datagram (x : Arrival) : Ddp := Router.localize (x.router.arrivedOn x.origin) x.ddp

/-- The datagram is handed to the services, as one for a node of port `q`'s network. -/
structure Served (x : Arrival) (q : Port) : Prop where
  length : x.ddp.length.toNat = 13 + x.ddp.data.length
  owner : x.router.owner x.datagram.dst.net = some q
  forUs : Router.forUs q x.datagram.dst.node

/-- The datagram is passed on: it is for a network elsewhere, for everybody on a network of ours or
for somebody else there. -/
structure Forwarded (x : Arrival) : Prop where
  length : x.ddp.length.toNat = 13 + x.ddp.data.length
  elsewhere : ∀ q, x.router.owner x.datagram.dst.net = some q →
    x.datagram.dst.node = 255 ∨ Router.forUs q x.datagram.dst.node = false

/-- The router that passes it on: its services have had the datagram first. -/
def settled (host : Host) (x : Arrival) (now : Instant) : Router :=
  match x.router.owner x.datagram.dst.net with
  | none => x.router
  | some q =>
    if Router.forUs q x.datagram.dst.node then
      (x.router.served host x.origin q x.datagram x.body now).1
    else x.router

@[simp] theorem settled_ports (host : Host) (x : Arrival) (now : Instant) :
    (x.settled host now).ports = x.router.ports := by
  unfold settled
  split
  · rfl
  · split_ifs
    · exact Router.changed_ports _ _
    · rfl

/-- **What becomes of a datagram that arrived.** -/
theorem mem_arrived {host : Host} {x : Arrival} {now : Instant} {a : Action} :
    a ∈ (x.router.arrived host x.origin x.ddp x.body now).2 ↔
      (∃ q, x.Served q ∧ a ∈ (x.router.served host x.origin q x.datagram x.body now).2) ∨
        x.Forwarded ∧ a ∈ (x.settled host now).forward host x.origin x.datagram := by
  have hd : Router.localize (x.router.arrivedOn x.origin) x.ddp = x.datagram := rfl
  unfold Router.arrived settled
  simp only [hd]
  by_cases hlen : x.ddp.length.toNat = 13 + x.ddp.data.length
  swap
  · rw [if_pos hlen]
    constructor
    · exact fun h => by cases h
    · rintro (⟨q, h, -⟩ | ⟨h, -⟩)
      · exact absurd h.length hlen
      · exact absurd h.length hlen
  rw [if_neg (not_not.2 hlen)]
  cases hq : x.router.owner x.datagram.dst.net with
  | none =>
    constructor
    · exact fun h => Or.inr ⟨⟨hlen, by simp [hq]⟩, h⟩
    · rintro (⟨q, h, -⟩ | ⟨-, h⟩)
      · rw [h.owner] at hq
        cases hq
      · exact h
  | some q =>
    have hserved : x.Served q ↔ Router.forUs q x.datagram.dst.node :=
      ⟨Served.forUs, fun h => ⟨hlen, hq, h⟩⟩
    have hforwarded : x.Forwarded ↔
        x.datagram.dst.node = 255 ∨ Router.forUs q x.datagram.dst.node = false := by
      refine ⟨fun h => h.elsewhere q hq, fun h => ⟨hlen, fun q' hq' => ?_⟩⟩
      obtain rfl := Option.some.inj (hq.symm.trans hq')
      exact h
    have hq' : ∀ q', x.Served q' → q' = q := fun q' h => Option.some.inj (h.owner.symm.trans hq)
    dsimp only
    rw [hforwarded, List.mem_append]
    refine or_congr ?_ ?_
    · constructor
      · intro h
        split_ifs at h with hus
        · exact ⟨q, hserved.2 hus, h⟩
        · cases h
      · rintro ⟨q', h, ha⟩
        obtain rfl := hq' q' h
        rw [if_pos h.forUs]
        exact ha
    · cases hus : Router.forUs q x.datagram.dst.node with
      | true => by_cases h255 : x.datagram.dst.node = 255 <;> simp [h255]
      | false => simp

/-- A datagram that is passed on is passed on after the services have had it. -/
theorem Forwarded.arrived_eq {x : Arrival} (h : x.Forwarded) (host : Host) (now : Instant) :
    ∃ answers, (x.router.arrived host x.origin x.ddp x.body now).2 =
        answers ++ (x.settled host now).forward host x.origin x.datagram ∧
      ∀ a ∈ answers, ∃ q, x.Served q ∧
        a ∈ (x.router.served host x.origin q x.datagram x.body now).2 := by
  have hd : Router.localize (x.router.arrivedOn x.origin) x.ddp = x.datagram := rfl
  unfold Router.arrived settled
  rw [if_neg (not_not.2 h.length)]
  simp only [hd]
  cases hq : x.router.owner x.datagram.dst.net with
  | none => exact ⟨[], rfl, by simp⟩
  | some q =>
    have helse : x.datagram.dst.node = 255 ∨ (!Router.forUs q x.datagram.dst.node) = true := by
      simpa using h.elsewhere q hq
    dsimp only
    rw [if_pos helse]
    by_cases hus : Router.forUs q x.datagram.dst.node = true
    · rw [if_pos hus, if_pos hus]
      exact ⟨_, rfl, fun a ha => ⟨q, ⟨h.length, hq, hus⟩, ha⟩⟩
    · rw [if_neg hus, if_neg hus]
      exact ⟨[], rfl, by simp⟩

end Arrival

/-! ### The router a datagram finds -/

/-- A datagram finds the ports on their networks, and the tables and the services as the step
found them. -/
theorem Router.arrival_same {host : Host} {r : Router} {i : In} {now : Instant} {x : Arrival}
    (h : r.arrival host i now = some x) :
    x.router.fixed = r.fixed ∧ x.router.tables = r.tables ∧ x.router.local = r.local := by
  cases i with
  | ether id packet =>
    obtain ⟨p, hp, h⟩ := Option.bind_eq_some_iff.1 h
    dsimp only at h
    split at h
    · cases h
      exact ⟨setPort_fixed hp (p.inboundEther_fixed host packet now), rfl, rfl⟩
    · cases h
  | llap id l =>
    obtain ⟨p, hp, h⟩ := Option.bind_eq_some_iff.1 h
    dsimp only at h
    split at h
    · cases h
      exact ⟨setPort_fixed hp (p.inboundLlap_fixed host l now), rfl, rfl⟩
    · cases h
  | aurp «from» bytes =>
    obtain ⟨d, hd, rfl⟩ := Option.map_eq_some_iff.1 h
    obtain ⟨b, hb, -⟩ := Option.bind_eq_some_iff.1 hd
    obtain ⟨ht, hch, -⟩ := Peers.packet_ddp hb
    simp [hch, ht, changed, fixed]
  | _ => cases h

end AppleTalk
