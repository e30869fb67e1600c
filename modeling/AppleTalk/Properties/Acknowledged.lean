import AppleTalk.Properties.ExportMirror
import AppleTalk.Properties.Numbering
import AppleTalk.Properties.Receipts

/-!
# Acknowledged means applied

Two routers, one the data sender and the other the data receiver of a connection, and a network that
holds every datagram either ever sent and hands over any of them at any time, any number of times or
never. What the sender takes for an ack of its outstanding packet acks a packet of that number, and
the two are one as long as the sender gives a number to one packet only.
-/

namespace AppleTalk

/-! ### Two routers and a network -/

/-- The routing packet a datagram holds, if it holds one. -/
def routingIn (bytes : Bytes) : Option (UInt16 × UInt16 × Cmd) :=
  match Aurp.parse bytes with
  | some (.routing _ conn seq cmd) => some (conn, seq, cmd)
  | _ => none

theorem routingIn_eq_some {bytes : Bytes} {conn seq : UInt16} {cmd : Cmd} :
    routingIn bytes = some (conn, seq, cmd) ↔
      ∃ dh, Aurp.parse bytes = some (.routing dh conn seq cmd) := by
  unfold routingIn
  constructor
  · intro h
    split at h
    · rename_i dh _ _ _ hp
      cases h
      exact ⟨dh, hp⟩
    · cases h
  · rintro ⟨dh, hp⟩
    rw [hp]

/-- The datagrams a list of actions sends to a peer. -/
def datagramsTo (ip : Ipv4Addr) (acts : List Action) : List Bytes :=
  acts.filterMap fun
    | .toPeer peer bytes => if peer = ip then some bytes else none
    | _ => none

/-- The two ends of a tunnel: the address each router is known by to the other, and what is outside
of each. -/
structure Ends where
  hostA : Host
  hostB : Host
  a : Ipv4Addr
  b : Ipv4Addr

/-- Two routers, every datagram either ever sent the other, and the RI-Rsps and RI-Upds of the first
that the second has applied. -/
structure Pair where
  a : Router
  b : Router
  toA : List Bytes
  toB : List Bytes
  applied : List (UInt16 × UInt16 × Cmd)

/-- Something happens to one of the two routers. -/
inductive Happening
  | a (e : Router.Event × Instant)
  | b (e : Router.Event × Instant)

namespace Router

/-- What an event asks of the peers; a frame asks nothing. -/
def peerInput (e : Event × Instant) : CoreIn × Instant :=
  (match e.1 with
    | .input (.aurp «from» bytes) => .packet «from» bytes
    | .input .tick => .tick
    | .input .ping => .ping
    | .input .pingReport => .pingReport
    | .input (.ether ..) | .input (.llap ..) => .batch []
    | .resolved name addr => .resolved name addr
    | .shutdown => .shutdown, e.2)

/-- The datagram from an address that an event is. -/
def datagramFrom (ip : Ipv4Addr) (e : Event × Instant) : Option Bytes :=
  match e.1 with
  | .input (.aurp «from» bytes) => if «from» = ip then some bytes else none
  | _ => none

end Router

namespace Pair

variable (ends : Ends)

/-- Nothing was sent yet. -/
def start (a b : Router) : Pair := { a := a, b := b, toA := [], toB := [], applied := [] }

def step (s : Pair) : Happening → Pair
  | .a e =>
    let r := s.a.event ends.hostA e
    { s with a := r.1, toB := s.toB ++ datagramsTo ends.b r.2 }
  | .b e =>
    let r := s.b.event ends.hostB e
    { s with
      b := r.1
      toA := s.toA ++ datagramsTo ends.a r.2
      applied := s.applied ++ (s.b.core.applies (Router.peerInput e) ends.a).toList }

/-- The network loses, delays, reorders and duplicates, but makes nothing up: what comes from the
other end was sent by it. -/
def Delivers (s : Pair) : Happening → Prop
  | .a e => ∀ bytes ∈ Router.datagramFrom ends.b e, bytes ∈ s.toA
  | .b e => ∀ bytes ∈ Router.datagramFrom ends.a e, bytes ∈ s.toB

instance (s : Pair) (t : Happening) : Decidable (s.Delivers ends t) :=
  match t with
  | .a e => inferInstanceAs (Decidable (∀ bytes ∈ Router.datagramFrom ends.b e, bytes ∈ s.toA))
  | .b e => inferInstanceAs (Decidable (∀ bytes ∈ Router.datagramFrom ends.a e, bytes ∈ s.toB))

/-- The sequenced packets the first router has sent. -/
def said (s : Pair) : List (UInt16 × UInt16 × Cmd) :=
  (s.toB.filterMap routingIn).filter fun x => isData x.2.2.code

/-- The packets the second router has acknowledged. -/
def acked (s : Pair) : List (UInt16 × UInt16) :=
  ((s.toA.filterMap routingIn).filter fun x => isAck x.2.2.code).map fun x => (x.1, x.2.1)

def traffic (s : Pair) : Traffic := { said := s.said, acked := s.acked, applied := s.applied }

/-- The first router numbers no two packets alike. -/
def NumbersOnce (s : Pair) : Happening → Prop
  | .a e => s.a.core.NumbersOnce ends.b s.said (Router.peerInput e)
  | .b _ => True

instance (s : Pair) (t : Happening) : Decidable (s.NumbersOnce ends t) :=
  match t with
  | .a e => inferInstanceAs
      (Decidable (s.a.core.NumbersOnce ends.b s.said (Router.peerInput e)))
  | .b _ => .isTrue trivial

/-- Acknowledged means applied: where the network holds an RI-Ack of the RI-Rsp or RI-Upd that the
first router has outstanding, the second has applied what that packet says. -/
def AckedApplied (s : Pair) : Prop :=
  ∀ p o, s.a.core.entry ends.b = some p → p.outstanding = some o → p.sender ≠ .waitRdAck →
    ∀ bytes ∈ s.toA, ∀ dh szi,
      Aurp.parse bytes = some (.routing dh p.connRemote o.seq (.riAck szi)) →
        ∃ dh cmd, Aurp.parse o.bytes = some (.routing dh p.connRemote o.seq cmd) ∧
          (p.connRemote, o.seq, cmd) ∈ s.applied

end Pair

/-! ### Runs of the core under an event -/

theorem datagramsTo_routing (ip : Ipv4Addr) (acts : List Action) :
    (datagramsTo ip acts).filterMap routingIn = sentTo ip acts := by
  rw [datagramsTo, sentTo, List.filterMap_filterMap]
  refine congrArg (fun f => acts.filterMap f) (funext fun a => ?_)
  cases a with
  | toPeer peer bytes =>
    dsimp only [routingOf]
    split_ifs <;> rfl
  | _ => rfl

namespace Core

variable {c : Core} {ip : Ipv4Addr}

/-- One input, with what it says to an address. -/
def speak (ip : Ipv4Addr) (s : Core × List (UInt16 × UInt16 × Cmd)) (i : CoreIn × Instant) :
    Core × List (UInt16 × UInt16 × Cmd) :=
  (s.1.next i, s.2 ++ sentOf isData ip (s.1.step i).2)

theorem run_speak (c : Core) (said : List (UInt16 × UInt16 × Cmd)) (is : List (CoreIn × Instant)) :
    Machine.run (speak ip) (c, said) is = (c.after is, said ++ sentOf isData ip (c.acts is)) := by
  induction is generalizing c said with
  | nil => simp [after, acts]
  | cons i is ih =>
    rw [Machine.run_cons, speak, ih, acts, sentOf_append, List.append_assoc]
    rfl

/-- What a run applies of what an address said. -/
def appliedIn (ip : Ipv4Addr) : Core → List (CoreIn × Instant) → List (UInt16 × UInt16 × Cmd)
  | _, [] => []
  | c, i :: is => (c.applies i ip).toList ++ appliedIn ip (c.next i) is

theorem run_settle (c : Core) (t : Traffic) (is : List (CoreIn × Instant)) :
    Machine.run (settle ip) (c, t) is = (c.after is, { t with
      acked := t.acked ++ (sentOf isAck ip (c.acts is)).map fun x => (x.1, x.2.1)
      applied := t.applied ++ appliedIn ip c is }) := by
  induction is generalizing c t with
  | nil => simp [after, acts, appliedIn]
  | cons i is ih =>
    rw [Machine.run_cons, settle, ih, acts, sentOf_append, appliedIn]
    simp only [List.append_assoc, List.map_append]
    rfl

theorem applies_of_routing {i : CoreIn × Instant} (h : i.1.routing ip = none) :
    c.applies i ip = none := by
  unfold applies
  rw [h]
  cases c.entry ip <;> rfl

/-- What restarts no numbering and finds room is allowed. -/
theorem NumbersOnce.of_routing {said : List (UInt16 × UInt16 × Cmd)} {i : CoreIn × Instant}
    (hroom : ∀ p, c.entry ip = some p → p.seqSend ≠ 65534) (h : i.1.routing ip = none) :
    c.NumbersOnce ip said i := by
  refine ⟨hroom, fun conn pages hr => ?_⟩
  unfold restarts at hr
  rw [h] at hr
  cases hs : c.subject i ip <;> rw [hs] at hr <;> cases hr

end Core

namespace Router

variable {host : Host} {ip : Ipv4Addr}

theorem mem_inboundInputs {r : Router} {id : PortId} {i : Inbound} {body : Ddp → Option DdpBody}
    {now : Instant} {j : CoreIn × Instant} (h : j ∈ r.inboundInputs id i body now) :
    ∃ ops, j = (.batch ops, now) := by
  unfold inboundInputs at h
  split at h
  · split at h
    · exact ⟨_, List.mem_singleton.1 h⟩
    · cases h
  · cases h

/-- The inputs of an event: what it asks of the peers, among batches that ask nothing. -/
inductive Inputs (e : Event × Instant) : List (CoreIn × Instant) → Prop
  | frame (is : List (CoreIn × Instant)) (h : (peerInput e).1 = .batch [])
    (his : ∀ i ∈ is, ∃ ops, i = (.batch ops, e.2)) : Inputs e is
  | asked (is : List (CoreIn × Instant)) (his : ∀ i ∈ is, ∃ ops, i = (.batch ops, e.2)) :
    Inputs e (peerInput e :: is)
  | aged (ops : List TableOp) (h : (peerInput e).1 = .tick) :
    Inputs e [(.batch ops, e.2), peerInput e]

theorem inputs_of_event (host : Host) (r : Router) (e : Event × Instant) :
    Inputs e (r.coreInputs host e) := by
  obtain ⟨e, now⟩ := e
  cases e with
  | input i =>
    cases i with
    | ether id packet =>
      refine .frame _ rfl fun i hi => ?_
      unfold coreInputs at hi
      dsimp only at hi
      split at hi
      · cases hi
      · exact mem_inboundInputs hi
    | llap id l =>
      refine .frame _ rfl fun i hi => ?_
      unfold coreInputs at hi
      dsimp only at hi
      split at hi
      · cases hi
      · exact mem_inboundInputs hi
    | aurp «from» bytes =>
      refine .asked _ fun i hi => ?_
      split at hi
      · exact ⟨_, List.mem_singleton.1 hi⟩
      · cases hi
    | tick => exact .aged _ rfl
    | ping | pingReport => exact .asked [] (by simp)
  | resolved | shutdown => exact .asked [] (by simp)

variable {r : Router} {e : Event × Instant}

/-- An event keeps one packet for each number when what it asks of the peers does. -/
theorem numbering_event {said : List (UInt16 × UInt16 × Cmd)} (h : r.core.Numbering ip said)
    (hg : r.core.NumbersOnce ip said (peerInput e)) :
    (r.event host e).1.core.Numbering ip (said ++ sentOf isData ip (r.event host e).2) := by
  have hsent : sentOf isData ip (r.event host e).2 =
      sentOf isData ip (r.core.acts (r.coreInputs host e)) := by
    rw [sentOf, sentTo_event]
    rfl
  have hrun : (Machine.run (Core.speak ip) (r.core, said) (r.coreInputs host e)).1.Numbering ip
      (Machine.run (Core.speak ip) (r.core, said) (r.coreInputs host e)).2 → (r.event host
        e).1.core.Numbering ip (said ++ sentOf isData ip (r.event host e).2) := fun hn => by
    rw [Core.run_speak] at hn
    rwa [hsent, event_core]
  refine hrun ?_
  have hguarded : Machine.Guarded (Core.speak ip)
      (fun s i => (∃ ops, i = (.batch ops, e.2)) ∨ s.1.NumbersOnce ip s.2 i) (r.core, said)
      (r.coreInputs host e) := by
    have hin := inputs_of_event host r e
    generalize r.coreInputs host e = is at hin
    cases hin with
    | frame _ _ his => exact (Machine.guarded_of_forall his).mono fun _ _ hi => Or.inl hi
    | asked is his =>
      exact ⟨Or.inr hg, (Machine.guarded_of_forall his).mono fun _ _ hi => Or.inl hi⟩
    | aged ops ht =>
      refine ⟨Or.inl ⟨ops, rfl⟩, Or.inr (.of_routing (fun q hq => ?_) ?_), trivial⟩
      · have hq' : (r.core.next (.batch ops, e.2)).entry ip = some q := hq
        rw [Core.next_entry] at hq'
        obtain ⟨p, hp, rfl⟩ := Option.map_eq_some_iff.1 hq'
        obtain ⟨pending, he⟩ := p.hear_sending (r.core.reported (.batch ops, e.2))
        rw [show (p.hear _).seqSend = p.seqSend from congrArg Sending.seq he]
        exact hg.room p hp
      · rw [ht]
        rfl
  refine Machine.Guarded.invariant (I := fun s : Core × List _ => s.1.Numbering ip s.2)
    (fun s i hs hi => ?_) h hguarded
  rcases hi with ⟨ops, rfl⟩ | hi
  · have hb := hs.batch ops e.2
    simpa [Core.speak, Core.step] using hb
  · exact hs.next hi

theorem routing_peerInput {x : UInt16 × UInt16 × Cmd}
    (h : (peerInput e).1.routing ip = some x) :
    ∃ bytes ∈ datagramFrom ip e, routingIn bytes = some x := by
  obtain ⟨e, now⟩ := e
  cases e with
  | input i =>
    cases i with
    | aurp «from» bytes =>
      simp only [peerInput, CoreIn.routing] at h
      split_ifs at h with hip
      exact ⟨bytes, by simp [datagramFrom, hip], h⟩
    | _ => cases h
  | _ => cases h

theorem appliedIn_coreInputs (host : Host) (r : Router) (e : Event × Instant) :
    Core.appliedIn ip r.core (r.coreInputs host e) =
      (r.core.applies (peerInput e) ip).toList := by
  have hbatch : ∀ (is : List (CoreIn × Instant)) (c : Core),
      (∀ i ∈ is, ∃ ops, i = (.batch ops, e.2)) → Core.appliedIn ip c is = [] := by
    intro is
    induction is with
    | nil => exact fun _ _ => rfl
    | cons i is ih =>
      intro c his
      obtain ⟨ops, hi⟩ := his i List.mem_cons_self
      rw [Core.appliedIn, ih _ fun j hj => his j (List.mem_cons_of_mem _ hj), hi,
        Core.applies_of_routing rfl]
      rfl
  have hin := inputs_of_event host r e
  generalize r.coreInputs host e = is at hin
  cases hin with
  | frame is h his =>
    rw [hbatch is _ his, Core.applies_of_routing (by rw [h]; rfl)]
    rfl
  | asked is his => rw [Core.appliedIn, hbatch is _ his, List.append_nil]
  | aged ops h =>
    have hr : (peerInput e).1.routing ip = none := by
      rw [h]
      rfl
    rw [Core.appliedIn, Core.appliedIn, Core.applies_of_routing hr, Core.applies_of_routing hr,
      Core.applies_of_routing rfl]
    rfl

/-- An event keeps the receiver in step, when the sequenced packet it is was said. -/
theorem settling_event {t : Traffic} (h : Core.Settling ip (r.core, t))
    (hlow : ∀ x ∈ t.said, x.2.1 ≠ 65535)
    (hsaid : ∀ bytes ∈ datagramFrom ip e, ∀ x, routingIn bytes = some x → isData x.2.2.code →
      x ∈ t.said) :
    Core.Settling ip ((r.event host e).1.core, { t with
      acked := t.acked ++ (sentOf isAck ip (r.event host e).2).map fun x => (x.1, x.2.1)
      applied := t.applied ++ (r.core.applies (peerInput e) ip).toList }) := by
  have hsent : sentOf isAck ip (r.event host e).2 =
      sentOf isAck ip (r.core.acts (r.coreInputs host e)) := by
    rw [sentOf, sentTo_event]
    rfl
  rw [hsent, event_core, ← appliedIn_coreInputs host r e, ← Core.run_settle]
  have hmain : ∀ x, (peerInput e).1.routing ip = some x → isData x.2.2.code → x ∈ t.said :=
    fun x hx hd => by
      obtain ⟨bytes, hb, hr⟩ := routing_peerInput hx
      exact hsaid bytes hb x hr hd
  have hbatch : ∀ {is : List (CoreIn × Instant)}, (∀ i ∈ is, ∃ ops, i = (.batch ops, e.2)) →
      ∀ i ∈ is, ∀ x, i.1.routing ip = some x → isData x.2.2.code → x ∈ t.said := by
    intro is his i hi x hx
    obtain ⟨ops, rfl⟩ := his i hi
    cases hx
  have hguarded : Machine.Guarded (Core.settle ip)
      (fun _ i => ∀ x, i.1.routing ip = some x → isData x.2.2.code → x ∈ t.said) (r.core, t)
      (r.coreInputs host e) := by
    refine Machine.guarded_of_forall ?_
    have hin := inputs_of_event host r e
    generalize r.coreInputs host e = is at hin
    cases hin with
    | frame _ _ his => exact hbatch his
    | asked is his => exact List.forall_mem_cons.2 ⟨hmain, hbatch his⟩
    | aged ops _ =>
      exact List.forall_mem_cons.2 ⟨fun x hx => (by cases hx), List.forall_mem_singleton.2 hmain⟩
  exact (Machine.Guarded.invariant (I := fun s => Core.Settling ip s ∧ s.2.said = t.said)
    (fun s i hs hi => ⟨hs.1.next (hs.2 ▸ hlow) (hs.2 ▸ hi), hs.2⟩) ⟨h, rfl⟩ hguarded).1

end Router

/-! ### Runs of the pair -/

namespace Pair

variable {ends : Ends}

/-- The sender gives each number to one packet, and the receiver is in step with what was said. -/
structure Sound (ends : Ends) (s : Pair) : Prop where
  sender : s.a.core.Numbering ends.b s.said
  receiver : Core.Settling ends.a (s.b.core, s.traffic)

theorem said_append (s : Pair) (r : Router × List Action) (ip : Ipv4Addr) :
    ({ s with a := r.1, toB := s.toB ++ datagramsTo ip r.2 } : Pair).said =
      s.said ++ sentOf isData ip r.2 := by
  simp only [said, List.filterMap_append, List.filter_append, datagramsTo_routing]
  rfl

/-- **One turn** keeps the pair sound. -/
theorem Sound.step {s : Pair} {t : Happening} (h : s.Sound ends) (hd : s.Delivers ends t)
    (hn : s.NumbersOnce ends t) : (s.step ends t).Sound ends := by
  cases t with
  | a e =>
    have hsaid := s.said_append (s.a.event ends.hostA e) ends.b
    constructor
    · rw [show (s.step ends (.a e)).said = _ from hsaid]
      exact Router.numbering_event h.sender hn
    · have hmono : ∀ x ∈ s.said, x ∈ (s.step ends (.a e)).said := fun x hx => by
        rw [show (s.step ends (.a e)).said = _ from hsaid]
        exact List.mem_append_left _ hx
      obtain ⟨hreg, hfollows, hacked, happ⟩ := h.receiver
      refine ⟨hreg, fun p hp hopen => ?_, fun x hx => ?_, fun x hx => hmono x (happ x hx)⟩
      · exact (hfollows p hp hopen).imp_right fun hs => hs.mono hmono fun x hx => hx
      · exact (hacked x hx).mono hmono fun x hx => hx
  | b e =>
    refine ⟨h.sender, ?_⟩
    have htraffic : (s.step ends (.b e)).traffic = { s.traffic with
        acked := s.acked ++
          (sentOf isAck ends.a (s.b.event ends.hostB e).2).map fun x => (x.1, x.2.1)
        applied := s.applied ++ (s.b.core.applies (Router.peerInput e) ends.a).toList } := by
      simp only [traffic, Pair.step, acked, List.filterMap_append, List.filter_append,
        List.map_append, datagramsTo_routing]
      rfl
    rw [htraffic]
    refine Router.settling_event h.receiver h.sender.said fun bytes hb x hx hdata => ?_
    exact List.mem_filter.2 ⟨List.mem_filterMap.2 ⟨bytes, hd bytes hb, hx⟩, hdata⟩

/-- An ack of a number that stands for one packet is an ack of that packet. -/
theorem Sound.ackedApplied {s : Pair} (h : s.Sound ends) : s.AckedApplied ends := by
  intro p o hp ho hs bytes hb dh szi hack
  have hcoh := h.sender.regular.reached.coherent ends.b p hp
  have hwaits : p.sender.Waits := hcoh.waits.1 (by simp [Peer.sending, ho])
  have hserv : p.sender.Serving := by
    refine ⟨fun hu => ?_, hs⟩
    simp [hu, Sender.Waits] at hwaits
  obtain ⟨hlive, honce, -, hout⟩ := h.sender.once p hp hserv
  obtain ⟨dh', cmd, hparse, hmem⟩ := hout o ho
  have hacked : (p.connRemote, o.seq) ∈ s.acked := by
    refine List.mem_map.2 ⟨(p.connRemote, o.seq, .riAck szi), List.mem_filter.2 ⟨?_, rfl⟩, rfl⟩
    exact List.mem_filterMap.2 ⟨bytes, hb, routingIn_eq_some.2 ⟨dh, hack⟩⟩
  refine ⟨dh', cmd, hparse, ?_⟩
  rcases h.receiver.sound.acked _ hacked with ⟨cmd', happ⟩ | ⟨cmd', hsaid, hrd⟩
  · have hsaid := h.receiver.sound.applied _ happ
    obtain rfl : cmd = cmd' := congrArg (fun x => x.2.2) (honce _ hmem _ hsaid rfl rfl rfl)
    exact happ
  · exact absurd hrd (hlive _ hsaid rfl)

theorem sound_start {a b : Router} (ha : Router.Built ends.hostA a)
    (hb : Router.Built ends.hostB b) : (start a b).Sound ends := by
  have hnone : ∀ {host : Host} {r : Router} {ip : Ipv4Addr} {p : Peer}, r.Built host →
      r.core.entry ip ≠ some p := fun hr hp => by
    rw [Router.Built.no_peers hr] at hp
    cases hp
  constructor
  · exact ⟨ha.regular, fun p hp => absurd hp (hnone ha), fun p hp => absurd hp (hnone ha),
      fun x hx => (by cases hx)⟩
  · exact ⟨hb.regular, fun p hp => absurd hp (hnone hb), fun x hx => (by cases hx),
      fun x hx => (by cases hx)⟩

/-- **Acknowledged means applied.** -/
theorem acked_applied {a b : Router} (ha : Router.Built ends.hostA a)
    (hb : Router.Built ends.hostB b) {ts : List Happening}
    (hts : Machine.Guarded (step ends) (fun s t => s.Delivers ends t ∧ s.NumbersOnce ends t)
      (start a b) ts) : (Machine.run (step ends) (start a b) ts).AckedApplied ends :=
  (Machine.Guarded.invariant (fun _ _ hs ht => hs.step ht.1 ht.2) (sound_start ha hb)
    hts).ackedApplied

/-! ### Two small routers -/

/-- The ends of a tunnel between two of the routers below. -/
def smallEnds : Ends :=
  { hostA := .lowest, hostB := .lowest, a := ⟨192, 0, 2, 1⟩, b := ⟨192, 0, 2, 2⟩ }

/-- One LocalTalk network, number 30 in zone `C`, and open peering. -/
def farConfig : Config :=
  { name := ['F'], publicIp := none, openPeering := true, peers := [], ethertalk := []
    ltoudp := [{ interface := none, net := 30, zones := [['C']] }], tashtalk := [] }

def far : Router := Router.new .lowest farConfig [("ltoudp", .ltoudp)] 0

theorem far_built : Router.Built .lowest far :=
  ⟨farConfig, _, 0, rfl, ⟨[], [("ltoudp", .ltoudp)], [], by simp [farConfig]⟩, rfl⟩

/-- The first router takes a routing packet the second has sent. -/
def takes (conn seq : UInt16) (cmd : Cmd) : Happening :=
  .a (.input (.aurp smallEnds.b
    (Aurp.routing { dst := .ip smallEnds.a, src := .null } conn seq cmd).toBytes), fromSecs 11)

/-- The second router takes a routing packet the first has sent. -/
def hears (conn seq : UInt16) (cmd : Cmd) : Happening :=
  .b (.input (.aurp smallEnds.a
    (Aurp.routing { dst := .ip smallEnds.b, src := .null } conn seq cmd).toBytes), fromSecs 11)

/-- The second router opens its connection and asks for an export, which has the one network 10. -/
def asking : List Happening :=
  [.b (.resolved ['A'] smallEnds.a, 0), .b (.input .tick, fromSecs 10),
    takes 1 0 (.openReq Cmd.ALL_SUI 1 []), hears 1 0 (.openRsp 0 1 []),
    takes 1 0 (.riReq Cmd.ALL_SUI)]

/-- It is told of network 10. -/
def told10 : Happening :=
  hears 1 1 (.riRsp true [{ range := (10, 10), extended := false, distance := 0 }])

theorem acked_applied_small :
    (Machine.run (step smallEnds) (start .small far) (asking ++ [told10])).AckedApplied
      smallEnds :=
  @acked_applied smallEnds _ _ Router.small_built far_built _ (by decide +kernel)

/-- The RI-Req comes twice, and network 20 comes into the export in between: the ack of the first
export's only page is taken for one of the second's. -/
theorem stale_ack_accepted :
    ∃ ends a b ts, Router.Built ends.hostA a ∧ Router.Built ends.hostB b ∧
      Machine.Guarded (step ends) (fun s t => s.Delivers ends t) (start a b) ts ∧
      ¬(Machine.run (step ends) (start a b) ts).AckedApplied ends := by
  refine ⟨smallEnds, .small, far, asking ++ [.a (.input (.llap 0 (Router.hopTo20 0)), 0),
    .a (.input (.llap 0 Router.zoneOf20), 0), takes 1 0 (.riReq Cmd.ALL_SUI), told10],
    Router.small_built, far_built, by decide +kernel, ?_⟩
  generalize hs : Machine.run (step smallEnds) _ _ = s
  have hstate : (s.a.core.entry smallEnds.b).any (fun p => p.sender = .waitRiRspAck ∧
      p.connRemote = 1 ∧ p.outstanding.any fun o => o.seq = 1 ∧
        (routingIn o.bytes).any fun x => x ∉ s.applied) = true ∧
      ∃ bytes ∈ s.toA, routingIn bytes = some (1, 1, .riAck true) := by
    rw [← hs]
    decide +kernel
  obtain ⟨hany, bytes, hb, hack⟩ := hstate
  obtain ⟨p, hp, hp'⟩ := (Option.any_eq_true _ _).1 hany
  obtain ⟨hsender, hconn, hout⟩ := of_decide_eq_true hp'
  obtain ⟨o, ho, ho'⟩ := (Option.any_eq_true _ _).1 hout
  obtain ⟨hseq, hsaid⟩ := of_decide_eq_true ho'
  obtain ⟨dh, hparse⟩ := routingIn_eq_some.1 hack
  intro h
  obtain ⟨dh', cmd, hparse', happ⟩ := h p o hp ho (by simp [hsender]) bytes hb dh true
    (by rw [hconn, hseq, hparse])
  rw [routingIn_eq_some.2 ⟨dh', hparse'⟩] at hsaid
  simp [happ] at hsaid

end Pair

end AppleTalk
