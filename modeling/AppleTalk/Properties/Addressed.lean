import AppleTalk.Properties.OwnNetworks
import AppleTalk.Router.Answers
import AppleTalk.Router.Arrivals

/-!
# Who forwards a frame

No port looks at the link-level destination of a frame: a router that hears a frame for somebody
else's node passes its datagram on exactly when it would have passed it on as its own.
-/

namespace AppleTalk

/-- A broadcast or a multicast. -/
def MacAddr.group (m : MacAddr) : Bool := m.b0 &&& 1 ≠ 0

namespace Port

/-- What of a port forwarding looks at. -/
def face (p : Port) : PortId × (UInt16 × UInt16) × Option UInt8 := (p.id, p.range, p.node)

end Port

namespace Router

variable {host : Host}

/-- The datagram a frame hands the router, off which port, with the network the cable stands for
filled in. -/
def handed (host : Host) (r : Router) (i : In) (now : Instant) : Option (PortId × Ddp) :=
  let up (id : PortId) (f : Port → Inbound) :=
    (r.port id).bind fun p =>
      match f p with
      | .ddp d => some (id, localize (some p) d)
      | _ => none
  match i with
  | .ether id packet => up id fun p => (p.inboundEther host packet now).2.1
  | .llap id l => up id fun p => (p.inboundLlap host l now).2.1
  | _ => none

/-- What the forwarding rules ask of a datagram off a port: its length field is right, it is not
for this router itself, it has hops left, and its best route leads to a peer or to another port
that holds an address. -/
structure Passes (r : Router) (id : PortId) (d : Ddp) : Prop where
  length : d.length.toNat = 13 + d.data.length
  elsewhere : ∀ q, r.owner d.dst.net = some q → d.dst.node = 255 ∨ forUs q d.dst.node = false
  hops : d.hops < MAX_HOPS
  route : ∃ route, r.tables.best d.dst.net = some route ∧ route.target ≠ .port id ∧
    ∀ id', route.target = .port id' → ∃ q, r.port id' = some q ∧ q.node.isSome

/-- A frame on a claimed port whose link-level destination is neither the port's own nor a
broadcast or multicast. -/
def Foreign (r : Router) : In → Prop
  | .ether id packet => ∃ p mac, r.port id = some p ∧ p.kind = .ether mac ∧ p.node.isSome ∧
    packet.frame.dst ≠ mac ∧ packet.frame.dst.group = false
  | .llap id l => ∃ p, r.port id = some p ∧ p.extended = false ∧ p.node.isSome ∧
    p.node ≠ some l.dst ∧ l.dst ≠ 255
  | _ => False

/-- The step emits a frame or a tunnel packet carrying the frame's datagram. -/
def Relays (host : Host) (r : Router) (i : In) (now : Instant) : Prop :=
  ∃ id d, r.handed host i now = some (id, d) ∧ ∃ a ∈ (r.step host i now).2, Carries d a

/-! ### A datagram off a port -/

@[simp] theorem localize_length (p : Option Port) (d : Ddp) : (localize p d).length = d.length := by
  cases p <;> rfl

@[simp] theorem localize_data (p : Option Port) (d : Ddp) : (localize p d).data = d.data := by
  cases p <;> rfl

theorem readFrom_localize {p : Option Port} {d : Ddp} {body : DdpBody} (h : body.ReadFrom d) :
    body.ReadFrom (localize p d) := by
  cases p <;> cases body <;> exact h

/-- `forward` carries a datagram on exactly when the hops and the best route allow it. -/
theorem forward_carries_iff {r : Router} {id : PortId} {d : Ddp} :
    (∃ a ∈ r.forward host (.port id) d, Carries d a) ↔ d.hops < MAX_HOPS ∧
      ∃ route, r.tables.best d.dst.net = some route ∧ route.target ≠ .port id ∧
        ∀ id', route.target = .port id' → ∃ q, r.port id' = some q ∧ q.node.isSome := by
  constructor
  · rintro ⟨a, ha, -⟩
    obtain ⟨hh, route, hb, hi, ha⟩ := mem_forward.1 ha
    refine ⟨hh, route, hb, fun ht => ?_, fun id' ht => ?_⟩
    · simp [ht, Origin.is] at hi
    · simp only [ht] at ha
      obtain ⟨q, hq, he⟩ := ha
      exact ⟨q, hq, Port.claimed_of_emit he⟩
  · rintro ⟨hh, route, hb, hne, hport⟩
    have hi : (Origin.port id).is route.target = false := by
      cases ht : route.target with
      | peer ip => rfl
      | port id' =>
        rw [ht] at hne
        simpa [Origin.is] using fun h => hne (by rw [h])
    obtain ⟨hops, hcross⟩ := crossed_eq (.port id) route.target d
    have hmem : ∃ a, a ∈ r.forward host (.port id) d := by
      cases ht : route.target with
      | peer ip => exact ⟨_, mem_forward.2 ⟨hh, route, hb, hi, by rw [ht]⟩⟩
      | port id' =>
        obtain ⟨q, hq, hnode⟩ := hport id' ht
        obtain ⟨a, ha⟩ := Port.exists_emit host hnode (nextDest route d)
          (crossed (.port id) route.target d)
        exact ⟨a, mem_forward.2 ⟨hh, route, hb, hi, by rw [ht]; exact ⟨q, hq, ht ▸ ha⟩⟩⟩
    obtain ⟨a, ha⟩ := hmem
    obtain ⟨route', hb', -, he⟩ := forward_encodes ha
    obtain rfl := Option.some.inj (hb.symm.trans hb')
    exact ⟨a, ha, hops, hcross ▸ he⟩

/-- Only its ports' identities, networks and addresses and its tables decide what a router
passes on. -/
theorem Passes.congr {r r' : Router} {id : PortId} {d : Ddp} (ht : r'.tables = r.tables)
    (hp : r'.ports.map Port.face = r.ports.map Port.face) (h : r.Passes id d) :
    r'.Passes id d := by
  have hfind : ∀ (f : PortId × (UInt16 × UInt16) × Option UInt8 → Bool),
      (r'.ports.find? fun p => f p.face).map Port.face =
        (r.ports.find? fun p => f p.face).map Port.face := by
    intro f
    have h1 := List.find?_map (p := f) (f := Port.face) (l := r'.ports)
    have h2 := List.find?_map (p := f) (f := Port.face) (l := r.ports)
    rw [hp] at h1
    exact h1.symm.trans h2
  have howner : ∀ net, (r'.owner net).map Port.face = (r.owner net).map Port.face := fun net =>
    hfind fun f => f.2.1.1 ≤ net ∧ net ≤ f.2.1.2
  have hport : ∀ id, (r'.port id).map Port.face = (r.port id).map Port.face := fun id =>
    hfind fun f => f.1 = id
  refine ⟨h.length, fun q hq => ?_, h.hops, ?_⟩
  · have := howner d.dst.net
    rw [hq] at this
    obtain ⟨q', hq', hface⟩ := Option.map_eq_some_iff.1 this.symm
    have hnode : q'.node = q.node := congrArg (fun f => f.2.2) hface
    simpa [forUs, hnode] using h.elsewhere q' hq'
  · obtain ⟨route, hb, hne, hr⟩ := h.route
    refine ⟨route, ht ▸ hb, hne, fun id' hid => ?_⟩
    obtain ⟨q, hq, hnode⟩ := hr id' hid
    have := hport id'
    rw [hq] at this
    obtain ⟨q', hq', hface⟩ := Option.map_eq_some_iff.1 this
    have : q'.node = q.node := congrArg (fun f => f.2.2) hface
    exact ⟨q', hq', this ▸ hnode⟩

/-- What the services make of a datagram leaves the routes to our own networks whole. -/
theorem OwnRouted.served {r : Router} (h : r.OwnRouted) (host : Host) (origin : Origin) (q : Port)
    (d : Ddp) (body : DdpBody) (now : Instant) :
    (r.served host origin q d body now).1.OwnRouted := by
  have hcore := served_core host r origin q d body now
  refine ⟨by simpa using h.legal, by simpa using h.apart, ?_⟩
  rw [served_ports]
  have : (r.served host origin q d body now).1.tables =
      (r.core.next (.batch (Local.handleOps (r.arrivedOn origin) q d body now), now)).tables :=
    congrArg Core.tables hcore
  rw [this]
  refine OwnRoutes.next (c := r.core) h.routes fun op hop => ?_
  rcases Local.mem_handleOps hop with ⟨p, x, sender, -, rfl⟩ | ⟨_, _, _, rfl⟩
  · trivial
  · simp [TableOp.Spares]

/-- Nothing the services send carries the datagram they were handed. -/
theorem served_not_carries {r : Router} {origin : Origin} {q : Port} {d : Ddp} {body : DdpBody}
    (h : body.ReadFrom d) {now : Instant} : ∀ a ∈ (r.served host origin q d body now).2,
      ¬Carries d a := by
  intro a ha
  unfold served at ha
  dsimp only at ha
  rcases List.mem_append.1 ha with ha | ha
  · unfold changed at ha
    split_ifs at ha
    · cases ha
    · obtain ⟨c, -, rfl⟩ := List.mem_map.1 ha
      rintro ⟨hops, hc⟩
      exact hc
  · obtain ⟨e, he, ha⟩ := List.mem_flatMap.1 ha
    exact (Local.handle_answers _ _ _ _ h _ _ e he).not_carries (emit_encodes ha)

/-- **A datagram off a port** is carried on exactly when it passes. -/
theorem arrived_carries_iff (host : Host) {r : Router} (h : r.OwnRouted) {id : PortId} {p : Port}
    (hp : r.port id = some p) {d : Ddp} {body : DdpBody} (hb : body.ReadFrom d) (now : Instant) :
    (∃ a ∈ (r.arrived host (.port id) d body now).2, Carries (localize (some p) d) a) ↔
      r.Passes id (localize (some p) d) := by
  have hon : r.arrivedOn (.port id) = some p := hp
  unfold arrived
  dsimp only
  rw [hon]
  by_cases hlen : d.length.toNat ≠ 13 + d.data.length
  · rw [if_pos hlen]
    refine ⟨?_, fun h => absurd h.length (by simpa using hlen)⟩
    rintro ⟨a, ha, -⟩
    cases ha
  rw [if_neg hlen]
  replace hlen : (localize (some p) d).length.toNat = 13 + (localize (some p) d).data.length := by
    simpa using hlen
  replace hb := readFrom_localize (p := some p) hb
  generalize localize (some p) d = d at hlen hb ⊢
  cases hq : r.owner d.dst.net with
  | none =>
    rw [forward_carries_iff]
    exact ⟨fun h => ⟨hlen, by simp [hq], h.1, h.2⟩, fun h => ⟨h.hops, h.route⟩⟩
  | some q =>
    dsimp only
    obtain ⟨hqmem, hqnet⟩ := mem_of_owner hq
    cases hus : forUs q d.dst.node with
    | false =>
      simp only [Bool.false_eq_true, if_false, Bool.not_false, or_true, if_true, List.nil_append]
      rw [forward_carries_iff]
      refine ⟨fun h => ⟨hlen, fun q' hq' => Or.inr ?_, h.1, h.2⟩, fun h => ⟨h.hops, h.route⟩⟩
      rwa [Option.some.inj (hq'.symm.trans hq)]
    | true =>
      simp only [if_true, Bool.not_true, Bool.false_eq_true, or_false]
      by_cases h255 : d.dst.node = 255
      · -- The services may have changed the tables, but not the route to our own network.
        rw [if_pos h255]
        obtain ⟨b, hbest, hbt, -⟩ := h.best hqmem hqnet
        have hqmem' : q ∈ (r.served host (.port id) q d body now).1.ports := by simpa using hqmem
        obtain ⟨b', hbest', hbt', -⟩ := (h.served host (.port id) q d body now).best hqmem' hqnet
        have hmem : (∃ a ∈ (r.served host (.port id) q d body now).2 ++
              (r.served host (.port id) q d body now).1.forward host (.port id) d, Carries d a) ↔
            ∃ a ∈ (r.served host (.port id) q d body now).1.forward host (.port id) d,
              Carries d a := by
          refine exists_congr fun a => ?_
          have hnot : a ∈ (r.served host (.port id) q d body now).2 → ¬Carries d a :=
            served_not_carries hb a
          rw [List.mem_append]
          tauto
        have hport : ∀ id', (r.served host (.port id) q d body now).1.port id' = r.port id' :=
          fun id' => by simp [port]
        rw [hmem, forward_carries_iff]
        refine ⟨?_, fun h => ⟨h.hops, b', hbest', ?_⟩⟩
        · rintro ⟨hh, route, hroute, hne, hr⟩
          obtain rfl := Option.some.inj (hroute.symm.trans hbest')
          rw [hbt'] at hne hr
          simp only [hport] at hr
          exact ⟨hlen, fun _ _ => Or.inl h255, hh, b, hbest, hbt ▸ hne, hbt ▸ hr⟩
        · obtain ⟨route, hroute, hne, hr⟩ := h.route
          obtain rfl := Option.some.inj (hroute.symm.trans hbest)
          rw [hbt] at hne hr
          simp only [hport, hbt']
          exact ⟨hne, hr⟩
      · rw [if_neg h255, List.append_nil]
        refine ⟨?_, fun h => absurd (h.elsewhere q hq) (by simp [h255, hus])⟩
        rintro ⟨a, ha, hc⟩
        exact absurd hc (served_not_carries hb a ha)

/-- Putting back a port with the face it had leaves every port's face as it was. -/
theorem setPort_face {r : Router} {id : PortId} {p p' : Port} (h : r.port id = some p)
    (hf : p'.face = p.face) :
    (r.setPort p').ports.map Port.face = r.ports.map Port.face ∧
      (r.setPort p').port id = some p' := by
  have hid : p.id = id := port_id h
  have hid' : p'.id = id := (congrArg (fun f => f.1) hf).trans hid
  unfold port at h ⊢
  simp only [setPort, hid']
  generalize r.ports = l at h ⊢
  induction l with
  | nil => cases h
  | cons q l ih =>
    rw [List.find?_cons] at h
    rw [Tables.modifyFirst]
    by_cases hq : q.id = id
    · simp only [hq, decide_true, Option.some.injEq] at h
      subst h
      simp [hq, hid', hf]
    · simp only [hq, decide_false] at h
      obtain ⟨h1, h2⟩ := ih h
      simp only [hq, decide_false, Bool.false_eq_true, if_false, List.map_cons, h1,
        List.find?_cons]
      exact ⟨trivial, h2⟩

/-- A datagram a port hands up is carried on exactly when it passes. -/
theorem inbound_carries_iff (host : Host) {r : Router} (h : r.OwnRouted) {id : PortId} {p : Port}
    (hp : r.port id = some p) (p' : Port) (hface : p'.face = p.face)
    (hfixed : p'.fixed = p.fixed) {d : Ddp}
    (body : Ddp → Option DdpBody) {b : DdpBody} (hbody : body d = some b) (hb : b.ReadFrom d)
    (now : Instant) :
    (∃ a ∈ ((r.setPort p').inbound host id (.ddp d) body now).2, Carries (localize (some p) d) a) ↔
      r.Passes id (localize (some p) d) := by
  obtain ⟨hfaces, hp'⟩ := setPort_face hp hface
  have hnets : (r.setPort p').ports.map Port.net = r.ports.map Port.net := by
    have := congrArg (List.map Prod.fst) (setPort_fixed hp hfixed)
    simpa [fixed, Function.comp_def, Port.fixed] using this
  have hown : (r.setPort p').OwnRouted := by
    refine ⟨fun q hq => ?_, hnets ▸ h.apart, hnets ▸ h.routes⟩
    obtain ⟨q', hq', he⟩ := List.mem_map.1 (hnets ▸ List.mem_map_of_mem hq)
    have := h.legal q' hq'
    rwa [show q'.range = q.range from congrArg Net.range he] at this
  have hloc : localize (some p') d = localize (some p) d := by
    have : p'.range = p.range := congrArg (fun f => f.2.1) hface
    simp [localize, this]
  have := arrived_carries_iff host hown hp' hb now
  rw [hloc] at this
  simp only [inbound, hbody, this]
  have htables : (r.setPort p').tables = r.tables := rfl
  exact ⟨Passes.congr htables.symm hfaces.symm, Passes.congr htables hfaces⟩

/-- **What is relayed**: a decoded frame's datagram is carried on exactly when it passes, whatever
the frame's link-level destination. -/
theorem relays_iff {r : Router} (h : r.OwnRouted) {i : In} (hi : i.Decoded) (now : Instant) :
    Relays host r i now ↔ ∃ id d, r.handed host i now = some (id, d) ∧ r.Passes id d := by
  refine exists_congr fun id => exists_congr fun d => and_congr_right fun hd => ?_
  cases i with
  | ether id' packet =>
    obtain ⟨p, hp, hd⟩ := Option.bind_eq_some_iff.1 hd
    dsimp only at hd
    split at hd
    · rename_i d' hd'
      cases hd
      obtain ⟨body, hbody, hin⟩ := Port.inboundEther_ddp hd'
      obtain ⟨-, rfl⟩ := Packet.Decoded.ddp hi hbody
      simp only [step, hp, hin, List.nil_append]
      exact inbound_carries_iff host h hp { p with amt := glean p.amt packet } rfl rfl _
        (by rw [hbody]) (decodeDdpBody_readFrom d') now
    · cases hd
  | llap id' l =>
    obtain ⟨p, hp, hd⟩ := Option.bind_eq_some_iff.1 hd
    dsimp only at hd
    split at hd
    · rename_i d' hd'
      cases hd
      have hin := Port.inboundLlap_ddp hd'
      have := inbound_carries_iff host h hp p rfl rfl (fun d => some (decodeDdpBody d)) rfl
        (decodeDdpBody_readFrom d') now
      simp only [step, hp, hin, List.nil_append]
      exact this
    · cases hd
  | _ => cases hd

/-- **Only the addressed router forwards**, for the frames whose datagram does not pass: in every
reachable state a frame for somebody else is not relayed if and only if what it hands up does not
pass the forwarding rules. -/
theorem foreign_not_relayed_iff {r : Router} (h : Reachable host r) {i : In} (hi : i.Decoded)
    (now : Instant) :
    (r.Foreign i → ¬Relays host r i now) ↔
      (r.Foreign i → ∀ id d, r.handed host i now = some (id, d) → ¬r.Passes id d) := by
  rw [relays_iff h.ownRouted hi]
  push Not
  rfl

/-- A datagram from node 7 of network 10 to node 5 of network 20, in a frame for node 42. -/
def farFrame : Llap :=
  { dst := 42, src := 7, typ := LLAP_LONG_DDP
    data := [0, 14, 0, 0, 0, 20, 0, 10, 5, 7, 200, 200, 9, 1] }

/-- The datagram in it. -/
def farDatagram : Ddp :=
  { hops := 0, length := 14, checksum := 0, dst := { net := 20, node := 5 }, dstSocket := 200
    src := { net := 10, node := 7 }, srcSocket := 200, typ := 9, data := [1] }

/-- A datagram for node 9 of the cable it is on, in a frame for node 42. -/
def nearFrame : Llap :=
  { dst := 42, src := 7, typ := LLAP_LONG_DDP
    data := [0, 14, 0, 0, 0, 10, 0, 10, 9, 7, 200, 200, 9, 1] }

/-- Two LocalTalk networks, 10 and 20. -/
def pairConfig : Config :=
  { name := ['R'], publicIp := none, openPeering := true, peers := [], ethertalk := []
    ltoudp := [{ interface := none, net := 10, zones := [['A']] }]
    tashtalk := [{ device := "tty", net := 20, zones := [['B']] }] }

theorem pair_built :
    Built .lowest (new .lowest pairConfig [("ltoudp", .ltoudp), ("tty", .tashtalk)] 0) :=
  ⟨pairConfig, _, 0, rfl, ⟨[], [("ltoudp", .ltoudp)], [("tty", .tashtalk)], by simp [pairConfig]⟩,
    rfl⟩

/-- A router between them that has claimed its addresses. -/
def pair : Router :=
  (new .lowest pairConfig [("ltoudp", .ltoudp), ("tty", .tashtalk)] 0).after .lowest
    ((List.range 10).map fun k => (.input .tick, fromMillis (250 * k)))

theorem pair_reachable : Reachable .lowest pair := ⟨_, _, pair_built, rfl⟩

/-- Its port 0 is node 128, so a unicast to node 42 is for somebody else. -/
theorem pair_foreign {l : Llap} (h : l.dst = 42) : pair.Foreign (.llap 0 l) := by
  have hport : (pair.port 0).map (fun p => (p.extended, p.node)) = some (false, some 128) := by
    decide +kernel
  obtain ⟨p, hp, hface⟩ := Option.map_eq_some_iff.1 hport
  simp only [Prod.mk.injEq] at hface
  refine ⟨p, hp, hface.1, ?_, ?_, ?_⟩
  · simp [hface.2]
  · rw [hface.2, h]
    decide
  · rw [h]
    decide

/-- Of two frames for node 42 it relays the one whose datagram passes, and not the other. -/
theorem foreign_not_relayed_iff_pair :
    (pair.Foreign (.llap 0 farFrame) ∧ Relays .lowest pair (.llap 0 farFrame) (fromSecs 5)) ∧
      pair.Foreign (.llap 0 nearFrame) ∧
        ¬Relays .lowest pair (.llap 0 nearFrame) (fromSecs 5) := by
  have hfar : pair.handed .lowest (.llap 0 farFrame) (fromSecs 5) = some (0, farDatagram) := by
    decide +kernel
  have hnear : (pair.handed .lowest (.llap 0 nearFrame) (fromSecs 5)).map (fun x =>
      (x.1, x.2.dst.net)) = some (0, 10) := by decide +kernel
  have hways : (pair.tables.best 20).map Route.target = some (.port 1) ∧
      (pair.tables.best 10).map Route.target = some (.port 0) ∧
      (pair.port 1).map (fun q => q.node.isSome) = some true ∧
      (pair.owner 20).map (fun q => forUs q 5) = some false := by decide +kernel
  obtain ⟨hbest20, hbest10, hport, howner⟩ := hways
  obtain ⟨route, hbest, htarget⟩ := Option.map_eq_some_iff.1 hbest20
  obtain ⟨q, hq, hnode⟩ := Option.map_eq_some_iff.1 hport
  have hpasses : pair.Passes 0 farDatagram := by
    refine ⟨by decide, fun q' hq' => Or.inr ?_, by decide, route, hbest, by simp [htarget], ?_⟩
    · rw [show pair.owner 20 = some q' from hq'] at howner
      exact Option.some.inj howner
    · intro id' hid'
      obtain rfl : 1 = id' := by simpa [htarget] using hid'
      exact ⟨q, hq, hnode⟩
  refine ⟨⟨pair_foreign rfl, ?_⟩, pair_foreign rfl, ?_⟩
  · by_contra hnot
    exact (foreign_not_relayed_iff (i := .llap 0 farFrame) pair_reachable trivial
      (fromSecs 5)).1 (fun _ => hnot) (pair_foreign rfl) 0 farDatagram hfar hpasses
  · refine (foreign_not_relayed_iff (i := .llap 0 nearFrame) pair_reachable trivial
      (fromSecs 5)).2 (fun _ id d hd h => ?_) (pair_foreign rfl)
    rw [hd] at hnear
    simp only [Option.map_some, Option.some.injEq, Prod.mk.injEq] at hnear
    obtain ⟨route', hbest', hne, -⟩ := h.route
    rw [hnear.2] at hbest'
    rw [hbest', Option.map_some] at hbest10
    exact hne (hnear.1 ▸ Option.some.inj hbest10)

/-- A router forwards a datagram that a node handed to node 42. -/
theorem foreign_frame_is_relayed :
    ∃ r i now, Reachable Host.lowest r ∧ i.Decoded ∧ r.Foreign i ∧ Relays .lowest r i now := by
  refine ⟨pair, .llap 0 farFrame, fromSecs 5, pair_reachable, trivial, pair_foreign rfl, ?_⟩
  have hhanded : pair.handed .lowest (.llap 0 farFrame) (fromSecs 5) = some (0, farDatagram) := by
    decide +kernel
  have hacts : (pair.step .lowest (.llap 0 farFrame) (fromSecs 5)).2 =
      [.toLlap 1 { dst := 5, src := 128, typ := LLAP_LONG_DDP
                   data := { farDatagram with hops := 1 }.toBytes }] := by
    decide +kernel
  refine ⟨0, farDatagram, hhanded, _, hacts ▸ List.mem_singleton_self _, 1, ?_⟩
  exact Or.inl ⟨rfl, rfl⟩

end Router

end AppleTalk
