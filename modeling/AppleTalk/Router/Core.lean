import AppleTalk.Router.PeerOps
import AppleTalk.Router.Step

/-!
# The core of the router

The routing tables and the tunnel peers, without the ports: a machine whose inputs are batches of
table operations, packets, ticks and what the run loop asks of the peers. Every event of the
router acts on this core as a few of its inputs, and sends the peers exactly the routing packets
those inputs send.
-/

namespace AppleTalk

open TableOp

/-- The routing tables and the peers. -/
structure Core where
  tables : Tables
  peers : Peers

/-- What the core takes. A batch is a run of table operations reported together. -/
inductive CoreIn
  | batch (ops : List TableOp)
  | packet («from» : Ipv4Addr) (bytes : Bytes)
  | tick
  | resolved (name : Str) (addr : Ipv4Addr)
  | ping
  | pingReport
  | shutdown

namespace Core

/-- Report route changes to the peers. -/
def report (c : Core) (chs : List RouteChange) : Core :=
  if chs.isEmpty then c else { c with peers := c.peers.routeChanged chs c.tables }

def step (c : Core) (i : CoreIn × Instant) : Core × List Action :=
  match i.1 with
  | .batch ops =>
    let r := applyAll c.tables ops
    (report { c with tables := r.1 } r.2, [])
  | .packet «from» bytes =>
    let r := c.peers.packet «from» bytes c.tables i.2
    (report { tables := r.tables, peers := r.peers } r.chs, r.acts)
  | .tick =>
    let r := c.peers.tick c.tables i.2
    (report { tables := r.tables, peers := r.peers } r.chs, r.acts)
  | .resolved name addr => ({ c with peers := c.peers.resolved name addr i.2 }, [])
  | .ping =>
    let r := c.peers.ping i.2
    ({ c with peers := r.1 }, r.2)
  | .pingReport => ({ c with peers := c.peers.pingReport.1 }, [])
  | .shutdown =>
    let r := c.peers.shutdown i.2
    ({ c with peers := r.1 }, r.2)

/-- The next state alone. -/
def next (c : Core) (i : CoreIn × Instant) : Core := (c.step i).1

/-- The core after a run. -/
def after (c : Core) (is : List (CoreIn × Instant)) : Core := Machine.run next c is

/-- The actions of a run. -/
def acts : Core → List (CoreIn × Instant) → List Action
  | _, [] => []
  | c, i :: is => (c.step i).2 ++ acts (c.next i) is

/-- The table operations of an input. -/
def ops (c : Core) (i : CoreIn × Instant) : List TableOp :=
  match i.1 with
  | .batch ops => ops
  | .packet «from» bytes => c.peers.packetOps «from» bytes c.tables i.2
  | .tick => c.peers.tickOps i.2
  | _ => []

@[simp] theorem report_tables (c : Core) (chs : List RouteChange) :
    (c.report chs).tables = c.tables := by
  unfold report
  split_ifs <;> rfl

/-- An input changes the tables by its operations. -/
theorem next_tables (c : Core) (i : CoreIn × Instant) :
    (c.next i).tables = TableOp.after c.tables (c.ops i) := by
  rw [← applyAll_fst]
  obtain ⟨i, now⟩ := i
  cases i with
  | batch ops => exact report_tables _ _
  | packet «from» bytes =>
    exact (report_tables _ _).trans
      (congrArg Prod.fst (c.peers.packet_eq «from» bytes c.tables now))
  | tick => exact (report_tables _ _).trans (congrArg Prod.fst (c.peers.tick_eq c.tables now))
  | _ => rfl

end Core

/-! ### The router's core -/

namespace Router

variable (host : Host)

def core (r : Router) : Core := { tables := r.tables, peers := r.peers }

/-- The table operations of a datagram that arrived, through the services. -/
def serviceOps (r : Router) (origin : Origin) (ddp : Ddp) (body : DdpBody) (now : Instant) :
    List TableOp :=
  if ddp.length.toNat ≠ 13 + ddp.data.length then []
  else
    let ddp := localize (r.arrivedOn origin) ddp
    match r.owner ddp.dst.net with
    | none => []
    | some q =>
      if forUs q ddp.dst.node then Local.handleOps (r.arrivedOn origin) q ddp body now else []

/-- The core's inputs for what a port lifted out of a frame. -/
def inboundInputs (r : Router) (id : PortId) (i : Inbound) (body : Ddp → Option DdpBody)
    (now : Instant) : List (CoreIn × Instant) :=
  match i with
  | .ddp d =>
    match body d with
    | some b => [(.batch (r.serviceOps (.port id) d b now), now)]
    | none => []
  | _ => []

/-- The core's inputs for an event of the router. -/
def coreInputs (r : Router) (e : Event × Instant) : List (CoreIn × Instant) :=
  let now := e.2
  match e.1 with
  | .input (.ether id packet) =>
    match r.port id with
    | none => []
    | some p =>
      let a := p.inboundEther host packet now
      (r.setPort a.1).inboundInputs id a.2.1 (fun _ =>
        match packet.body with
        | .ddp _ body => some body
        | _ => none) now
  | .input (.llap id l) =>
    match r.port id with
    | none => []
    | some p =>
      let a := p.inboundLlap host l now
      (r.setPort a.1).inboundInputs id a.2.1 (fun d => some (decodeDdpBody d)) now
  | .input (.aurp «from» bytes) =>
    (.packet «from» bytes, now) ::
      match (r.peers.packet «from» bytes r.tables now).ddp.bind Ddp.parse with
      | some d => [(.batch (r.serviceOps (.peer «from») d (decodeDdpBody d) now), now)]
      | none => []
  | .input .tick => [(.batch [.age now], now), (.tick, now)]
  | .input .ping => [(.ping, now)]
  | .input .pingReport => [(.pingReport, now)]
  | .resolved name addr => [(.resolved name addr, now)]
  | .shutdown => [(.shutdown, now)]

/-- The services learn routes through the port a datagram came off, and zone names. -/
theorem mem_serviceOps {r : Router} {origin : Origin} {ddp : Ddp} {body : DdpBody} {now : Instant}
    {op : TableOp} (h : op ∈ r.serviceOps origin ddp body now) :
    (∃ id x sender, origin = .port id ∧ op = .learn x (.port id) sender now) ∨
      ∃ start names expected, op = .addZones start names expected := by
  unfold serviceOps at h
  dsimp only at h
  split_ifs at h
  · cases h
  · split at h
    · cases h
    · split_ifs at h
      · rcases Local.mem_handleOps h with ⟨p, x, sender, hp, rfl⟩ | hz
        · cases origin with
          | port id =>
            have hid : p.id = id := by simpa using List.find?_some hp
            exact Or.inl ⟨id, x, sender, rfl, by rw [hid]⟩
          | peer ip => cases hp
          | here => cases hp
        · exact Or.inr hz
      · cases h

/-- The batches among the core's inputs for an event: what the services make of a datagram, and
the aging of a tick. -/
theorem mem_coreInputs {r : Router} {e : Event × Instant} {i : CoreIn × Instant}
    (h : i ∈ r.coreInputs host e) :
    (∃ (q : Router) (origin : Origin) (ddp : Ddp) (body : DdpBody),
        i.1 = .batch (q.serviceOps origin ddp body e.2)) ∨
      i.1 = .batch [.age e.2] ∨ ∀ ops, i.1 ≠ .batch ops := by
  have hin : ∀ (q : Router) id inb body, i ∈ q.inboundInputs id inb body e.2 →
      ∃ (q : Router) (origin : Origin) (ddp : Ddp) (body : DdpBody),
        i.1 = .batch (q.serviceOps origin ddp body e.2) := by
    intro q id inb body hi
    unfold inboundInputs at hi
    split at hi
    · split at hi
      · rw [List.mem_singleton.1 hi]
        exact ⟨_, _, _, _, rfl⟩
      · cases hi
    · cases hi
  obtain ⟨e, now⟩ := e
  unfold coreInputs at h
  cases e with
  | input j =>
    cases j with
    | ether id packet =>
      dsimp only at h
      split at h
      · cases h
      · exact Or.inl (hin _ _ _ _ h)
    | llap id l =>
      dsimp only at h
      split at h
      · cases h
      · exact Or.inl (hin _ _ _ _ h)
    | aurp «from» bytes =>
      rcases List.mem_cons.1 h with rfl | h
      · exact Or.inr (Or.inr (by simp))
      · split at h
        · rw [List.mem_singleton.1 h]
          exact Or.inl ⟨_, _, _, _, rfl⟩
        · cases h
    | tick =>
      rcases List.mem_cons.1 h with rfl | h
      · exact Or.inr (Or.inl rfl)
      · rw [List.mem_singleton.1 h]
        exact Or.inr (Or.inr (by simp))
    | _ =>
      rw [List.mem_singleton.1 h]
      exact Or.inr (Or.inr (by simp))
  | _ =>
    rw [List.mem_singleton.1 h]
    exact Or.inr (Or.inr (by simp))

/-! ### The refinement -/

theorem changed_core (r : Router) (chs : List RouteChange) :
    (r.changed chs).1.core = r.core.report chs := by
  unfold changed Core.report core
  split_ifs <;> rfl

@[simp] theorem changed_ports (r : Router) (chs : List RouteChange) :
    (r.changed chs).1.ports = r.ports := by
  unfold changed
  split_ifs <;> rfl

@[simp] theorem changed_local (r : Router) (chs : List RouteChange) :
    (r.changed chs).1.local = r.local := by
  unfold changed
  split_ifs <;> rfl

theorem served_core (r : Router) (origin : Origin) (q : Port) (ddp : Ddp) (body : DdpBody)
    (now : Instant) :
    (r.served host origin q ddp body now).1.core =
      r.core.next (.batch (Local.handleOps (r.arrivedOn origin) q ddp body now), now) := by
  have h := Prod.ext_iff.1
    (r.local.handle_eq (r.arrivedOn origin) q r.ports ddp body r.tables now)
  simp only at h
  simp only [served, Core.next, Core.step, h.1, h.2]
  exact changed_core _ _

@[simp] theorem served_ports (r : Router) (origin : Origin) (q : Port) (ddp : Ddp)
    (body : DdpBody) (now : Instant) :
    (r.served host origin q ddp body now).1.ports = r.ports := by
  simp [served]

@[simp] theorem arrived_ports (r : Router) (origin : Origin) (ddp : Ddp) (body : DdpBody)
    (now : Instant) : (r.arrived host origin ddp body now).1.ports = r.ports := by
  unfold arrived
  dsimp only
  split_ifs
  · rfl
  · split
    · rfl
    · split_ifs <;> simp

/-- A datagram acts on the core as one batch. -/
theorem arrived_core (r : Router) (origin : Origin) (ddp : Ddp) (body : DdpBody)
    (now : Instant) :
    (r.arrived host origin ddp body now).1.core =
      r.core.next (.batch (r.serviceOps origin ddp body now), now) := by
  unfold arrived serviceOps
  dsimp only
  split_ifs with h1
  · rfl
  · cases r.owner (localize (r.arrivedOn origin) ddp).dst.net with
    | none => rfl
    | some q =>
      by_cases h2 : forUs q (localize (r.arrivedOn origin) ddp).dst.node
      · simp only [h2, if_true, served_core]
      · simp only [h2, if_false, Bool.false_eq_true]
        rfl

theorem inbound_core (r : Router) (id : PortId) (i : Inbound) (body : Ddp → Option DdpBody)
    (now : Instant) :
    (r.inbound host id i body now).1.core = r.core.after (r.inboundInputs id i body now) := by
  unfold inbound inboundInputs
  cases i with
  | ddp d =>
    dsimp only
    cases body d with
    | none => rfl
    | some b => exact r.arrived_core host (.port id) d b now
  | _ => rfl

/-- The services' operations depend on the ports alone. -/
theorem serviceOps_congr {r r' : Router} (h : r'.ports = r.ports) (origin : Origin) (ddp : Ddp)
    (body : DdpBody) (now : Instant) :
    r'.serviceOps origin ddp body now = r.serviceOps origin ddp body now := by
  have h1 : r'.arrivedOn origin = r.arrivedOn origin := by
    cases origin <;> simp [arrivedOn, port, h]
  simp only [serviceOps, h1, owner, h]

/-- The router in the middle of a tick: its ports and its routes have aged. -/
def aged (r : Router) (now : Instant) : Router :=
  (changed
    { r with ports := (tickPorts now r.ports).1, tables := (r.tables.age now).1 }
    (r.tables.age now).2).1

theorem aged_core (r : Router) (now : Instant) :
    (r.aged now).core = r.core.next (.batch [.age now], now) := by
  rw [aged, changed_core, ← List.append_nil (r.tables.age now).2]
  rfl

/-- **The refinement.** Every event of the router acts on the core as the core's inputs for
it. -/
theorem event_core (r : Router) (e : Event × Instant) :
    (r.event host e).1.core = r.core.after (r.coreInputs host e) := by
  obtain ⟨e, now⟩ := e
  cases e with
  | input i =>
    cases i with
    | ether id packet =>
      simp only [event, step, coreInputs]
      cases r.port id with
      | none => rfl
      | some p => exact inbound_core host _ id _ _ now
    | llap id l =>
      simp only [event, step, coreInputs]
      cases r.port id with
      | none => rfl
      | some p => exact inbound_core host _ id _ _ now
    | aurp «from» bytes =>
      simp only [event, step, coreInputs]
      cases (r.peers.packet «from» bytes r.tables now).ddp.bind Ddp.parse with
      | none => exact changed_core _ _
      | some d =>
        simp only [arrived_core]
        rw [serviceOps_congr (r := r) (by simp), changed_core]
        rfl
    | tick =>
      show (changed _ _).1.core = (r.core.next (.batch [.age now], now)).next (.tick, now)
      rw [changed_core, ← aged_core]
      rfl
    | ping => rfl
    | pingReport => rfl
  | resolved name addr => rfl
  | shutdown => rfl

/-- The core's inputs over a run. -/
def coreTrace : Router → List (Event × Instant) → List (CoreIn × Instant)
  | _, [] => []
  | r, e :: es => r.coreInputs host e ++ coreTrace (r.event host e).1 es

/-- A run of the router acts on the core as a run of the core. -/
theorem after_core (r : Router) (es : List (Event × Instant)) :
    (r.after host es).core = r.core.after (r.coreTrace host es) := by
  induction es generalizing r with
  | nil => rfl
  | cons e es ih =>
    show (after host (r.event host e).1 es).core = _
    rw [ih, coreTrace, event_core]
    exact (Machine.run_append _ _ _ _).symm

end Router

/-! ### What is sent -/

/-- The routing packet an action sends to a peer: its connection, its sequence number and its
command. -/
def routingOf (ip : Ipv4Addr) (a : Action) : Option (UInt16 × UInt16 × Cmd) :=
  match a with
  | .toPeer peer bytes =>
    if peer = ip then
      match Aurp.parse bytes with
      | some (.routing _ conn seq cmd) => some (conn, seq, cmd)
      | _ => none
    else none
  | _ => none

/-- The routing packets a list of actions sends to a peer, in order. -/
def sentTo (ip : Ipv4Addr) (acts : List Action) : List (UInt16 × UInt16 × Cmd) :=
  acts.filterMap (routingOf ip)

@[simp] theorem sentTo_nil (ip : Ipv4Addr) : sentTo ip [] = [] := rfl

@[simp] theorem sentTo_append (ip : Ipv4Addr) (a b : List Action) :
    sentTo ip (a ++ b) = sentTo ip a ++ sentTo ip b := List.filterMap_append

theorem sentTo_eq_nil {ip : Ipv4Addr} {acts : List Action} (h : ∀ a ∈ acts, routingOf ip a = none) :
    sentTo ip acts = [] := List.filterMap_eq_nil_iff.2 h

namespace Router

variable (host : Host)

theorem routingOf_forward (s : Peers) (ip peer : Ipv4Addr) (ddp : Bytes) :
    routingOf ip (s.forward peer ddp) = none := by
  unfold Peers.forward routingOf
  dsimp only
  split_ifs
  · split
    · rename_i h
      cases Aurp.parse_data h
    · rfl
  · rfl

/-- A port sends frames on its own cable only. -/
theorem routingOf_port_emit {p : Port} {dest : Dest} {ddp : Ddp} {a : Action}
    (h : p.emit host dest ddp = some a) (ip : Ipv4Addr) : routingOf ip a = none := by
  obtain ⟨node, -, rfl⟩ := Option.map_eq_some_iff.1 h
  split
  · rfl
  · dsimp only
    split_ifs <;> rfl

theorem sentTo_port_emit (p : Port) (dest : Dest) (ddp : Ddp) (ip : Ipv4Addr) :
    sentTo ip (p.emit host dest ddp).toList = [] :=
  sentTo_eq_nil fun _ ha => routingOf_port_emit host (Option.mem_toList.1 ha) ip

/-- Forwarding sends the peers data packets only. -/
theorem sentTo_forward (r : Router) (origin : Origin) (ddp : Ddp) (ip : Ipv4Addr) :
    sentTo ip (r.forward host origin ddp) = [] := by
  unfold forward
  dsimp only
  split_ifs
  · rfl
  · cases r.tables.best ddp.dst.net with
    | none => rfl
    | some route =>
      dsimp only
      split_ifs
      all_goals first
        | rfl
        | (split
           · exact sentTo_eq_nil (by simp [routingOf_forward])
           · split
             · rfl
             · exact sentTo_port_emit host _ _ _ ip)

theorem sentTo_emit (r : Router) (e : Emit) (ip : Ipv4Addr) :
    sentTo ip (r.emit host e) = [] := by
  unfold emit
  cases e with
  | on id dest ddp =>
    dsimp only
    cases r.port id with
    | none => rfl
    | some p => exact sentTo_port_emit host p dest ddp ip
  | route ddp => exact sentTo_forward host r .here ddp ip

theorem sentTo_emits (r : Router) (es : List Emit) (ip : Ipv4Addr) :
    sentTo ip (es.flatMap (r.emit host)) = [] := by
  induction es with
  | nil => rfl
  | cons e es ih => rw [List.flatMap_cons, sentTo_append, sentTo_emit, ih]; rfl

theorem sentTo_changed (r : Router) (chs : List RouteChange) (ip : Ipv4Addr) :
    sentTo ip (r.changed chs).2 = [] := by
  unfold changed
  split_ifs
  · rfl
  · exact sentTo_eq_nil fun a ha => by
      obtain ⟨c, -, rfl⟩ := List.mem_map.1 ha
      rfl

theorem sentTo_arrived (r : Router) (origin : Origin) (ddp : Ddp) (body : DdpBody)
    (now : Instant) (ip : Ipv4Addr) :
    sentTo ip (r.arrived host origin ddp body now).2 = [] := by
  unfold arrived
  dsimp only
  split_ifs
  · rfl
  · split
    · exact sentTo_forward host r origin _ ip
    · split_ifs <;>
        simp [served, sentTo_forward, sentTo_changed, sentTo_emits]

theorem sentTo_inbound (r : Router) (id : PortId) (i : Inbound) (body : Ddp → Option DdpBody)
    (now : Instant) (ip : Ipv4Addr) : sentTo ip (r.inbound host id i body now).2 = [] := by
  unfold inbound
  cases i with
  | ddp d =>
    dsimp only
    cases body d with
    | none => rfl
    | some b => exact sentTo_arrived host r _ d b now ip
  | _ => rfl

/-- A port's own traffic stays on its cable. -/
theorem sentTo_inboundEther (p : Port) (packet : Packet) (now : Instant) (ip : Ipv4Addr) :
    sentTo ip (p.inboundEther host packet now).2.2 = [] := by
  unfold Port.inboundEther
  split
  · split_ifs
    · rfl
    · dsimp only
      split
      · unfold Port.inboundAarp
        dsimp only
        split
        · split_ifs <;> rfl
        · rfl
        · rfl
      · rfl
      · rfl
  · rfl

theorem sentTo_inboundLlap (p : Port) (l : Llap) (now : Instant) (ip : Ipv4Addr) :
    sentTo ip (p.inboundLlap host l now).2.2 = [] := by
  unfold Port.inboundLlap
  dsimp only
  split_ifs <;> rfl

theorem sentTo_tickPorts (ports : List Port) (now : Instant) (ip : Ipv4Addr) :
    sentTo ip (tickPorts now ports).2 = [] := by
  induction ports with
  | nil => rfl
  | cons p ports ih =>
    rw [tickPorts, sentTo_append, ih, List.append_nil]
    unfold Port.tick Port.claimed
    dsimp only
    split_ifs
    all_goals first
      | rfl
      | (split <;> rfl)

/-- **What an event sends.** The routing packets an event of the router sends to a peer are those
its core's inputs send. -/
theorem sentTo_event (r : Router) (e : Event × Instant) (ip : Ipv4Addr) :
    sentTo ip (r.event host e).2 = sentTo ip (Core.acts r.core (r.coreInputs host e)) := by
  obtain ⟨e, now⟩ := e
  have hbatch : ∀ c ops, sentTo ip (Core.acts c [(.batch ops, now)]) = [] := fun _ _ => rfl
  have hin : ∀ (q : Router) id i body, sentTo ip (Core.acts r.core
      (q.inboundInputs id i body now)) = [] := fun q id i body => by
    unfold inboundInputs
    cases i with
    | ddp d =>
      dsimp only
      cases body d with
      | none => rfl
      | some b => rfl
    | _ => rfl
  cases e with
  | input i =>
    cases i with
    | ether id packet =>
      simp only [event, step, coreInputs]
      cases r.port id with
      | none => rfl
      | some p => simp [sentTo_inboundEther, sentTo_inbound, hin]
    | llap id l =>
      simp only [event, step, coreInputs]
      cases r.port id with
      | none => rfl
      | some p => simp [sentTo_inboundLlap, sentTo_inbound, hin]
    | aurp «from» bytes =>
      simp only [event, step, coreInputs]
      cases (r.peers.packet «from» bytes r.tables now).ddp.bind Ddp.parse with
      | none => simp [sentTo_changed, Core.acts, Core.step, core]
      | some d => simp [sentTo_changed, sentTo_arrived, Core.acts, Core.step, core]
    | tick =>
      have hacts : sentTo ip (Core.acts r.core (r.coreInputs host (.input .tick, now))) =
          sentTo ip ((r.core.next (.batch [.age now], now)).step (.tick, now)).2 := by
        simp [coreInputs, Core.acts, Core.step]
      rw [hacts, ← aged_core]
      simp only [event, step, sentTo_append, sentTo_tickPorts, sentTo_changed, sentTo_emits,
        List.nil_append, List.append_nil]
      rfl
    | ping => simp [event, step, coreInputs, Core.acts, Core.step, core]
    | pingReport => rfl
  | resolved name addr => rfl
  | shutdown => simp [event, coreInputs, Core.acts, Core.step, core]

end Router

end AppleTalk
