import AppleTalk.Config
import AppleTalk.Lib.Run
import AppleTalk.Router.Aurp
import AppleTalk.Router.Local

/-!
# The router

The router forwards datagrams between ports and AURP peers, and runs its services
(`router/mod.rs`). It is pure: every input is a decoded frame and a clock reading, and every
output is a list of actions.
-/

namespace AppleTalk

/-- One thing that happened, as the run loop hands it to the router. -/
inductive In
  | ether (port : PortId) (packet : Packet)
  | llap (port : PortId) (llap : Llap)
  | aurp («from» : Ipv4Addr) (bytes : Bytes)
  | tick
  | ping
  | pingReport

structure Router where
  ports : List Port
  tables : Tables
  «local» : Local
  peers : Peers

namespace Router

variable (host : Host)

/-- Open the ports one after the other: each gets the next ID and its network. -/
def addPorts (now : Instant) : ℕ → List ((String × Kind) × (UInt16 × UInt16) × List Str) →
    Tables → List Port × Tables
  | _, [], tables => ([], tables)
  | id, ((name, kind), range, zones) :: specs, tables =>
    let p := Port.new host (UInt8.ofNat id) name kind range zones now
    let r := addPorts now (id + 1) specs (tables.addPort p.id range p.extended zones now)
    (p :: r.1, r.2)

/-- `kinds` has one entry per configured port, in the config's own order. -/
def new (cfg : Config) (kinds : List (String × Kind)) (now : Instant) : Router :=
  let r := addPorts host now 0 (kinds.zip cfg.portSpecs) Tables.new
  { ports := r.1
    tables := r.2
    «local» := Local.new cfg.name
    peers := Peers.new ((cfg.publicIp.map Di.ip).getD .null) cfg.openPeering cfg.peers host.nanos
      now }

def port (r : Router) (id : PortId) : Option Port := r.ports.find? fun p => p.id = id

/-- The port a network of ours sits on. -/
def owner (r : Router) (net : UInt16) : Option Port := r.ports.find? fun p => p.owns net

theorem mem_of_port {r : Router} {id : PortId} {p : Port} (h : r.port id = some p) :
    p ∈ r.ports ∧ p.id = id :=
  ⟨List.mem_of_find?_eq_some h, by simpa using List.find?_some h⟩

theorem port_id {r : Router} {id : PortId} {p : Port} (h : r.port id = some p) : p.id = id :=
  (mem_of_port h).2

theorem mem_of_owner {r : Router} {net : UInt16} {q : Port} (h : r.owner net = some q) :
    q ∈ r.ports ∧ q.owns net :=
  ⟨List.mem_of_find?_eq_some h, by simpa using List.find?_some h⟩

/-- Put back a port that took an input. -/
def setPort (r : Router) (p : Port) : Router :=
  { r with ports := Tables.modifyFirst (fun q => q.id = p.id) (fun _ => p) r.ports }

/-! ### Changes -/

/-- Zone names as a log line lists them. -/
def zonesText (tables : Tables) (start : UInt16) : String :=
  match tables.zones start with
  | some z =>
    if z.names.isEmpty then ""
    else ", zones " ++ String.intercalate ", " (z.names.map String.ofList)
  | none => ""

/-- One route change as a line. -/
def describe (tables : Tables) (c : RouteChange) : String :=
  let range := Config.showRange c.range
  let zones := zonesText tables c.range.1
  let reached (r : Route) := via r.target ++ " distance " ++ dec r.distance.toNat
  match c.old, c.new with
  | none, some n => "route " ++ range ++ " via " ++ reached n ++ zones
  | some o, none => "route " ++ range ++ " deleted, was via " ++ reached o
  | some o, some n =>
    "route " ++ range ++ " now via " ++ reached n ++ ", was via " ++ reached o ++ zones
  | none, none => "route " ++ range ++ " unchanged"

/-- Route changes are what an AURP data sender reports to its peers, and what a log shows. -/
def changed (r : Router) (changes : List RouteChange) : Router × List Action :=
  if changes.isEmpty then (r, [])
  else ({ r with peers := r.peers.routeChanged changes r.tables },
    changes.map fun c => .log (describe r.tables c))

/-! ### Forwarding -/

/-- Crossing this router costs a hop, but for a datagram we originated, and for one off a tunnel
bound for a cable, which had the tunnel's one hop applied by the sending side. -/
def free (origin : Origin) (target : Target) : Bool :=
  match origin, target with
  | .here, _ => true
  | .peer _, .port _ => true
  | _, _ => false

/-- The forwarding rules for a datagram this router is passing on. -/
def forward (r : Router) (origin : Origin) (ddp : Ddp) : List Action :=
  if MAX_HOPS ≤ ddp.hops then []
  else
    match r.tables.best ddp.dst.net with
    | none => []
    | some route =>
      -- Never back out the port or down the tunnel it arrived on.
      if origin.is route.target then []
      else
        let ddp := if free origin route.target then ddp else { ddp with hops := ddp.hops + 1 }
        match route.target with
        | .peer ip => [r.peers.forward ip ddp.toBytes]
        | .port id =>
          match r.port id with
          | none => []
          | some p =>
            let dest :=
              if route.distance = 0 then
                -- Directly attached: the datagram is home.
                if ddp.dst.node = 255 then Dest.broadcast else .node ddp.dst.node
              else .node route.next.node
            (p.emit host dest ddp).toList

/-- A service's datagram: pinned to a port, or handed back to the routing rules. -/
def emit (r : Router) (e : Emit) : List Action :=
  match e with
  | .on id dest ddp =>
    match r.port id with
    | some p => (p.emit host dest ddp).toList
    | none => []
  | .route ddp => r.forward host .here ddp

/-- Network 0 means "this cable": the port's network number stands in for it. -/
def localize (p : Option Port) (ddp : Ddp) : Ddp :=
  match p with
  | none => ddp
  | some p =>
    { ddp with
      dst := if ddp.dst.net = 0 then { ddp.dst with net := p.range.1 } else ddp.dst
      src := if ddp.src.net = 0 then { ddp.src with net := p.range.1 } else ddp.src }

/-- The cable a datagram came off, where there is one. -/
def arrivedOn (r : Router) : Origin → Option Port
  | .port id => r.port id
  | _ => none

/-- Node 0 is any router on the network, 255 is everybody, and both include us. -/
def forUs (q : Port) (node : UInt8) : Bool := node = 0 ∨ node = 255 ∨ some node = q.node

/-- What the services make of a datagram for this router, sent on and reported. -/
def served (r : Router) (origin : Origin) (q : Port) (ddp : Ddp) (body : DdpBody)
    (now : Instant) : Router × List Action :=
  let s := r.local.handle (r.arrivedOn origin) q r.ports ddp body r.tables now
  let c := changed { r with tables := s.tables } s.chs
  (c.1, c.2 ++ s.emits.flatMap (c.1.emit host))

/-- A datagram off a link or off a tunnel, run through the forwarding order. -/
def arrived (r : Router) (origin : Origin) (ddp : Ddp) (body : DdpBody) (now : Instant) :
    Router × List Action :=
  -- A length that disagrees with the bytes means a truncated or padded datagram.
  if ddp.length.toNat ≠ 13 + ddp.data.length then (r, [])
  else
    let ddp := localize (r.arrivedOn origin) ddp
    match r.owner ddp.dst.net with
    | none => (r, r.forward host origin ddp)
    | some q =>
      let s := if forUs q ddp.dst.node then r.served host origin q ddp body now else (r, [])
      -- A broadcast still has to reach the cable it names, and so does a datagram for somebody
      -- else's node there.
      (s.1, s.2 ++
        if ddp.dst.node = 255 ∨ !forUs q ddp.dst.node then s.1.forward host origin ddp else [])

/-! ### Steps -/

/-- The datagram a port lifted out of a frame, run through the router. -/
def inbound (r : Router) (id : PortId) (i : Inbound) (body : Ddp → Option DdpBody)
    (now : Instant) : Router × List Action :=
  match i with
  | .ddp d =>
    match body d with
    | some b => r.arrived host (.port id) d b now
    | none => (r, [])
  | _ => (r, [])

/-- The ports' share of a tick. -/
def tickPorts (now : Instant) : List Port → List Port × List Action
  | [] => ([], [])
  | p :: ports =>
    let a := p.tick now
    let b := tickPorts now ports
    (a.1 :: b.1, a.2 ++ b.2)

def step (r : Router) (input : In) (now : Instant) : Router × List Action :=
  match input with
  | .ether id packet =>
    match r.port id with
    | none => (r, [])
    | some p =>
      let a := p.inboundEther host packet now
      -- A port only lifts a datagram out of a frame it decoded, so the body beside it is this
      -- datagram's own.
      let b := (r.setPort a.1).inbound host id a.2.1 (fun _ =>
        match packet.body with
        | .ddp _ body => some body
        | _ => none) now
      (b.1, a.2.2 ++ b.2)
  | .llap id l =>
    match r.port id with
    | none => (r, [])
    | some p =>
      let a := p.inboundLlap host l now
      let b := (r.setPort a.1).inbound host id a.2.1 (fun d => some (decodeDdpBody d)) now
      (b.1, a.2.2 ++ b.2)
  | .aurp «from» bytes =>
    let a := r.peers.packet «from» bytes r.tables now
    let b := changed { r with peers := a.peers, tables := a.tables } a.chs
    -- A datagram off a tunnel enters the forwarding rules where a local one does.
    let c :=
      match a.ddp.bind Ddp.parse with
      | some d => b.1.arrived host (.peer «from») d (decodeDdpBody d) now
      | none => (b.1, [])
    (c.1, a.acts ++ b.2 ++ c.2)
  | .tick =>
    let a := tickPorts now r.ports
    let g := r.tables.age now
    let b := changed { r with ports := a.1, tables := g.1 } g.2
    let l := b.1.local.tick b.1.ports b.1.tables now
    let r := { b.1 with «local» := l.1 }
    let t := r.peers.tick r.tables now
    let c := changed { r with peers := t.peers, tables := t.tables } t.chs
    (c.1, a.2 ++ b.2 ++ l.2.flatMap (r.emit host) ++ t.acts ++ c.2)
  | .ping =>
    let a := r.peers.ping now
    ({ r with peers := a.1 }, a.2)
  | .pingReport =>
    let a := r.peers.pingReport
    ({ r with peers := a.1 }, [.log ("\n" ++ a.2.trimAsciiEnd.toString)])

/-- Everything the run loop does to a router: an input, a configured name it resolved, or the
shutdown. -/
inductive Event
  | input (i : In)
  | resolved (name : Str) (addr : Ipv4Addr)
  | shutdown

def event (r : Router) (e : Event × Instant) : Router × List Action :=
  match e.1 with
  | .input i => r.step host i e.2
  | .resolved name addr => ({ r with peers := r.peers.resolved name addr e.2 }, [])
  | .shutdown =>
    let a := r.peers.shutdown e.2
    ({ r with peers := a.1 }, a.2)

/-- The router after a run of events. -/
def after (r : Router) (es : List (Event × Instant)) : Router :=
  Machine.run (fun r e => (r.event host e).1) r es

/-- A router built from a configuration that passes its checks, on the links it opened. -/
def Built (r : Router) : Prop :=
  ∃ cfg kinds now, cfg.validate host = .ok () ∧ cfg.Opened kinds ∧ r = new host cfg kinds now

/-- A state some run of a built router reaches. -/
def Reachable (r : Router) : Prop := ∃ r0 es, Built host r0 ∧ r = after host r0 es

end Router

end AppleTalk
