import AppleTalk.Router.Basic

/-!
# Ports

One physical link, its network range, its zones, and the address mapping the link needs
(`router/ports.rs`). A port claims an address of its own and carries nothing until it holds one.
-/

namespace AppleTalk

def PROBE_TRIES : ℕ := 10
def PROBE_INTERVAL : ℕ := fromMillis 200
def ENQ_TRIES : ℕ := 8
def ENQ_INTERVAL : ℕ := fromMillis 250

inductive Kind
  | ether (mac : MacAddr)
  | ltoudp
  | tashtalk
  deriving DecidableEq, Repr

/-- What the host's standard library decides: the hash that seeds a candidate address, the order
a hash map iterates in, the wall clock's nanoseconds when the router starts, and how a string
prints in quotes. -/
structure Host where
  seed : PortId → Kind → Instant → ℕ → UInt64
  order : List (Addr × MacAddr) → List (Addr × MacAddr)
  nanos : UInt16
  debug : Str → String

/-- The claim in progress. -/
structure Claim where
  node : UInt8
  tries : ℕ
  next : Instant
  attempt : ℕ
  deriving DecidableEq, Repr

structure Port where
  id : PortId
  name : String
  kind : Kind
  range : UInt16 × UInt16
  /-- The first is the port's default zone. -/
  zones : List Str
  /-- The claimed node ID. -/
  node : Option UInt8
  /-- Address-to-MAC mappings gleaned from the cable, one for each address. -/
  amt : List (Addr × MacAddr)
  claim : Claim
  deriving DecidableEq, Repr

/-- What a port made of an incoming frame. -/
inductive Inbound
  | ddp (d : Ddp)
  | handled
  | ignore
  deriving DecidableEq, Repr

/-- The node IDs a port may claim: the lowest and how many. -/
def idRange : Kind → UInt8 × UInt64
  | .ether _ => (1, 253)
  | _ => (128, 127)

def candidate (kind : Kind) (seed : UInt64) : UInt8 :=
  (idRange kind).1 + (seed % (idRange kind).2).toUInt8

/-- The next ID up, wrapping. -/
def nextNode (kind : Kind) (node : UInt8) : UInt8 :=
  (idRange kind).1 + (((node - (idRange kind).1).toUInt64 + 1) % (idRange kind).2).toUInt8

/-- Record one mapping. -/
def amtInsert (amt : List (Addr × MacAddr)) (a : Addr) (m : MacAddr) : List (Addr × MacAddr) :=
  (a, m) :: amt.filter fun e => e.1 ≠ a

/-- Record the sender's mapping. A Probe's source address is only tentative. -/
def glean (amt : List (Addr × MacAddr)) (p : Packet) : List (Addr × MacAddr) :=
  match p.body with
  | .aarp a => if a.op ≠ 3 then amtInsert amt a.src a.srcHw else amt
  | .ddp d _ => amtInsert amt d.src p.frame.src
  | .unknown => amt

/-- The MAC to send a datagram to; unknown means broadcast. -/
def macFor (amt : List (Addr × MacAddr)) (dst : Addr) : MacAddr :=
  if dst.node = 255 then BROADCAST_MAC
  else ((amt.find? fun e => e.1 = dst).map Prod.snd).getD BROADCAST_MAC

namespace Port

variable (host : Host)

def new (id : PortId) (name : String) (kind : Kind) (range : UInt16 × UInt16)
    (zones : List Str) (now : Instant) : Port :=
  { id := id, name := name, kind := kind, range := range, zones := zones, node := none, amt := []
    claim :=
      { node := candidate kind (host.seed id kind now 0), tries := 0, next := now
        attempt := 0 } }

/-- Only EtherTalk carries the extended header and may span a range of networks. -/
def extended (p : Port) : Bool :=
  match p.kind with
  | .ether _ => true
  | _ => false

/-- Our own address on this link, once we hold one. -/
def addr (p : Port) : Option Addr := p.node.map fun node => { net := p.range.1, node := node }

def defaultZone (p : Port) : Str := p.zones.headD []

def hasZone (p : Port) (z : Str) : Bool := p.zones.any fun ours => eqIgnoreAsciiCase ours z

/-- A network number of the port's range. -/
def owns (p : Port) (net : UInt16) : Bool := p.range.1 ≤ net ∧ net ≤ p.range.2

def claimingNode (p : Port) : UInt8 := p.node.getD p.claim.node

def schedule (p : Port) : ℕ × ℕ :=
  match p.kind with
  | .ether _ => (PROBE_TRIES, PROBE_INTERVAL)
  | _ => (ENQ_TRIES, ENQ_INTERVAL)

def claimed (p : Port) : Port × List Action :=
  let node := p.claim.node
  let addr : Addr := { net := p.range.1, node := node }
  ({ p with node := some node },
    .log ("port " ++ p.name ++ ": claimed " ++ addr.display) ::
      -- TashTalk answers ENQ and RTS for every ID in its node bitmap.
      if p.kind = .tashtalk then [.setNode p.id (some node)] else [])

/-- The address is taken: pick another and start the round over. -/
def restart (p : Port) (now : Instant) : Port :=
  let attempt := p.claim.attempt + 1
  let node := candidate p.kind (host.seed p.id p.kind now attempt)
  { p with
    claim :=
      { node := if node = p.claim.node then nextNode p.kind node else node
        tries := 0, next := now, attempt := attempt } }

/-- Drive the claim: a probe or ENQ per interval, then the address. -/
def tick (p : Port) (now : Instant) : Port × List Action :=
  if p.node.isSome ∨ now < p.claim.next then (p, [])
  else if p.schedule.1 ≤ p.claim.tries then p.claimed
  else
    let node := p.claim.node
    ({ p with
        claim := { p.claim with tries := p.claim.tries + 1, next := now + p.schedule.2 } },
      match p.kind with
      | .ether mac =>
        [.toEther p.id (frame mac BROADCAST_MAC AARP
          (probe { net := p.range.1, node := node } mac).toBytes)]
      | _ => [.toLlap p.id (.control node node LLAP_ENQ)])

/-- What an AARP packet makes an EtherTalk port do. -/
def inboundAarp (p : Port) (mac : MacAddr) (a : Aarp) (now : Instant) : Port × List Action :=
  let probing := p.node.isNone
  let ours : Addr := { net := p.range.1, node := p.claimingNode }
  match aarpAction a ours mac probing with
  | .conflict =>
    -- While probing both sides give way; once claimed there is nothing to do but say so.
    if probing then (p.restart host now, [])
    else (p, [.log ("port " ++ p.name ++ ": " ++ ours.display ++ " claimed by " ++
      a.srcHw.display)])
  | .answerTo dst =>
    (p, [.toEther p.id (frame mac dst AARP (aarpResponse ours mac a.src dst).toBytes)])
  | .ignore => (p, [])

/-- Ethernet input: glean, defend, and pass datagrams up. -/
def inboundEther (p : Port) (packet : Packet) (now : Instant) : Port × Inbound × List Action :=
  match p.kind with
  | .ether mac =>
    -- Our own frame heard back off a reflecting cable.
    if packet.frame.src = mac then (p, .ignore, [])
    else
      let p := { p with amt := glean p.amt packet }
      match packet.body with
      | .aarp a =>
        let r := p.inboundAarp host mac a now
        (r.1, .handled, r.2)
      | .ddp d _ => (p, .ddp d, [])
      | .unknown => (p, .ignore, [])
  | _ => (p, .ignore, [])

/-- A datagram lifted off a link, or nothing. -/
def lifted : Option Ddp → Inbound
  | some d => .ddp d
  | none => .ignore

/-- LocalTalk input: answer ENQs for our own ID, watch for a conflict while claiming, and lift
short headers onto this port's network. -/
def inboundLlap (p : Port) (l : Llap) (now : Instant) : Port × Inbound × List Action :=
  let ours := p.claimingNode
  -- Someone else holds, or is also claiming, the ID we are asking for.
  if p.node = none ∧ (l.typ = LLAP_ENQ ∨ l.typ = LLAP_ACK) ∧ l.dst = ours then
    (p.restart host now, .handled, [])
  -- An ENQ names the ID under discussion in both node bytes, so it comes before the filter of
  -- our own frames.
  else if l.typ = LLAP_ENQ then
    (p, .handled,
      -- TashTalk's firmware answers for itself.
      if p.node = some l.dst ∧ p.kind ≠ .tashtalk then
        [.toLlap p.id (.control l.dst l.dst LLAP_ACK)]
      else [])
  else if l.src = ours ∧ p.node.isSome then (p, .ignore, [])
  else if l.typ = LLAP_ACK then (p, .handled, [])
  else if l.typ = LLAP_SHORT_DDP then (p, lifted (Ddp.fromShort l.data p.range.1 l.dst l.src), [])
  else if l.typ = LLAP_LONG_DDP then (p, lifted (Ddp.parse l.data), [])
  else (p, .ignore, [])

/-- The MAC for a node on this cable: its exact address, else any address in this port's own
range carrying that node ID. -/
def macForNode (p : Port) (node : UInt8) (net : UInt16) : MacAddr :=
  let exact := macFor p.amt { net := net, node := node }
  if exact ≠ BROADCAST_MAC then exact
  else (((host.order p.amt).find? fun e => e.1.node = node ∧ p.owns e.1.net).map
    Prod.snd).getD BROADCAST_MAC

/-- Frame a datagram for this link; nothing until the port holds a node. -/
def emit (p : Port) (dest : Dest) (ddp : Ddp) : Option Action :=
  p.node.map fun node =>
    match p.kind with
    | .ether mac =>
      let dst :=
        match dest with
        | .node n => p.macForNode host n ddp.dst.net
        | .broadcast => BROADCAST_MAC
        | .zone z => zoneMulticast z
      .toEther p.id (frame mac dst DDP ddp.toBytes)
    | _ =>
      let dst :=
        match dest with
        | .node n => n
        | .broadcast | .zone _ => 255
      -- The short header is only legal when both ends are on the one network it leaves unsaid.
      if ddp.src.net = p.range.1 ∧ (ddp.dst.net = p.range.1 ∨ ddp.dst.net = 0) then
        .toLlap p.id { dst := dst, src := node, typ := LLAP_SHORT_DDP, data := ddp.toShortBytes }
      else .toLlap p.id { dst := dst, src := node, typ := LLAP_LONG_DDP, data := ddp.toBytes }

end Port

end AppleTalk
