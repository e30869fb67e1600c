import AppleTalk.Bridge.Table
import Mathlib.Order.Monotone.Defs

/-!
# The bridge's decisions

What the bridge does with each frame of either link (`bridge.rs`): the table of who is where is
kept as the frame's source is heard, and the destination decides whether the frame crosses. One
step takes what arrived and the time, and returns what to send.
-/

namespace AppleTalk

namespace Bridge

/-- We hold an entry for the node and do not trust it. -/
def doubts (b : Bridge) (node : UInt8) : Bool :=
  (b.live node).isNone ∧ (b.nodes.get? node).isSome

/-! ### Frames from Ethernet -/

/-- A payload crosses to LocalTalk byte for byte, if it agrees with its own length field. -/
def cross (payload : Bytes) (d : Ddp) : List Action :=
  if ¬(13 ≤ payload.length ∧ payload.length ≤ 600) ∨ d.length.toNat ≠ payload.length then []
  else
    [.toLocal { dst := d.dst.node, src := d.src.node, typ := LLAP_LONG_DDP, data := payload }]

/-- What a datagram's destination decides, once its source is dealt with. -/
def etherDst (b : Bridge) (p : Packet) (d : Ddp) (now : Instant) : Bridge × List Action :=
  -- Ours, not something to repeat.
  if d.dst.net = b.addr.net ∧ d.dst.node = b.addr.node then (b, [])
  -- Off-cable unicast is the router's business.
  else if d.dst.net ≠ b.addr.net ∧ d.dst.node ≠ 255 then (b, [])
  else if d.dst.node = 255 then (b, cross p.frame.payload d)
  else
    match b.live d.dst.node with
    | some Side.local => (b, cross p.frame.payload d)
    | some (.ether _) => (b, [])
    | none =>
      -- Doubted; hold off.
      if (b.nodes.get? d.dst.node).isSome then (b, [])
      else
        let r := b.askBoth d.dst.node now
        (r.1, cross p.frame.payload d ++ r.2)

def etherDdp (b : Bridge) (p : Packet) (d : Ddp) (now : Instant) : Bridge × List Action :=
  if d.src.net = b.addr.net then
    let r := b.confirm d.src.node (.ether p.frame.src) now
    -- A reflection or a node that moved: repeat nothing until we know.
    if r.1.doubts d.src.node then r
    else
      let s := r.1.etherDst p d now
      (s.1, r.2 ++ s.2)
  else { b with amt := amtInsert b.amt d.src p.frame.src }.etherDst p d now

def etherAarp (b : Bridge) (a : Aarp) (now : Instant) : Bridge × List Action :=
  match aarpAction a b.addr b.mac false with
  | .answerTo dst =>
    (b, [.toEther (frame b.mac dst AARP (aarpResponse b.addr b.mac a.src dst).toBytes)])
  | _ =>
    -- A Response proves where its sender is. A Probe's source is only tentative.
    if a.op = 2 then
      if a.src.net ≠ b.addr.net then ({ b with amt := amtInsert b.amt a.src a.srcHw }, [])
      else
        let r := b.confirm a.src.node (.ether a.srcHw) now
        let s := r.1.settle a.src.node (.ether a.srcHw)
        (s.1, r.2 ++ s.2)
    else if (a.op = 1 ∨ a.op = 3) ∧ a.dst.net = b.addr.net ∧ a.dst.node ≠ b.addr.node then
      match b.live a.dst.node with
      | some Side.local =>
        -- A resolve only routes traffic; a claim is never answered from memory.
        if a.op = 1 then
          (b, [.toEther (frame b.mac a.srcHw AARP (aarpResponse
            { net := b.addr.net, node := a.dst.node } b.mac a.src a.srcHw).toBytes)])
        else b.ask a.dst.node Ask.local (.etherResponse a.src a.srcHw) none now
      | some (.ether _) => (b, [])
      | none => b.ask a.dst.node Ask.local (.etherResponse a.src a.srcHw) none now
    else (b, [])

def onEther (b : Bridge) (p : Packet) (now : Instant) : Bridge × List Action :=
  -- Our own transmission, heard back; or Phase 1, whose padding could not be trimmed.
  if p.frame.src = b.mac then (b, [])
  else if !p.frame.snap then (b, [])
  else
    match p.body with
    | .aarp a => b.etherAarp a now
    | .ddp d _ => b.etherDdp p d now
    | .unknown => (b, [])

/-! ### Frames from LocalTalk -/

/-- The Ethernet address a datagram goes to; `none` when LocalTalk has delivered it already. -/
def localDst (b : Bridge) (l : Llap) (dst : Addr) : Option MacAddr :=
  if l.dst = 255 ∨ dst.node = 255 then some BROADCAST_MAC
  else if dst.net = b.addr.net then
    match b.live dst.node with
    | some (.ether m) => some m
    | some Side.local => none
    -- Unknown or doubted: let the cable sort it out.
    | none => some BROADCAST_MAC
  else some (macFor b.amt dst)

/-- The datagram of an LLAP frame, with its extended bytes. -/
def extendedOf (b : Bridge) (l : Llap) : Option (Addr × Bytes) :=
  if l.typ = LLAP_SHORT_DDP then
    (Ddp.fromShort l.data b.addr.net l.dst l.src).map fun d => (d.dst, d.toBytes)
  else (Ddp.parse l.data).map fun d => (d.dst, l.data)

def localDdp (b : Bridge) (l : Llap) (now : Instant) : Bridge × List Action :=
  let r := b.confirm l.src Side.local now
  if r.1.doubts l.src then r
  else
    match r.1.extendedOf l with
    | none => r
    | some (dst, bytes) =>
      (r.1, r.2 ++ ((r.1.localDst l dst).map fun m =>
        Action.toEther (frame r.1.mac m DDP bytes)).toList)

def onLocal (b : Bridge) (l : Llap) (now : Instant) : Bridge × List Action :=
  if l.typ = LLAP_SHORT_DDP ∨ l.typ = LLAP_LONG_DDP then b.localDdp l now
  else if l.typ = LLAP_ENQ then
    -- Our own ID is authoritative. Any other is never answered from the table.
    if l.dst = b.addr.node then (b, [.toLocal (.control l.dst l.dst LLAP_ACK)])
    else b.ask l.dst .ether .localAck none now
  else if l.typ = LLAP_ACK then
    let r := b.confirm l.src Side.local now
    let s := r.1.settle l.src Side.local
    (s.1, r.2 ++ s.2)
  else (b, [])

/-! ### One step -/

def step (b : Bridge) (i : In) (now : Instant) : Bridge × List Action :=
  let r := b.expire now
  let s :=
    match i with
    | .tick => (r.1, [])
    | .ether p => r.1.onEther p now
    | In.local l => r.1.onLocal l now
  (s.1, r.2 ++ s.2)

/-! ### Runs -/

/-- A run of the bridge: what arrives at each step and when, on a clock that does not go back. A
finite run is one that ticks at its end. -/
structure Run where
  addr : Addr
  mac : MacAddr
  amt : List (Addr × MacAddr)
  start : Instant
  input : ℕ → In
  time : ℕ → Instant
  clock : Monotone time

namespace Run

/-- The bridge before the step. -/
def state (r : Run) : ℕ → Bridge
  | 0 => new r.addr r.mac r.amt r.start
  | k + 1 => ((r.state k).step (r.input k) (r.time k)).1

/-- What the step sends. -/
def sent (r : Run) (k : ℕ) : List Action := ((r.state k).step (r.input k) (r.time k)).2

end Run

end Bridge

end AppleTalk
