import AppleTalk.Router.Ports

/-!
# The bridge's node table

Which link each node lives on, the questions in flight about it, and what is owed to whom when
one is answered (`bridge.rs`). A hash map's order is its own; here the maps run in key order,
which only orders the reports of one expiry.
-/

namespace AppleTalk

/-- "Who has this address?" It names our own address as the sender and claims nothing. -/
def aarpRequest (ours : Addr) (ourMac : MacAddr) (target : Addr) : Aarp :=
  { op := 1, srcHw := ourMac, src := ours, dstHw := MacAddr.zero, dst := target }

namespace Bridge

/-- How long a node stays believed in without being heard from. -/
def ENTRY_TTL : ℕ := fromSecs 30

/-- How long a question waits for its answer. -/
def QUERY_TIMEOUT : ℕ := fromSecs 2

/-- Which link to put a question to. -/
inductive Ask
  | ether
  | «local»
  | both
  deriving DecidableEq, Repr

/-- Which link a node lives on. -/
inductive Side
  | ether (mac : MacAddr)
  | «local»
  deriving DecidableEq, Repr

namespace Side

/-- Same link, whatever MAC. -/
def sameAs : Side → Side → Bool
  | ether _, ether _ | Side.local, Side.local => true
  | _, _ => false

def name : Side → String
  | ether _ => "Ethernet"
  | Side.local => "LocalTalk"

def link : Side → Ask
  | ether _ => .ether
  | Side.local => Ask.local

end Side

/-- What is owed to whom when a question is answered. -/
inductive Owed
  /-- A LocalTalk node is claiming this ID; ACK it if Ethernet holds it. -/
  | localAck
  /-- An Ethernet node is asking after this ID; answer for it if LocalTalk holds it. -/
  | etherResponse («to» : Addr) (toMac : MacAddr)
  | nothing
  deriving DecidableEq, Repr

structure Entry where
  side : Side
  confirmed : Instant
  /-- The node turned up on the other side, or both sides claimed it. -/
  doubted : Bool
  deriving DecidableEq, Repr

structure Pending where
  asked : Instant
  owed : Owed
  /-- The question is to settle a contradiction: unanswered, the node moved to this side. -/
  movedTo : Option Side
  deriving DecidableEq, Repr

/-- Something for the bridge's loop to do. -/
inductive Action
  | toEther (f : Frame)
  | toLocal (l : Llap)
  | report (m : String)
  deriving DecidableEq, Repr

/-- What arrived, or a bare tick when nothing did. -/
inductive In
  | ether (p : Packet)
  | «local» (l : Llap)
  | tick
  deriving DecidableEq, Repr

end Bridge

open Bridge in
structure Bridge where
  addr : Addr
  mac : MacAddr
  /-- Which side each node ID on our own net lives on. -/
  nodes : SortedMap UInt8 Entry
  /-- MACs of addresses on other networks. -/
  amt : List (Addr × MacAddr)
  pending : SortedMap UInt8 Pending

namespace Bridge

/-- Everything already gleaned on our own net is an Ethernet resident. -/
def new (addr : Addr) (mac : MacAddr) (amt : List (Addr × MacAddr)) (now : Instant) : Bridge :=
  { addr := addr, mac := mac
    nodes :=
      (amt.filter fun e => e.1.net = addr.net ∧ e.1.node ≠ addr.node ∧ e.1.node ≠ 0 ∧
        e.1.node ≠ 255).foldl
        (fun nodes e => nodes.insert e.1.node
          { side := .ether e.2, confirmed := now, doubted := false }) .empty
    amt := amt.filter fun e => e.1.net ≠ addr.net
    pending := .empty }

/-- The side a node is known to be on, if we know and trust it. -/
def live (b : Bridge) (node : UInt8) : Option Side :=
  match b.nodes.get? node with
  | none => none
  | some e => if e.doubted then none else some e.side

/-- Put a question to one link, or both. A second one while one is in flight is suppressed. -/
def ask (b : Bridge) (node : UInt8) (link : Ask) (owed : Owed) (movedTo : Option Side)
    (now : Instant) : Bridge × List Action :=
  if node = 0 ∨ node = 255 ∨ (b.pending.get? node).isSome then (b, [])
  else
    let target : Addr := { net := b.addr.net, node := node }
    let request := Action.toEther (frame b.mac BROADCAST_MAC AARP
      (aarpRequest b.addr b.mac target).toBytes)
    ({ b with pending := b.pending.insert node { asked := now, owed := owed, movedTo := movedTo } },
      match link with
      | .ether =>
        -- A probing node answers no Request, so a claim is asked about with a Probe.
        if owed = .localAck then
          [.toEther (frame b.mac BROADCAST_MAC AARP (probe target b.mac).toBytes)]
        else [request]
      | Ask.local => [.toLocal (.control node node LLAP_ENQ)]
      | .both => [request, .toLocal (.control node node LLAP_ENQ)])

/-- Record that a node was heard from on a side. -/
def confirm (b : Bridge) (node : UInt8) (side : Side) (now : Instant) : Bridge × List Action :=
  if node = 0 ∨ node = 255 ∨ node = b.addr.node then (b, [])
  else
    match b.nodes.get? node with
    | none =>
      ({ b with nodes := b.nodes.insert node { side := side, confirmed := now, doubted := false } },
        [])
    | some e =>
      if !e.side.sameAs side then
        -- A move and a reflection look the same: believe neither, and ask the side we believed.
        if e.doubted then (b, [])
        else
          { b with
            nodes := b.nodes.insert node { side := e.side, confirmed := now, doubted := true }
            pending := b.pending.erase node }.ask node e.side.link .nothing (some side) now
      else if (b.pending.get? node).any fun q => q.movedTo.isSome then
        ({ b with pending := b.pending.erase node },
          [.report ("node " ++ dec node.toNat ++
            " answered on both sides — a duplicate ID, or a second bridge on this pair")])
      else if e.doubted then (b, [])
      else
        ({ b with
            nodes := b.nodes.insert node { side := side, confirmed := now, doubted := false } }, [])

/-- Pay whatever was owed on a node now that a side has answered. -/
def settle (b : Bridge) (node : UInt8) (answered : Side) : Bridge × List Action :=
  match b.pending.get? node with
  | none => (b, [])
  | some q =>
    if q.movedTo.isSome then (b, [])
    else
      match q.owed, answered with
      | .localAck, .ether _ =>
        ({ b with pending := b.pending.erase node }, [.toLocal (.control node node LLAP_ACK)])
      | .etherResponse «to» toMac, Side.local =>
        ({ b with pending := b.pending.erase node },
          -- An entry that is doubted or elsewhere is contested: never proxy against evidence.
          if (b.nodes.get? node).isSome ∧ b.live node ≠ some Side.local then []
          else
            [.toEther (frame b.mac toMac AARP (aarpResponse
              { net := b.addr.net, node := node } b.mac «to» toMac).toBytes)])
      | _, _ => (b, [])

/-- Resolve a question nobody answered. An unanswered move-check is the answer: it moved. -/
def resolve (now : Instant) (r : Bridge × List Action) (node : UInt8) : Bridge × List Action :=
  match r.1.pending.get? node with
  | none => r
  | some q =>
    let b := { r.1 with pending := r.1.pending.erase node }
    match q.movedTo with
    | none => (b, r.2)
    | some side =>
      ({ b with nodes := b.nodes.insert node { side := side, confirmed := now, doubted := false } },
        r.2 ++ [.report ("node " ++ dec node.toNat ++ " moved to " ++ side.name)])

/-- Drop entries nobody has confirmed lately and resolve questions nobody answered. -/
def expire (b : Bridge) (now : Instant) : Bridge × List Action :=
  let done := (b.pending.retain fun _ q => QUERY_TIMEOUT ≤ since now q.asked).keys
  done.foldl (resolve now)
    ({ b with nodes := b.nodes.retain fun _ e => since now e.confirmed < ENTRY_TTL }, [])

/-- A destination nobody has claimed: ask both links at once. -/
def askBoth (b : Bridge) (node : UInt8) (now : Instant) : Bridge × List Action :=
  b.ask node .both .nothing none now

end Bridge

end AppleTalk
