import AppleTalk.Wire.Frame
import AppleTalk.Wire.Aurp

/-!
# What the router's parts hand each other

Targets, origins, destinations, emissions and actions (`router/mod.rs`), with the node runtime's
helpers that the router borrows (`node.rs`).
-/

namespace AppleTalk

/-- Where a datagram goes: out one of our own ports, or down a tunnel. -/
inductive Target
  | port (id : PortId)
  | peer (ip : Ipv4Addr)
  deriving DecidableEq, Repr

def Target.isPort : Target → Bool
  | .port _ => true
  | .peer _ => false

def Target.isPeer : Target → Bool
  | .port _ => false
  | .peer _ => true

/-- How a route is reached, for a log line. -/
def via : Target → String
  | .port p => "port " ++ dec p.toNat
  | .peer ip => ip.display

/-- Where a datagram being forwarded came from; `here` is one this router made. -/
inductive Origin
  | port (id : PortId)
  | peer (ip : Ipv4Addr)
  | here
  deriving DecidableEq, Repr

/-- Forwarding to `t` would send the datagram straight back the way it came. -/
def Origin.is : Origin → Target → Bool
  | .port a, .port b => a = b
  | .peer a, .peer b => a = b
  | _, _ => false

inductive Dest
  | node (n : UInt8)
  | broadcast
  | zone (z : Str)
  deriving DecidableEq, Repr

/-- A datagram a service wants sent: pinned to a port, or routed as if it originated here. -/
inductive Emit
  | on (port : PortId) (dest : Dest) (ddp : Ddp)
  | route (ddp : Ddp)
  deriving DecidableEq, Repr

inductive Action
  | toEther (port : PortId) (frame : Frame)
  | toLlap (port : PortId) (llap : Llap)
  | toPeer (peer : Ipv4Addr) (bytes : Bytes)
  | setNode (port : PortId) (node : Option UInt8)
  | log (m : String)
  deriving DecidableEq, Repr

/-- DDP's hop count is four bits. -/
def MAX_HOPS : UInt8 := 15

/-! ### The node runtime's helpers -/

/-- Where ELAP sends AppleTalk broadcasts. -/
def BROADCAST_MAC : MacAddr := ⟨0x09, 0x00, 0x07, 0xff, 0xff, 0xff⟩

/-- A datagram with its derived fields left for the encoder. -/
def datagram (src : Addr) (srcSocket : UInt8) (dst : Addr) (dstSocket typ : UInt8)
    (data : Bytes) : Ddp :=
  { hops := 0, length := 0, checksum := 0, dst := dst, dstSocket := dstSocket, src := src
    srcSocket := srcSocket, typ := typ, data := data }

/-- A Phase 2 frame. -/
def frame (src dst : MacAddr) (proto : UInt16) (payload : Bytes) : Frame :=
  { dst := dst, src := src, proto := proto, snap := true, payload := payload }

/-- An AARP Probe: the target hardware address is what it asks for. -/
def probe (addr : Addr) (mac : MacAddr) : Aarp :=
  { op := 3, srcHw := mac, src := addr, dstHw := MacAddr.zero, dst := addr }

def aarpResponse (ours : Addr) (ourMac : MacAddr) (dst : Addr) (dstMac : MacAddr) : Aarp :=
  { op := 2, srcHw := ourMac, src := ours, dstHw := dstMac, dst := dst }

inductive AarpAction
  | conflict
  | answerTo (mac : MacAddr)
  | ignore
  deriving DecidableEq, Repr

/-- What an incoming AARP packet means for our address. A probing node answers nothing. -/
def aarpAction (a : Aarp) (ours : Addr) (ourMac : MacAddr) (probing : Bool) : AarpAction :=
  if a.op = 2 ∧ a.src = ours then .conflict
  else if a.op = 3 ∧ a.src = ours ∧ a.srcHw ≠ ourMac then
    if probing then .conflict else .answerTo a.srcHw
  else if a.op = 1 ∧ a.dst = ours ∧ !probing then .answerTo a.srcHw
  else .ignore

end AppleTalk
