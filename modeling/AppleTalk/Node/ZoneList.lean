import AppleTalk.Router.Basic

/-!
# The zone lister

How a node on the cable walks its router's zone list, one ATP transaction for each page
(`node.rs`), and how a completed transaction is told to be a ZIP reply (`session.rs`).
-/

namespace AppleTalk

open Octets

/-- The bottom of the dynamic socket range. -/
def OUR_SOCKET : UInt8 := 128

/-- The zone information socket: a completed transaction from it is a ZIP reply. -/
def ZIS : UInt8 := 6

def MAX_ZONE_PAGES : ℕ := 1000

/-- Function code 8 and the 1-based index of the first zone wanted, in the user bytes. The bitmap
asks for one packet, as a reply always is. -/
def zoneListRequest (tid start : UInt16) : Atp :=
  Atp.request tid 0x01 none ⟨8, 0, hi8 start, lo8 start⟩ []

/-- Where the next request in the series starts, or `none` when the list is complete. -/
def nextStart (start : UInt16) : ZipAtp → Option UInt16
  | .reply false zones =>
    -- An empty page that claims more to come is malformed.
    if zones.isEmpty then none
    else
      let n := UInt16.ofNat zones.length
      if start.toNat + n.toNat < 65536 then some (start + n) else none
  | _ => none

/-- The packet is the response that completes our request. -/
def zoneReplyMatches (d : Ddp) (a : Atp) (router : Addr) (tid : UInt16) : Bool :=
  d.src = router ∧ a.func = .resp ∧ a.tid = tid

/-- What of a node the walk uses. -/
structure Node where
  addr : Addr
  nextId : UInt16

namespace Node

-- What comes back for a request within its tries, if anything: the network between the node and its
-- router, and the router.
variable (ask : Ddp → Option Ddp)

/-- One page: the transaction's response and what it reads as. -/
def zonePage (n : Node) (router : Addr) (start : UInt16) : Option (Atp × ZipAtp) :=
  (ask (datagram n.addr OUR_SOCKET router 6 DDP_ATP
    (zoneListRequest n.nextId start).toBytes)).bind fun d =>
      match decodeDdpBody d with
      | .atp a =>
        if zoneReplyMatches d a router n.nextId ∧ d.srcSocket = ZIS then
          (ZipAtp.parseReply a.userBytes a.data).map fun z => (a, z)
        else none
      | _ => none

/-- A router may repeat a name while zones are being renamed. -/
def addNames (zones : List Str) : ZipAtp → List Str
  | .reply _ names => names.foldl (fun zones n => if n ∈ zones then zones else zones ++ [n]) zones
  | _ => zones

/-- The pages of a walk, at most so many; `none` when the router stopped answering. -/
def zonePages (router : Addr) : ℕ → Node → UInt16 → Option (List (Atp × ZipAtp))
  | 0, _, _ => some []
  | pages + 1, n, start =>
    let n := { n with nextId := n.nextId + 1 }
    (n.zonePage ask router start).bind fun page =>
      match nextStart start page.2 with
      | some next => (zonePages router pages n next).map (page :: ·)
      | none => some [page]

/-- Walk the router's zone list from its first name. -/
def zoneList (n : Node) (router : Option Addr) : Option (List Str) :=
  match router with
  | none => some []
  | some router =>
    (zonePages ask router MAX_ZONE_PAGES n 1).map fun pages =>
      pages.foldl (fun zones page => addNames zones page.2) []

end Node

end AppleTalk
