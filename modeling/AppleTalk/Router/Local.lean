import AppleTalk.Router.Ports
import AppleTalk.Router.Table

/-!
# The services

What a router owes its own cables: RTMP, ZIP, NBP and echo (`router/local.rs`).
-/

namespace AppleTalk

def RTMP_INTERVAL : ℕ := fromSecs 10
def ZIP_QUERY_INTERVAL : ℕ := fromSecs 10

def RTMP_SOCKET : UInt8 := 1
def NBP_SOCKET : UInt8 := 2
def AEP_SOCKET : UInt8 := 4
def ZIP_SOCKET : UInt8 := 6

/-- The most data one datagram carries. -/
def DDP_MAX : ℕ := 586

/-- What is left for an ATP response's data. -/
def ATP_MAX : ℕ := 578

/-- A ZIP Reply's function and network-count bytes. -/
def ZIP_HEAD : ℕ := 2

/-- The NBP type a router registers itself under, and the socket it answers lookups from. -/
def ROUTER_TYPE : Str := ['A', 'p', 'p', 'l', 'e', 'R', 'o', 'u', 't', 'e', 'r']
def ROUTER_SOCKET : UInt8 := 253

/-- The router's own name, and the state its two timers keep. -/
structure Local where
  name : Str
  lastBeacon : Option Instant
  lastQuery : Option Instant
  deriving DecidableEq, Repr

def due (last : Option Instant) (now : Instant) (every : ℕ) : Bool :=
  last.all fun t => decide (every ≤ since now t)

/-- A datagram from one of our sockets on a port; nothing until the port holds an address. -/
def fromPort (port : Port) (srcSocket : UInt8) (dst : Addr) (dstSocket typ : UInt8)
    (body : Bytes) : Option Ddp :=
  port.addr.map fun src => datagram src srcSocket dst dstSocket typ body

/-! ### RTMP -/

/-- Split tuples across RTMP Data packets inside `DDP_MAX`; always at least one. -/
def chunk (sender : Addr) (range : Option (UInt16 × UInt16)) (tuples : List NetworkTuple) :
    List Rtmp :=
  let base := 4 + if range.isSome then 6 else 3
  let r := tuples.foldl (fun (r : List Rtmp × List NetworkTuple × ℕ) t =>
    let n := if t.extended then 6 else 3
    if DDP_MAX < r.2.2 + n ∧ r.2.1 ≠ [] then
      (r.1 ++ [.data sender range r.2.1], [t], base + n)
    else (r.1, r.2.1 ++ [t], r.2.2 + n)) ([], [], base)
  r.1 ++ [.data sender range r.2.1]

/-- RTMP Data packets carrying tuples, sent from the RTMP socket. -/
def rtmpData (port : Port) (dest : Dest) (dst : Addr) (dstSocket : UInt8)
    (tuples : List NetworkTuple) : List Emit :=
  match port.addr with
  | none => []
  | some sender =>
    (chunk sender (if port.extended then some port.range else none) tuples).map fun r =>
      .on port.id dest (datagram sender RTMP_SOCKET dst dstSocket r.ddpType r.toBytes)

/-- A port id no configured port holds. -/
def noPort (ports : List Port) : PortId :=
  (((List.range 256).map UInt8.ofNat).find? fun id => ports.all fun p => p.id ≠ id).getD 255

/-- A network with no zone list yet must not be advertised. Our own ports are exempt. -/
def advertisable (tables : Tables) (ports : List Port) (tuples : List NetworkTuple) :
    List NetworkTuple :=
  tuples.filter fun t =>
    (ports.any fun p => p.range = t.range) || tables.zonesComplete t.range.1

/-- RTMP Data back to whoever asked, on the port it asked over. -/
def dataTo (port : Port) (ddp : Ddp) (tuples : List NetworkTuple) : List Emit :=
  rtmpData port (.node ddp.src.node) ddp.src ddp.srcSocket tuples

/-- What a service hands back: datagrams, the tables and the changes to them. -/
structure Served where
  emits : List Emit
  tables : Tables
  chs : List RouteChange

/-- Datagrams only. -/
def serve (tables : Tables) (emits : List Emit) : Served :=
  { emits := emits, tables := tables, chs := [] }

/-- A table update only. -/
def learned (r : Tables × List RouteChange) : Served :=
  { emits := [], tables := r.1, chs := r.2 }

def rtmp (port : Port) (ports : List Port) (ddp : Ddp) (r : Rtmp) (tables : Tables)
    (now : Instant) : Served :=
  match r with
  | .data sender _ tuples =>
    -- Our own beacon heard back off the cable teaches us nothing.
    if some sender = port.addr then serve tables []
    else learned (tables.each (fun t x => t.learn x (.port port.id) sender now) tuples)
  | .request => serve tables (dataTo port ddp [])
  | .rdr splitHorizon =>
    let tuples := tables.tuplesFor (if splitHorizon then port.id else noPort ports)
    serve tables (dataTo port ddp (advertisable tables ports tuples))

/-! ### ZIP -/

/-- A network number and a length-prefixed zone name, as a Reply carries them. -/
def pairBytes (name : Str) : ℕ := 2 + 1 + min (utf8Len name) 32

/-- One network's list split across Extended Replies, each announcing the whole list's size. -/
def pages (pairs : List (UInt16 × Str)) : List Zip :=
  let total := some (UInt8.ofNat (min pairs.length 255))
  let r := pairs.foldl (fun (r : List Zip × List (UInt16 × Str) × ℕ) p =>
    let n := pairBytes p.2
    if DDP_MAX < r.2.2 + n ∧ r.2.1 ≠ [] then (r.1 ++ [.reply r.2.1 total], [p], ZIP_HEAD + n)
    else (r.1, r.2.1 ++ [p], r.2.2 + n)) ([], [], ZIP_HEAD)
  if r.2.1 = [] then r.1 else r.1 ++ [.reply r.2.1 total]

/-- The Replies naming the zones of every network of `nets` with a complete list. -/
def queryReplies (nets : List UInt16) (tables : Tables) : List Zip :=
  let r := nets.foldl (fun (r : List Zip × List (UInt16 × Str) × ℕ) net =>
    match (tables.zones net).filter ZoneList.complete with
    | none => r
    | some list =>
      let pairs := list.names.map fun n => (net, n)
      let bytes := (pairs.map fun p => pairBytes p.2).sum
      let alone := DDP_MAX < ZIP_HEAD + bytes
      -- A network's zones have to be whole inside one Reply.
      let r :=
        if r.2.1 ≠ [] ∧ (alone ∨ DDP_MAX < r.2.2 + bytes) then
          (r.1 ++ [.reply r.2.1 none], [], ZIP_HEAD)
        else r
      if alone then (r.1 ++ pages pairs, r.2.1, r.2.2)
      else (r.1, r.2.1 ++ pairs, r.2.2 + bytes)) ([], [], ZIP_HEAD)
  if r.2.1 = [] then r.1 else r.1 ++ [.reply r.2.1 none]

/-- Answers a ZIP Query, routed back to whoever asked. -/
def queryReply (port : Port) (ddp : Ddp) (nets : List UInt16) (tables : Tables) : List Emit :=
  (queryReplies nets tables).filterMap fun r =>
    (fromPort port ZIP_SOCKET ddp.src ddp.srcSocket DDP_ZIP r.toBytes).map .route

/-- A ZIP Reply fills in the zone table, network by network. -/
def learnZones (zones : List (UInt16 × Str)) (total : Option UInt8) (tables : Tables) :
    Tables × List RouteChange :=
  tables.each (fun t (g : UInt16 × List Str) => t.addZones g.1 g.2 (total.map UInt8.toNat))
    (Tables.groupByNet zones)

/-- The answer a booting node needs: this cable's range, whether the zone it asked for is valid
here, and the multicast address to listen on. -/
def netInfo (port : Port) (ddp : Ddp) (zone : Str) : Option Emit :=
  let valid := !zone.isEmpty && port.hasZone zone
  let flags : UInt8 :=
    (if valid then 0 else 0x80) ||| (if port.zones.length = 1 then 0x20 else 0) |||
      (if port.extended then 0 else 0x40)
  let effective := if valid then zone else port.defaultZone
  let body := Zip.netInfoReply flags port.range zone
    (if port.extended then some (zoneMulticast effective) else none)
    (if valid then none else some port.defaultZone)
  -- A requester whose network is not this cable's is answered by broadcast.
  let dest := if port.owns ddp.src.net then Dest.node ddp.src.node else .broadcast
  (fromPort port ZIP_SOCKET ddp.src ddp.srcSocket DDP_ZIP body.toBytes).map (.on port.id dest)

def zip (port : Port) (ddp : Ddp) (z : Zip) (tables : Tables) : Served :=
  match z with
  | .query nets => serve tables (queryReply port ddp nets tables)
  | .reply zones total => learned (learnZones zones total tables)
  | .getNetInfo zone => serve tables (netInfo port ddp zone).toList
  | .netInfoReply .. | .notify => serve tables []

/-- As many of the names as fit in one response. -/
def namesThatFit (size : ℕ) : List Str → List Str
  | [] => []
  | n :: rest =>
    let size := size + 1 + min (utf8Len n) 32
    if ATP_MAX < size then [] else n :: namesThatFit size rest

/-- GetZoneList, GetLocalZones and GetMyZone. -/
def zoneList (port : Port) (ddp : Ddp) (a : Atp) (tables : Tables) : Option Emit := do
  if a.func ≠ .req then none
  let (all, start) ←
    match ← ZipAtp.parseRequest a.userBytes with
    | .getZoneList start => some (tables.allZones, start)
    | .getLocalZones start => some (port.zones, start)
    | .getMyZone => some ([port.defaultZone], 1)
    | .reply .. => none
  -- The start index is 1-based; one past the end is answered with an empty last page.
  let rest := all.drop (start.toNat - 1)
  let names := namesThatFit 0 rest
  let (user, data) := ZipAtp.replyParts (names.length = rest.length) names
  let body := Atp.response a.tid 0 true false user data
  (fromPort port ZIP_SOCKET ddp.src ddp.srcSocket DDP_ATP body.toBytes).map .route

/-- One ZIP Query per next-hop router, naming the networks we still owe zones for. -/
def zipQueries (ports : List Port) (tables : Tables) : List Emit :=
  let byRouter := tables.zoneless.foldl
    (fun (acc : List (PortId × Addr × List UInt16)) r =>
      match r.target with
      | .peer _ => acc
      | .port id =>
        let same := fun (g : PortId × Addr × List UInt16) => decide (g.1 = id ∧ g.2.1 = r.next)
        if acc.any same then
          Tables.modifyFirst same (fun g => (g.1, g.2.1, g.2.2 ++ [r.range.1])) acc
        else acc ++ [(id, r.next, [r.range.1])]) []
  byRouter.flatMap fun g =>
    match ports.find? fun p => p.id = g.1 with
    | none => []
    | some p =>
      (g.2.2.toChunks 255).filterMap fun batch =>
        (fromPort p ZIP_SOCKET g.2.1 ZIP_SOCKET DDP_ZIP (Zip.query batch).toBytes).map
          (.on g.1 (.node g.2.1.node))

/-! ### NBP and echo -/

/-- The port a network is directly attached to, if it is a cable of ours. -/
def directPort (ports : List Port) (target : Target) (start : UInt16) : Option Port :=
  match target with
  | .port id => ports.find? fun p => p.id = id ∧ p.range.1 = start
  | .peer _ => none

/-- The same tuples under a different function code, with the wildcard zone resolved. -/
def retarget (n : Nbp) (func : NbpFunc) (zone : Str) : Nbp :=
  { func := func, id := n.id, tuples := n.tuples.map fun t => { t with zone := zone } }

/-- The same lookup, addressed at the whole cable through its zone multicast. -/
def lkup (q : Port) (n : Nbp) (zone : Str) : Option Emit :=
  (fromPort q NBP_SOCKET { net := 0, node := 255 } NBP_SOCKET DDP_NBP
    (retarget n .lkUp zone).toBytes).map (.on q.id (.zone zone))

/-- The same lookup, on its way to the first router of network `start`. -/
def fwdReq (ddp : Ddp) (n : Nbp) (start : UInt16) (zone : Str) : Emit :=
  .route (datagram ddp.src ddp.srcSocket { net := start, node := 0 } NBP_SOCKET DDP_NBP
    (retarget n .fwdReq zone).toBytes)

/-- AEP: the same data straight back to whoever asked. -/
def echo (port : Port) (ddp : Ddp) (a : Aep) : Option Emit :=
  if a.func ≠ .request then none
  else (fromPort port AEP_SOCKET ddp.src ddp.srcSocket DDP_AEP
    ({ func := .reply, data := a.data } : Aep).toBytes).map .route

namespace Local

def new (name : Str) : Local := { name := name, lastBeacon := none, lastQuery := none }

/-- Our own LkUp-Reply, when the lookup names this router. -/
def reply (s : Local) (port : Port) (n : Nbp) (t : NbpTuple) : Option Emit :=
  let object := t.object = ['='] ∨ eqIgnoreAsciiCase t.object s.name
  let typ := t.typ = ['='] ∨ eqIgnoreAsciiCase t.typ ROUTER_TYPE
  let zone := t.zone.isEmpty ∨ t.zone = ['*'] ∨ port.hasZone t.zone
  if ¬(object ∧ typ ∧ zone) then none
  else
    port.addr.bind fun addr =>
      let body : Nbp :=
        { func := .lkUpReply, id := n.id
          tuples := [{ addr := addr, socket := ROUTER_SOCKET, enumerator := 0, object := s.name
                       typ := ROUTER_TYPE, zone := port.defaultZone }] }
      -- The requester's address comes from the tuple, not from DDP.
      (fromPort port NBP_SOCKET t.addr t.socket DDP_NBP body.toBytes).map .route

def nbp (s : Local) (port : Port) (ports : List Port) (ddp : Ddp) (n : Nbp) (tables : Tables) :
    List Emit :=
  match n.tuples with
  | [] => []
  | t :: _ =>
    -- `*` and an empty zone both mean "wherever this cable is".
    let zone := if t.zone = [] ∨ t.zone = ['*'] then port.defaultZone else t.zone
    match n.func with
    | .brRq =>
      (tables.netsInZone zone).flatMap (fun st =>
        match directPort ports st.2 st.1 with
        | some q => (lkup q n zone).toList
        | none => [fwdReq ddp n st.1 zone]) ++ (s.reply port n t).toList
    | .fwdReq =>
      (ports.filter fun q => q.hasZone zone).flatMap (fun q => (lkup q n zone).toList) ++
        (s.reply port n t).toList
    | .lkUp => (s.reply port n t).toList
    | .lkUpReply => []

/-- A datagram delivered to this router. `arrivedOn` is the cable it came off, `none` for one out
of a tunnel; `concerning` is the port owning the network it was addressed to. -/
def handle (s : Local) (arrivedOn : Option Port) (concerning : Port) (ports : List Port)
    (ddp : Ddp) (body : DdpBody) (tables : Tables) (now : Instant) : Served :=
  let here := arrivedOn.getD concerning
  match body with
  | .rtmp r =>
    if ddp.dstSocket = RTMP_SOCKET then
      -- A router only ever sends RTMP to its own cable, and never down a tunnel.
      match arrivedOn.filter fun p => p.id = concerning.id with
      | some p => rtmp p ports ddp r tables now
      | none => serve tables []
    else serve tables []
  | .zip z => if ddp.dstSocket = ZIP_SOCKET then zip here ddp z tables else serve tables []
  | .atp a =>
    if ddp.dstSocket = ZIP_SOCKET then serve tables (zoneList here ddp a tables).toList
    else serve tables []
  | .nbp n =>
    if ddp.dstSocket = NBP_SOCKET then serve tables (s.nbp here ports ddp n tables)
    else serve tables []
  | .aep a =>
    if ddp.dstSocket = AEP_SOCKET then serve tables (echo concerning ddp a).toList
    else serve tables []
  | .unknown => serve tables []

/-- Every tick: RTMP beacons on each claimed port, and the ZIP Queries still owed. -/
def tick (s : Local) (ports : List Port) (tables : Tables) (now : Instant) :
    Local × List Emit :=
  let beacon := due s.lastBeacon now RTMP_INTERVAL
  let query := due s.lastQuery now ZIP_QUERY_INTERVAL
  ({ s with
      lastBeacon := if beacon then some now else s.lastBeacon
      lastQuery := if query then some now else s.lastQuery },
    (if beacon then
      (ports.filter fun p => p.node.isSome).flatMap fun p =>
        rtmpData p .broadcast { net := p.range.1, node := 255 } RTMP_SOCKET
          (advertisable tables ports (tables.tuplesFor p.id))
    else []) ++
    if query then zipQueries ports tables else [])

end Local

end AppleTalk
