import AppleTalk.Node.Runtime

/-!
# The node's commands

Claiming an address and the questions a node asks: what the cable is, who answers to a name, who
echoes, which zones there are (`node.rs`).
-/

namespace AppleTalk

namespace Runtime

variable (order : List (TxnKey × Partial) → List (TxnKey × Partial))

/-! ### The address -/

/-- The Probes of one claim. -/
def probes (addr : Addr) : ℕ → Runtime → Runtime × Except Failure Unit
  | 0, n => (n, .ok ())
  | tries + 1, n =>
    match n.send (frame n.tx.mac BROADCAST_MAC AARP (probe addr n.tx.mac).toBytes) with
    | (n, .error e) => (n, .error e)
    | (n, .ok ()) =>
      match n.wait order PROBE_INTERVAL fun m p =>
        (m, if p.aarpAction addr n.tx.mac true = .conflict then some () else none) with
      | (n, some ()) => (n, .error (.error .addrInUse (addr.display ++ " is taken")))
      | (n, none) => probes addr tries n

/-- Probe one address; nobody may object. -/
def claimOne (n : Runtime) (addr : Addr) : Runtime × Except Failure Unit :=
  let r := probes order addr PROBE_TRIES { n with probing := true }
  ({ r.1 with probing := false }, r.2)

/-- Claim one candidate after the other. -/
def claimFirst (pick : UInt64 → Addr) (failure : Failure) :
    List UInt32 → Runtime → Runtime × Except Failure Addr
  | [], n => (n, .error failure)
  | attempt :: attempts, n =>
    let (n, seed) := n.seed attempt
    match n.claimOne order (pick seed) with
    | (n, .ok ()) => (n, .ok (pick seed))
    | (n, .error _) => claimFirst pick failure attempts n

/-- The numbers of the attempts at an address. -/
def attempts : List UInt32 := (List.range ADDRESS_TRIES).map UInt32.ofNat

def claimAny (n : Runtime) : Runtime × Except Failure Addr :=
  claimFirst order pickAddress (.error .addrInUse "could not claim an address") attempts n

/-- The candidate of a seed inside a range. -/
def pickInRange (range : UInt16 × UInt16) (seed : UInt64) : Addr :=
  let span := (range.2 - range.1).toUInt64 + 1
  { net := range.1 + (seed % span).toUInt16, node := (pickAddress seed).node }

def claimInRange (n : Runtime) (range : UInt16 × UInt16) : Runtime × Except Failure Addr :=
  claimFirst order (pickInRange range)
    (.error .addrInUse "could not claim an address in range") attempts n

/-! ### Asking -/

/-- A datagram from one of our sockets. -/
def sendFrom (n : Runtime) (srcSocket : UInt8) (dst : Addr) (dstSocket typ : UInt8)
    (data : Bytes) : Runtime × Except Failure Unit :=
  n.send (frame n.tx.mac (macFor n.amt dst) DDP
    (datagram n.addr srcSocket dst dstSocket typ data).toBytes)

def sendDdp (n : Runtime) (dst : Addr) (dstSocket typ : UInt8) (data : Bytes) :
    Runtime × Except Failure Unit :=
  n.sendFrom OUR_SOCKET dst dstSocket typ data

/-- Ask for the cable's range and zone, so many times at most. -/
def netInfoTries (provisional : Addr) : ℕ → Runtime → Runtime × Option (NetInfo × Str × Addr)
  | 0, n => (n, none)
  | tries + 1, n =>
    -- ZIP is a socket-6 protocol at both ends.
    match n.sendFrom 6 { net := 0, node := 255 } 6 DDP_ZIP
        (Zip.getNetInfo REQUESTED_ZONE).toBytes with
    | (n, .error _) => (n, none)
    | (n, .ok ()) =>
      match n.wait order NETINFO_INTERVAL fun n p =>
        (n, netinfoVerdict p provisional REQUESTED_ZONE) with
      | (n, some got) => (n, some got)
      | (n, none) => netInfoTries provisional tries n

def getNetInfo (n : Runtime) : Runtime × Option (NetInfo × Str × Addr) :=
  netInfoTries order n.addr NETINFO_TRIES n

/-- The first address, as the user wants it. -/
def claimWanted (n : Runtime) : Want → Runtime × Except Failure Addr
  | .addr a =>
    -- 254 and 255 are reserved on Ethernet.
    if a.node = 254 ∨ a.node = 255 then
      (n, .error (.error .invalidInput
        ("node " ++ dec a.node.toNat ++ " is reserved and cannot be claimed")))
    else
      match n.claimOne order a with
      | (n, .ok ()) => (n, .ok a)
      | (n, .error e) => (n, .error e)
  | .net net => n.claimInRange order (net, net)
  | .discover => n.claimAny order

/-- Both steps of the startup: an address, and what the cable is. -/
def claim (n : Runtime) (want : Want) : Runtime × Except Failure Unit :=
  match n.claimWanted order want with
  | (n, .error e) => (n, .error e)
  | (n, .ok a) =>
    match { n with addr := a }.getNetInfo order with
    | (n, none) => (n, .ok ())
    | (n, some (verdict, zone, router)) =>
      let n := { n with router := some router, zone := some zone }
      match verdict with
      | .keep => (n, .ok ())
      | .repick range =>
        -- An address the user asked for stays, wherever it falls.
        if want ≠ .discover then (n, .ok ())
        else
          match n.claimInRange order range with
          | (n, .ok a) => ({ n with addr := a }, .ok ())
          | (n, .error e) => (n, .error e)

/-! ### Names -/

/-- Take in the answers to lookup `id` that a packet brings. -/
def gatherReplies (id : UInt8) (n : Runtime) (p : Packet) : Runtime × Option Unit :=
  let tuples := lookupReplies p id
  if tuples.isEmpty then (n, none) else ({ n with pending := merge n.pending tuples }, some ())

/-- Collect answers until the interval is over: a lookup has many responders. -/
def collect (id : UInt8) (n : Runtime) : Runtime :=
  match _h : n.wait order LOOKUP_INTERVAL (gatherReplies id) with
  | (n, none) => n
  | (n, some ()) => collect id n
termination_by n.rx.length
decreasing_by
  refine wait_length_rx (fun n p => ?_) _h
  unfold gatherReplies
  dsimp only
  split_ifs <;> rfl

/-- Send a lookup and collect, so many times. -/
def lookupTries (dst : Addr) (body : Bytes) (id : UInt8) :
    ℕ → List NbpTuple → Runtime → Runtime × Except Failure (List NbpTuple)
  | 0, found, n => (n, .ok (found.mergeSort NbpTuple.le))
  | tries + 1, found, n =>
    match n.sendDdp dst 2 DDP_NBP body with
    | (n, .error e) => (n, .error e)
    | (n, .ok ()) =>
      let n := n.collect order id
      lookupTries dst body id tries (merge found n.pending) { n with pending := [] }

/-- Look a name up: through the router, which sends it on to the whole zone, or by a broadcast on
a cable that has none. -/
def lookup (n : Runtime) (object typ zone : Str) : Runtime × Except Failure (List NbpTuple) :=
  let (n, id) := n.takeId
  let id := id.toUInt8
  let (func, dst) : NbpFunc × Addr :=
    match n.router with
    | some r => (.brRq, r)
    | none => (.lkUp, { net := 0, node := 255 })
  let body := (lookupRequest func id n.addr OUR_SOCKET object typ zone).toBytes
  n.lookupTries order dst body id LOOKUP_TRIES []

/-! ### Echoes -/

/-- The echo requests of one ping from number `seq` on, a second apart, and how many of them are
answered. -/
def pings (target : Addr) (magic : UInt32) : ℕ → UInt32 → ℕ → Runtime → Runtime × Except Failure ℕ
  | 0, _, received, n => (n, .ok received)
  | left + 1, seq, received, n =>
    match n.sendDdp target 4 DDP_AEP (Aep.toBytes ⟨.request, echoData magic seq⟩) with
    | (n, .error e) => (n, .error e)
    | (n, .ok ()) =>
      let r := n.wait order PING_INTERVAL fun n p =>
        (n, (echoMatch p magic).filter fun m => m.2 = seq)
      -- Pace the next one even when this one was answered early; what is left of the second, if
      -- anything, is the queue's to say.
      let n := (r.1.wait order PING_INTERVAL fun n _ => (n, (none : Option Unit))).1
      pings target magic left (seq + 1) (if r.2.isSome then received + 1 else received) n

/-- Whether anything answers. -/
def ping (n : Runtime) (target : Addr) (count : UInt16) : Runtime × Except Failure Bool :=
  let (n, seed) := n.seed 0
  match n.pings order target seed.toUInt32 count.toNat 0 0 with
  | (n, .ok received) => (n, .ok (received ≠ 0))
  | (n, .error e) => (n, .error e)

/-! ### Zones -/

/-- The first ZIP reply among the messages, whose drain stops there and drops the rest. -/
def drainReply (router : Addr) (tid : UInt16) (n : Runtime) (p : Packet) :
    Runtime × Option ZipAtp :=
  if !p.zoneReplyMatches router tid then (n, none)
  else
    ({ n with messages := [] }, n.messages.findSome? fun m =>
      match m with
      | .zip (.reply last zones) => some (.reply last zones)
      | _ => none)

/-- Ask for one page, so many times at most. -/
def pageTries (router : Addr) (tid : UInt16) (body : Bytes) :
    ℕ → Runtime → Runtime × Except Failure (Option ZipAtp)
  | 0, n => (n, .ok none)
  | tries + 1, n =>
    match n.sendDdp router 6 DDP_ATP body with
    | (n, .error e) => (n, .error e)
    | (n, .ok ()) =>
      match n.wait order ZONE_INTERVAL (drainReply router tid) with
      | (n, some reply) => (n, .ok (some reply))
      | (n, none) => pageTries router tid body tries n

/-- The pages of the zone list from `start` on, at most so many. -/
def zonePagesFrom (router : Addr) : ℕ → UInt16 → List Str → Runtime →
    Runtime × Except Failure (List Str)
  | 0, _, zones, n => (n, .ok zones)
  | pages + 1, start, zones, n =>
    let (n, tid) := n.takeId
    match n.pageTries order router tid (zoneListRequest tid start).toBytes ZONE_TRIES with
    | (n, .error e) => (n, .error e)
    | (n, .ok none) => (n, .error (.error .timedOut "router stopped answering"))
    | (n, .ok (some reply)) =>
      let zones := Node.addNames zones reply
      match nextStart start reply with
      | some next => zonePagesFrom router pages next zones n
      | none => (n, .ok zones)

/-- Walk the router's zone list, one ATP transaction for each page. -/
def zoneList (n : Runtime) : Runtime × Except Failure (List Str) :=
  match n.router with
  | none => (n, .ok [])
  | some router => n.zonePagesFrom order router MAX_ZONE_PAGES 1 []

/-! ### The command line's commands -/

/-- What a ping is aimed at; a missing zone means the local one. -/
inductive Target
  | addr (a : Addr)
  | name (object typ : Str) (zone : Option Str)
  deriving DecidableEq, Repr

inductive Command
  | nodes (zone : Option Str)
  | ping (target : Target) (count : UInt16)
  | zones
  deriving DecidableEq, Repr

/-- What a command leaves to be printed. -/
inductive Outcome
  | entities (found : List NbpTuple)
  | answered (any : Bool)
  | zones (zones : List Str)
  deriving DecidableEq, Repr

/-- The zone in use. -/
def zoneName (n : Runtime) : Str := n.zone.getD ['*']

/-- The address a ping goes to. -/
def resolve (n : Runtime) : Target → Runtime × Except Failure Addr
  | .addr a => (n, .ok a)
  | .name object typ zone =>
    let zone := zone.getD n.zoneName
    match n.lookup order object typ zone with
    | (n, .error e) => (n, .error e)
    | (n, .ok []) =>
      let name := object ++ [':'] ++ typ ++ ['@'] ++ zone
      (n, .error (.error .notFound ("no answer for " ++ String.ofList name)))
    | (n, .ok (first :: _)) => (n, .ok first.addr)

def perform (n : Runtime) : Command → Runtime × Except Failure Outcome
  | .nodes zone =>
    match n.lookup order ['='] ['='] (zone.getD n.zoneName) with
    | (n, .error e) => (n, .error e)
    | (n, .ok found) => (n, .ok (.entities found))
  | .ping target count =>
    match n.resolve order target with
    | (n, .error e) => (n, .error e)
    | (n, .ok a) =>
      match n.ping order a count with
      | (n, .error e) => (n, .error e)
      | (n, .ok any) => (n, .ok (.answered any))
  | .zones =>
    match n.zoneList order with
    | (n, .error e) => (n, .error e)
    | (n, .ok zones) => (n, .ok (.zones zones))

/-- From the NIC to the answer (`run_node`). -/
def runNode (n : Runtime) (want : Want) (cmd : Command) : Runtime × Except Failure Outcome :=
  match n.claim order want with
  | (n, .error e) => (n, .error e)
  | (n, .ok ()) => n.perform order cmd

end Runtime

end AppleTalk
