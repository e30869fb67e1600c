import AppleTalk.Router.Table

/-!
# The AURP peers

The tunnel connections, their state machines and timers (`router/aurp.rs`). Every peer holds two
independent one-way connections: we are the data receiver on the one we opened, and the data
sender on the one the peer opened.
-/

namespace AppleTalk

def RETRY : ℕ := fromSecs 10
def RETRIES : ℕ := 5
def LAST_HEARD : ℕ := fromSecs 90
def TICKLE_RETRIES : ℕ := 10
def PING_GRACE : ℕ := 2
def UPDATE_INTERVAL : ℕ := fromSecs 10
def RECONNECT_SCAN : ℕ := fromSecs 10
def RECONNECT_BACKOFF : ℕ := fromSecs 600
def ZI_REREQUEST : ℕ := fromSecs 30
def LOG_EVERY : ℕ := fromSecs 60

/-- Body bytes an RI-Rsp, ZI-Rsp or ZI-Req is split at. -/
def MAX_BODY : ℕ := 1400

/-- The most peers open peering will hold. -/
def MAX_OPEN_PEERS : ℕ := 256

/-- Update event codes. -/
def NA : UInt8 := 1
def ND : UInt8 := 2
def NRC : UInt8 := 3
def NDC : UInt8 := 4

/-- Our side of the connection we opened. -/
inductive Receiver
  | unconnected
  | waitOpenRsp
  | waitRiRsp
  | connected
  | waitTickleAck
  deriving DecidableEq, Repr

def Receiver.display : Receiver → String
  | .unconnected => "unconnected"
  | .waitOpenRsp => "wait open-rsp"
  | .waitRiRsp => "wait ri-rsp"
  | .connected => "connected"
  | .waitTickleAck => "wait tickle-ack"

/-- Our side of the connection the peer opened. -/
inductive Sender
  | unconnected
  | connected
  | waitRiRspAck
  | waitRiUpdAck
  | waitRdAck
  deriving DecidableEq, Repr

def Sender.display : Sender → String
  | .unconnected => "unconnected"
  | .connected => "connected"
  | .waitRiRspAck => "wait ri-rsp ack"
  | .waitRiUpdAck => "wait ri-upd ack"
  | .waitRdAck => "wait rd ack"

/-- The one sequenced packet a sender may have outstanding, kept verbatim. `nets` are the
networks it named, for the ZI-Rsp an SZI ack asks for. -/
structure Outstanding where
  seq : UInt16
  bytes : Bytes
  nets : List UInt16
  «at» : Instant
  tries : ℕ
  deriving DecidableEq, Repr

/-- Actions and route changes of one packet or tick, and why the connection state moves. -/
structure Out where
  acts : List Action
  chs : List RouteChange
  reason : Option String
  deriving DecidableEq, Repr

namespace Out

def nil : Out := { acts := [], chs := [], reason := none }

def act (a : Action) : Out := { nil with acts := [a] }

def because (reason : String) : Out := { nil with reason := some reason }

/-- What one part of a step adds to what came before it. -/
instance : Append Out where
  append a b :=
    { acts := a.acts ++ b.acts, chs := a.chs ++ b.chs, reason := b.reason.or a.reason }

@[simp] theorem append_acts (a b : Out) : (a ++ b).acts = a.acts ++ b.acts := rfl

@[simp] theorem append_chs (a b : Out) : (a ++ b).chs = a.chs ++ b.chs := rfl

@[simp] theorem nil_acts : nil.acts = [] := rfl

@[simp] theorem nil_chs : nil.chs = [] := rfl

@[simp] theorem act_acts (a : Action) : (act a).acts = [a] := rfl

@[simp] theorem act_chs (a : Action) : (act a).chs = [] := rfl

@[simp] theorem because_acts (r : String) : (because r).acts = [] := rfl

@[simp] theorem because_chs (r : String) : (because r).chs = [] := rfl

end Out

/-! ### Helpers -/

/-- Sequence numbers and connection IDs both skip 0. -/
def succ (n : UInt16) : UInt16 := if n + 1 = 0 then 1 else n + 1

theorem succ_ne_zero (n : UInt16) : succ n ≠ 0 := by
  unfold succ
  split_ifs with h
  · decide
  · exact h

theorem succ_ne_self (n : UInt16) : succ n ≠ n := by
  unfold succ
  split_ifs with h <;> grind

def pred (n : UInt16) : UInt16 := if n - 1 = 0 then 65535 else n - 1

/-- A null DI names nobody, so the IP header stands in. -/
def namedBy (src : Di) («from» : Ipv4Addr) : Di :=
  match src with
  | .null => .ip «from»
  | di => di

def nullUpd : Cmd := .riUpd [{ code := 0, tuple := NO_TUPLE }]

/-- Split an export into RI-Rsp pages of at most `MAX_BODY` body bytes; always at least one. -/
def splitTuples (tuples : List NetworkTuple) : List (List NetworkTuple) :=
  let r := tuples.foldl (fun (r : List (List NetworkTuple) × List NetworkTuple × ℕ) t =>
    let n := if t.extended then 6 else 3
    if MAX_BODY < r.2.2 + n then (r.1 ++ [r.2.1], [t], n)
    else (r.1, r.2.1 ++ [t], r.2.2 + n)) ([], [], 0)
  r.1 ++ [r.2.1]

/-- One network's names over ZI-Rsps of subcode 2, each announcing the whole list's size. -/
def ziChunks (net : UInt16) (names : List Str) : List Cmd :=
  let count := UInt16.ofNat names.length
  let r := names.foldl (fun (r : List Cmd × List (UInt16 × Str) × ℕ) name =>
    let s := 3 + utf8Len name
    if MAX_BODY < r.2.2 + s ∧ r.2.1 ≠ [] then
      (r.1 ++ [.ziRsp (some count) r.2.1], [(net, name)], s)
    else (r.1, r.2.1 ++ [(net, name)], r.2.2 + s)) ([], [], 0)
  if r.2.1 = [] then r.1 else r.1 ++ [.ziRsp (some count) r.2.1]

/-- The ZI-Rsps naming the zones of `nets`, split at `MAX_BODY`. -/
def ziPages (nets : List UInt16) (tables : Tables) : List Cmd :=
  let r := nets.foldl (fun (r : List Cmd × List (UInt16 × Str) × ℕ) net =>
    match tables.zones net with
    | none => r
    | some z =>
      if z.names.isEmpty then r
      else
        let total := (z.names.map fun n => 3 + utf8Len n).sum
        let pairs := z.names.map fun n => (net, n)
        if MAX_BODY < total then
          -- A list that overflows a packet goes out on its own, and `used` is left alone
          -- when there was no page to flush.
          if r.2.1 = [] then (r.1 ++ ziChunks net z.names, r.2.1, r.2.2)
          else (r.1 ++ [.ziRsp none r.2.1] ++ ziChunks net z.names, [], 0)
        else if MAX_BODY < r.2.2 + total ∧ r.2.1 ≠ [] then
          (r.1 ++ [.ziRsp none r.2.1], pairs, total)
        else (r.1, r.2.1 ++ pairs, r.2.2 + total)) ([], [], 0)
  if r.2.1 = [] then r.1 else r.1 ++ [.ziRsp none r.2.1]

/-- Where a sequenced packet's number stands against the expected one. -/
inductive Seq
  | new
  | dup
  | ahead
  | stale
  deriving DecidableEq, Repr

/-! ### One peer -/

/-- One tunnel peer. The first group is the connection we opened, whose ID we chose; the second
is the connection the peer opened; the last is the operator's ping. -/
structure Peer where
  addr : Ipv4Addr
  configured : Option Str
  di : Di
  receiver : Receiver
  sender : Sender
  «local» : Di
  connLocal : UInt16
  seqRecv : UInt16
  lastHeard : Instant
  recvAt : Instant
  recvTries : ℕ
  lastReconnect : Option Instant
  connRemote : UInt16
  seqSend : UInt16
  outstanding : Option Outstanding
  pages : List (List NetworkTuple)
  pending : List EventTuple
  lastUpdate : Instant
  probing : Bool
  pingedAt : Option Instant
  pingRtt : Option ℕ
  deriving DecidableEq, Repr

namespace Peer

def new (addr : Ipv4Addr) (configured : Option Str) (connLocal : UInt16) («local» : Di)
    (now : Instant) : Peer :=
  { addr := addr
    configured := configured
    di := .ip addr
    receiver := .unconnected
    sender := .unconnected
    «local» := «local»
    connLocal := connLocal
    seqRecv := 1
    lastHeard := now
    recvAt := now
    recvTries := 0
    lastReconnect := none
    connRemote := 0
    seqSend := 0
    outstanding := none
    pages := []
    pending := []
    lastUpdate := now
    probing := false
    pingedAt := none
    pingRtt := none }

/-- All our packets are addressed to what the peer calls itself. -/
def bytes (p : Peer) (conn seq : UInt16) (cmd : Cmd) : Bytes :=
  (Aurp.routing { dst := p.di, src := p.local } conn seq cmd).toBytes

def send (p : Peer) (conn seq : UInt16) (cmd : Cmd) : Action :=
  .toPeer p.addr (p.bytes conn seq cmd)

/-- Record a sequenced packet as the one outstanding and send it. -/
def sendSequenced (p : Peer) (cmd : Cmd) (nets : List UInt16) (now : Instant) : Peer × Out :=
  let seq := succ p.seqSend
  let bytes := p.bytes p.connRemote seq cmd
  ({ p with
      seqSend := seq
      outstanding := some { seq := seq, bytes := bytes, nets := nets, «at» := now, tries := 1 } },
    .act (.toPeer p.addr bytes))

/-- Open our own one-way connection. -/
def «open» (p : Peer) (now : Instant) : Peer × Out :=
  ({ p with
      seqRecv := 1
      receiver := .waitOpenRsp
      recvAt := now
      recvTries := 1
      lastReconnect := some now },
    .act (p.send p.connLocal 0 (.openReq Cmd.ALL_SUI 1 [])))

/-- Close as data receiver. The next Open-Req must carry a different connection ID. -/
def closeReceiver (p : Peer) : Peer :=
  { p with
    receiver := .unconnected
    connLocal := succ p.connLocal
    seqRecv := 1
    recvTries := 0 }

def closeSender (p : Peer) : Peer :=
  { p with
    sender := .unconnected
    connRemote := 0
    seqSend := 0
    outstanding := none
    pages := []
    pending := []
    probing := false }

/-- The connection we opened is far enough along to carry sequenced data or a ZI-Req. -/
def receiverOpen (p : Peer) : Bool := p.receiver ≠ .unconnected ∧ p.receiver ≠ .waitOpenRsp

/-- One pending event and a new one for the same network as a single event, if any. -/
def collapse (p ev : EventTuple) : Option EventTuple :=
  -- Added then deleted: the peer never heard of it, so say nothing.
  if p.code = NA ∧ (ev.code = ND ∨ ev.code = NRC) then none
  -- Still an addition, at the new distance.
  else if p.code = NA ∧ ev.code = NDC then some { p with tuple := ev.tuple }
  -- Deleted then added back: a distance change.
  else if (p.code = ND ∨ p.code = NRC) ∧ ev.code = NA then
    some { code := NDC, tuple := ev.tuple }
  else some ev

/-- Queue one event, collapsing it with whatever is already pending for the same network. -/
def queue : List EventTuple → EventTuple → List EventTuple
  | [], ev => [ev]
  | p :: pending, ev =>
    if p.tuple.range.1 = ev.tuple.range.1 then (collapse p ev).toList ++ pending
    else p :: queue pending ev

/-- Apply one update event to the tables. -/
def apply (p : Peer) (e : EventTuple) (tables : Tables) (now : Instant) :
    Tables × List RouteChange :=
  let target := Target.peer p.addr
  let start := e.tuple.range.1
  let known := tables.routes.any fun r => r.target = target ∧ r.range.1 = start
  if e.code = NA ∧ e.tuple.distance < 15 then tables.learn e.tuple target Tables.NO_NEXT now
  else if e.code = ND ∨ e.code = NRC then tables.remove target start
  else if e.code = NDC then
    if 15 ≤ e.tuple.distance then tables.remove target start
    -- NDC for an unknown network is treated as NA.
    else if !known then tables.learn e.tuple target Tables.NO_NEXT now
    -- The stored distance is the peer's plus the tunnel hop.
    else tables.setDistance target start (e.tuple.distance + 1) now
  else (tables, [])

/-- Rate 1 and no environment flags: no remapping, no hop-count reduction. -/
def openRsp (p : Peer) (conn : UInt16) (rateOrErr : Int16) : Action :=
  p.send conn 0 (.openRsp 0 rateOrErr [])

def openReq (p : Peer) (conn version : UInt16) (options : List (UInt8 × Bytes))
    (now : Instant) : Peer × Out :=
  if version ≠ 1 then (p, .act (p.openRsp conn (-5)))
  else if options ≠ [] then (p, .act (p.openRsp conn (-4)))
  else if p.sender ≠ .unconnected ∧ conn ≠ p.connRemote then
    -- A different ID on an open connection may be a forgery, so probe the old one first.
    if !p.probing ∧ p.outstanding = none then
      let r := { p with probing := true }.sendSequenced nullUpd [] now
      ({ r.1 with sender := .waitRiUpdAck }, r.2)
    else (p, .nil)
  else
    let p :=
      { p with
        connRemote := conn
        seqSend := 0
        outstanding := none
        pages := []
        sender := .connected }
    let out := Out.act (p.openRsp conn 1)
    -- No connection of our own to that peer: open one immediately.
    if p.receiver = .unconnected then
      let r := p.open now
      (r.1, out ++ r.2)
    else (p, out)

/-- Send the next RI-Rsp page, with Last set once it is the final one. -/
def sendPage (p : Peer) (now : Instant) : Peer × Out :=
  match p.pages with
  | [] => (p, .nil)
  | tuples :: pages =>
    let r := { p with pages := pages }.sendSequenced (.riRsp pages.isEmpty tuples)
      (tuples.map fun (t : NetworkTuple) => t.range.1) now
    ({ r.1 with sender := .waitRiRspAck }, r.2)

def riAck (p : Peer) (seq : UInt16) (szi : Bool) (tables : Tables) (now : Instant) :
    Peer × Out :=
  match p.outstanding with
  | none => (p, .nil)
  | some o =>
    -- An RI-Ack counts only against the packet actually outstanding.
    if o.seq ≠ seq then (p, .nil)
    else
      let p := { p with outstanding := none }
      let out : Out :=
        { Out.nil with
          acts := if szi then (ziPages o.nets tables).map (p.send p.connRemote 0) else [] }
      match p.sender with
      | .waitRiRspAck =>
        if p.pages ≠ [] then
          let r := p.sendPage now
          (r.1, out ++ r.2)
        else ({ p with sender := .connected, probing := false }, out)
      | .waitRiUpdAck => ({ p with sender := .connected, probing := false }, out)
      | .waitRdAck => (p.closeSender, out)
      | _ => (p, out)

/-- Zone names for networks that are not on a cable of ours. -/
def ziRsp (extended : Option UInt16) (zones : List (UInt16 × Str)) (tables : Tables) :
    Tables × List RouteChange :=
  Tables.each (fun t (g : UInt16 × List Str) =>
    -- Split horizon in reverse: a peer has nothing to tell us about a cable of our own.
    if (t.best g.1).any fun r => r.target.isPort then (t, [])
    else t.addZones g.1 g.2 (extended.map UInt16.toNat)) tables (Tables.groupByNet zones)

/-- Where a sequenced packet's number stands against the expected one; 0 is never one. -/
def checkSeq (p : Peer) (seq : UInt16) : Seq :=
  if seq = 0 then .stale
  else if seq = p.seqRecv then .new
  else if seq = pred p.seqRecv then .dup
  else if seq = succ p.seqRecv then .ahead
  else .stale

/-- What one routing packet leaves: the peer, the tables and the output. -/
structure Handled where
  peer : Peer
  tables : Tables
  out : Out

/-- Nothing but the peer and some output. -/
def quiet (tables : Tables) (r : Peer × Out) : Handled :=
  { peer := r.1, tables := tables, out := r.2 }

/-- A sequenced packet of the data sender: `apply` is what a new one does to the tables, with
the SZI flag of its ack. -/
def sequenced (p : Peer) (conn seq : UInt16) (last : Bool) (tables : Tables) (now : Instant)
    (apply : Tables × List RouteChange) (szi : Bool) : Handled :=
  let p := { p with lastHeard := now }
  match p.checkSeq seq with
  | .new =>
    let p := { p with seqRecv := succ seq }
    { peer := if last then { p with receiver := .connected } else p
      tables := apply.1
      out := { Out.nil with acts := [p.send conn seq (.riAck szi)], chs := apply.2 } }
  | .dup => { peer := p, tables := tables, out := .act (p.send conn seq (.riAck true)) }
  | .ahead =>
    { peer := p.closeReceiver, tables := tables, out := .because "sequence number n+1" }
  | .stale => { peer := p, tables := tables, out := .nil }

/-- The tuples of an RI-Rsp: those at 15 hops or more are passed over. -/
def riRsp (p : Peer) (tuples : List NetworkTuple) (tables : Tables) (now : Instant) :
    Tables × List RouteChange :=
  Tables.each (fun t x =>
    if x.distance < 15 then t.learn x (.peer p.addr) Tables.NO_NEXT now else (t, [])) tables tuples

/-- The events of an RI-Upd. -/
def riUpd (p : Peer) (events : List EventTuple) (tables : Tables) (now : Instant) :
    Tables × List RouteChange :=
  Tables.each (fun t e => p.apply e t now) tables events

/-- The peer's sender connection is open and this is its ID. -/
def onSender (p : Peer) (conn : UInt16) : Bool := conn = p.connRemote ∧ p.sender ≠ .unconnected

/-- The connection we opened is open and this is its ID. -/
def onReceiver (p : Peer) (conn : UInt16) : Bool := conn = p.connLocal ∧ p.receiverOpen

/-- An RI-Req on this connection ID restarts the export. -/
def takesRiReq (p : Peer) (conn : UInt16) : Bool :=
  conn = p.connRemote ∧
    (p.sender = .connected ∨ p.sender = .waitRiRspAck ∨ p.sender = .waitRiUpdAck)

/-- One routing packet, dispatched by command. Everything on a connection ID that is not the one
expected is discarded. -/
def routing (p : Peer) (conn seq : UInt16) (cmd : Cmd) (tables : Tables) (now : Instant) :
    Handled :=
  let ignored : Handled := { peer := p, tables := tables, out := .nil }
  let answer (cmds : List Cmd) : Handled :=
    { peer := p, tables := tables, out := { Out.nil with acts := cmds.map (p.send conn 0) } }
  match cmd with
  -- As the data sender.
  | .openReq _ version options => quiet tables (p.openReq conn version options now)
  | .riReq _ =>
    if p.takesRiReq conn then
      -- A refresh at any time: the sequence restarts at 1.
      quiet tables ({ p with
        seqSend := 0
        outstanding := none
        pages := splitTuples tables.export }.sendPage now)
    else ignored
  | .riAck szi =>
    if conn = p.connRemote then quiet tables (p.riAck seq szi tables now) else ignored
  | .tickle => if p.onSender conn then answer [.tickleAck] else ignored
  | .ziReq nets => if p.onSender conn then answer (ziPages nets tables) else ignored
  | .gznReq zone => if p.onSender conn then answer [.gznRsp zone none] else ignored
  | .gdzlReq _ => if p.onSender conn then answer [.gdzlRsp true (-1) []] else ignored
  -- As the data receiver.
  | .openRsp _ rateOrErr _ =>
    if conn = p.connLocal ∧ p.receiver = .waitOpenRsp then
      if rateOrErr < 0 then
        { peer := p.closeReceiver, tables := tables
          out := .because ("open-rsp error " ++ toString rateOrErr.toInt) }
      else
        let p :=
          { p with
            receiver := .waitRiRsp
            seqRecv := 1
            recvTries := 1
            recvAt := now
            lastHeard := now }
        { peer := p, tables := tables
          out := .act (p.send p.connLocal 0 (.riReq Cmd.ALL_SUI)) }
    else ignored
  | .riRsp last tuples =>
    if p.onReceiver conn then
      p.sequenced conn seq last tables now (p.riRsp tuples tables now) true
    else ignored
  | .riUpd events =>
    if p.onReceiver conn then
      p.sequenced conn seq false tables now (p.riUpd events tables now)
        (events.any fun e => e.code = NA)
    else ignored
  | .rd code =>
    if p.onReceiver conn then
      let r := tables.removeTarget (.peer p.addr)
      { peer := p.closeReceiver.closeSender, tables := r.1
        out :=
          { acts := [p.send conn seq (.riAck false)], chs := r.2
            reason := some ("router down, code " ++ toString code.toInt) } }
    else ignored
  | .ziRsp extended zones =>
    if p.onReceiver conn then
      let r := ziRsp extended zones tables
      { peer := { p with lastHeard := now }, tables := r.1, out := { Out.nil with chs := r.2 } }
    else ignored
  | .tickleAck =>
    if conn = p.connLocal ∧ p.receiver = .waitTickleAck then
      { peer :=
          { p with
            receiver := .connected
            recvTries := 0
            lastHeard := now
            pingedAt := none
            pingRtt := match p.pingedAt with
              | some «at» => some (since now «at»)
              | none => p.pingRtt }
        tables := tables
        out := .nil }
    else ignored
  | .gznRsp .. | .gdzlRsp .. => ignored

/-- One log line per connection whose state moved. -/
def report (p : Peer) (was : Receiver × Sender) (out : Out) : Out :=
  let why := match out.reason with
    | some r => " (" ++ r ++ ")"
    | none => ""
  let line (what : String) (old new : String) : Action :=
    .log ("aurp: " ++ p.addr.display ++ " " ++ what ++ " " ++ old ++ " -> " ++ new ++ why)
  { acts := out.acts ++
      (if was.1 ≠ p.receiver then [line "receiver" was.1.display p.receiver.display] else []) ++
      (if was.2 ≠ p.sender then [line "sender" was.2.display p.sender.display] else [])
    chs := out.chs
    reason := none }

/-! ### Timers -/

def reconnect (p : Peer) (now : Instant) : Peer × Out :=
  if p.configured = none ∨ p.receiver ≠ .unconnected then (p, .nil)
  else if p.lastReconnect.any fun t => decide (since now t ≤ RECONNECT_BACKOFF) then (p, .nil)
  else p.open now

/-- Send `cmd` once more on the connection we opened, and count it. -/
def retry (p : Peer) (cmd : Cmd) (now : Instant) : Peer × Out :=
  ({ p with recvTries := p.recvTries + 1, recvAt := now }, .act (p.send p.connLocal 0 cmd))

def receiverTimers (p : Peer) (tables : Tables) (now : Instant) : Handled :=
  let idle : Handled := { peer := p, tables := tables, out := .nil }
  match p.receiver with
  | .waitOpenRsp | .waitRiRsp =>
    if RETRY ≤ since now p.recvAt then
      if RETRIES ≤ p.recvTries then
        { peer := p.closeReceiver, tables := tables
          out := .because ("no answer after " ++ dec RETRIES ++ " tries") }
      else
        -- Retransmitted Open-Reqs and RI-Reqs are fresh packets on the same connection ID.
        quiet tables (p.retry
          (if p.receiver = .waitOpenRsp then .openReq Cmd.ALL_SUI 1 [] else .riReq Cmd.ALL_SUI)
          now)
    else idle
  | .connected =>
    if LAST_HEARD < since now p.lastHeard then
      { peer := { p with receiver := .waitTickleAck, recvTries := 1, recvAt := now }
        tables := tables
        out := .act (p.send p.connLocal 0 .tickle) }
    else idle
  | .waitTickleAck =>
    if RETRY ≤ since now p.recvAt then
      if TICKLE_RETRIES ≤ p.recvTries then
        let r := tables.removeTarget (.peer p.addr)
        let out : Out :=
          { acts := [], chs := r.2
            reason := some (dec TICKLE_RETRIES ++ " tickles unanswered") }
        let p := p.closeReceiver
        -- One direction is dead; find out about the other.
        if p.sender = .connected then
          let s := p.sendSequenced nullUpd [] now
          { peer := { s.1 with sender := .waitRiUpdAck }, tables := r.1, out := out ++ s.2 }
        else { peer := p, tables := r.1, out := out }
      else quiet tables (p.retry .tickle now)
    else idle
  | .unconnected => idle

def senderTimers (p : Peer) (now : Instant) : Peer × Out :=
  match p.outstanding with
  | some o =>
    if RETRY ≤ since now o.at then
      if RETRIES ≤ o.tries then
        (p.closeSender, .because ("no ack after " ++ dec RETRIES ++ " tries"))
      else
        -- RI-Rsp and RI-Upd retransmissions are byte-identical repeats.
        ({ p with outstanding := some { o with tries := o.tries + 1, «at» := now } },
          .act (.toPeer p.addr o.bytes))
    else (p, .nil)
  | none =>
    if p.sender = .connected ∧ p.pending ≠ [] ∧ UPDATE_INTERVAL ≤ since now p.lastUpdate then
      let nets := (p.pending.filter fun e => e.code = NA).map fun e => e.tuple.range.1
      let r := { p with pending := [], lastUpdate := now }.sendSequenced (.riUpd p.pending) nets now
      ({ r.1 with sender := .waitRiUpdAck }, r.2)
    else (p, .nil)

/-- Ask again for the zones of this peer's networks that still have none. -/
def ziRerequest (p : Peer) (tables : Tables) : Out :=
  if !p.receiverOpen then .nil
  else
    let nets := (tables.zoneless.filter fun r => r.target = .peer p.addr).map fun r => r.range.1
    { Out.nil with
      acts := (nets.toChunks ((MAX_BODY - 2) / 2)).map fun chunk =>
        p.send p.connLocal 0 (.ziReq chunk) }

/-- One peer's share of a tick. `scan` and `zi` say whether the two scans are due. -/
def timers (p : Peer) (scan zi : Bool) (tables : Tables) (now : Instant) : Handled :=
  let a := if scan then p.reconnect now else (p, .nil)
  let b := a.1.receiverTimers tables now
  let c := b.peer.senderTimers now
  let d := if zi then c.1.ziRerequest b.tables else .nil
  { peer := c.1, tables := b.tables
    out := report c.1 (p.receiver, p.sender) (a.2 ++ b.out ++ c.2 ++ d) }

end Peer

/-! ### All the peers -/

structure Peers where
  «local» : Di
  openPeering : Bool
  peers : SortedMap Ipv4Addr Peer
  configured : List Str
  /-- The connection ID the next peer starts from. -/
  nextConn : UInt16
  lastScan : Instant
  lastZi : Instant
  /-- When the unknown-peer log last named each address. -/
  logged : Ipv4Addr → Option Instant

/-- What a packet leaves: the peers, the tables, the actions and route changes, and the datagram
of a data packet. -/
structure Received where
  peers : Peers
  tables : Tables
  acts : List Action
  chs : List RouteChange
  ddp : Option Bytes

namespace Peers

/-- `nanos` is what the wall clock gives the connection IDs to start from. -/
def new («local» : Di) (openPeering : Bool) (configured : List Str) (nanos : UInt16)
    (now : Instant) : Peers :=
  { «local» := «local», openPeering := openPeering, peers := .empty, configured := configured
    nextConn := succ nanos, lastScan := now, lastZi := now, logged := fun _ => none }

/-- Create the entry of an address, with the connection ID the counter is at. -/
def create (s : Peers) (addr : Ipv4Addr) (configured : Option Str) (now : Instant) : Peers :=
  { s with
    peers := s.peers.insert addr (Peer.new addr configured s.nextConn s.local now)
    nextConn := succ s.nextConn }

/-- A configured name resolved, or re-resolved. -/
def resolved (s : Peers) (name : Str) (addr : Ipv4Addr) (now : Instant) : Peers :=
  match s.peers.get? addr with
  | some p => { s with peers := s.peers.insert addr { p with configured := some name } }
  | none =>
    -- The name moved: the old address cannot still be this peer.
    { s with peers := s.peers.retain fun _ p => p.configured ≠ some name }.create addr
      (some name) now

/-- Whether the unknown-peer log should name this address now. -/
def logUnknown (s : Peers) («from» : Ipv4Addr) (now : Instant) : Peers × Bool :=
  let logged := fun a => (s.logged a).filter fun t => decide (since now t < LOG_EVERY)
  if (logged «from»).isSome then ({ s with logged := logged }, false)
  else ({ s with logged := Function.update logged «from» (some now) }, true)

/-- A packet this router has no entry for and makes none for: at most a log line. -/
def turnAway (s : Peers) («from» : Ipv4Addr) (line : String) (tables : Tables) (now : Instant) :
    Received :=
  let r := s.logUnknown «from» now
  { peers := r.1, tables := tables, acts := if r.2 then [.log line] else [], chs := []
    ddp := none }

/-- A packet from an address that has an entry. -/
def deliver (s : Peers) (p : Peer) («from» : Ipv4Addr) (pkt : Aurp) (tables : Tables)
    (now : Instant) : Received :=
  match pkt with
  | .data dh ddp =>
    { peers := { s with
        peers := s.peers.insert «from» { p with di := namedBy dh.src «from», lastHeard := now } }
      tables := tables, acts := [], chs := [], ddp := some ddp }
  | .routing dh conn seq cmd =>
    let p := { p with di := namedBy dh.src «from» }
    let h := p.routing conn seq cmd tables now
    let out := h.peer.report (p.receiver, p.sender) h.out
    { peers := { s with peers := s.peers.insert «from» h.peer }
      tables := h.tables, acts := out.acts, chs := out.chs, ddp := none }

/-- One datagram from the socket. -/
def packet (s : Peers) («from» : Ipv4Addr) (bytes : Bytes) (tables : Tables) (now : Instant) :
    Received :=
  match Aurp.parse bytes with
  | none => { peers := s, tables := tables, acts := [], chs := [], ddp := none }
  | some pkt =>
    match s.peers.get? «from» with
    | some p => s.deliver p «from» pkt tables now
    | none =>
      if !s.openPeering then
        s.turnAway «from» ("aurp: packet from unknown peer " ++ («from»).display) tables now
      else if MAX_OPEN_PEERS ≤ s.peers.size then
        s.turnAway «from» ("aurp: already holding " ++ dec MAX_OPEN_PEERS ++
          " peers; ignoring " ++ («from»).display) tables now
      else
        (s.create «from» none now).deliver (Peer.new «from» none s.nextConn s.local now) «from» pkt
          tables now

/-- An entry that is configured, has a connection up, or was heard from lately. -/
def keeps (now : Instant) (p : Peer) : Bool :=
  p.configured ≠ none ∨ p.receiver ≠ .unconnected ∨ p.sender ≠ .unconnected ∨
    since now p.lastHeard < LAST_HEARD

/-- Timers: retransmits, tickles, reconnects, pending RI-Upds, ZI re-requests. -/
def tick (s : Peers) (tables : Tables) (now : Instant) : Received :=
  let scan : Bool := RECONNECT_SCAN ≤ since now s.lastScan
  let zi : Bool := ZI_REREQUEST ≤ since now s.lastZi
  let r := s.peers.mapAccum (fun (a : Tables × List Action × List RouteChange) _ p =>
    let h := p.timers scan zi a.1 now
    ((h.tables, a.2.1 ++ h.out.acts, a.2.2 ++ h.out.chs), h.peer)) (tables, [], [])
  { peers := { s with
      lastScan := if scan then now else s.lastScan
      lastZi := if zi then now else s.lastZi
      peers := r.2.retain fun _ p => keeps now p }
    tables := r.1.1, acts := r.1.2.1, chs := r.1.2.2, ddp := none }

/-- The event a route change is to a data receiver, if it is one. A route via a peer is never
re-exported. -/
def eventOf (tables : Tables) (c : RouteChange) : Option EventTuple :=
  let was := c.old.any fun r => r.target.isPort && decide (r.distance < 15)
  let is := c.new.any fun r =>
    r.target.isPort && decide (r.distance < 15) && tables.zonesComplete r.range.1
  match c.old, c.new with
  | none, none => none
  | none, some new => if is then some { code := NA, tuple := new.tuple } else none
  | some old, none =>
    if was then some { code := ND, tuple := { old.tuple with distance := 0 } } else none
  | some old, some new =>
    match was, is with
    | false, false => none
    | false, true => some { code := NA, tuple := new.tuple }
    | true, false =>
      -- Moved onto a tunnel: split horizon hides it.
      some { code := if new.target.isPeer then NRC else ND
             tuple := { old.tuple with distance := 0 } }
    | true, true =>
      if old.distance = new.distance then none else some { code := NDC, tuple := new.tuple }

/-- Queue events for every peer we are sender to. -/
def routeChanged (s : Peers) (ch : List RouteChange) (tables : Tables) : Peers :=
  { s with peers := s.peers.mapValues fun p =>
      if p.sender = .unconnected then p
      else { p with pending := (ch.filterMap (eventOf tables)).foldl Peer.queue p.pending } }

def forward (s : Peers) (peer : Ipv4Addr) (ddp : Bytes) : Action :=
  let dst := ((s.peers.get? peer).map Peer.di).getD (.ip peer)
  .toPeer peer (Aurp.data { dst := dst, src := s.local } ddp).toBytes

/-- RD(-1) on every sender connection. -/
def shutdown (s : Peers) (now : Instant) : Peers × List Action :=
  let r := s.peers.mapAccum (fun (acts : List Action) _ p =>
    if p.sender = .unconnected ∨ p.sender = .waitRdAck then (acts, p)
    else
      let r := { p with outstanding := none, pages := [] }.sendSequenced (.rd (-1)) [] now
      (acts ++ r.2.acts, { r.1 with sender := .waitRdAck })) []
  ({ s with peers := r.2 }, r.1)

/-- The operator's ping: a Tickle to every peer we are connected to as receiver. -/
def ping (s : Peers) (now : Instant) : Peers × List Action :=
  let r := s.peers.mapAccum (fun (acts : List Action) _ p =>
    match p.receiver with
    | .connected =>
      (acts ++ [p.send p.connLocal 0 .tickle],
        { p with receiver := .waitTickleAck, recvTries := 1, recvAt := now
                 pingedAt := some now, pingRtt := none })
    | .waitTickleAck =>
      (acts ++ [p.send p.connLocal 0 .tickle], { p with pingedAt := some now, pingRtt := none })
    | _ => (acts, p)) []
  ({ s with peers := r.2 }, r.1)

/-! ### The ping's report -/

/-- A column of a table. -/
def column (width : ℕ) (s : String) : String :=
  s ++ String.ofList (List.replicate (width - s.length) ' ') ++ "  "

/-- One row of the report, for a peer or for a name that has none. -/
def pingRow (name : String) : Option Peer → String
  | none => column 25 name ++ column 15 "-" ++ column 15 "unresolved" ++ "-\n"
  | some p =>
    let result :=
      match p.pingRtt, p.pingedAt with
      | some rtt, _ => dec (rtt / fromMillis 1) ++ " ms"
      | none, some _ => "no reply in " ++ dec PING_GRACE ++ " s"
      | none, none => "-"
    column 25 name ++ column 15 p.addr.display ++ column 15 p.receiver.display ++ result ++ "\n"

/-- Taking a peer's row clears its result, so the next ping starts blank. -/
def pingTaken (p : Peer) : Peer := { p with pingedAt := none, pingRtt := none }

/-- The row of a configured name: the first peer of that name, if it has resolved. -/
def pingNamed (r : SortedMap Ipv4Addr Peer × String) (name : Str) :
    SortedMap Ipv4Addr Peer × String :=
  match r.1.entries.find? fun e => e.2.configured = some name with
  | none => (r.1, r.2 ++ pingRow (String.ofList name) none)
  | some e => (r.1.insert e.1 (pingTaken e.2), r.2 ++ pingRow (String.ofList name) (some e.2))

def pingHead : String := column 25 "peer" ++ column 15 "address" ++ column 15 "state" ++ "ping\n"

/-- The ping's results, one row per configured name and then any peer that found us. -/
def pingReport (s : Peers) : Peers × String :=
  let named := s.configured.foldl pingNamed (s.peers, pingHead)
  let r := named.1.mapAccum (fun text _ p =>
    if p.configured = none then (text ++ pingRow "-" (some p), pingTaken p) else (text, p)) named.2
  ({ s with peers := r.2 }, r.1)

end Peers

end AppleTalk
