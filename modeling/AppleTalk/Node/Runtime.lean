import AppleTalk.Capture.Queue
import AppleTalk.Bridge.Table
import AppleTalk.Session.Session
import Mathlib.Data.List.Sort

/-!
# The node runtime

A node claims an address, defends it, and asks questions (`node.rs`). Its one loop, `wait`, drains
the event queue until its caller has what it waits for or the deadline passes. What the queue and
the NIC will do stands in the node's state: what each receive is going to return, which frames the
NIC will refuse, and what the clock will read when a seed is drawn. What the node did and saw is
kept in order.
-/

namespace AppleTalk

/-! ### Reading packets -/

/-- A provisional address: a network of the startup range, and a node that is not reserved. -/
def pickAddress (seed : UInt64) : Addr :=
  { net := 0xff00 + (seed % 0xff).toUInt16, node := (1 : UInt8) + ((seed >>> 16) % 253).toUInt8 }

/-- How much of our address the user pinned down. -/
inductive Want
  | discover
  | net (net : UInt16)
  | addr (a : Addr)
  deriving DecidableEq, Repr

inductive NetInfo
  /-- Our provisional network number is valid on this cable. -/
  | keep
  /-- It is not; pick again inside this range. -/
  | repick (range : UInt16 × UInt16)
  deriving DecidableEq, Repr

/-- What an incoming packet means for our address. -/
def Packet.aarpAction (p : Packet) (ours : Addr) (ourMac : MacAddr) (probing : Bool) : AarpAction :=
  match p.body with
  | .aarp a => AppleTalk.aarpAction a ours ourMac probing
  | _ => .ignore

/-- What a ZIP GetNetInfo reply says: whether the provisional address survives, the zone to adopt,
and the router that answered. -/
def netinfoVerdict (p : Packet) (provisional : Addr) (requestedZone : Str) :
    Option (NetInfo × Str × Addr) :=
  match p.body with
  | .ddp d (.zip (.netInfoReply _ range zone _ defaultZone)) =>
    -- A reply directed at someone else is not ours, nor one that echoes another zone's name.
    if d.dst.node ≠ 255 ∧ d.dst ≠ provisional then none
    else if zone ≠ requestedZone then none
    -- Fail closed on a range that ends before it starts.
    else if range.2 < range.1 then none
    else
      let verdict : NetInfo :=
        if range.1 ≤ provisional.net ∧ provisional.net ≤ range.2 then .keep else .repick range
      some (verdict, defaultZone.getD zone, d.src)
  | _ => none

/-- A lookup carries one tuple: the name asked about, with the requester's own address. -/
def lookupRequest (func : NbpFunc) (id : UInt8) (ours : Addr) (socket : UInt8)
    (object typ zone : Str) : Nbp :=
  { func := func, id := id
    tuples := [{ addr := ours, socket := socket, enumerator := 0, object := object, typ := typ
                 zone := zone }] }

/-- The tuples in a LkUp-Reply that answers lookup `id`. -/
def lookupReplies (p : Packet) (id : UInt8) : List NbpTuple :=
  match p.body with
  | .ddp _ (.nbp n) => if n.func = .lkUpReply ∧ n.id = id then n.tuples else []
  | _ => []

/-- The same entity: everything but the zone agrees. -/
def NbpTuple.same (a b : NbpTuple) : Bool :=
  (a.addr, a.socket, a.enumerator, a.object, a.typ) =
    (b.addr, b.socket, b.enumerator, b.object, b.typ)

/-- Append the tuples we have not already seen. -/
def merge (into tuples : List NbpTuple) : List NbpTuple :=
  tuples.foldl (fun into t => if into.any fun e => e.same t then into else into ++ [t]) into

/-- The order answers are listed in: by object, then by type. -/
def NbpTuple.le (a b : NbpTuple) : Bool :=
  decide (a.object < b.object) || (decide (a.object = b.object) && !decide (b.typ < a.typ))

/-- What an echo request carries to know its reply by. -/
def echoData (magic seq : UInt32) : Bytes :=
  let word (x : UInt32) : Bytes :=
    [(x >>> 24).toUInt8, (x >>> 16).toUInt8, (x >>> 8).toUInt8, x.toUInt8]
  word magic ++ word seq

/-- The responder's address and our sequence number, for a reply that is ours. -/
def echoMatch (p : Packet) (magic : UInt32) : Option (Addr × UInt32) :=
  let word (b0 b1 b2 b3 : UInt8) : UInt32 :=
    b0.toUInt32 <<< 24 ||| b1.toUInt32 <<< 16 ||| b2.toUInt32 <<< 8 ||| b3.toUInt32
  match p.body with
  | .ddp d (.aep a) =>
    if a.func = .reply then
      match a.data with
      | m0 :: m1 :: m2 :: m3 :: s0 :: s1 :: s2 :: s3 :: _ =>
        if word m0 m1 m2 m3 = magic then some (d.src, word s0 s1 s2 s3) else none
      | _ => none
    else none
  | _ => none

/-- The packet is the ATP response that completes our zone-list request. -/
def Packet.zoneReplyMatches (p : Packet) (router : Addr) (tid : UInt16) : Bool :=
  match p.body with
  | .ddp d (.atp a) => AppleTalk.zoneReplyMatches d a router tid
  | _ => false

/-! ### The constants -/

/-- How many different addresses to try before giving up. -/
def ADDRESS_TRIES : ℕ := 5

/-- The "no saved zone" case. -/
def REQUESTED_ZONE : Str := []

def NETINFO_TRIES : ℕ := 3
def NETINFO_INTERVAL : ℕ := fromSecs 1
def LOOKUP_TRIES : ℕ := 3
def LOOKUP_INTERVAL : ℕ := fromSecs 1
def PING_INTERVAL : ℕ := fromSecs 1
def ZONE_TRIES : ℕ := 3
def ZONE_INTERVAL : ℕ := fromSecs 2

/-- The most completed messages a node keeps. -/
def MAX_MESSAGES : ℕ := 64

/-! ### The node's state -/

inductive ErrorKind
  | invalidInput
  | notFound
  | addrInUse
  | timedOut
  deriving DecidableEq, Repr

/-- What a command fails with: the NIC's own error, or one of ours. -/
inductive Failure
  | nic
  | error (kind : ErrorKind) (text : String)
  deriving DecidableEq, Repr

/-- What a node does and sees. -/
inductive Occurrence
  | sent (f : Frame)
  /-- The NIC would not send it. -/
  | refused (f : Frame)
  | heard (e : Capture.Event)
  /-- A wait of this length ended with nothing: it ran out, or no producer was left. -/
  | lapsed (interval : ℕ)
  deriving DecidableEq, Repr

/-- The transmit half of the NIC, and which of the frames still to come it will refuse. -/
structure Tx where
  mac : MacAddr
  refuses : List Bool

/-- A node with its link. -/
structure Runtime extends Node where
  tx : Tx
  /-- What the receives still to come return; `none` when the deadline passes or no producer is
  left. -/
  rx : List (Option Capture.Event)
  /-- What the clock's nanoseconds are at the seeds still to come. -/
  clock : List UInt32
  /-- `none` means that no router answered. -/
  zone : Option Str
  router : Option Addr
  amt : List (Addr × MacAddr)
  session : Session
  /-- Probes are being sent for an address. -/
  probing : Bool
  /-- Scratch for lookups. -/
  pending : List NbpTuple
  /-- What the session completed since the last request looked. -/
  messages : List Message
  /-- What happened so far. -/
  past : List Occurrence

namespace Runtime

/-- A node that has not claimed its address yet. -/
def boot (tx : Tx) (rx : List (Option Capture.Event)) (clock : List UInt32) : Runtime :=
  { addr := { net := 0, node := 0 }, nextId := 1, tx := tx, rx := rx, clock := clock, zone := none
    router := none, amt := [], session := .new, probing := false, pending := [], messages := []
    past := [] }

/-- Transmit a frame, if the NIC will. -/
def send (n : Runtime) (f : Frame) : Runtime × Except Failure Unit :=
  let tx := { n.tx with refuses := n.tx.refuses.tail }
  if n.tx.refuses.headD false then
    ({ n with tx := tx, past := n.past ++ [.refused f] }, .error .nic)
  else ({ n with tx := tx, past := n.past ++ [.sent f] }, .ok ())

/-- The clock mixed with the NIC's MAC. -/
def seed (n : Runtime) (attempt : UInt32) : Runtime × UInt64 :=
  let m := n.tx.mac
  let mac := m.b3.toUInt64 <<< 16 ||| m.b4.toUInt64 <<< 8 ||| m.b5.toUInt64
  ({ n with clock := n.clock.tail },
    (n.clock.headD 0).toUInt64 ^^^ (mac <<< 8) ^^^ (attempt.toUInt64 <<< 32))

/-- An identifier for the next transaction or lookup. -/
def takeId (n : Runtime) : Runtime × UInt16 :=
  ({ n with nextId := n.nextId + 1 }, n.nextId + 1)

section Wait

variable (order : List (TxnKey × Partial) → List (TxnKey × Partial))

/-- Keep the newest messages only. -/
def trim (messages : List Message) : List Message :=
  messages.drop (messages.length - MAX_MESSAGES)

/-- Answer for our address, if the packet asks. -/
def answer (n : Runtime) (p : Packet) : Runtime :=
  match p.aarpAction n.addr n.tx.mac n.probing, p.body with
  | .answerTo mac, .aarp a =>
    (n.send (frame n.tx.mac mac AARP (aarpResponse n.addr n.tx.mac a.src mac).toBytes)).1
  | _, _ => n

/-- Glean from a packet, and feed it to the session. -/
def learn (n : Runtime) («at» : Instant) (p : Packet) : Runtime :=
  let r := n.session.push order «at» p
  { n with amt := glean n.amt p, session := r.1, messages := trim (n.messages ++ r.2) }

/-- What every packet is to a waiting node, whatever it waits for. -/
def takeIn (n : Runtime) («at» : Instant) (p : Packet) : Runtime :=
  (n.learn order «at» p).answer p

/-- The event is out of the queue. -/
def hear (n : Runtime) (e : Capture.Event) (rx : List (Option Capture.Event)) : Runtime :=
  { n with rx := rx, past := n.past ++ [.heard e] }

/-- One event, and whether it is what `f` waits for. -/
def attend {α : Type} (f : Runtime → Packet → Runtime × Option α) (n : Runtime) :
    Capture.Event → Runtime × Option α
  | .packet «at» _ p => f (n.takeIn order «at» p) p
  | .dropped _ => ({ n with session := n.session.flush }, none)
  -- A node command opens no LocalTalk link and no AURP socket; an error is only reported.
  | .llap _ _ | .aurp _ _ | .error _ => (n, none)

/-- The deadline has passed. -/
def lapse (n : Runtime) (interval : ℕ) (rx : List (Option Capture.Event)) : Runtime :=
  { n with rx := rx, past := n.past ++ [.lapsed interval] }

/-- `wait`, on what the receives return. -/
def waitOver {α : Type} (interval : ℕ) (f : Runtime → Packet → Runtime × Option α) :
    List (Option Capture.Event) → Runtime → Runtime × Option α
  | [], n => (n.lapse interval [], none)
  | none :: rx, n => (n.lapse interval rx, none)
  | some e :: rx, n =>
    match (n.hear e rx).attend order f e with
    | (n, some v) => (n, some v)
    | (n, none) => waitOver interval f rx n

/-- Drain events until `f` yields a value or so much time has passed. -/
def wait {α : Type} (n : Runtime) (interval : ℕ) (f : Runtime → Packet → Runtime × Option α) :
    Runtime × Option α :=
  waitOver order interval f n.rx n

/-! ### What a wait leaves alone -/

variable {order}

@[simp] theorem send_rx (n : Runtime) (f : Frame) : (n.send f).1.rx = n.rx := by
  unfold send
  split_ifs <;> rfl

@[simp] theorem answer_rx (n : Runtime) (p : Packet) : (n.answer p).rx = n.rx := by
  unfold answer
  split <;> simp

@[simp] theorem takeIn_rx (n : Runtime) («at» : Instant) (p : Packet) :
    (n.takeIn order «at» p).rx = n.rx := by
  simp [takeIn, learn]

/-- A wait that ends with a value has taken something from the queue. -/
theorem wait_length_rx {α : Type} {n n' : Runtime} {interval : ℕ}
    {f : Runtime → Packet → Runtime × Option α} {v : α} (hf : ∀ n p, (f n p).1.rx = n.rx)
    (h : n.wait order interval f = (n', some v)) : n'.rx.length < n.rx.length := by
  suffices hover : ∀ rx n, waitOver order interval f rx n = (n', some v) →
      n'.rx.length < rx.length from hover n.rx n h
  intro rx
  induction rx with
  | nil => intro n h; cases h
  | cons r rx ih =>
    intro n h
    cases r with
    | none => cases h
    | some e =>
      have hattend : ((n.hear e rx).attend order f e).1.rx = rx := by
        cases e <;> simp [attend, hf, hear]
      unfold waitOver at h
      split at h
      · rename_i m w hm
        cases h
        rw [hm] at hattend
        rw [hattend]
        exact Nat.lt_succ_self _
      · exact (ih _ h).trans (Nat.lt_succ_self _)

end Wait

end Runtime

end AppleTalk
