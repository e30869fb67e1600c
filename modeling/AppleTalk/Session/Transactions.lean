import AppleTalk.Lib.SortedMap
import AppleTalk.Wire.Frame
import Mathlib.Data.Fintype.Pi

/-!
# ATP reassembly

A response comes in up to eight packets, in any order and more than once (`session.rs`). The open
transactions share one map, and every packet of any kind first sweeps out those that are too old,
or the oldest where the map is full. Of equally old ones the hash map's order decides.
-/

namespace AppleTalk

/-- One ATP transaction: a TID is only unique between a pair of sockets. -/
structure TxnKey where
  src : Addr
  srcSocket : UInt8
  dst : Addr
  dstSocket : UInt8
  tid : UInt16
  deriving DecidableEq, Repr

/-- Keys order as their octets on the wire do. -/
instance : Key TxnKey where
  code k := (((((k.src.net.toNat * 256 + k.src.node.toNat) * 256 + k.srcSocket.toNat) * 65536 +
    k.dst.net.toNat) * 256 + k.dst.node.toNat) * 256 + k.dstSocket.toNat) * 65536 + k.tid.toNat
  code_inj := by
    rintro ⟨⟨n, a⟩, s, ⟨m, b⟩, t, i⟩ ⟨⟨n', a'⟩, s', ⟨m', b'⟩, t', i'⟩ h
    have := n.toNat_lt; have := a.toNat_lt; have := s.toNat_lt; have := m.toNat_lt
    have := b.toNat_lt; have := t.toNat_lt; have := i.toNat_lt
    have := n'.toNat_lt; have := a'.toNat_lt; have := s'.toNat_lt; have := m'.toNat_lt
    have := b'.toNat_lt; have := t'.toNat_lt; have := i'.toNat_lt
    simp only at h
    have h1 : n = n' := UInt16.toNat_inj.1 (by omega)
    have h2 : a = a' := UInt8.toNat_inj.1 (by omega)
    have h3 : s = s' := UInt8.toNat_inj.1 (by omega)
    have h4 : m = m' := UInt16.toNat_inj.1 (by omega)
    have h5 : b = b' := UInt8.toNat_inj.1 (by omega)
    have h6 : t = t' := UInt8.toNat_inj.1 (by omega)
    have h7 : i = i' := UInt16.toNat_inj.1 (by omega)
    subst h1 h2 h3 h4 h5 h6 h7
    rfl

/-- A completed response message. -/
structure Transaction where
  key : TxnKey
  /-- From response packet 0. -/
  userBytes : UserBytes
  /-- The payloads in sequence order. -/
  data : Bytes
  /-- When the transaction completed. -/
  «at» : Instant
  deriving DecidableEq, Repr

/-- Responses by sequence number. -/
structure Partial where
  segments : Fin 8 → Option Bytes
  userBytes : UserBytes
  /-- The sequence number of the packet with EOM, once seen. -/
  last : Option (Fin 8)
  firstSeen : Instant
  deriving DecidableEq

def TXN_TIMEOUT : ℕ := fromSecs 30

/-- The cap on open transactions. -/
def MAX_OPEN : ℕ := 512

/-- End of message: the last response of the set. -/
def Atp.eom (a : Atp) : Bool := a.control &&& 0x10 ≠ 0

namespace Partial

def new (firstSeen : Instant) : Partial :=
  { segments := fun _ => none, userBytes := ⟨0, 0, 0, 0⟩, last := none, firstSeen := firstSeen }

/-- Complete once EOM has arrived and every sequence number up to it is there. -/
def takeIfComplete (p : Partial) : Option Bytes :=
  p.last.bind fun last =>
    (((List.finRange 8).filter (· ≤ last)).mapM p.segments).map List.flatten

/-- Take in one response packet. -/
def store (p : Partial) (seq : Fin 8) (atp : Atp) : Partial :=
  { p with
    userBytes := if seq = 0 then atp.userBytes else p.userBytes
    segments := Function.update p.segments seq (some atp.data)
    last := if atp.eom then some seq else p.last }

/-- Young enough to be kept by the sweep. -/
def fresh (now : Instant) (p : Partial) : Bool := since now p.firstSeen < TXN_TIMEOUT

end Partial

/-- The transaction an ATP packet is of. A response travels from responder to requester. -/
def txnKey (ddp : Ddp) (atp : Atp) : TxnKey :=
  { src := ddp.src, srcSocket := ddp.srcSocket, dst := ddp.dst, dstSocket := ddp.dstSocket
    tid := atp.tid }

/-- The ATP packet in a frame, with its transaction. -/
def Packet.atp (p : Packet) : Option (TxnKey × Atp) :=
  match p.body with
  | .ddp ddp (.atp atp) => some (txnKey ddp atp, atp)
  | _ => none

structure Transactions where
  «open» : SortedMap TxnKey Partial

namespace Transactions

def new : Transactions := { «open» := .empty }

/-- The number of transactions still awaiting completion. -/
def openCount (s : Transactions) : ℕ := s.open.size

section Push

-- `order` is the order the hash map iterates in.
variable (order : List (TxnKey × Partial) → List (TxnKey × Partial))

/-- The sweep: drop what is too old, and the oldest until there is room for one more. -/
def expire (s : Transactions) (now : Instant) : Transactions :=
  let kept := s.open.retain fun _ p => p.fresh now
  if MAX_OPEN ≤ kept.size then
    let times := ((order kept.entries).map fun e => (e.2.firstSeen, e.1)).mergeSort
      fun a b => a.1 ≤ b.1
    { «open» := (times.take (kept.size - (MAX_OPEN - 1))).foldl (fun m t => m.erase t.2) kept }
  else { «open» := kept }

/-- Feed in one packet. A transaction comes out on the packet that completes it; what is no
response is ignored. -/
def push (s : Transactions) («at» : Instant) (p : Packet) : Transactions × Option Transaction :=
  let s := s.expire order «at»
  match p.atp with
  | none => (s, none)
  | some (key, atp) =>
    if atp.func ≠ .resp then (s, none)
    else if h : atp.bitmap.toNat < 8 then
      let q := ((s.open.get? key).getD (.new «at»)).store ⟨atp.bitmap.toNat, h⟩ atp
      match q.takeIfComplete with
      | none => ({ «open» := s.open.insert key q }, none)
      | some data =>
        ({ «open» := s.open.erase key },
          some { key := key, userBytes := q.userBytes, data := data, «at» := «at» })
    else (s, none)

/-- The state after a packet. -/
def next (s : Transactions) (x : Instant × Packet) : Transactions := (s.push order x.1 x.2).1

/-- The transactions a run of packets completes, in order. -/
def completed : Transactions → List (Instant × Packet) → List Transaction
  | _, [] => []
  | s, x :: xs => (s.push order x.1 x.2).2.toList ++ completed (s.next order x) xs

end Push

end Transactions

end AppleTalk
