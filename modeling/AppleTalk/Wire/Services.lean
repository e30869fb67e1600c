import AppleTalk.Wire.Ddp

/-!
# The protocols a datagram carries

RTMP, NBP, ZIP, ATP and AEP (`wire/rtmp.rs`, `nbp.rs`, `zip.rs`, `atp.rs`, `aep.rs`): what each
packet holds, how it is read and how it is written.
-/

namespace AppleTalk

open Octets

def DDP_RTMP_DATA : UInt8 := 1
def DDP_RTMP_REQ : UInt8 := 5
def DDP_NBP : UInt8 := 2
def DDP_ATP : UInt8 := 3
def DDP_AEP : UInt8 := 4
def DDP_ZIP : UInt8 := 6

/-! ### Network tuples and RTMP -/

/-- One network range and its distance in hops; 31 marks an entry its sender believes bad. -/
structure NetworkTuple where
  range : UInt16 × UInt16
  extended : Bool
  distance : UInt8
  deriving DecidableEq, Repr

namespace NetworkTuple

/-- A tuple and the bytes after it. The high bit of the distance byte tells the six-byte
extended form from the three-byte one. -/
def parse : Bytes → Option (NetworkTuple × Bytes)
  | b0 :: b1 :: b2 :: rest =>
    if b2 &&& 0x80 = 0 then
      some ({ range := (be16 b0 b1, be16 b0 b1), extended := false, distance := b2 }, rest)
    else
      match rest with
      | b3 :: b4 :: _ :: rest =>
        some ({ range := (be16 b0 b1, be16 b3 b4), extended := true, distance := b2 &&& 0x7f },
          rest)
      | _ => none
  | _ => none

/-- The tuple's bytes; `trailer` ends the extended form. -/
def encodeWith (t : NetworkTuple) (trailer : UInt8) : Bytes :=
  if !t.extended then ofWord t.range.1 ++ [t.distance &&& 0x7f]
  else ofWord t.range.1 ++ [t.distance ||| 0x80] ++ ofWord t.range.2 ++ [trailer]

theorem consumes_parse : Consumes parse := by
  intro bs t rest h
  unfold parse at h
  split at h
  · split_ifs at h
    · simp only [Option.some.injEq, Prod.mk.injEq] at h
      obtain ⟨-, rfl⟩ := h
      simp; omega
    · split at h
      · simp only [Option.some.injEq, Prod.mk.injEq] at h
        obtain ⟨-, rfl⟩ := h
        simp; omega
      · cases h
  · cases h

/-- A tuple off the wire has a distance of at most 127, and is one network when it is not
extended. -/
theorem parse_wire {bs rest : Bytes} {t : NetworkTuple} (h : parse bs = some (t, rest)) :
    t.distance ≤ 127 ∧ (t.extended = false → t.range.1 = t.range.2) := by
  unfold parse at h
  split at h
  · rename_i b2 rest'
    split_ifs at h with h0
    · simp only [Option.some.injEq, Prod.mk.injEq] at h
      obtain ⟨rfl, -⟩ := h
      refine ⟨?_, fun _ => rfl⟩
      revert h0
      clear * -
      have key : ∀ n : Fin 256, UInt8.ofNat n.val &&& 0x80 = 0 → n.val ≤ 127 := by
        decide +kernel
      intro h0
      have := key ⟨b2.toNat, b2.toNat_lt⟩ (by simpa using h0)
      rw [UInt8.le_iff_toNat_le]
      simpa using this
    · split at h
      · simp only [Option.some.injEq, Prod.mk.injEq] at h
        obtain ⟨rfl, -⟩ := h
        refine ⟨?_, fun h => by cases h⟩
        rw [UInt8.le_iff_toNat_le, UInt8.toNat_and]
        exact Nat.and_le_right
      · cases h
  · cases h

/-- A tuple as it reads back: a single network ends where it starts. -/
def onWire (t : NetworkTuple) : NetworkTuple :=
  { t with range := if t.extended then t.range else (t.range.1, t.range.1) }

@[simp] theorem onWire_start (t : NetworkTuple) : t.onWire.range.1 = t.range.1 := by
  unfold onWire
  split_ifs <;> rfl

@[simp] theorem onWire_distance (t : NetworkTuple) : t.onWire.distance = t.distance := rfl

/-- The high bit of the distance byte, which is not part of a distance of at most 127. -/
theorem distance_bits {d : UInt8} (h : d ≤ 127) :
    d &&& 0x80 = 0 ∧ d &&& 0x7f = d ∧ (d ||| 0x80) &&& 0x80 ≠ 0 ∧
      (d ||| 0x80) &&& 0x7f = d := by
  have key : ∀ n : Fin 256, n.val ≤ 127 →
      UInt8.ofNat n.val &&& 0x80 = 0 ∧ UInt8.ofNat n.val &&& 0x7f = UInt8.ofNat n.val ∧
        (UInt8.ofNat n.val ||| 0x80) &&& 0x80 ≠ 0 ∧
        (UInt8.ofNat n.val ||| 0x80) &&& 0x7f = UInt8.ofNat n.val := by decide +kernel
  have := key ⟨d.toNat, d.toNat_lt⟩ (by simpa using UInt8.le_iff_toNat_le.1 h)
  simpa using this

theorem parse_encodeWith (t : NetworkTuple) (trailer : UInt8) (h : t.distance ≤ 127)
    (rest : Bytes) : parse (t.encodeWith trailer ++ rest) = some (t.onWire, rest) := by
  obtain ⟨h1, h2, h3, h4⟩ := distance_bits h
  obtain ⟨⟨s, e⟩, ext, d⟩ := t
  cases ext
  · simp only at h1 h2
    simp [encodeWith, ofWord, parse, onWire, h1, h2]
  · simp only at h3 h4
    simp [encodeWith, ofWord, parse, onWire, h3, h4]

end NetworkTuple

/-- The trailer byte RTMP puts on an extended tuple: also its version marker. -/
def RTMP_TRAILER : UInt8 := 0x82

inductive Rtmp
  /-- `range` is what an extended network states first; an RTMP Response is a `data` with no
  tuples. -/
  | data (sender : Addr) (range : Option (UInt16 × UInt16)) (tuples : List NetworkTuple)
  | request
  | rdr (splitHorizon : Bool)
  deriving DecidableEq, Repr

namespace Rtmp

def parseData : Bytes → Option Rtmp
  | h0 :: h1 :: h2 :: h3 :: rest =>
    -- The sender ID's length is in bits.
    if h2 ≠ 8 then none
    else
      let sender : Addr := { net := be16 h0 h1, node := h3 }
      match rest with
      | 0x00 :: 0x00 :: 0x82 :: rest =>
        (many NetworkTuple.parse rest).map fun tuples => .data sender none tuples
      | _ =>
        match NetworkTuple.parse rest with
        | none => none
        | some (first, rest) =>
          if !first.extended then none
          else (many NetworkTuple.parse rest).map fun tuples =>
            .data sender (some first.range) tuples
  | _ => none

def parse (ddpType : UInt8) (p : Bytes) : Option Rtmp :=
  if ddpType = DDP_RTMP_DATA then parseData p
  else if ddpType = DDP_RTMP_REQ then
    match p with
    | [1] => some .request
    | [2] => some (.rdr true)
    | [3] => some (.rdr false)
    | _ => none
  else none

/-- The DDP type a packet travels as. -/
def ddpType : Rtmp → UInt8
  | .data .. => DDP_RTMP_DATA
  | .request | .rdr _ => DDP_RTMP_REQ

def toBytes : Rtmp → Bytes
  | .data sender range tuples =>
    ofWord sender.net ++ [8, sender.node] ++
      (match range with
        | some (start, «end») =>
          NetworkTuple.encodeWith { range := (start, «end»), extended := true, distance := 0 }
            RTMP_TRAILER
        | none => [0x00, 0x00, RTMP_TRAILER]) ++
      tuples.flatMap (NetworkTuple.encodeWith · RTMP_TRAILER)
  | .request => [1]
  | .rdr splitHorizon => [if splitHorizon then 2 else 3]

/-- Every tuple of RTMP Data off the wire has a distance of at most 127. -/
theorem distance_le_of_parse {ty : UInt8} {p : Bytes} {sender : Addr}
    {range : Option (UInt16 × UInt16)} {tuples : List NetworkTuple}
    (h : parse ty p = some (.data sender range tuples)) :
    ∀ t ∈ tuples, t.distance ≤ 127 := by
  have hmany : ∀ {rest : Bytes} {ts : List NetworkTuple},
      many NetworkTuple.parse rest = some ts → ∀ t ∈ ts, t.distance ≤ 127 := fun h =>
    forall_mem_of_many (fun bs a rest ha => (NetworkTuple.parse_wire ha).1) h
  unfold parse at h
  split_ifs at h
  · unfold parseData at h
    split at h
    · split_ifs at h
      dsimp only at h
      split at h
      · obtain ⟨ts, hts, he⟩ := Option.map_eq_some_iff.1 h
        cases he
        exact hmany hts
      · split at h
        · cases h
        · split_ifs at h
          obtain ⟨ts, hts, he⟩ := Option.map_eq_some_iff.1 h
          cases he
          exact hmany hts
    · cases h
  · split at h <;> cases h

/-- **RTMP Data reads back** with its tuples. -/
theorem parse_data (sender : Addr) (range : Option (UInt16 × UInt16))
    {tuples : List NetworkTuple} (h : ∀ t ∈ tuples, t.distance ≤ 127) :
    parse DDP_RTMP_DATA (data sender range tuples).toBytes =
      some (data sender range (tuples.map NetworkTuple.onWire)) := by
  have hm : many NetworkTuple.parse (tuples.flatMap (NetworkTuple.encodeWith · RTMP_TRAILER)) =
      some (tuples.map NetworkTuple.onWire) :=
    many_flatMap NetworkTuple.consumes_parse fun t ht rest =>
      NetworkTuple.parse_encodeWith t RTMP_TRAILER (h t ht) rest
  unfold parse
  rw [if_pos rfl]
  cases range with
  | none =>
    simp only [toBytes, ofWord, RTMP_TRAILER, List.cons_append, List.nil_append, parseData, ne_eq,
      not_true_eq_false, if_false, be16_hi8_lo8]
    simp only [RTMP_TRAILER] at hm
    rw [hm]
    rfl
  | some range =>
    have hfirst := NetworkTuple.parse_encodeWith ⟨range, true, 0⟩ RTMP_TRAILER
      (by decide : (0 : UInt8) ≤ 127)
      (tuples.flatMap (NetworkTuple.encodeWith · RTMP_TRAILER))
    simp only [toBytes, ofWord, List.cons_append, List.nil_append, parseData, ne_eq,
      not_true_eq_false, if_false, be16_hi8_lo8]
    split
    · rename_i heq
      simp [NetworkTuple.encodeWith, ofWord] at heq
    · rw [hfirst]
      dsimp only
      rw [hm]
      simp [NetworkTuple.onWire]

end Rtmp

/-! ### NBP -/

inductive NbpFunc
  | brRq
  | lkUp
  | lkUpReply
  | fwdReq
  deriving DecidableEq, Repr

/-- One name-to-address binding. -/
structure NbpTuple where
  addr : Addr
  socket : UInt8
  enumerator : UInt8
  object : Str
  typ : Str
  zone : Str
  deriving DecidableEq, Repr

namespace NbpTuple

def parse : Bytes → Option (NbpTuple × Bytes)
  | h0 :: h1 :: h2 :: h3 :: h4 :: rest => do
    let (object, rest) ← pstring rest
    let (typ, rest) ← pstring rest
    let (zone, rest) ← pstring rest
    return ({ addr := { net := be16 h0 h1, node := h2 }, socket := h3, enumerator := h4
              object := object, typ := typ, zone := zone }, rest)
  | _ => none

def toBytes (t : NbpTuple) : Bytes :=
  ofWord t.addr.net ++ [t.addr.node, t.socket, t.enumerator] ++ putPstring t.object ++
    putPstring t.typ ++ putPstring t.zone

end NbpTuple

/-- An NBP packet: a function, a transaction id, and tuples. -/
structure Nbp where
  func : NbpFunc
  id : UInt8
  tuples : List NbpTuple
  deriving DecidableEq, Repr

namespace Nbp

/-- The function code in the high nibble. -/
def funcOf (b : UInt8) : Option NbpFunc :=
  match (b >>> 4).toNat with
  | 1 => some .brRq
  | 2 => some .lkUp
  | 3 => some .lkUpReply
  | 4 => some .fwdReq
  | _ => none

def funcCode : NbpFunc → UInt8
  | .brRq => 1
  | .lkUp => 2
  | .lkUpReply => 3
  | .fwdReq => 4

def parse : Bytes → Option Nbp
  | b0 :: id :: rest => do
    let func ← funcOf b0
    let (tuples, _) ← times NbpTuple.parse (b0 &&& 0x0f).toNat rest
    return { func := func, id := id, tuples := tuples }
  | _ => none

def toBytes (n : Nbp) : Bytes :=
  ((funcCode n.func <<< 4) ||| UInt8.ofNat (min n.tuples.length 15)) :: n.id ::
    n.tuples.flatMap NbpTuple.toBytes

end Nbp

/-! ### ZIP -/

inductive Zip
  | query (nets : List UInt16)
  /-- `total` is the whole list's size when the reply is extended. -/
  | reply (zones : List (UInt16 × Str)) (total : Option UInt8)
  | getNetInfo (zone : Str)
  | netInfoReply (flags : UInt8) (range : UInt16 × UInt16) (zone : Str)
      (multicast : Option MacAddr) (defaultZone : Option Str)
  | notify
  deriving DecidableEq, Repr

/-- A network number, the zone name after it, and the rest. -/
def zonePair : Bytes → Option ((UInt16 × Str) × Bytes)
  | n0 :: n1 :: rest => (pstring rest).map fun r => ((be16 n0 n1, r.1), r.2)
  | _ => none

/-- A 16-bit word and the rest. -/
def word : Bytes → Option (UInt16 × Bytes)
  | n0 :: n1 :: rest => some (be16 n0 n1, rest)
  | _ => none

namespace Zip

/-- The body of a NetInfoReply, after its command byte. -/
def parseNetInfoReply : Bytes → Option Zip
  | flags :: s0 :: s1 :: e0 :: e1 :: rest => do
    let (zone, rest) ← pstring rest
    let mclen ← rest.head?
    let rest := rest.tail
    if rest.length < mclen.toNat then none
    let multicast ← if mclen = 0 then some none else (mac (rest.take mclen.toNat)).map some
    let rest := rest.drop mclen.toNat
    return .netInfoReply flags (be16 s0 s1, be16 e0 e1) zone multicast
      (if flags &&& 0x80 ≠ 0 then (pstring rest).map Prod.fst else none)
  | _ => none

def parse : Bytes → Option Zip
  | [] => none
  | cmd :: p =>
    match cmd.toNat, p with
    | 1, count :: rest => (times word count.toNat rest).map fun r => .query r.1
    | 2, count :: rest => (times zonePair count.toNat rest).map fun r => .reply r.1 none
    | 8, count :: rest => (many zonePair rest).map fun zones => .reply zones (some count)
    | 5, p => if p.length < 5 then none else (pstring (p.drop 5)).map fun r => .getNetInfo r.1
    | 6, p => parseNetInfoReply p
    | 7, _ => some .notify
    | _, _ => none

def toBytes : Zip → Bytes
  | .query nets => 1 :: UInt8.ofNat (min nets.length 255) :: nets.flatMap ofWord
  | .reply zones total =>
    (if total.isSome then 8 else 2) :: total.getD (UInt8.ofNat (min zones.length 255)) ::
      zones.flatMap fun z => ofWord z.1 ++ putPstring z.2
  | .getNetInfo zone => [5, 0, 0, 0, 0, 0] ++ putPstring zone
  | .netInfoReply flags range zone multicast defaultZone =>
    [6, flags] ++ ofWord range.1 ++ ofWord range.2 ++ putPstring zone ++
      (match multicast with
        | some m => 6 :: macBytes m
        | none => [0]) ++
      (match defaultZone with
        | some z => putPstring z
        | none => [])
  | .notify => [7]

end Zip

/-- `u8::to_ascii_uppercase`. -/
def asciiUpper (b : UInt8) : UInt8 := if 97 ≤ b ∧ b ≤ 122 then b - 32 else b

/-- The zone multicast address: the checksum of the upper-cased name, modulo the 253 addresses
Ethernet offers. -/
def zoneMulticast (zone : Str) : MacAddr :=
  let raw := zone.map fun c => asciiUpper (byteOfChar c)
  ⟨0x09, 0x00, 0x07, 0x00, 0x00, (checksum raw % 253).toUInt8⟩

/-! ### ATP and ZIP's calls over it -/

inductive Func
  | req
  | resp
  | rel
  deriving DecidableEq, Repr

/-- The five legal ATP release-timer values. -/
inductive TrelTimeout
  | s30
  | m1
  | m2
  | m4
  | m8
  deriving DecidableEq, Repr

def TrelTimeout.bits : TrelTimeout → UInt8
  | .s30 => 0
  | .m1 => 1
  | .m2 => 2
  | .m4 => 3
  | .m8 => 4

/-- The four user bytes of an ATP header. -/
structure UserBytes where
  u0 : UInt8
  u1 : UInt8
  u2 : UInt8
  u3 : UInt8
  deriving DecidableEq, Repr

/-- An ATP packet: an 8-byte header over DDP. -/
structure Atp where
  func : Func
  control : UInt8
  bitmap : UInt8
  tid : UInt16
  userBytes : UserBytes
  data : Bytes
  deriving DecidableEq, Repr

namespace Atp

/-- The function code in the top two bits of the control byte. -/
def funcOf (control : UInt8) : Option Func :=
  match (control &&& 0xc0).toNat with
  | 0x40 => some .req
  | 0x80 => some .resp
  | 0xc0 => some .rel
  | _ => none

theorem funcOf_request : funcOf 0x40 = some .req := by decide

theorem funcOf_response : funcOf 0x90 = some .resp := by decide

def parse : Bytes → Option Atp
  | h0 :: h1 :: h2 :: h3 :: h4 :: h5 :: h6 :: h7 :: data => do
    let func ← funcOf h0
    return { func := func, control := h0, bitmap := h1, tid := be16 h2 h3
             userBytes := ⟨h4, h5, h6, h7⟩, data := data }
  | _ => none

/-- A request; `xo` carries the release timer. -/
def request (tid : UInt16) (bitmap : UInt8) (xo : Option TrelTimeout) (userBytes : UserBytes)
    (data : Bytes) : Atp :=
  { func := .req
    control :=
      match xo with
      | some t => 0x40 ||| (0x20 ||| t.bits)
      | none => 0x40
    bitmap := bitmap, tid := tid, userBytes := userBytes, data := data }

def response (tid : UInt16) (seq : UInt8) (eom sts : Bool) (userBytes : UserBytes)
    (data : Bytes) : Atp :=
  let control : UInt8 := 0x80
  let control := if eom then control ||| 0x10 else control
  let control := if sts then control ||| 0x08 else control
  { func := .resp, control := control, bitmap := seq, tid := tid, userBytes := userBytes
    data := data }

def toBytes (a : Atp) : Bytes :=
  a.control :: a.bitmap :: (ofWord a.tid ++
    [a.userBytes.u0, a.userBytes.u1, a.userBytes.u2, a.userBytes.u3] ++ a.data)

/-- **An ATP packet reads back** when its control byte has its function. -/
theorem parse_toBytes {a : Atp} (h : funcOf a.control = some a.func) :
    parse a.toBytes = some a := by
  simp [parse, toBytes, ofWord, h]

end Atp

inductive ZipAtp
  | getMyZone
  | getZoneList (start : UInt16)
  | getLocalZones (start : UInt16)
  | reply (last : Bool) (zones : List Str)
  deriving DecidableEq, Repr

namespace ZipAtp

/-- The call a request's user bytes name. -/
def parseRequest (u : UserBytes) : Option ZipAtp :=
  let start := be16 u.u2 u.u3
  match u.u0.toNat with
  | 7 => some .getMyZone
  | 8 => some (.getZoneList start)
  | 9 => some (.getLocalZones start)
  | _ => none

/-- The user bytes and the data of a reply. -/
def replyParts (last : Bool) (zones : List Str) : UserBytes × Bytes :=
  let n := UInt16.ofNat zones.length
  (⟨if last then 1 else 0, 0, hi8 n, lo8 n⟩, zones.flatMap putPstring)

/-- The last-packet flag and as many names as the user bytes count. -/
def parseReply (u : UserBytes) (data : Bytes) : Option ZipAtp :=
  (times pstring (be16 u.u2 u.u3).toNat data).map fun r => .reply (u.u0 ≠ 0) r.1

end ZipAtp

/-! ### AEP -/

inductive Echo
  | request
  | reply
  deriving DecidableEq, Repr

/-- An echo packet: a function code, then the data to send back. -/
structure Aep where
  func : Echo
  data : Bytes
  deriving DecidableEq, Repr

namespace Aep

def parse : Bytes → Option Aep
  | [] => none
  | b :: data =>
    match b.toNat with
    | 1 => some { func := .request, data := data }
    | 2 => some { func := .reply, data := data }
    | _ => none

def toBytes (a : Aep) : Bytes :=
  (match a.func with
    | .request => 1
    | .reply => 2) :: a.data

end Aep

/-! ### The protocol inside a datagram -/

inductive DdpBody
  | atp (a : Atp)
  | rtmp (r : Rtmp)
  | aep (a : Aep)
  | nbp (n : Nbp)
  | zip (z : Zip)
  | unknown
  deriving DecidableEq, Repr

/-- The protocol inside a datagram, by its DDP type. -/
def decodeDdpBody (d : Ddp) : DdpBody :=
  if d.typ = DDP_RTMP_DATA ∨ d.typ = DDP_RTMP_REQ then
    ((Rtmp.parse d.typ d.data).map DdpBody.rtmp).getD .unknown
  else if d.typ = DDP_NBP then ((Nbp.parse d.data).map DdpBody.nbp).getD .unknown
  else if d.typ = DDP_ATP then ((Atp.parse d.data).map DdpBody.atp).getD .unknown
  else if d.typ = DDP_AEP then ((Aep.parse d.data).map DdpBody.aep).getD .unknown
  else if d.typ = DDP_ZIP then ((Zip.parse d.data).map DdpBody.zip).getD .unknown
  else .unknown

end AppleTalk
