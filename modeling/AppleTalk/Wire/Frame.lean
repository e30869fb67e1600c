import AppleTalk.Wire.Services

/-!
# Ethernet frames

The link layer of EtherTalk (`wire/mod.rs`), the address resolution protocol that runs beside
DDP on it (`wire/aarp.rs`), and the decode tree of one captured frame.
-/

namespace AppleTalk

open Octets

/-- The EtherType of the AppleTalk Datagram Delivery Protocol. -/
def DDP : UInt16 := 0x809b

/-- The EtherType of the AppleTalk Address Resolution Protocol. -/
def AARP : UInt16 := 0x80f3

/-- The SNAP discriminators of the two. -/
def SNAP_DDP : Bytes := [0x08, 0x00, 0x07, 0x80, 0x9b]

def SNAP_AARP : Bytes := [0x00, 0x00, 0x00, 0x80, 0xf3]

/-! ### AARP -/

/-- An AARP packet: ARP's layout with AppleTalk addresses. -/
structure Aarp where
  op : UInt16
  srcHw : MacAddr
  src : Addr
  dstHw : MacAddr
  dst : Addr
  deriving DecidableEq, Repr

namespace Aarp

/-- Hardware type Ethernet, protocol AppleTalk, and their address lengths. -/
def HEAD : Bytes := [0x00, 0x01, 0x80, 0x9b, 6, 4]

/-- A protocol address is a zero pad byte, a 16-bit net, then the node. -/
def addr : Bytes → Option Addr
  | [_, n0, n1, node] => some { net := be16 n0 n1, node := node }
  | _ => none

def parse (p : Bytes) : Option Aarp := do
  if p.length < 28 ∨ p.take 6 ≠ HEAD then none
  let (op, _) ← word (p.drop 6)
  return { op := op
           srcHw := ← mac ((p.drop 8).take 6)
           src := ← addr ((p.drop 14).take 4)
           dstHw := ← mac ((p.drop 18).take 6)
           dst := ← addr ((p.drop 24).take 4) }

def toBytes (a : Aarp) : Bytes :=
  HEAD ++ ofWord a.op ++ macBytes a.srcHw ++ 0 :: (ofWord a.src.net ++ [a.src.node]) ++
    macBytes a.dstHw ++ 0 :: (ofWord a.dst.net ++ [a.dst.node])

/-- An AARP packet reads back. -/
theorem parse_toBytes (a : Aarp) : parse a.toBytes = some a := by
  simp [parse, toBytes, HEAD, ofWord, macBytes, word, mac, addr]

end Aarp

/-! ### Frames -/

/-- An Ethernet frame carrying AppleTalk. `snap` tells Phase 2, whose `proto` is the SNAP
protocol, from Phase 1. -/
structure Frame where
  dst : MacAddr
  src : MacAddr
  proto : UInt16
  snap : Bool
  payload : Bytes
  deriving DecidableEq, Repr

namespace Frame

/-- Phase 2 is 802.3, LLC and SNAP, its type field a length that trims the padding off. -/
def parse (b : Bytes) : Option Frame := do
  let dst ← mac (b.take 6)
  let src ← mac ((b.drop 6).take 6)
  let (typelen, body) ← word (b.drop 12)
  if 1500 < typelen then
    return { dst := dst, src := src, proto := typelen, snap := false, payload := body }
  else if body.length < typelen.toNat then none
  else
    match body.take typelen.toNat with
    | 0xaa :: 0xaa :: 0x03 :: rest =>
      if rest.take 5 = SNAP_DDP then
        some { dst := dst, src := src, proto := DDP, snap := true, payload := rest.drop 5 }
      else if rest.take 5 = SNAP_AARP then
        some { dst := dst, src := src, proto := AARP, snap := true, payload := rest.drop 5 }
      else none
    | _ => none

/-- The bytes of a frame, padded to Ethernet's minimum. -/
def toBytes (f : Frame) : Bytes :=
  let head :=
    if f.snap then
      ofWord (UInt16.ofNat (8 + f.payload.length)) ++ [0xaa, 0xaa, 0x03] ++
        (if f.proto = AARP then SNAP_AARP else SNAP_DDP)
    else ofWord f.proto
  let out := macBytes f.dst ++ macBytes f.src ++ head ++ f.payload
  out ++ List.replicate (60 - out.length) 0

/-- **A Phase 2 frame reads back**, whatever padding it went out with. -/
theorem parse_toBytes {f : Frame} (hs : f.snap = true) (hp : f.proto = DDP ∨ f.proto = AARP)
    (hlen : f.payload.length ≤ 1492) : parse f.toBytes = some f := by
  obtain ⟨dst, src, proto, snap, payload⟩ := f
  obtain rfl : snap = true := hs
  have hword : (UInt16.ofNat (8 + payload.length)).toNat = 8 + payload.length := by
    rw [UInt16.toNat_ofNat']
    exact Nat.mod_eq_of_lt (by dsimp only at hlen; omega)
  have hsmall : ¬1500 < UInt16.ofNat (8 + payload.length) := by
    rw [UInt16.lt_iff_toNat_lt, hword]
    dsimp only at hlen
    simp
    omega
  have hne : DDP ≠ AARP := by decide
  rcases hp with rfl | rfl
  all_goals
    simp only [toBytes, macBytes, ofWord, parse, List.cons_append, List.nil_append, List.take,
      List.drop, mac, word, be16_hi8_lo8, Option.bind_eq_bind, Option.bind_some, if_neg hsmall,
      hword, if_true, if_neg hne, SNAP_AARP, SNAP_DDP]
    rw [if_neg (by simp; omega)]
    simp [DDP, AARP, Nat.add_comm 8]

end Frame

/-! ### The decode tree -/

inductive Body
  | aarp (a : Aarp)
  | ddp (d : Ddp) (body : DdpBody)
  | unknown
  deriving DecidableEq, Repr

/-- One captured frame, decoded as far down the stack as its bytes could be followed. -/
structure Packet where
  frame : Frame
  body : Body
  deriving DecidableEq, Repr

/-- What a frame's payload decodes to; `none` for another protocol family. -/
def decodeBody (frame : Frame) : Option Body :=
  if frame.proto = AARP then some (((Aarp.parse frame.payload).map Body.aarp).getD .unknown)
  else if frame.proto = DDP then
    match Ddp.parse frame.payload with
    | some d => some (.ddp d (decodeDdpBody d))
    | none => some .unknown
  else none

/-- Decode one Ethernet frame. -/
def decode (bytes : Bytes) : Option Packet := do
  let frame ← Frame.parse bytes
  return { frame := frame, body := ← decodeBody frame }

/-- The packets a capture can deliver: the body beside a frame is what the frame decodes to. -/
def Packet.Decoded (p : Packet) : Prop := decodeBody p.frame = some p.body

theorem Packet.decoded_of_decode {bytes : Bytes} {p : Packet} (h : decode bytes = some p) :
    p.Decoded := by
  simp only [decode, Option.bind_eq_bind, Option.bind_eq_some_iff] at h
  obtain ⟨frame, -, body, hbody, h⟩ := h
  cases h
  exact hbody

/-- In a decoded packet the protocol beside a datagram is the datagram's own. -/
theorem Packet.Decoded.ddp {p : Packet} (h : p.Decoded) {d : Ddp} {body : DdpBody}
    (hb : p.body = .ddp d body) : Ddp.parse p.frame.payload = some d ∧ body = decodeDdpBody d := by
  unfold Packet.Decoded decodeBody at h
  rw [hb] at h
  split_ifs at h
  · cases hp : Aarp.parse p.frame.payload <;> simp [hp] at h
  · cases hp : Ddp.parse p.frame.payload with
    | none => simp [hp] at h
    | some d' =>
      simp only [hp, Option.some.injEq, Body.ddp.injEq] at h
      obtain ⟨rfl, rfl⟩ := h
      exact ⟨rfl, rfl⟩

end AppleTalk
