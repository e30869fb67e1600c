import AppleTalk.Wire.Frame
import AppleTalk.Wire.RoundTrip

/-!
# The EtherTalk codec reads back what it writes

From the inside out: the five protocols a datagram carries, the datagram, and the frame around it,
whose padding the length field keeps apart from the payload.
-/

namespace AppleTalk

open Octets

/-! ### The limits of the wire -/

def NbpTuple.WireOk (t : NbpTuple) : Prop := NameOk t.object ∧ NameOk t.typ ∧ NameOk t.zone

/-- Tuples that a count of four bits counts. -/
def Nbp.WireOk (n : Nbp) : Prop := n.tuples.length ≤ 15 ∧ ∀ t ∈ n.tuples, t.WireOk

def Rtmp.WireOk : Rtmp → Prop
  | .data _ _ tuples => ∀ t ∈ tuples, t.WireOk
  | .request | .rdr _ => True

/-- Entries that an octet counts; a default zone only behind its flag. -/
def Zip.WireOk : Zip → Prop
  | .query nets => nets.length ≤ 255
  | .reply zones _ => zones.length ≤ 255 ∧ ∀ z ∈ zones, NameOk z.2
  | .getNetInfo zone => NameOk zone
  | .netInfoReply flags _ zone _ defaultZone =>
    NameOk zone ∧ ∀ z, defaultZone = some z → flags &&& 0x80 ≠ 0 ∧ NameOk z
  | .notify => True

/-- Four bits of hops, and ten bits of an honest length. -/
def Ddp.WireOk (d : Ddp) : Prop :=
  d.hops ≤ 15 ∧ d.length.toNat = 13 + d.data.length ∧ d.length.toNat ≤ 1023

/-- The data of a datagram is the encoding of a packet of the protocol its type names. -/
def Ddp.Carries (d : Ddp) : DdpBody → Prop
  | .atp a => d.typ = DDP_ATP ∧ d.data = a.toBytes ∧ Atp.funcOf a.control = some a.func
  | .rtmp r => d.typ = r.ddpType ∧ d.data = r.toBytes ∧ r.WireOk
  | .aep a => d.typ = DDP_AEP ∧ d.data = a.toBytes
  | .nbp n => d.typ = DDP_NBP ∧ d.data = n.toBytes ∧ n.WireOk
  | .zip z => d.typ = DDP_ZIP ∧ d.data = z.toBytes ∧ z.WireOk
  | .unknown => False

/-- The payload of a frame is the encoding of a packet of the protocol the frame names. -/
def Frame.Carries (f : Frame) : Body → Prop
  | .aarp a => f.proto = AARP ∧ f.payload = a.toBytes
  | .ddp d body => f.proto = DDP ∧ f.payload = d.toBytes ∧ d.WireOk ∧ d.Carries body
  | .unknown => False

/-! ### RTMP and AEP -/

namespace Rtmp

/-- **RTMP packets read back**, each under the type it travels as. -/
theorem parse_toBytes {r : Rtmp} (h : r.WireOk) : parse r.ddpType r.toBytes = some r := by
  cases r with
  | data sender range tuples =>
    show parse DDP_RTMP_DATA _ = _
    rw [parse_data sender range fun t ht => (h t ht).1, map_onWire h]
  | request => rfl
  | rdr splitHorizon => cases splitHorizon <;> rfl

theorem ddpType_eq (r : Rtmp) : r.ddpType = DDP_RTMP_DATA ∨ r.ddpType = DDP_RTMP_REQ := by
  cases r with
  | data sender range tuples => exact .inl rfl
  | request => exact .inr rfl
  | rdr splitHorizon => exact .inr rfl

end Rtmp

theorem Aep.parse_toBytes (a : Aep) : Aep.parse a.toBytes = some a := by
  obtain ⟨func, data⟩ := a
  cases func <;> rfl

/-! ### NBP -/

theorem NbpTuple.parse_toBytes {t : NbpTuple} (h : t.WireOk) (rest : Bytes) :
    NbpTuple.parse (t.toBytes ++ rest) = some (t, rest) := by
  obtain ⟨hobject, htyp, hzone⟩ := h
  simp only [NbpTuple.toBytes, ofWord, List.append_assoc, List.cons_append, List.nil_append,
    NbpTuple.parse, pstring_putPstring hobject, pstring_putPstring htyp, pstring_putPstring hzone,
    Option.bind_eq_bind, Option.bind_some, be16_hi8_lo8]
  rfl

namespace Nbp

/-- The function and the count share an octet. -/
theorem head_bits (func : NbpFunc) {n : ℕ} (h : n ≤ 15) :
    funcOf ((funcCode func <<< 4) ||| UInt8.ofNat n) = some func ∧
      (((funcCode func <<< 4) ||| UInt8.ofNat n) &&& 0x0f).toNat = n := by
  have key : ∀ n : Fin 16, funcOf ((funcCode func <<< 4) ||| UInt8.ofNat n.val) = some func ∧
      (((funcCode func <<< 4) ||| UInt8.ofNat n.val) &&& 0x0f).toNat = n.val := by
    cases func <;> decide
  exact key ⟨n, by omega⟩

/-- **An NBP packet reads back** with its tuples. -/
theorem parse_toBytes {n : Nbp} (h : n.WireOk) : parse n.toBytes = some n := by
  obtain ⟨hlen, htuples⟩ := h
  obtain ⟨hfunc, hcount⟩ := head_bits n.func hlen
  have htuple : ∀ t ∈ n.tuples, ∀ rest, NbpTuple.parse (t.toBytes ++ rest) = some (t, rest) :=
    fun t ht rest => NbpTuple.parse_toBytes (htuples t ht) rest
  have htimes := times_flatMap htuple []
  rw [List.append_nil, List.map_id'] at htimes
  simp only [toBytes, Nat.min_eq_left hlen, parse, hfunc, hcount, htimes, Option.bind_eq_bind,
    Option.bind_some]
  rfl

end Nbp

/-! ### ZIP -/

theorem consumes_zonePair : Consumes zonePair := by
  intro bs z rest h
  unfold zonePair at h
  split at h
  · obtain ⟨r, hr, he⟩ := Option.map_eq_some_iff.1 h
    obtain ⟨-, rfl⟩ := Prod.mk.inj he
    have := consumes_pstring _ _ _ hr
    simp only [List.length_cons]
    omega
  · cases h

theorem zonePair_written {z : UInt16 × Str} (h : NameOk z.2) (rest : Bytes) :
    zonePair (ofWord z.1 ++ putPstring z.2 ++ rest) = some (z, rest) := by
  rw [List.append_assoc]
  simp [ofWord, zonePair, pstring_putPstring h]

namespace Zip

/-- A count of at most 255 survives its octet. -/
theorem count_toNat {n : ℕ} (h : n ≤ 255) : (UInt8.ofNat (min n 255)).toNat = n := by
  rw [UInt8.toNat_ofNat', Nat.min_eq_left h]
  omega

theorem parse_query {nets : List UInt16} (h : nets.length ≤ 255) :
    parse (toBytes (.query nets)) = some (.query nets) := by
  have htimes := times_flatMap (f := id) (l := nets) (fun n _ rest => word_ofWord n rest) []
  rw [List.append_nil, List.map_id] at htimes
  simp [toBytes, parse, count_toNat h, htimes]

/-- A Reply reads back, a plain one when one octet counts its zones. -/
theorem parse_reply {zones : List (UInt16 × Str)} {total : Option UInt8}
    (hz : ∀ z ∈ zones, NameOk z.2) (hlen : total = none → zones.length ≤ 255) :
    parse (toBytes (.reply zones total)) = some (.reply zones total) := by
  have hpair : ∀ z ∈ zones, ∀ rest,
      zonePair (ofWord z.1 ++ putPstring z.2 ++ rest) = some (z, rest) :=
    fun z hmem rest => zonePair_written (hz z hmem) rest
  cases total with
  | none =>
    have htimes := times_flatMap hpair []
    rw [List.append_nil, List.map_id'] at htimes
    simp [toBytes, parse, count_toNat (hlen rfl), htimes]
  | some total =>
    have hmany := many_flatMap consumes_zonePair hpair
    rw [List.map_id'] at hmany
    simp [toBytes, parse, hmany]

theorem parse_getNetInfo {zone : Str} (h : NameOk zone) :
    parse (toBytes (.getNetInfo zone)) = some (.getNetInfo zone) := by
  have hp := pstring_putPstring h []
  rw [List.append_nil] at hp
  simp [toBytes, parse, hp]

/-- A multicast address of six octets, or of none. -/
def multicastBytes : Option MacAddr → Bytes
  | some m => 6 :: macBytes m
  | none => [0]

def defaultBytes : Option Str → Bytes
  | some z => putPstring z
  | none => []

theorem toBytes_netInfoReply (flags : UInt8) (range : UInt16 × UInt16) (zone : Str)
    (multicast : Option MacAddr) (defaultZone : Option Str) :
    toBytes (.netInfoReply flags range zone multicast defaultZone) =
      6 :: flags :: (ofWord range.1 ++ (ofWord range.2 ++
        (putPstring zone ++ (multicastBytes multicast ++ defaultBytes defaultZone)))) := by
  cases multicast <;> cases defaultZone <;> simp [toBytes, multicastBytes, defaultBytes]

/-- What is left after the addresses is the default zone, where the flag asks for one. -/
theorem pstring_default {flags : UInt8} {defaultZone : Option Str}
    (h : ∀ z, defaultZone = some z → flags &&& 0x80 ≠ 0 ∧ NameOk z) :
    (if flags &&& 0x80 ≠ 0 then (pstring (defaultBytes defaultZone)).map Prod.fst else none) =
      defaultZone := by
  cases defaultZone with
  | none => split_ifs <;> rfl
  | some z =>
    obtain ⟨hflag, hz⟩ := h z rfl
    have hp := pstring_putPstring hz []
    rw [List.append_nil] at hp
    rw [if_pos hflag, defaultBytes, hp]
    rfl

theorem parse_netInfoReply {flags : UInt8} (range : UInt16 × UInt16) {zone : Str}
    (multicast : Option MacAddr) {defaultZone : Option Str} (hz : NameOk zone)
    (hd : ∀ z, defaultZone = some z → flags &&& 0x80 ≠ 0 ∧ NameOk z) :
    parse (toBytes (.netInfoReply flags range zone multicast defaultZone)) =
      some (.netInfoReply flags range zone multicast defaultZone) := by
  have hdefault := pstring_default hd
  simp only [ne_eq, ite_not] at hdefault
  rw [toBytes_netInfoReply]
  simp only [parse, show (6 : UInt8).toNat = 6 from rfl, ofWord, List.cons_append,
    List.nil_append, parseNetInfoReply, pstring_putPstring hz, be16_hi8_lo8]
  cases multicast with
  | none => simp [multicastBytes, hdefault]
  | some m => simp [multicastBytes, macBytes, mac, hdefault]

/-- **ZIP packets read back.** -/
theorem parse_toBytes {z : Zip} (h : z.WireOk) : parse z.toBytes = some z := by
  cases z with
  | query nets => exact parse_query h
  | reply zones total => exact parse_reply h.2 fun _ => h.1
  | getNetInfo zone => exact parse_getNetInfo h
  | netInfoReply flags range zone multicast defaultZone =>
    exact parse_netInfoReply range multicast h.1 h.2
  | notify => rfl

end Zip

/-! ### Datagrams and frames -/

/-- What a datagram carries, it decodes to. -/
theorem decodeDdpBody_eq {d : Ddp} {body : DdpBody} (h : d.Carries body) :
    decodeDdpBody d = body := by
  unfold decodeDdpBody
  cases body with
  | atp a =>
    obtain ⟨htyp, hdata, hfunc⟩ := h
    rw [htyp, hdata, Atp.parse_toBytes hfunc]
    rfl
  | rtmp r =>
    obtain ⟨htyp, hdata, hr⟩ := h
    rw [htyp, hdata, if_pos r.ddpType_eq, Rtmp.parse_toBytes hr]
    rfl
  | aep a =>
    obtain ⟨htyp, hdata⟩ := h
    rw [htyp, hdata, Aep.parse_toBytes]
    rfl
  | nbp n =>
    obtain ⟨htyp, hdata, hn⟩ := h
    rw [htyp, hdata, Nbp.parse_toBytes hn]
    rfl
  | zip z =>
    obtain ⟨htyp, hdata, hz⟩ := h
    rw [htyp, hdata, Zip.parse_toBytes hz]
    rfl
  | unknown => exact h.elim

/-- A datagram whose length is honest and fits reads back as it is. -/
theorem Ddp.parse_toBytes_ok {d : Ddp} (h : d.WireOk) : Ddp.parse d.toBytes = some d := by
  obtain ⟨hhops, hlen, hle⟩ := h
  have hlength : UInt16.ofNat ((13 + d.data.length) % 1024) = d.length := by
    rw [← hlen, Nat.mod_eq_of_lt (by omega), UInt16.ofNat_toNat]
  rw [parse_toBytes_eq]
  congr 1
  obtain ⟨hops, length, checksum, dst, dstSocket, src, srcSocket, typ, data⟩ := d
  simp only [written, Ddp.mk.injEq, and_true]
  exact ⟨hops_field _ _ hhops, hlength⟩

theorem Frame.Carries.decodeBody {f : Frame} {body : Body} (h : f.Carries body) :
    decodeBody f = some body := by
  unfold AppleTalk.decodeBody
  cases body with
  | aarp a =>
    obtain ⟨hproto, hpayload⟩ := h
    rw [hproto, hpayload, Aarp.parse_toBytes]
    rfl
  | ddp d inner =>
    obtain ⟨hproto, hpayload, hd, hinner⟩ := h
    rw [hproto, hpayload, Ddp.parse_toBytes_ok hd]
    dsimp only
    rw [decodeDdpBody_eq hinner]
    rfl
  | unknown => exact h.elim

theorem Frame.Carries.proto {f : Frame} {body : Body} (h : f.Carries body) :
    f.proto = DDP ∨ f.proto = AARP := by
  cases body with
  | aarp a => exact .inr h.1
  | ddp d inner => exact .inl h.1
  | unknown => exact h.elim

/-- Padding brings every frame to Ethernet's minimum. -/
theorem Frame.sixty_le_length_toBytes (f : Frame) : 60 ≤ f.toBytes.length := by
  unfold Frame.toBytes
  dsimp only
  rw [List.length_append, List.length_replicate]
  omega

/-- **The stack reads back what it writes.** A SNAP frame that fits Ethernet decodes to itself and
to what it carries, and is never below the minimum. -/
theorem decode_toBytes {frame : Frame} {body : Body} (hs : frame.snap = true)
    (hlen : frame.payload.length + 8 ≤ 1500) (hc : frame.Carries body) :
    decode frame.toBytes = some { frame := frame, body := body } ∧
      60 ≤ frame.toBytes.length := by
  refine ⟨?_, frame.sixty_le_length_toBytes⟩
  rw [decode, Frame.parse_toBytes hs hc.proto (by omega)]
  simp [hc.decodeBody]

/-- A lookup of every printer of a zone, in a datagram. -/
def lookUp : Nbp :=
  { func := .lkUp, id := 7
    tuples := [⟨⟨1, 2⟩, 2, 0, ['='], ['L', 'a', 's', 'e', 'r'], ['Å']⟩] }

def lookUpDatagram : Ddp :=
  { hops := 3, length := 13 + 17, checksum := 0, dst := ⟨1, 255⟩, dstSocket := 2, src := ⟨1, 2⟩
    srcSocket := 253, typ := DDP_NBP, data := lookUp.toBytes }

def lookUpFrame : Frame :=
  { dst := ⟨0x09, 0, 7, 0xff, 0xff, 0xff⟩, src := ⟨8, 0, 7, 1, 2, 3⟩, proto := DDP, snap := true
    payload := lookUpDatagram.toBytes }

theorem decode_toBytes_lookUp :
    decode lookUpFrame.toBytes =
        some { frame := lookUpFrame, body := .ddp lookUpDatagram (.nbp lookUp) } ∧
      60 ≤ lookUpFrame.toBytes.length :=
  have hnames : lookUp.WireOk := by
    refine ⟨by decide, fun t ht => ?_⟩
    obtain rfl := List.mem_singleton.1 ht
    exact ⟨by decide, by decide, by decide⟩
  decode_toBytes rfl (by decide) ⟨rfl, rfl, ⟨by decide, by decide, by decide⟩, rfl, rfl, hnames⟩

end AppleTalk
