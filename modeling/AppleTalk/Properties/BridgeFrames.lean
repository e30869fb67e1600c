import AppleTalk.Bridge.Sent
import AppleTalk.Properties.SideChange
import AppleTalk.Wire.Stack

/-!
# What the bridge emits is well formed

A frame arrives with a length field that nothing has checked on Ethernet, and that has been checked
on LocalTalk. Every way across makes up for it: a payload that crosses agrees with its own length,
and what goes out to Ethernet was counted by the frame it came in.
-/

namespace AppleTalk

open Octets

/-! ### Length fields -/

/-- A datagram is its thirteen octets of header and the data, its length field as it stood. -/
theorem Ddp.header_of_parse {p : Bytes} {d : Ddp} (h : Ddp.parse p = some d) :
    p.length = 13 + d.data.length ∧
      ∃ h0 h1 rest, p = h0 :: h1 :: rest ∧ d.length = be16 (h0 &&& 0x03) h1 := by
  unfold Ddp.parse at h
  split at h
  · obtain rfl := Option.some.inj h
    refine ⟨?_, _, _, _, rfl, rfl⟩
    simp only [List.length_cons]
    omega
  · cases h

/-- A lifted short header counts what the short one did, and eight octets more. -/
theorem Ddp.wireOk_of_fromShort {p : Bytes} {net : UInt16} {dstNode srcNode : UInt8} {d : Ddp}
    (h : Ddp.fromShort p net dstNode srcNode = some d) (hp : p.length ≤ LLAP_MAX_DATA) :
    d.WireOk := by
  unfold LLAP_MAX_DATA at hp
  unfold Ddp.fromShort at h
  split at h
  · split_ifs at h
    obtain rfl := Option.some.inj h
    simp only [List.length_cons] at hp
    refine ⟨show (0 : UInt8) ≤ 15 by decide, ?_, ?_⟩ <;>
      dsimp only <;> rw [UInt16.toNat_ofNat'] <;> omega
  · cases h

namespace Llap

theorem toBytes_of_parse {bytes : Bytes} {l : Llap} (h : parse bytes = some l) :
    l.toBytes = bytes := by
  unfold parse at h
  split at h
  · split_ifs at h
    · obtain rfl := Option.some.inj h
      rfl
    · split at h
      · split_ifs at h
        obtain rfl := Option.some.inj h
        rfl
      · cases h
  · cases h

/-- The data field of a datagram's frame holds its own length. -/
theorem data_of_parse {bytes : Bytes} {l : Llap} (h : parse bytes = some l)
    (hl : l.typ = LLAP_SHORT_DDP ∨ l.typ = LLAP_LONG_DDP) :
    l.data.length ≤ LLAP_MAX_DATA ∧ ∃ l0 l1 rest, l.data = l0 :: l1 :: rest ∧
      (be16 (l0 &&& 0x03) l1).toNat = l.data.length := by
  rw [← toBytes_of_parse h] at h
  obtain ⟨dst, src, typ, data⟩ := l
  have hc : ¬(typ = LLAP_ENQ ∨ typ = LLAP_ACK ∨ typ = LLAP_RTS ∨ typ = LLAP_CTS) := by
    rcases hl with rfl | rfl <;> decide
  cases data with
  | nil => simp [parse, toBytes, hc] at h
  | cons l0 data =>
    cases data with
    | nil => simp [parse, toBytes, hc] at h
    | cons l1 rest =>
      obtain ⟨hmax, hlen⟩ := (parse_toBytes_iff hl).1 h
      exact ⟨hmax, l0, l1, rest, rfl, hlen⟩

end Llap

/-- A frame whose payload is read as a datagram decodes to it. -/
theorem decode_datagram {f : Frame} (hs : f.snap = true) (hp : f.proto = DDP)
    (hlen : f.payload.length ≤ 1492) {d : Ddp} (hd : Ddp.parse f.payload = some d) :
    decode f.toBytes = some { frame := f, body := .ddp d (decodeDdpBody d) } := by
  have hne : DDP ≠ AARP := by decide
  rw [decode, Frame.parse_toBytes hs (Or.inl hp) hlen]
  simp [decodeBody, hp, hne, hd]

namespace Bridge

/-- What arrives has been read off its link. -/
def In.OffTheWire : In → Prop
  | ether p => ∃ bytes, decode bytes = some p
  | In.local l => ∃ bytes, Llap.parse bytes = some l
  | tick => True

/-- A LocalTalk frame reads back. A datagram to Ethernet decodes with an honest length, and with
the octets it had if it came with an extended header. -/
def Action.WellFormed (i : In) : Action → Prop
  | toLocal l => Llap.parse l.toBytes = some l
  | toEther f => f.proto = DDP →
    ∃ d body, decode f.toBytes = some { frame := f, body := .ddp d body } ∧
      d.length.toNat = 13 + d.data.length ∧
      ∀ l, i = In.local l → l.typ = LLAP_LONG_DDP → f.payload = l.data
  | report _ => True

theorem Action.Control.wellFormed {a : Action} (h : a.Control) (i : In) : a.WellFormed i := by
  cases a with
  | toEther f =>
    intro hp
    rw [show f.proto = AARP from h] at hp
    exact absurd hp (by decide)
  | toLocal l =>
    obtain ⟨n, rfl | rfl⟩ := h <;> rfl
  | report m => trivial

/-- What crosses has the length its header says. -/
theorem cross_wellFormed {payload : Bytes} {d : Ddp} (hd : Ddp.parse payload = some d) (i : In) :
    ∀ a ∈ cross payload d, a.WellFormed i := by
  obtain ⟨-, h0, h1, rest, rfl, hlength⟩ := Ddp.header_of_parse hd
  unfold cross
  split_ifs with h
  · exact List.forall_mem_nil _
  · obtain ⟨hsize, hlen⟩ := not_or.1 h
    refine List.forall_mem_singleton.2 ((Llap.parse_toBytes_iff (Or.inr rfl)).2 ⟨?_, ?_⟩)
    · exact (not_not.1 hsize).2
    · rw [← hlength]
      exact not_not.1 hlen

/-- What goes out to Ethernet is the datagram of the frame, whose length that frame has counted. -/
theorem extended_wellFormed {b : Bridge} {l : Llap} (hl : l.typ = LLAP_SHORT_DDP ∨
    l.typ = LLAP_LONG_DDP) {bytes : Bytes} (hp : Llap.parse bytes = some l) {dst : Addr}
    {payload : Bytes} (h : b.extendedOf l = some (dst, payload)) (m : MacAddr) :
    (Action.toEther (frame b.mac m DDP payload)).WellFormed (In.local l) := by
  obtain ⟨hmax, l0, l1, rest, hdata, hlen⟩ := Llap.data_of_parse hp hl
  intro _
  unfold extendedOf at h
  by_cases hshort : l.typ = LLAP_SHORT_DDP
  · rw [if_pos hshort] at h
    obtain ⟨d, hd, he⟩ := Option.map_eq_some_iff.1 h
    obtain ⟨-, rfl⟩ := Prod.mk.inj he
    have hok := Ddp.wireOk_of_fromShort hd hmax
    have hsize : d.toBytes.length ≤ 1492 := by
      rw [Ddp.length_toBytes]
      exact hok.2.1 ▸ hok.2.2.trans (by decide)
    refine ⟨d, _, decode_datagram rfl rfl hsize (Ddp.parse_toBytes_ok hok), hok.2.1, ?_⟩
    rintro l' hl' hlong
    obtain rfl := In.local.inj hl'
    rw [hshort] at hlong
    exact absurd hlong (by decide)
  · rw [if_neg hshort] at h
    obtain ⟨d, hd, he⟩ := Option.map_eq_some_iff.1 h
    obtain ⟨-, rfl⟩ := Prod.mk.inj he
    obtain ⟨hsize, h0, h1, rest', hdata', hlength⟩ := Ddp.header_of_parse hd
    have hheads : h0 = l0 ∧ h1 = l1 := by
      rw [hdata, List.cons.injEq, List.cons.injEq] at hdata'
      exact ⟨hdata'.1.symm, hdata'.2.1.symm⟩
    refine ⟨d, _, decode_datagram rfl rfl (hmax.trans (by decide)) hd, ?_, ?_⟩
    · rw [hlength, hheads.1, hheads.2, hlen, hsize]
    · rintro l' hl' -
      obtain rfl := In.local.inj hl'
      rfl

theorem Sent.wellFormed {b : Bridge} {i : In} {a : Action} (h : b.Sent i a) (hi : i.OffTheWire) :
    a.WellFormed i := by
  cases h with
  | control h => exact h.wellFormed i
  | crossed hb hown h =>
    obtain ⟨bytes, hbytes⟩ := hi
    exact cross_wellFormed ((Packet.decoded_of_decode hbytes).ddp hb).1 _ a h
  | extended m hl h =>
    obtain ⟨bytes, hbytes⟩ := hi
    exact extended_wellFormed hl hbytes h m

namespace Run

/-- **The bridge emits well-formed frames only**, whatever has arrived before. -/
theorem emits_well_formed (r : Run) {k : ℕ} (h : (r.input k).OffTheWire) :
    ∀ a ∈ r.sent k, a.WellFormed (r.input k) := by
  intro a ha
  exact (step_sent (r.state k) (r.time k) (r.input k) a ha).wellFormed h

/-- A datagram without data from node 8 of LocalTalk, which is not known yet, to node 9. -/
def fromNode8 : Llap := ⟨9, 8, LLAP_LONG_DDP, [0, 13, 0, 0, 0, 10, 0, 10, 9, 8, 4, 4, 10]⟩

theorem emits_well_formed_stray :
    (Action.toEther (frame ⟨2, 0, 0, 0, 0, 1⟩ BROADCAST_MAC DDP fromNode8.data)).WellFormed
      (In.local fromNode8) :=
  emits_well_formed (strayRun (In.local fromNode8)) (k := 1) ⟨fromNode8.toBytes, by decide⟩ _
    (by decide +kernel)

end Run

end Bridge

end AppleTalk
