import AppleTalk.Router.Arrivals
import AppleTalk.Router.Relay
import AppleTalk.Wire.RoundTrip

/-!
# What the far end reads

A node of the cable reads a datagram back from an Ethernet or a LocalTalk frame, and the router at
a tunnel's far end reads it back from an AURP packet. Behind an extended header it is the datagram
that was sent; behind a short one it has lost its hop count, its checksum and its addresses.
-/

namespace AppleTalk

/-! ### Reading -/

/-- What the far end reads of what goes into a tunnel or out on a cable of network `net`. -/
def Action.reads (net : UInt16) : Action → Option Ddp
  | .toEther _ f =>
    match decode f.toBytes with
    | some { frame := _, body := .ddp d _ } => some d
    | _ => none
  | .toLlap _ l =>
    match Llap.parse l.toBytes with
    | some l =>
      if l.typ = LLAP_SHORT_DDP then Ddp.fromShort l.data net l.dst l.src
      else if l.typ = LLAP_LONG_DDP then Ddp.parse l.data
      else none
    | none => none
  | .toPeer _ bytes =>
    match Aurp.parse bytes with
    | some (.data _ ddp) => Ddp.parse ddp
    | _ => none
  | _ => none

/-- The action goes out on the port, or into the tunnel. -/
def Action.Out : Action → Origin → Prop
  | .toEther id _, o | .toLlap id _, o => o = .port id
  | .toPeer ip _, o => o = .peer ip
  | _, _ => False

namespace Action

theorem reads_ether (net : UInt16) (id : PortId) (src dst : MacAddr) {d : Ddp}
    (h : d.data.length ≤ 1479) :
    (toEther id (frame src dst DDP d.toBytes)).reads net = some d.written := by
  have hne : DDP ≠ AARP := by decide
  have hparse : Frame.parse (frame src dst DDP d.toBytes).toBytes =
      some (frame src dst DDP d.toBytes) :=
    Frame.parse_toBytes rfl (Or.inl rfl) (by simp only [frame, Ddp.length_toBytes]; omega)
  have hbody : decodeBody (frame src dst DDP d.toBytes) =
      some (.ddp d.written (decodeDdpBody d.written)) := by
    unfold decodeBody frame
    dsimp only
    rw [if_neg hne, if_pos rfl, Ddp.parse_toBytes_eq]
  unfold reads decode
  simp only [hparse, hbody, Option.bind_eq_bind, Option.bind_some]
  rfl

theorem reads_long (net : UInt16) (id : PortId) (dst src : UInt8) (d : Ddp) :
    (toLlap id ⟨dst, src, LLAP_LONG_DDP, d.toBytes⟩).reads net =
      if 13 + d.data.length ≤ LLAP_MAX_DATA then some d.written else none := by
  have hne : LLAP_LONG_DDP ≠ LLAP_SHORT_DDP := by decide
  have hiff := Llap.long_legal_iff dst src d
  unfold reads
  split_ifs with h
  · simp only [hiff.2 h, if_neg hne, if_true, Ddp.parse_toBytes_eq]
  · cases hp : Llap.parse (Llap.toBytes ⟨dst, src, LLAP_LONG_DDP, d.toBytes⟩) with
    | none => simp only [hp]
    | some l =>
      obtain rfl := Llap.eq_of_parse hp
      exact absurd (hiff.1 hp) h

/-- A short header says nothing of the hop count, the checksum and the networks. -/
theorem reads_short (net : UInt16) (id : PortId) (dst src : UInt8) (d : Ddp) :
    ∀ d', (toLlap id ⟨dst, src, LLAP_SHORT_DDP, d.toShortBytes⟩).reads net = some d' →
      d'.checksum = 0 := by
  intro d' hd'
  simp only [reads] at hd'
  split at hd'
  · rename_i l hp
    obtain rfl := Llap.eq_of_parse hp
    simp only [if_true, Ddp.fromShort_toShortBytes] at hd'
    split_ifs at hd'
    cases hd'
    rfl
  · cases hd'

theorem reads_tunnel (net : UInt16) (ip : Ipv4Addr) (dh : DomainHeader) {d : Ddp}
    (h : d.data.length ≤ 1010) :
    (toPeer ip (Aurp.data dh d.toBytes).toBytes).reads net = some d.written := by
  have hok : DatagramOk d.toBytes := by
    refine ⟨by rw [Ddp.length_toBytes]; omega, _, _, _, rfl, ?_⟩
    rw [Ddp.length_field, Ddp.be16_tenBits, UInt16.toNat_ofNat', Ddp.length_toBytes]
    omega
  simp only [reads, Aurp.reads_back (p := .data dh d.toBytes) hok, Ddp.parse_toBytes_eq]

end Action

/-! ### What a port puts on its cable -/

/-- The port frames a datagram between the two networks with a short header. -/
def Port.Short (p : Port) (src dst : UInt16) : Prop :=
  p.extended = false ∧ src = p.range.1 ∧ (dst = p.range.1 ∨ dst = 0)

namespace Port

variable {host : Host} {p : Port} {dest : Dest} {d : Ddp} {a : Action}

theorem emit_out (h : p.emit host dest d = some a) : a.Out (.port p.id) := by
  obtain ⟨node, -, rfl⟩ := Option.map_eq_some_iff.1 h
  split
  · rfl
  · dsimp only
    split_ifs <;> rfl

/-- **What the cable reads of an extended header** is the datagram as it was written, if a LocalTalk
frame has room for it. -/
theorem emit_reads (h : p.emit host dest d = some a) (hlen : d.data.length ≤ 1010)
    (hs : ¬p.Short d.src.net d.dst.net) (net : UInt16) :
    a.reads net =
      if p.extended = false ∧ LLAP_MAX_DATA < 13 + d.data.length then none
      else some d.written := by
  obtain ⟨node, -, rfl⟩ := Option.map_eq_some_iff.1 h
  unfold Short extended at hs
  unfold extended
  cases hk : p.kind with
  | ether mac =>
    simp only [Bool.true_eq_false, false_and, if_false]
    exact Action.reads_ether net p.id mac _ (by omega)
  | _ =>
    simp only [hk, true_and] at hs
    simp only [if_neg hs, Action.reads_long, true_and, ← Nat.not_lt, ite_not]

theorem emit_reads_short (h : p.emit host dest d = some a)
    (hs : p.Short d.src.net d.dst.net) (net : UInt16) {d' : Ddp} (hd' : a.reads net = some d') :
    d'.checksum = 0 := by
  obtain ⟨node, -, rfl⟩ := Option.map_eq_some_iff.1 h
  obtain ⟨hext, hs⟩ := hs
  unfold extended at hext
  cases hk : p.kind with
  | ether mac => simp [hk] at hext
  | _ =>
    simp only [hk, if_pos hs] at hd'
    exact Action.reads_short net p.id _ node d d' hd'

end Port

/-! ### What the router passes on -/

namespace Router

/-- The network of the cable the action goes out on. -/
def cable (r : Router) : Action → UInt16
  | .toEther id _ | .toLlap id _ => ((r.port id).map fun p => p.range.1).getD 0
  | _ => 0

/-- What the far end reads of what this router sends. -/
def farEnd (r : Router) (a : Action) : Option Ddp := a.reads (r.cable a)

variable {host : Host} {r : Router} {origin : Origin} {d : Ddp} {a : Action}

/-- What is passed on never goes back the way it came. -/
theorem forward_out (h : a ∈ r.forward host origin d) : ¬a.Out origin := by
  obtain ⟨-, route, -, hi, h⟩ := mem_forward.1 h
  split at h
  · rename_i ip ht
    rw [ht] at hi
    rw [h]
    rintro rfl
    simp [Origin.is] at hi
  · rename_i id ht
    rw [ht] at hi
    obtain ⟨p, hp, ha⟩ := h
    have hout := Port.emit_out ha
    rw [port_id hp] at hout
    intro ho
    cases a with
    | toEther id' f =>
      obtain rfl : Origin.port id' = origin := ho.symm
      cases hout
      simp [Origin.is] at hi
    | toLlap id' l =>
      obtain rfl : Origin.port id' = origin := ho.symm
      cases hout
      simp [Origin.is] at hi
    | _ => cases hout

/-- Passing on makes one copy at most. -/
theorem length_forward_le : (r.forward host origin d).length ≤ 1 := by
  unfold forward
  by_cases hh : MAX_HOPS ≤ d.hops
  · simp [hh]
  rw [if_neg hh]
  cases r.tables.best d.dst.net with
  | none => simp
  | some route =>
    by_cases hi : origin.is route.target = true
    · simp [hi]
    dsimp only
    rw [if_neg hi]
    cases route.target with
    | peer ip => simp
    | port id =>
      dsimp only
      cases r.port id with
      | none => simp
      | some p => exact Option.length_toList_le

/-- **What the far end reads of what is passed on**: behind an extended header, the datagram with
the hop applied, if there is room for it; behind a short one, no checksum. -/
theorem forward_farEnd (h : a ∈ r.forward host origin d) (hlen : d.data.length ≤ 1010) :
    ∃ route, r.tables.best d.dst.net = some route ∧
      ((∃ ip, route.target = .peer ip ∧ a.Out (.peer ip) ∧
        r.farEnd a = some (crossed origin route.target d).written) ∨
      ∃ id p, route.target = .port id ∧ r.port id = some p ∧ p.node.isSome ∧
        a.Out (.port id) ∧
        (p.Short d.src.net d.dst.net → ∀ d', r.farEnd a = some d' → d'.checksum = 0) ∧
        (¬p.Short d.src.net d.dst.net → r.farEnd a =
          if p.extended = false ∧ LLAP_MAX_DATA < 13 + d.data.length then none
          else some (crossed origin route.target d).written)) := by
  obtain ⟨-, route, hb, -, h⟩ := mem_forward.1 h
  refine ⟨route, hb, ?_⟩
  obtain ⟨hops, hcross⟩ := crossed_eq origin route.target d
  split at h
  · rename_i ip ht
    refine Or.inl ⟨ip, ht, ?_, ?_⟩
    · rw [h]
      rfl
    · rw [h]
      exact Action.reads_tunnel _ _ _ (by rw [hcross]; exact hlen)
  · rename_i id ht
    obtain ⟨p, hp, ha⟩ := h
    have hout := Port.emit_out ha
    rw [port_id hp] at hout
    refine Or.inr ⟨id, p, ht, hp, Port.claimed_of_emit ha, hout, fun hs d' hd' => ?_,
      fun hs => ?_⟩
    · exact Port.emit_reads_short ha (by rw [hcross]; exact hs) _ hd'
    · have := Port.emit_reads ha (by rw [hcross]; exact hlen) (by rw [hcross]; exact hs) (r.cable a)
      rwa [hcross] at this ⊢

end Router

end AppleTalk
