import AppleTalk.Node.Commands
import AppleTalk.Properties.Addressed
import AppleTalk.Properties.BridgeFrames
import AppleTalk.Properties.ServiceSizes

/-!
# What the router answers a node

A node on the cable asks the router what the cable is, and whether it is there. Both questions and
both answers cross the cable as frames, and each side reads what the other one wrote.
-/

namespace AppleTalk

/-! ### Frames that are written and read -/

/-- What a datagram carries depends on its type and its data. -/
theorem Ddp.Carries.written {d : Ddp} {body : DdpBody} (h : d.Carries body) :
    d.written.Carries body := by
  cases body <;> exact h

/-- A datagram in a frame reads back as it was written, and so does what it carries. -/
theorem decode_frame {src dst : MacAddr} {d : Ddp} {body : DdpBody} (hlen : d.data.length ≤ DDP_MAX)
    (hbody : d.Carries body) :
    decode (frame src dst DDP d.toBytes).toBytes =
      some ⟨frame src dst DDP d.toBytes, .ddp d.written body⟩ := by
  have hsize : d.toBytes.length ≤ 1492 := by
    rw [Ddp.length_toBytes]
    unfold DDP_MAX at hlen
    omega
  have hread := decode_datagram (f := frame src dst DDP d.toBytes) rfl rfl hsize
    (Ddp.parse_toBytes_eq d)
  rwa [decodeDdpBody_eq hbody.written] at hread

/-- What is written says how long it is. -/
theorem Ddp.length_written {d : Ddp} (h : d.data.length ≤ DDP_MAX) :
    d.written.length.toNat = 13 + d.written.data.length := by
  unfold DDP_MAX at h
  show (UInt16.ofNat ((13 + d.data.length) % 1024)).toNat = 13 + d.data.length
  rw [UInt16.toNat_ofNat']
  omega

namespace Router

variable {host : Host} {r : Router}

/-- A network of ours has its owner. -/
theorem OwnRouted.owner_eq (h : r.OwnRouted) {q : Port} (hq : q ∈ r.ports) {net : UInt16}
    (hnet : q.owns net) : r.owner net = some q := by
  obtain ⟨q', hq'⟩ : ∃ q', r.owner net = some q' :=
    Option.isSome_iff_exists.1 (List.find?_isSome.2 ⟨q, hq, hnet⟩)
  obtain ⟨hmem, hown⟩ := mem_of_owner hq'
  have : Std.Symm fun a b : Port => ¬overlaps a.net.range b.net.range :=
    ⟨fun a b hab hba => hab (by simpa [overlaps, and_comm] using hba)⟩
  rw [hq']
  by_contra hne
  refine (List.pairwise_map.1 h.apart).forall hmem hq (fun he => hne (by rw [he])) ?_
  simp only [Port.owns, decide_eq_true_eq] at hnet hown
  simp only [overlaps, decide_eq_true_eq]
  exact ⟨UInt16.le_trans hown.1 hnet.2, UInt16.le_trans hnet.1 hown.2⟩

/-- What comes back on the cable of a port for a frame, as it reads. -/
def replies (host : Host) (r : Router) (id : PortId) (f : Frame) (now : Instant) : List Packet :=
  match decode f.toBytes with
  | none => []
  | some p =>
    (r.step host (.ether id p) now).2.filterMap fun a =>
      match a with
      | .toEther port g => if port = id then decode g.toBytes else none
      | _ => none

/-- A node on the Ethernet cable of a port that holds an address: its address and its MAC, the
port, the port's MAC and its node. -/
structure Neighbour (host : Host) (r : Router) (id : PortId) (a : Addr) (m : MacAddr)
    (p : Port) (mac : MacAddr) (k : UInt8) : Prop where
  reachable : Reachable host r
  port : r.port id = some p
  kind : p.kind = .ether mac
  node : p.node = some k
  other : m ≠ mac
  unicast : m ≠ BROADCAST_MAC
  net : a.net ≠ 0
  client : a.node ≠ 255

namespace Neighbour

variable {id : PortId} {a : Addr} {m mac : MacAddr} {p : Port} {k : UInt8}

/-- The port after it has seen the node. -/
def gleaned (p : Port) (a : Addr) (m : MacAddr) : Port := { p with amt := amtInsert p.amt a m }

theorem port_gleaned (h : Neighbour host r id a m p mac k) :
    (r.setPort (gleaned p a m)).port id = some (gleaned p a m) := by
  rw [port_setPort, h.port, Option.map_some, if_pos (show p.id = (gleaned p a m).id from rfl)]

theorem ownRouted (h : Neighbour host r id a m p mac k) :
    (r.setPort (gleaned p a m)).OwnRouted :=
  h.reachable.ownRouted.congr (setPort_fixed h.port rfl) rfl

/-- **What the services are asked** off the cable they answer, and nothing else is sent. -/
theorem step_asked (h : Neighbour host r id a m p mac k) {d : Ddp} {body : DdpBody}
    (hlen : d.data.length ≤ DDP_MAX) (hsrc : d.src = a)
    (hdst : d.dst.net = 0 ∨ p.owns d.dst.net) (hus : forUs p d.dst.node) (dst : MacAddr)
    (now : Instant) {emits : List Emit}
    (hserve : ∀ ports, r.local.handle (some (gleaned p a m)) (gleaned p a m) ports
      (localize (some p) d.written) body r.tables now = serve r.tables emits) :
    (r.step host (.ether id ⟨frame m dst DDP d.toBytes, .ddp d.written body⟩) now).2 =
      emits.flatMap ((r.setPort (gleaned p a m)).emit host) := by
  have hin : p.inboundEther host ⟨frame m dst DDP d.toBytes, .ddp d.written body⟩ now =
      (gleaned p a m, .ddp d.written, []) := by
    unfold Port.inboundEther
    split
    · rename_i mac' hmac
      obtain rfl : mac = mac' := Kind.ether.inj (h.kind.symm.trans hmac)
      rw [if_neg (show (frame m dst DDP d.toBytes).src ≠ mac from h.other)]
      show (({ p with amt := amtInsert p.amt d.src m } : Port), Inbound.ddp d.written, _) = _
      rw [hsrc]
      rfl
    · rename_i hne
      exact absurd h.kind (hne mac)
  have hnet : p.owns (localize (some p) d.written).dst.net := by
    show p.owns (if d.dst.net = 0 then { d.dst with net := p.range.1 } else d.dst).net
    split_ifs with hzero
    · have hle := h.reachable.ownRouted.legal p (mem_of_port h.port).1
      simpa [Port.owns] using hle
    · exact hdst.resolve_left hzero
  have hnode : (localize (some p) d.written).dst.node = d.dst.node := by
    show (if d.dst.net = 0 then { d.dst with net := p.range.1 } else d.dst).node = d.dst.node
    split_ifs <;> rfl
  have hmem := (mem_of_port h.port_gleaned).1
  have howner := h.ownRouted.owner_eq hmem hnet
  obtain ⟨b, hb, htarget, -⟩ := h.ownRouted.best hmem hnet
  have hback : ∀ r' : Router, r'.tables = r.tables →
      r'.forward host (.port id) (localize (some p) d.written) = [] := by
    intro r' ht
    refine List.eq_nil_iff_forall_not_mem.2 fun x hx => ?_
    obtain ⟨-, route, hroute, hne, -⟩ := mem_forward.1 hx
    obtain rfl := Option.some.inj (hroute.symm.trans (ht ▸ hb))
    have hpid : (gleaned p a m).id = id := port_id h.port_gleaned
    rw [htarget, hpid] at hne
    simp [Origin.is] at hne
  unfold step
  dsimp only
  rw [h.port]
  dsimp only
  rw [hin]
  show (arrived host _ (.port id) d.written body now).2 = _
  have harr : (r.setPort (gleaned p a m)).arrivedOn (.port id) = some (gleaned p a m) :=
    h.port_gleaned
  have hloc : localize (some (gleaned p a m)) d.written = localize (some p) d.written := rfl
  have hserved : (r.setPort (gleaned p a m)).served host (.port id) (gleaned p a m)
      (localize (some p) d.written) body now =
      (r.setPort (gleaned p a m), emits.flatMap ((r.setPort (gleaned p a m)).emit host)) := by
    unfold served
    rw [harr, show (r.setPort (gleaned p a m)).local.handle (some (gleaned p a m))
      (gleaned p a m) (r.setPort (gleaned p a m)).ports (localize (some p) d.written) body
      (r.setPort (gleaned p a m)).tables now = serve r.tables emits from hserve _]
    rfl
  have hus' : forUs (gleaned p a m) (localize (some p) d.written).dst.node := by
    rw [hnode]
    exact hus
  unfold arrived
  rw [if_neg (not_not.2 (Ddp.length_written hlen)), harr, hloc]
  dsimp only
  rw [howner]
  dsimp only
  rw [if_pos hus', hserved]
  dsimp only
  rw [hback (r.setPort (gleaned p a m)) rfl, ite_self, List.append_nil]

end Neighbour

end Router

/-- A reply for the node, of a range that ends no sooner than it starts, is taken. -/
theorem netinfoVerdict_reply {f : Frame} {d : Ddp} {a : Addr} {range : UInt16 × UInt16} {z : Str}
    {m : Option MacAddr} {n : Option Str} (hdst : d.dst = a) (hr : range.1 ≤ range.2)
    (flags : UInt8) :
    netinfoVerdict ⟨f, .ddp d (.zip (.netInfoReply flags range z m n))⟩ a z =
      some (if range.1 ≤ a.net ∧ a.net ≤ range.2 then .keep else .repick range, n.getD z,
        d.src) := by
  unfold netinfoVerdict
  dsimp only
  rw [if_neg (fun h => h.2 hdst), if_neg (not_not.2 rfl), if_neg (UInt16.not_lt.2 hr)]

/-! ### The names of our own zones -/

namespace Config

variable {host : Host}

theorem nameOk_of_roman {name : Str} (h : roman name = .ok ()) : NameOk name := by
  unfold roman at h
  split_ifs at h with hwide hlen
  refine ⟨hlen.2, fun c hc => ?_⟩
  have := List.any_eq_false.1 (Bool.not_eq_true _ ▸ hwide) c hc
  simpa using this

theorem checkZones_ok {name : String} {zones : List Str}
    (h : checkZones host name zones = .ok ()) : ∀ z ∈ zones, NameOk z := by
  induction zones with
  | nil => simp
  | cons z zones ih =>
    unfold checkZones at h
    split at h
    · cases h
    · rename_i hz
      exact List.forall_mem_cons.2 ⟨nameOk_of_roman hz, ih h⟩

theorem checkPorts_zones {earlier ports : List PortSpec}
    (h : checkPorts host earlier ports = .ok ()) : ∀ p ∈ ports, ∀ z ∈ p.2.2, NameOk z := by
  induction ports generalizing earlier with
  | nil => simp
  | cons p ports ih =>
    obtain ⟨name, net, zones⟩ := p
    unfold checkPorts at h
    split_ifs at h
    · split at h <;> cases h
    · split at h
      · cases h
      · split at h
        · cases h
        · rename_i hz
          exact List.forall_mem_cons.2 ⟨checkZones_ok hz, ih h⟩

end Config

namespace Router

variable {host : Host} {r : Router}

/-- **Every zone of ours** has a name that AppleTalk can carry. -/
theorem Reachable.zones_ok (h : Reachable host r) : ∀ p ∈ r.ports, ∀ z ∈ p.zones, NameOk z := by
  obtain ⟨r0, es, ⟨cfg, kinds, now, hv, ho, rfl⟩, rfl⟩ := h
  have hspecs : ∀ s ∈ cfg.portSpecs, ∀ z ∈ s.2, NameOk z := by
    unfold Config.validate at hv
    split at hv
    · cases hv
    · split_ifs at hv
      intro s hs
      rw [Config.portSpecs_eq] at hs
      obtain ⟨p, hp, rfl⟩ := List.mem_map.1 hs
      exact Config.checkPorts_zones hv p hp
  intro p hp
  have hmem : p.net ∈ cfg.nets := after_nets host ho now es ▸ List.mem_map_of_mem hp
  obtain ⟨s, hs, he⟩ := mem_netsFrom hmem
  have hzones : p.zones = s.2 := congrArg Prod.snd he
  rw [hzones]
  exact hspecs s hs

namespace Neighbour

variable {id : PortId} {a : Addr} {m mac : MacAddr} {p : Port} {k : UInt8}

theorem addr_gleaned (h : Neighbour host r id a m p mac k) :
    (gleaned p a m).addr = some ⟨p.range.1, k⟩ := by
  show p.node.map _ = _
  rw [h.node]
  rfl

/-- The node's MAC is known. -/
theorem macForNode_gleaned (h : Neighbour host r id a m p mac k) :
    (gleaned p a m).macForNode host a.node a.net = m := by
  have hexact : macFor (gleaned p a m).amt a = m := by
    unfold macFor
    rw [if_neg h.client]
    show (((amtInsert p.amt a m).find? fun e => e.1 = a).map Prod.snd).getD BROADCAST_MAC = m
    rw [amtInsert, List.find?_cons_of_pos (by simp)]
    rfl
  unfold Port.macForNode
  dsimp only
  rw [hexact, if_pos h.unicast]

/-- What the services pin to the port goes out on its cable: to a node by its MAC, if it is the
one that asked. -/
theorem emit_on (h : Neighbour host r id a m p mac k) (dest : Dest) (dst : MacAddr) (d : Ddp)
    (hdest : dest = .node a.node ∧ d.dst = a ∧ dst = m ∨ dest = .broadcast ∧ dst = BROADCAST_MAC) :
    (r.setPort (gleaned p a m)).emit host (.on p.id dest d) =
      [.toEther id (frame mac dst DDP d.toBytes)] := by
  have hid : p.id = id := port_id h.port
  unfold emit
  dsimp only
  rw [hid, h.port_gleaned]
  dsimp only
  unfold Port.emit
  rw [show (gleaned p a m).node = some k from h.node]
  have hkind : (gleaned p a m).kind = .ether mac := h.kind
  have hpid : (gleaned p a m).id = id := hid
  rcases hdest with ⟨rfl, rfl, rfl⟩ | ⟨rfl, rfl⟩
  · simp only [hkind, hpid, Option.map_some, Option.toList_some, h.macForNode_gleaned]
  · simp only [hkind, hpid, Option.map_some, Option.toList_some]

/-- The replies to a frame that is answered by one frame. -/
theorem replies_eq {f : Frame} {packet reply : Packet} {now : Instant} {g : Frame}
    (hf : decode f.toBytes = some packet)
    (hstep : (r.step host (.ether id packet) now).2 = [.toEther id g])
    (hg : decode g.toBytes = some reply) : r.replies host id f now = [reply] := by
  unfold replies
  rw [hf]
  dsimp only
  rw [hstep]
  simp [hg]

/-- **A node that asks what the cable is** gets one answer, and the answer is for it: whether its
address is of the cable, the zone to use, and the port's own address. -/
theorem boot_answered (h : Neighbour host r id a m p mac k) {z : Str} (hz : NameOk z)
    (now : Instant) :
    ∃ reply, r.replies host id (frame m BROADCAST_MAC DDP
        (datagram a 6 { net := 0, node := 255 } 6 DDP_ZIP (Zip.getNetInfo z).toBytes).toBytes) now =
          [reply] ∧
      netinfoVerdict reply a z =
        some (if p.owns a.net then .keep else .repick p.range,
          if z ≠ [] ∧ p.hasZone z then z else p.defaultZone, { net := p.range.1, node := k }) ∧
      reply.frame.dst = if p.owns a.net then m else BROADCAST_MAC := by
  obtain ⟨hmem, hid⟩ := mem_of_port h.port
  let d : Ddp := datagram a 6 { net := 0, node := 255 } 6 DDP_ZIP (Zip.getNetInfo z).toBytes
  let valid : Bool := !z.isEmpty && p.hasZone z
  let answer : Zip := .netInfoReply
    ((if valid then 0 else 0x80) ||| (if p.zones.length = 1 then 0x20 else 0) |||
      (if p.extended then 0 else 0x40)) p.range z
    (if p.extended then some (zoneMulticast (if valid then z else p.defaultZone)) else none)
    (if valid then none else some p.defaultZone)
  let d' : Ddp := datagram { net := p.range.1, node := k } ZIP_SOCKET a 6 DDP_ZIP answer.toBytes
  let dest : Dest := if p.owns a.net then .node a.node else .broadcast
  -- The question.
  have hlen : d.data.length ≤ DDP_MAX := by
    show (Zip.getNetInfo z).toBytes.length ≤ DDP_MAX
    unfold DDP_MAX
    simp only [Zip.toBytes, List.length_append, List.length_cons, List.length_nil,
      length_putPstring]
    omega
  have hcarries : d.Carries (.zip (.getNetInfo z)) := ⟨rfl, rfl, hz⟩
  have hsrc : (localize (some p) d.written).src = a := if_neg h.net
  have hanswer : netInfo (gleaned p a m) (localize (some p) d.written) z =
      some (.on p.id dest d') := by
    unfold netInfo fromPort
    rw [h.addr_gleaned, hsrc]
    rfl
  have hserve : ∀ ports, r.local.handle (some (gleaned p a m)) (gleaned p a m) ports
      (localize (some p) d.written) (.zip (.getNetInfo z)) r.tables now =
      serve r.tables [.on p.id dest d'] := by
    intro ports
    unfold Local.handle
    dsimp only
    rw [if_pos (show (localize (some p) d.written).dstSocket = ZIP_SOCKET from rfl)]
    show serve r.tables (netInfo (gleaned p a m) (localize (some p) d.written) z).toList = _
    rw [hanswer]
    rfl
  have hstep := h.step_asked hlen rfl (Or.inl rfl) (show forUs p 255 from rfl) BROADCAST_MAC now
    hserve
  -- The answer.
  have hfits : d'.data.length ≤ DDP_MAX := by
    have hfits := netInfo_fits hanswer
    rwa [Emit.ddp_on, Ddp.fits_iff] at hfits
  have hdefault : NameOk p.defaultZone := by
    unfold Port.defaultZone
    cases hzones : p.zones with
    | nil => exact ⟨Nat.zero_le _, by simp⟩
    | cons z zones => exact h.reachable.zones_ok p hmem z (by simp [hzones])
  have hreads : d'.Carries (.zip answer) := by
    refine ⟨rfl, rfl, hz, fun name hname => ?_⟩
    split_ifs at hname with hvalid
    cases hname
    refine ⟨?_, hdefault⟩
    rw [if_neg hvalid]
    split_ifs <;> decide
  let dst : MacAddr := if p.owns a.net then m else BROADCAST_MAC
  have hemit := h.emit_on dest dst d' (by
    by_cases hown : p.owns a.net
    · exact Or.inl ⟨if_pos hown, rfl, if_pos hown⟩
    · exact Or.inr ⟨if_neg hown, if_neg hown⟩)
  rw [List.flatMap_cons, List.flatMap_nil, List.append_nil, hemit] at hstep
  refine ⟨⟨frame mac dst DDP d'.toBytes, .ddp d'.written (.zip answer)⟩,
    replies_eq (decode_frame hlen hcarries) hstep (decode_frame hfits hreads), ?_, rfl⟩
  have hlegal := h.reachable.ownRouted.legal p hmem
  have hzone : (if valid then none else some p.defaultZone).getD z =
      if z ≠ [] ∧ p.hasZone z then z else p.defaultZone := by
    have hiff : valid = true ↔ z ≠ [] ∧ p.hasZone z := by simp [valid]
    by_cases hvalid : valid = true
    · rw [if_pos hvalid, if_pos (hiff.1 hvalid), Option.getD_none]
    · rw [if_neg hvalid, if_neg fun hboth => hvalid (hiff.2 hboth), Option.getD_some]
  have hverdict := netinfoVerdict_reply (f := frame mac dst DDP d'.toBytes) (d := d'.written)
    (a := a) (z := z) (m := if p.extended then
      some (zoneMulticast (if valid then z else p.defaultZone)) else none)
    (n := if valid then none else some p.defaultZone) rfl hlegal
    ((if valid then 0 else 0x80) ||| (if p.zones.length = 1 then 0x20 else 0) |||
      (if p.extended then 0 else 0x40))
  rw [hzone] at hverdict
  refine hverdict.trans ?_
  by_cases hown : p.owns a.net
  · rw [if_pos hown, if_pos (by simpa [Port.owns] using hown)]
    rfl
  · rw [if_neg hown, if_neg (by simpa [Port.owns] using hown)]
    rfl

/-- An EtherTalk cable of two networks, 10 and 11. -/
def twoNetsConfig : Config :=
  { name := ['R'], publicIp := none, openPeering := true, peers := []
    ethertalk := [{ interface := "eth0", net := (10, 11), zones := [['A'], ['B']] }]
    ltoudp := [], tashtalk := [] }

/-- Its router when it has claimed its address. -/
def settled : Router :=
  (new .lowest twoNetsConfig [("eth0", .ether ⟨2, 0, 0, 0, 0, 1⟩)] 0).after .lowest
    ((List.range 11).map fun k => (.input .tick, fromMillis (200 * k)))

def settledPort : Port := (settled.port 0).get (by decide +kernel)

/-- Anyone else with an address is a node on its cable. -/
theorem neighbour_settled (a : Addr) (m : MacAddr) (hother : m ≠ ⟨2, 0, 0, 0, 0, 1⟩)
    (hunicast : m ≠ BROADCAST_MAC) (hnet : a.net ≠ 0) (hclient : a.node ≠ 255) :
    Neighbour .lowest settled 0 a m settledPort ⟨2, 0, 0, 0, 0, 1⟩ 1 where
  reachable := by
    refine ⟨_, _, ⟨twoNetsConfig, _, 0, rfl, ?_, rfl⟩, rfl⟩
    exact ⟨[("eth0", .ether ⟨2, 0, 0, 0, 0, 1⟩)], [], [], by simp [twoNetsConfig]⟩
  port := (Option.some_get _).symm
  kind := by decide +kernel
  node := by decide +kernel
  other := hother
  unicast := hunicast
  net := hnet
  client := hclient

/-- A node that starts out on another network's address is told to pick another, and which zone is
the default. -/
theorem boot_answered_elsewhere : ∃ reply,
    settled.replies .lowest 0 (frame ⟨2, 0, 0, 0, 0, 5⟩ BROADCAST_MAC DDP
        (datagram { net := 0xff00, node := 5 } 6 { net := 0, node := 255 } 6 DDP_ZIP
          (Zip.getNetInfo ['X']).toBytes).toBytes) (fromSecs 3) = [reply] ∧
      netinfoVerdict reply { net := 0xff00, node := 5 } ['X'] =
        some (.repick (10, 11), ['A'], { net := 10, node := 1 }) ∧
      reply.frame.dst = BROADCAST_MAC := by
  have h := neighbour_settled { net := 0xff00, node := 5 } ⟨2, 0, 0, 0, 0, 5⟩ (by decide)
    (by decide) (by decide) (by decide)
  obtain ⟨reply, hreplies, hverdict, hdst⟩ :=
    h.boot_answered (z := ['X']) ⟨by simp, by simp⟩ (fromSecs 3)
  have hown : settledPort.owns 0xff00 = false := by decide +kernel
  have hzone : settledPort.hasZone ['X'] = false := by decide +kernel
  have hrange : settledPort.range = (10, 11) := by decide +kernel
  have hdefault : settledPort.defaultZone = ['A'] := by decide +kernel
  refine ⟨reply, hreplies, ?_, ?_⟩
  · rw [hverdict, if_neg (by simp [hown]), if_neg (by simp [hzone]), hdefault, hrange]
  · rw [hdst, if_neg (by simp [hown])]

end Neighbour

end Router

end AppleTalk
