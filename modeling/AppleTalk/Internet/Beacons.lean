import AppleTalk.Properties.Addressed
import AppleTalk.Properties.LlapFrames
import AppleTalk.Router.FarEnd
import AppleTalk.Router.Floors
import AppleTalk.Router.Tunnels

/-!
# What a router tells its neighbours

Routes are announced on a router's own cables, as RTMP Data for everybody on one of them, and in
routing packets to its tunnel peers. Nothing else a router sends is RTMP, unless it was handed RTMP
that is not such a beacon.
-/

namespace AppleTalk

open TableOp

/-! ### What is announced -/

/-- The routes an RTMP datagram announces. -/
def Ddp.tuples (d : Ddp) : List NetworkTuple :=
  match decodeDdpBody d with
  | .rtmp (.data _ _ tuples) => tuples
  | _ => []

namespace Action

/-- The datagram inside a frame on a cable of network `net`, or inside a tunnel packet. -/
def datagram (net : UInt16) : Action → Option Ddp
  | .toEther _ f =>
    match decodeBody f with
    | some (.ddp d _) => some d
    | _ => none
  | .toLlap _ l =>
    if l.typ = LLAP_SHORT_DDP then Ddp.fromShort l.data net l.dst l.src
    else if l.typ = LLAP_LONG_DDP then Ddp.parse l.data
    else none
  | .toPeer _ bytes =>
    match Aurp.parse bytes with
    | some (.data _ ddp) => Ddp.parse ddp
    | _ => none
  | _ => none

/-- The routes announced by what goes out on a cable of network `net` or into a tunnel. -/
def tuples (net : UInt16) (a : Action) : List NetworkTuple :=
  ((a.datagram net).map Ddp.tuples).getD [] ++
    match a with
    | .toPeer _ bytes =>
      match Aurp.parse bytes with
      | some (.routing _ _ _ cmd) => cmd.tuples
      | _ => []
    | _ => []

/-- If the action is RTMP it is a beacon: Data with fair tuples for everybody on one of the networks
`nets`, on that network's port. -/
def Beacon (F : Floor) (nets : List Net) (a : Action) : Prop :=
  ∀ net d r, a.datagram net = some d → decodeDdpBody d = .rtmp r →
    ∃ n ∈ nets, a.Out (.port n.port) ∧ d.dst.node = 255 ∧
      (d.dst.net = n.range.1 ∨ d.dst.net = net) ∧
      ∃ sender range tuples, r = .data sender range tuples ∧ ∀ x ∈ tuples, F.Fair 0 x

/-- What a router with the networks `nets` may send: beacons, and routing packets with fair
tuples. -/
structure Fair (F : Floor) (nets : List Net) (a : Action) : Prop where
  beacon : a.Beacon F nets
  routing : ∀ ip m, routingOf ip a = some m → ∀ x ∈ m.2.2.tuples, F.Fair 0 x

theorem Fair.tuples {F : Floor} {nets : List Net} {a : Action} (h : a.Fair F nets) (net : UInt16) :
    ∀ x ∈ a.tuples net, F.Fair 0 x := by
  refine List.forall_mem_append.2 ⟨?_, ?_⟩
  · cases hd : a.datagram net with
    | none => simp
    | some d =>
      show ∀ x ∈ d.tuples, F.Fair 0 x
      unfold Ddp.tuples
      split
      · rename_i hr
        obtain ⟨_, -, -, -, -, _, _, _, he, hfair⟩ := h.beacon net d _ hd hr
        cases he
        exact hfair
      · simp
  · split
    · rename_i ip bytes
      cases hp : Aurp.parse bytes with
      | none => simp
      | some pkt =>
        cases pkt with
        | data => simp
        | routing dh conn seq cmd =>
          exact h.routing ip (conn, seq, cmd) (by simp [routingOf, hp])
    · simp

/-! ### What is no RTMP -/

/-- The action holds no RTMP. -/
def Plain (a : Action) : Prop :=
  ∀ net d, a.datagram net = some d → ∀ r, decodeDdpBody d ≠ .rtmp r

theorem Plain.beacon {a : Action} (h : a.Plain) (F : Floor) (nets : List Net) : a.Beacon F nets :=
  fun net d r hd hr => absurd hr (h net d hd r)

theorem Routing.plain {a : Action} (h : a.Routing) : a.Plain := by
  intro net d hd
  cases a with
  | toPeer ip bytes =>
    obtain ⟨dh, conn, seq, cmd, rfl⟩ := h
    simp only [datagram, Aurp.parse_routing] at hd
    cases hc : Cmd.parse cmd.code cmd.flags cmd.encodeBody with
    | none => simp [hc] at hd
    | some cmd' => simp [hc] at hd
  | log m => cases hd
  | _ => exact h.elim

theorem Link.plain {a : Action} (h : a.Link) : a.Plain := by
  intro net d hd
  cases a with
  | toEther id f =>
    have hf : f.proto = AARP := h
    simp only [datagram, decodeBody, if_pos hf] at hd
    cases hp : Aarp.parse f.payload with
    | none => simp [hp] at hd
    | some p => simp [hp] at hd
  | toLlap id l =>
    obtain ⟨-, ht⟩ := h
    have hne : l.typ ≠ LLAP_SHORT_DDP ∧ l.typ ≠ LLAP_LONG_DDP := by
      rcases ht with ht | ht <;> rw [ht] <;> decide
    simp [datagram, hne.1, hne.2] at hd
  | toPeer => exact h.elim
  | _ => cases hd

end Action

/-- What an action puts on its way is read with the type and the data it was sent with. -/
theorem Encodes.datagram {d d' : Ddp} {a : Action} (h : Encodes d a) {net : UInt16}
    (hd : a.datagram net = some d') : d'.typ = d.typ ∧ d'.data = d.data := by
  cases a with
  | toEther id f =>
    obtain ⟨hp, hf⟩ := h
    have hne : DDP ≠ AARP := by decide
    simp only [Action.datagram, decodeBody, hp, if_neg hne, if_true, hf, Ddp.parse_toBytes_eq,
      Option.some.injEq] at hd
    rw [← hd]
    exact ⟨rfl, rfl⟩
  | toLlap id l =>
    have hne : LLAP_LONG_DDP ≠ LLAP_SHORT_DDP := by decide
    rcases h with ⟨ht, hl⟩ | ⟨ht, hl⟩
    · simp only [Action.datagram, ht, if_neg hne, if_true, hl, Ddp.parse_toBytes_eq,
        Option.some.injEq] at hd
      rw [← hd]
      exact ⟨rfl, rfl⟩
    · simp only [Action.datagram, ht, if_true, hl, Ddp.fromShort_toShortBytes] at hd
      split_ifs at hd
      rw [← Option.some.inj hd]
      exact ⟨rfl, rfl⟩
  | toPeer ip bytes =>
    obtain ⟨dh, rfl⟩ := h
    simp only [Action.datagram] at hd
    split at hd
    · rename_i ddp hp
      cases Aurp.parse_data hp
      rw [Ddp.parse_toBytes_eq] at hd
      rw [← Option.some.inj hd]
      exact ⟨rfl, rfl⟩
    · cases hd
  | _ => exact h.elim

theorem Encodes.plain {d : Ddp} {a : Action} (h : Encodes d a)
    (hd : ∀ r, decodeDdpBody d ≠ .rtmp r) : a.Plain := by
  intro net d' hd'
  obtain ⟨ht, hdata⟩ := h.datagram hd'
  rw [decodeDdpBody_congr ht hdata]
  exact hd

/-- The two DDP types of RTMP are its own. -/
theorem not_rtmp_of_typ {d : Ddp} (h : d.typ ≠ DDP_RTMP_DATA ∧ d.typ ≠ DDP_RTMP_REQ) :
    ∀ r, decodeDdpBody d ≠ .rtmp r := by
  intro r hr
  unfold decodeDdpBody at hr
  rw [if_neg (by tauto)] at hr
  split_ifs at hr
  · cases hp : Nbp.parse d.data <;> simp [hp] at hr
  · cases hp : Atp.parse d.data <;> simp [hp] at hr
  · cases hp : Aep.parse d.data <;> simp [hp] at hr
  · cases hp : Zip.parse d.data <;> simp [hp] at hr

theorem decode_rtmpData {d : Ddp} (h : d.typ = DDP_RTMP_DATA) :
    decodeDdpBody d = ((Rtmp.parse DDP_RTMP_DATA d.data).map DdpBody.rtmp).getD .unknown := by
  unfold decodeDdpBody
  rw [if_pos (Or.inl h), h]

/-- **No service but RTMP's sends RTMP.** -/
theorem Local.Sends.not_rtmp {s : Local} {here q : Port} {ports : List Port} {d : Ddp}
    {tables : Tables} {body : DdpBody} {e : Emit} (h : s.Sends here q ports d tables body e)
    (hb : ∀ r, body = .rtmp r → r.ddpType = DDP_RTMP_DATA) :
    ∀ r, decodeDdpBody e.ddp ≠ .rtmp r := by
  refine not_rtmp_of_typ ?_
  cases h with
  | data hr he => exact absurd (hr.symm.trans (hb _ rfl)) (by decide)
  | zones hz hd =>
    rw [Emit.ddp_route, (fromPort_eq hd).1]
    decide
  | netInfo he =>
    obtain ⟨d', hd', rfl⟩ := Option.map_eq_some_iff.1 he
    rw [Emit.ddp_on, (fromPort_eq hd').1]
    decide
  | zoneList he =>
    obtain ⟨-, last, zones, d', rfl, hd'⟩ := zoneList_eq he
    rw [Emit.ddp_route, (fromPort_eq hd').1]
    decide
  | lkUp _ hq he =>
    obtain ⟨d', hd', rfl⟩ := Option.map_eq_some_iff.1 he
    rw [Emit.ddp_on, (fromPort_eq hd').1]
    decide
  | fwdReq _ hs => exact (by decide : DDP_NBP ≠ DDP_RTMP_DATA ∧ DDP_NBP ≠ DDP_RTMP_REQ)
  | reply hf he =>
    obtain ⟨addr, d', -, rfl, hd'⟩ := reply_eq he
    rw [Emit.ddp_route, (fromPort_eq hd').1]
    decide
  | echo he =>
    unfold AppleTalk.echo at he
    split_ifs at he
    obtain ⟨d', hd', rfl⟩ := Option.map_eq_some_iff.1 he
    rw [Emit.ddp_route, (fromPort_eq hd').1]
    decide

/-! ### Beacons -/

/-- A broadcast is read as one for everybody, on the network it was sent to or the cable's own. -/
theorem Port.emit_broadcast {host : Host} {p : Port} {d d' : Ddp} {a : Action}
    (h : p.emit host .broadcast d = some a) (hn : d.dst.node = 255) {net : UInt16}
    (hd : a.datagram net = some d') :
    d'.dst.node = 255 ∧ (d'.dst.net = d.dst.net ∨ d'.dst.net = net) := by
  obtain ⟨node, -, rfl⟩ := Option.map_eq_some_iff.1 h
  have hne : DDP ≠ AARP := by decide
  have hlong : LLAP_LONG_DDP ≠ LLAP_SHORT_DDP := by decide
  cases hk : p.kind with
  | ether mac =>
    simp only [hk, Action.datagram, decodeBody, frame, if_neg hne, if_true, Ddp.parse_toBytes_eq,
      Option.some.injEq] at hd
    rw [← hd]
    exact ⟨hn, Or.inl rfl⟩
  | _ =>
    simp only [hk] at hd
    split_ifs at hd
    · simp only [Action.datagram, if_true, Ddp.fromShort_toShortBytes] at hd
      split_ifs at hd
      rw [← Option.some.inj hd]
      exact ⟨rfl, Or.inr rfl⟩
    · simp only [Action.datagram, if_neg hlong, if_true, Ddp.parse_toBytes_eq,
        Option.some.injEq] at hd
      rw [← hd]
      exact ⟨hn, Or.inl rfl⟩

namespace Router

variable {F : Floor} {host : Host} {r : Router}

/-- RTMP Data for everybody on a port's network is a beacon. -/
theorem beacon_of_rtmpData {p : Port} (hp : p ∈ r.ports) {tuples : List NetworkTuple}
    (ht : ∀ x ∈ tuples, F.Fair 0 x) {e : Emit}
    (he : e ∈ rtmpData p .broadcast { net := p.range.1, node := 255 } RTMP_SOCKET tuples)
    {a : Action} (ha : a ∈ r.emit host e) : a.Beacon F (r.ports.map Port.net) := by
  intro net d' r' hd' hr'
  unfold rtmpData at he
  split at he
  · cases he
  · rename_i sender _
    obtain ⟨m, hm, rfl⟩ := List.mem_map.1 he
    obtain ⟨ps, q, hchunk, hpacked⟩ := chunk_eq sender (if p.extended then some p.range else none)
      tuples
    rw [hchunk] at hm
    obtain ⟨ts, hts, rfl⟩ := List.mem_map.1 hm
    have hfair : ∀ x ∈ ts, F.Fair 0 x := by
      intro x hx
      refine ht x ?_
      rw [← hpacked.all]
      rcases List.mem_append.1 hts with hts | hts
      · exact List.mem_append_left _ (List.mem_flatten.2 ⟨ts, hts, hx⟩)
      · exact List.mem_append_right _ (List.mem_singleton.1 hts ▸ hx)
    -- What is read is the Data that was sent.
    obtain ⟨htyp, hdata⟩ := (emit_encodes ha).datagram hd'
    have hbody : decodeDdpBody d' = .rtmp (.data sender (if p.extended then some p.range else none)
        ts) := by
      rw [decode_rtmpData htyp, hdata]
      show ((Rtmp.parse DDP_RTMP_DATA (Rtmp.data _ _ ts).toBytes).map DdpBody.rtmp).getD _ = _
      rw [Rtmp.parse_data _ _ fun x hx => (hfair x hx).wire.1,
        map_onWire fun x hx => (hfair x hx).wire]
      rfl
    unfold emit at ha
    dsimp only at ha
    split at ha
    · rename_i p' hp'
      have hemit := Option.mem_toList.1 ha
      obtain ⟨hnode, hnet⟩ := Port.emit_broadcast hemit rfl hd'
      have hout := Port.emit_out hemit
      rw [port_id hp'] at hout
      exact ⟨p.net, List.mem_map_of_mem hp, hout, hnode, hnet, _, _, ts,
        DdpBody.rtmp.inj (hr'.symm.trans hbody), hfair⟩
    · cases ha

/-- What a tick owes the cables is beacons and ZIP. -/
theorem beacon_of_tick (h : F.Holds r.tables.routes) {now : Instant} {e : Emit}
    (he : e ∈ (r.local.tick r.ports r.tables now).2) {a : Action} (ha : a ∈ r.emit host e) :
    a.Beacon F (r.ports.map Port.net) := by
  rcases List.mem_append.1 he with he | he
  · split_ifs at he
    · obtain ⟨p, hp, he⟩ := List.mem_flatMap.1 he
      refine beacon_of_rtmpData (List.mem_filter.1 hp).1 (fun x hx => ?_) he ha
      exact h.tuplesFor p.id x (List.mem_filter.1 hx).1
    · cases he
  · split_ifs at he
    · refine ((emit_encodes ha).plain (not_rtmp_of_typ ?_)).beacon F _
      unfold zipQueries at he
      obtain ⟨g, -, he⟩ := List.mem_flatMap.1 he
      split at he
      · cases he
      · obtain ⟨batch, -, he⟩ := List.mem_filterMap.1 he
        obtain ⟨d, hd, rfl⟩ := Option.map_eq_some_iff.1 he
        rw [Emit.ddp_on, (fromPort_eq hd).1]
        decide
    · cases he

end Router

/-! ### What is heard -/

/-- The datagram is no RTMP, or a beacon of the cable it came off, with tuples that are fair one
step away from where they were sent. -/
def Arrival.Told (F : Floor) (x : Arrival) : Prop :=
  ∀ r, x.body = .rtmp r → ∃ id q, x.origin = .port id ∧ x.router.port id = some q ∧
    q.owns x.datagram.dst.net ∧ x.datagram.dst.node = 255 ∧
    ∃ sender range tuples, r = .data sender range tuples ∧ ∀ t ∈ tuples, F.Fair 1 t

namespace Arrival

variable {F : Floor} {host : Host} {x : Arrival} {now : Instant}

theorem datagram_body (x : Arrival) : decodeDdpBody x.datagram = decodeDdpBody x.ddp := by
  refine decodeDdpBody_congr ?_ ?_
  · unfold datagram Router.localize
    split <;> rfl
  · unfold datagram Router.localize
    split <;> rfl

/-- A beacon is not passed on: its network's best route leads back to its cable. -/
theorem Told.not_forwarded (h : x.Told F) (hown : x.router.OwnRouted) {r : Rtmp}
    (hr : x.body = .rtmp r) :
    (x.settled host now).forward host x.origin x.datagram = [] := by
  obtain ⟨id, q, ho, hq, hnet, -⟩ := h r hr
  obtain ⟨b, hb, ht, -⟩ := hown.best (Router.mem_of_port hq).1 hnet
  refine List.eq_nil_iff_forall_not_mem.2 fun a ha => ?_
  obtain ⟨-, route, hroute, hi, -⟩ := Router.mem_forward.1 ha
  have hbest := (Router.OwnRouted.settled_best host hown now).2
  rw [hroute, hb, Option.map_some, Option.map_some, Option.some.injEq, ht, Router.port_id hq]
    at hbest
  rw [ho, hbest] at hi
  simp [Origin.is] at hi

/-- **What comes of a datagram** is RTMP only if it is a beacon, and nothing comes of a beacon. -/
theorem Told.plain (h : x.Told F) (hown : x.router.OwnRouted)
    (hbody : x.body = decodeDdpBody x.ddp) :
    ∀ a ∈ (x.router.arrived host x.origin x.ddp x.body now).2, a.Plain := by
  intro a ha
  rcases mem_arrived.1 ha with ⟨q, -, ha⟩ | ⟨-, ha⟩
  · unfold Router.served at ha
    dsimp only at ha
    rcases List.mem_append.1 ha with ha | ha
    · obtain ⟨m, rfl⟩ := Router.changed_log _ _ a ha
      exact (Action.routing_log m).plain
    · obtain ⟨e, he, ha⟩ := List.mem_flatMap.1 ha
      refine (Router.emit_encodes ha).plain ((Local.sends_of_mem he).not_rtmp fun r hr => ?_)
      obtain ⟨_, _, _, _, _, _, _, _, _, rfl, _⟩ := h r hr
      rfl
  · by_cases hr : ∃ r, x.body = .rtmp r
    · obtain ⟨r, hr⟩ := hr
      rw [h.not_forwarded hown hr] at ha
      cases ha
    · obtain ⟨route, -, -, he⟩ := Router.forward_encodes ha
      obtain ⟨hops, hcross⟩ := Router.crossed_eq x.origin route.target x.datagram
      refine he.plain fun r hr' => hr ⟨r, ?_⟩
      rw [hcross] at hr'
      rw [hbody, ← x.datagram_body]
      exact hr'

end Arrival

/-! ### The router -/

namespace Router

variable {F : Floor} {host : Host} {r : Router}

/-- The services learn fair routes from fair tuples. -/
theorem serviceOps_fair (r : Router) (origin : Origin) (d : Ddp) {body : DdpBody} (now : Instant)
    (h : ∀ sender range tuples, body = .rtmp (.data sender range tuples) →
      ∀ t ∈ tuples, F.Fair 1 t) : ∀ op ∈ r.serviceOps origin d body now, op.Fair F := by
  have hhandle : ∀ p q d, ∀ op ∈ Local.handleOps p q d body now, op.Fair F := by
    intro p q d op hop
    unfold Local.handleOps at hop
    split at hop
    · rename_i m
      split_ifs at hop
      · split at hop
        · unfold rtmpOps at hop
          split at hop
          · rename_i sender range tuples
            split_ifs at hop
            · cases hop
            · obtain ⟨t, ht, rfl⟩ := List.mem_map.1 hop
              exact h sender range tuples rfl t ht
          · cases hop
        · cases hop
      · cases hop
    · rename_i z
      split_ifs at hop
      · cases z with
        | reply zones total =>
          obtain ⟨g, -, rfl⟩ := List.mem_map.1 hop
          trivial
        | _ => cases hop
      · cases hop
    · cases hop
  unfold serviceOps
  dsimp only
  split_ifs
  · simp
  · split
    · simp
    · split_ifs
      · exact hhandle _ _ _
      · simp

/-- What the router is told in an event: beacons of its own cables and routing packets, with tuples
that are fair one step away. -/
structure Told (F : Floor) (host : Host) (r : Router) (e : Event × Instant) : Prop where
  decoded : ∀ i, e.1 = .input i → i.Decoded
  datagram : ∀ i x, e.1 = .input i → r.arrival host i e.2 = some x → x.Told F
  packet : ∀ «from» bytes dh conn seq cmd, e.1 = .input (.aurp «from» bytes) →
    Aurp.parse bytes = some (.routing dh conn seq cmd) → ∀ t ∈ cmd.tuples, F.Fair 1 t

theorem coreInputs_fair {e : Event × Instant} (h : r.Told F host e) :
    Machine.Guarded Core.next (Core.FairOps F) r.core (r.coreInputs host e) := by
  have htold : ∀ (x : Arrival), x.Told F → ∀ (q : Router),
      ∀ op ∈ q.serviceOps x.origin x.ddp x.body e.2, op.Fair F := fun x hx q =>
    q.serviceOps_fair x.origin x.ddp e.2 fun sender range tuples hb => by
      obtain ⟨_, _, _, _, _, _, _, _, _, he, ht⟩ := hx _ hb
      cases he
      exact ht
  obtain ⟨e, now⟩ := e
  cases e with
  | input i =>
    have harr := fun x => h.datagram i x rfl
    cases i with
    | ether id packet =>
      simp only [coreInputs]
      cases hp : r.port id with
      | none => trivial
      | some p =>
        unfold inboundInputs
        dsimp only
        cases hin : (p.inboundEther host packet now).2.1 with
        | ddp d =>
          cases hb : packet.body with
          | ddp d' body =>
            have hx := harr ⟨_, .port id, d, body⟩
              (by simp only [arrival, hp, Option.bind_some, hin, hb]; rfl)
            exact ⟨htold _ hx _, trivial⟩
          | _ => trivial
        | _ => trivial
    | llap id l =>
      simp only [coreInputs]
      cases hp : r.port id with
      | none => trivial
      | some p =>
        unfold inboundInputs
        dsimp only
        cases hin : (p.inboundLlap host l now).2.1 with
        | ddp d =>
          have hx := harr ⟨_, .port id, d, decodeDdpBody d⟩
            (by simp only [arrival, hp, Option.bind_some, hin]; rfl)
          exact ⟨htold _ hx _, trivial⟩
        | _ => trivial
    | aurp «from» bytes =>
      refine ⟨?_, ?_⟩
      · intro op hop
        obtain ⟨dh, conn, seq, cmd, p, hparse, -, hop⟩ := Peers.mem_packetOps hop
        exact p.routingOps_fair conn seq (h.packet «from» bytes dh conn seq cmd rfl hparse) _ now
          op hop
      · dsimp only
        cases hd : (r.peers.packet «from» bytes r.tables now).ddp.bind Ddp.parse with
        | none => trivial
        | some d =>
          have hx := harr ⟨_, .peer «from», d, decodeDdpBody d⟩
            (by simp only [arrival, hd, Option.map_some]; rfl)
          exact ⟨htold _ hx r, trivial⟩
    | tick =>
      refine ⟨List.forall_mem_singleton.2 trivial, fun op hop => ?_, trivial⟩
      obtain ⟨_, _, -, -, rfl⟩ := Peers.mem_tickOps.1 hop
      trivial
    | ping => exact ⟨by simp [Core.FairOps, Core.ops], trivial⟩
    | pingReport => exact ⟨by simp [Core.FairOps, Core.ops], trivial⟩
  | resolved name addr => exact ⟨by simp [Core.FairOps, Core.ops], trivial⟩
  | shutdown => exact ⟨by simp [Core.FairOps, Core.ops], trivial⟩

/-- In every reachable state the outstanding packet of an entry is the last it was sent. -/
theorem Reachable.ok (h : Reachable host r) : r.core.Ok := by
  obtain ⟨r0, es, ⟨cfg, kinds, now, -, -, rfl⟩, hr⟩ := h.core
  rw [hr]
  refine (Machine.run_invariant (I := fun c : Core => c.Filed ∧ c.Ok)
    (fun c i hc => ⟨hc.1.next i, hc.2.next hc.1 i⟩) ⟨?_, ?_⟩ _).2
  · intro ip p hp
    cases hp
  · intro ip p hp
    cases hp

theorem aged_nets (r : Router) (now : Instant) :
    (r.aged now).ports.map Port.net = r.ports.map Port.net := by
  refine nets_of_fixed ?_
  rw [aged, fixed, changed_ports]
  exact tickPorts_fixed now r.ports

/-- What a step sends is a beacon where it is RTMP. -/
theorem beacon_of_step (hr : Reachable host r) (h : r.core.Fair F) {i : In} {now : Instant}
    (ht : r.Told F host (.input i, now)) :
    ∀ a ∈ (r.step host i now).2, a.Beacon F (r.ports.map Port.net) := by
  intro a ha
  rcases mem_step ha with ha | ⟨m, rfl⟩ | ha | ⟨rfl, e, he, ha⟩ | ⟨x, hx, ha⟩
  · exact (Core.acts_routing hr.filed hr.ok _ a ha).plain.beacon F _
  · exact (Action.routing_log m).plain.beacon F _
  · exact ha.plain.beacon F _
  · have haged : (r.core.next (.batch [.age now], now)).Fair F :=
      h.next hr.filed hr.ok (List.forall_mem_singleton.2 trivial)
    rw [← aged_core] at haged
    rw [← r.aged_nets now]
    exact beacon_of_tick haged.routes he ha
  · obtain ⟨hf, htables, -⟩ := arrival_same hx
    have hown : x.router.OwnRouted := hr.ownRouted.congr hf (by rw [htables])
    have hbody := (arrival_reads (ht.decoded i rfl) hx).1
    exact ((ht.datagram i x rfl hx).plain hown hbody a ha).beacon F _

/-- **One event** in which the router is told nothing that is too short leaves its tables above the
floor, and it sends nothing that is too short. -/
theorem fair_event (hr : Reachable host r) (h : r.core.Fair F) {e : Event × Instant}
    (ht : r.Told F host e) :
    (r.event host e).1.core.Fair F ∧
      ∀ a ∈ (r.event host e).2, a.Fair F (r.ports.map Port.net) := by
  obtain ⟨hnext, hsent⟩ := h.run hr.filed hr.ok (coreInputs_fair ht)
  rw [← event_core] at hnext
  refine ⟨hnext, fun a ha => ⟨?_, fun ip m hm x hx => ?_⟩⟩
  · obtain ⟨e, now⟩ := e
    cases e with
    | input i => exact beacon_of_step hr h ht a ha
    | resolved name addr => cases ha
    | shutdown => exact (r.peers.shutdown_routing now a ha).plain.beacon F _
  · refine hsent ip m ?_ x hx
    rw [← sentTo_event]
    exact List.mem_filterMap.2 ⟨a, ha, hm⟩

end Router

end AppleTalk
