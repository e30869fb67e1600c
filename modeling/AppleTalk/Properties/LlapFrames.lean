import AppleTalk.Properties.ServiceSizes
import AppleTalk.Router.Arrivals

/-!
# Legal LocalTalk frames

A LocalTalk frame holds 600 octets, and neither the forwarding rules nor the port asks whether a
datagram fits one. What the services pack to 586 octets does; a datagram passed on, an echo and a
lookup are only as short as what arrived.
-/

namespace AppleTalk

/-! ### What a LocalTalk port can frame -/

/-- A frame that reads back is what every receiver takes: its data field is at most 600 octets, and
its length field agrees with it. -/
def Action.LlapLegal : Action → Prop
  | .toLlap _ l => Llap.parse l.toBytes = some l
  | _ => True

theorem Action.Remote.llapLegal {a : Action} (h : a.Remote) : a.LlapLegal := by
  cases a <;> trivial

/-- Control frames are legal. -/
theorem Action.Link.llapLegal {a : Action} (h : a.Link) : a.LlapLegal := by
  cases a with
  | toLlap id l =>
    obtain ⟨dst, src, typ, data⟩ := l
    obtain ⟨rfl, rfl | rfl⟩ := h <;> rfl
  | toPeer ip bytes => exact h.elim
  | _ => trivial

/-- The port can frame a datagram of that many octets between the two networks: a LocalTalk port
that holds an address has 595 octets of room behind a short header and 587 behind a long one. -/
def Port.Room (p : Port) (src dst : UInt16) (len : ℕ) : Prop :=
  p.extended = false → p.node.isSome →
    (if src = p.range.1 ∧ (dst = p.range.1 ∨ dst = 0) then 5 else 13) + len ≤ LLAP_MAX_DATA

/-- Whatever fits a datagram fits every port. -/
theorem Port.room_of_le (p : Port) (src dst : UInt16) {len : ℕ} (h : len ≤ DDP_MAX) :
    p.Room src dst len := by
  intro _ _
  unfold DDP_MAX at h
  unfold LLAP_MAX_DATA
  split_ifs <;> omega

theorem Port.emit_legal_iff {host : Host} {p : Port} {dest : Dest} {d : Ddp} {a : Action}
    (h : p.emit host dest d = some a) :
    a.LlapLegal ↔ p.Room d.src.net d.dst.net d.data.length := by
  obtain ⟨node, hn, rfl⟩ := Option.map_eq_some_iff.1 h
  unfold Port.Room Port.extended
  cases p.kind with
  | ether mac => simp [Action.LlapLegal]
  | _ =>
    dsimp only
    split_ifs
    · simp only [Action.LlapLegal, Llap.short_legal_iff, hn]
      simp
    · simp only [Action.LlapLegal, Llap.long_legal_iff, hn]
      simp

namespace Router

variable {host : Host} {r : Router}

/-- The port the best route leads out of can frame a datagram of that many octets. -/
def Room (r : Router) (origin : Origin) (src dst : UInt16) (len : ℕ) : Prop :=
  ∀ route id p, r.tables.best dst = some route → origin.is route.target = false →
    route.target = .port id → r.port id = some p → p.Room src dst len

theorem forward_legal_iff {origin : Origin} {d : Ddp} (hh : d.hops < MAX_HOPS) :
    (∀ a ∈ r.forward host origin d, a.LlapLegal) ↔
      r.Room origin d.src.net d.dst.net d.data.length := by
  have hcross : ∀ target, (crossed origin target d).src = d.src ∧
      (crossed origin target d).dst = d.dst ∧ (crossed origin target d).data = d.data := by
    intro target
    obtain ⟨hops, he⟩ := crossed_eq origin target d
    simp [he]
  constructor
  · intro h route id p hb hi ht hp hext hnode
    obtain ⟨a, ha⟩ := Port.exists_emit host hnode (nextDest route d)
      (crossed origin route.target d)
    have hmem : a ∈ r.forward host origin d :=
      mem_forward.2 ⟨hh, route, hb, hi, by rw [ht]; exact ⟨p, hp, ht ▸ ha⟩⟩
    have hroom := (Port.emit_legal_iff ha).1 (h a hmem) hext hnode
    rwa [(hcross _).1, (hcross _).2.1, (hcross _).2.2] at hroom
  · intro h a ha
    obtain ⟨-, route, hb, hi, ha⟩ := mem_forward.1 ha
    split at ha
    · rw [ha]
      trivial
    · rename_i id ht
      obtain ⟨p, hp, ha⟩ := ha
      rw [Port.emit_legal_iff ha, ht, (hcross _).1, (hcross _).2.1, (hcross _).2.2]
      exact h route id p hb hi ht hp

/-- A service's datagram that fits makes legal frames. -/
theorem emit_legal_of_fits {e : Emit} (h : e.ddp.Fits) : ∀ a ∈ r.emit host e, a.LlapLegal := by
  rw [Ddp.fits_iff] at h
  intro a ha
  cases e with
  | on id dest d =>
    unfold emit at ha
    dsimp only at ha
    split at ha
    · exact (Port.emit_legal_iff (Option.mem_toList.1 ha)).2 (Port.room_of_le _ _ _ h)
    · cases ha
  | route d =>
    obtain ⟨hh, -⟩ := mem_forward.1 ha
    exact (forward_legal_iff hh).2 (fun _ _ p _ _ _ _ => p.room_of_le _ _ h) a ha

/-! ### What the services answer -/

/-- Services that leave the tables alone leave the router as it is. -/
theorem served_of_serve {origin : Origin} {q : Port} {d : Ddp} {body : DdpBody} {now : Instant}
    (emits : List Emit)
    (h : r.local.handle (r.arrivedOn origin) q r.ports d body r.tables now =
      serve r.tables emits) :
    r.served host origin q d body now = (r, emits.flatMap (r.emit host)) := by
  unfold served
  rw [h]
  rfl

/-- The services' answers that may be longer than a frame have room: an echo on its way back, and a
lookup on our own cables and on its way to other routers. -/
structure AnswersRoom (r : Router) (here q : Port) (d : Ddp) (body : DdpBody) : Prop where
  echo : ∀ a addr, body = .aep a → d.dstSocket = AEP_SOCKET → a.func = .request →
    q.addr = some addr → r.Room .here addr.net d.src.net (1 + a.data.length)
  cables : ∀ n t, body = .nbp n → d.dstSocket = NBP_SOCKET → n.tuples.head? = some t →
    ∀ p ∈ Local.cables r.ports r.tables n (Local.lookupZone here t), ∀ addr, p.addr = some addr →
      ∀ p', r.port p.id = some p' →
        p'.Room addr.net 0 (relaySize n (Local.lookupZone here t))
  others : ∀ n t, body = .nbp n → d.dstSocket = NBP_SOCKET → n.tuples.head? = some t →
    ∀ start ∈ Local.others r.ports r.tables n (Local.lookupZone here t),
      r.Room .here d.src.net start (relaySize n (Local.lookupZone here t))

theorem emit_on_legal_iff {id : PortId} {dest : Dest} {d : Ddp} :
    (∀ a ∈ r.emit host (.on id dest d), a.LlapLegal) ↔
      ∀ p, r.port id = some p → p.Room d.src.net d.dst.net d.data.length := by
  unfold emit
  dsimp only
  cases r.port id with
  | none => simp
  | some p =>
    simp only [Option.mem_toList, Option.some.injEq, forall_eq']
    constructor
    · intro h hext hnode
      obtain ⟨a, ha⟩ := Port.exists_emit host hnode dest d
      exact (Port.emit_legal_iff ha).1 (h a ha) hext hnode
    · exact fun h a ha => (Port.emit_legal_iff ha).2 h

theorem emit_route_legal_iff {d : Ddp} (hh : d.hops = 0) :
    (∀ a ∈ r.emit host (.route d), a.LlapLegal) ↔
      r.Room .here d.src.net d.dst.net d.data.length :=
  forward_legal_iff (by rw [hh]; decide)

theorem lkup_legal_iff {q : Port} {n : Nbp} {zone : Str} {addr : Addr} {e : Emit}
    (ha : q.addr = some addr) (h : lkup q n zone = some e) :
    (∀ a ∈ r.emit host e, a.LlapLegal) ↔
      ∀ p, r.port q.id = some p → p.Room addr.net 0 (relaySize n zone) := by
  obtain ⟨d', hd, rfl⟩ := Option.map_eq_some_iff.1 h
  obtain ⟨src, hsrc, rfl⟩ := Option.map_eq_some_iff.1 hd
  obtain rfl := Option.some.inj (ha.symm.trans hsrc)
  rw [emit_on_legal_iff]
  simp only [datagram, length_retarget]

theorem fwdReq_legal_iff {d : Ddp} {n : Nbp} {start : UInt16} {zone : Str} :
    (∀ a ∈ r.emit host (fwdReq d n start zone), a.LlapLegal) ↔
      r.Room .here d.src.net start (relaySize n zone) := by
  unfold fwdReq
  rw [emit_route_legal_iff rfl]
  simp only [datagram, length_retarget]

variable (host) in
theorem echo_legal_iff {q : Port} {d : Ddp} {a : Aep} {addr : Addr} {e : Emit}
    (ha : q.addr = some addr) (h : echo q d a = some e) :
    (∀ a ∈ r.emit host e, a.LlapLegal) ↔ r.Room .here addr.net d.src.net (1 + a.data.length) := by
  unfold echo at h
  split_ifs at h
  obtain ⟨d', hd, rfl⟩ := Option.map_eq_some_iff.1 h
  obtain ⟨src, hsrc, rfl⟩ := Option.map_eq_some_iff.1 hd
  obtain rfl := Option.some.inj (ha.symm.trans hsrc)
  rw [emit_route_legal_iff rfl]
  simp only [datagram, Aep.toBytes, List.length_cons, Nat.add_comm]

/-- **When the services' frames are legal.** -/
theorem served_legal_iff {origin : Origin} {q : Port} {d : Ddp} {body : DdpBody} {now : Instant} :
    (∀ a ∈ (r.served host origin q d body now).2, a.LlapLegal) ↔
      r.AnswersRoom ((r.arrivedOn origin).getD q) q d body := by
  set here := (r.arrivedOn origin).getD q
  constructor
  · intro h
    have hlookup : ∀ n, body = .nbp n → d.dstSocket = NBP_SOCKET →
        ∀ e ∈ r.local.nbp here r.ports d n r.tables, ∀ a ∈ r.emit host e, a.LlapLegal := by
      rintro n rfl hs e he a ha
      refine h a ?_
      rw [served_of_serve (r.local.nbp here r.ports d n r.tables)]
      · exact List.mem_flatMap.2 ⟨e, he, ha⟩
      · unfold Local.handle
        dsimp only
        rw [if_pos hs]
    refine ⟨?_, ?_, ?_⟩
    · rintro a addr rfl hs hf haddr
      obtain ⟨e, he⟩ : ∃ e, echo q d a = some e := by
        unfold echo fromPort
        rw [if_neg (not_not.2 hf), haddr]
        exact ⟨_, rfl⟩
      refine (echo_legal_iff host haddr he).1 fun x hx => h x ?_
      rw [served_of_serve [e]]
      · simpa using hx
      · unfold Local.handle
        dsimp only
        rw [if_pos hs, he]
        rfl
    · intro n t hb hs ht p hp addr haddr
      obtain ⟨e, he⟩ : ∃ e, lkup p n (Local.lookupZone here t) = some e := by
        unfold lkup fromPort
        rw [haddr]
        exact ⟨_, rfl⟩
      exact (lkup_legal_iff haddr he).1
        (hlookup n hb hs e ((Local.mem_nbp ht).2 (Or.inl ⟨p, hp, he⟩)))
    · intro n t hb hs ht start hstart
      exact fwdReq_legal_iff.1
        (hlookup n hb hs _ ((Local.mem_nbp ht).2 (Or.inr (Or.inl ⟨start, hstart, rfl⟩))))
  · intro h a ha
    -- Whatever fits a datagram makes legal frames, whichever way the tables went.
    have hfits : (∀ e ∈ (r.local.handle (r.arrivedOn origin) q r.ports d body r.tables now).emits,
        e.ddp.Fits) → a.LlapLegal := by
      intro hfits
      unfold served at ha
      dsimp only at ha
      rcases List.mem_append.1 ha with ha | ha
      · exact (changed_remote _ _ a ha).llapLegal
      · obtain ⟨e, he, ha⟩ := List.mem_flatMap.1 ha
        exact emit_legal_of_fits (hfits e he) a ha
    cases body with
    | nbp n =>
      by_cases hs : d.dstSocket = NBP_SOCKET
      · rw [served_of_serve (r.local.nbp here r.ports d n r.tables)
          (by unfold Local.handle; dsimp only; rw [if_pos hs])] at ha
        obtain ⟨e, he, ha⟩ := List.mem_flatMap.1 ha
        cases Local.sends_of_mem_nbp (q := q) he with
        | lkUp ht hp he =>
          obtain ⟨addr, haddr⟩ : ∃ addr, Port.addr _ = some addr :=
            Option.isSome_iff_exists.1 (by simpa [Port.addr] using lkup_claimed he)
          exact (lkup_legal_iff haddr he).2 (h.cables n _ rfl hs ht _ hp addr haddr) a ha
        | fwdReq ht hstart => exact fwdReq_legal_iff.2 (h.others n _ rfl hs ht _ hstart) a ha
        | reply _ he => exact emit_legal_of_fits (Local.reply_fits he) a ha
      · rw [served_of_serve []
          (by unfold Local.handle; dsimp only; rw [if_neg hs])] at ha
        cases ha
    | aep x =>
      by_cases hs : d.dstSocket = AEP_SOCKET
      · rw [served_of_serve (echo q d x).toList
          (by unfold Local.handle; dsimp only; rw [if_pos hs])] at ha
        obtain ⟨e, he, ha⟩ := List.mem_flatMap.1 ha
        have he := Option.mem_toList.1 he
        have hclaimed : x.func = .request ∧ ∃ addr, q.addr = some addr := by
          unfold echo at he
          split_ifs at he with hf
          obtain ⟨d', hd, -⟩ := Option.map_eq_some_iff.1 he
          obtain ⟨addr, haddr, -⟩ := Option.map_eq_some_iff.1 hd
          exact ⟨not_not.1 hf, addr, haddr⟩
        obtain ⟨hf, addr, haddr⟩ := hclaimed
        exact (echo_legal_iff host haddr he).2 (h.echo x addr rfl hs hf haddr) a ha
      · rw [served_of_serve []
          (by unfold Local.handle; dsimp only; rw [if_neg hs])] at ha
        cases ha
    | _ =>
      exact hfits fun e he => (Local.sends_of_mem he).fits (by simp) (by simp)

/-! ### What a step sends -/

end Router

/-- What is made of a datagram that arrived has room: the copy passed on, and what the services
answer. -/
structure Arrival.HasRoom (x : Arrival) : Prop where
  passed : x.Forwarded → x.datagram.hops < MAX_HOPS →
    x.router.Room x.origin x.datagram.src.net x.datagram.dst.net x.datagram.data.length
  answered : ∀ q, x.Served q →
    x.router.AnswersRoom ((x.router.arrivedOn x.origin).getD q) q x.datagram x.body

namespace Router

variable {host : Host} {r : Router}

variable (host) in
/-- What the services learn of a datagram does not change which of our own ports it is passed on
to. -/
theorem OwnRouted.settled_best {x : Arrival} (h : x.router.OwnRouted) (now : Instant) :
    (x.settled host now).ports = x.router.ports ∧
      ((x.settled host now).tables.best x.datagram.dst.net).map Route.target =
        (x.router.tables.best x.datagram.dst.net).map Route.target := by
  unfold Arrival.settled
  split
  · exact ⟨rfl, rfl⟩
  · rename_i q hq
    obtain ⟨hqmem, hqnet⟩ := mem_of_owner hq
    split_ifs
    · obtain ⟨b, hb, ht, -⟩ := h.best hqmem hqnet
      have hs := h.served host x.origin q x.datagram x.body now
      obtain ⟨b', hb', ht', -⟩ := hs.best (by rw [served_ports]; exact hqmem) hqnet
      exact ⟨served_ports .., by rw [hb, hb', Option.map_some, Option.map_some, ht, ht']⟩
    · exact ⟨rfl, rfl⟩

theorem Room.congr {r r' : Router} {origin : Origin} {src dst : UInt16} {len : ℕ}
    (hp : r'.ports = r.ports)
    (ht : (r'.tables.best dst).map Route.target = (r.tables.best dst).map Route.target)
    (h : r.Room origin src dst len) : r'.Room origin src dst len := by
  intro route id p hb hi htarget hport
  rw [hb, Option.map_some] at ht
  obtain ⟨route', hb', he⟩ := Option.map_eq_some_iff.1 ht.symm
  rw [port, hp] at hport
  exact h route' id p hb' (he ▸ hi) (he.trans htarget) hport

/-- **When the frames of a datagram that arrived are legal.** -/
theorem OwnRouted.arrived_legal_iff {x : Arrival} (h : x.router.OwnRouted) (now : Instant) :
    (∀ a ∈ (x.router.arrived host x.origin x.ddp x.body now).2, a.LlapLegal) ↔ x.HasRoom := by
  obtain ⟨hports, hbest⟩ := h.settled_best host now
  constructor
  · intro hall
    refine ⟨fun hf hh => ?_, fun q hq => ?_⟩
    · have hlegal : ∀ a ∈ (x.settled host now).forward host x.origin x.datagram, a.LlapLegal :=
        fun a ha => hall a (Arrival.mem_arrived.2 (Or.inr ⟨hf, ha⟩))
      exact Room.congr hports.symm hbest.symm ((forward_legal_iff hh).1 hlegal)
    · exact served_legal_iff.1 fun a ha => hall a (Arrival.mem_arrived.2 (Or.inl ⟨q, hq, ha⟩))
  · intro hroom a ha
    rcases Arrival.mem_arrived.1 ha with ⟨q, hq, ha⟩ | ⟨hf, ha⟩
    · exact served_legal_iff.2 (hroom.answered q hq) a ha
    · obtain ⟨hh, -⟩ := mem_forward.1 ha
      exact (forward_legal_iff hh).2 (Room.congr hports hbest (hroom.passed hf hh)) a ha

/-- The datagram an event brings has room wherever it goes. -/
def Roomy (host : Host) (r : Router) (e : Event × Instant) : Prop :=
  match e.1 with
  | .input i => ∀ x, r.arrival host i e.2 = some x → x.HasRoom
  | _ => True

/-- **When every LocalTalk frame is legal**: in every reachable state and whatever happens, just
when what is made of a datagram that arrives has room. -/
theorem llap_frames_legal_iff (h : Reachable host r) (e : Event × Instant) :
    (∀ id l, .toLlap id l ∈ (r.event host e).2 → Llap.parse l.toBytes = some l) ↔
      r.Roomy host e := by
  have hsplit : (∀ id l, .toLlap id l ∈ (r.event host e).2 → Llap.parse l.toBytes = some l) ↔
      ∀ a ∈ (r.event host e).2, a.LlapLegal := by
    refine ⟨fun hall a ha => ?_, fun hall id l hl => hall _ hl⟩
    cases a with
    | toLlap id l => exact hall id l ha
    | _ => trivial
  rw [hsplit]
  obtain ⟨e, now⟩ := e
  cases e with
  | input i =>
    constructor
    · intro hall x hx
      have hown := h.ownRouted.congr (arrival_same hx).1 (by rw [(arrival_same hx).2.1])
      exact (hown.arrived_legal_iff now).1 fun a ha => hall a (mem_step_of_arrived hx ha)
    · intro hroom a ha
      cases acts_of_mem ha with
      | remote h => exact h.llapLegal
      | link h => exact h.llapLegal
      | owed _ he ha => exact emit_legal_of_fits (Local.tick_fits _ he) a ha
      | arrived hx ha =>
        have hown := h.ownRouted.congr (arrival_same hx).1 (by rw [(arrival_same hx).2.1])
        exact (hown.arrived_legal_iff now).2 (hroom _ hx) a ha
  | resolved name addr => exact ⟨fun _ => trivial, fun _ a ha => by cases ha⟩
  | shutdown =>
    exact ⟨fun _ => trivial, fun _ a ha => (r.peers.shutdown_remote now a ha).llapLegal⟩

theorem llap_frames_legal_iff_pair :
    (∀ id l, .toLlap id l ∈ (pair.event .lowest (.input (.llap 0 farFrame), fromSecs 5)).2 →
        Llap.parse l.toBytes = some l) ↔
      pair.Roomy .lowest (.input (.llap 0 farFrame), fromSecs 5) :=
  llap_frames_legal_iff pair_reachable (.input (.llap 0 farFrame), fromSecs 5)

/-- A datagram of 700 octets out of a tunnel, for node 5 of network 10. -/
def longRelay : Ddp :=
  { hops := 1, length := 713, checksum := 0, dst := { net := 10, node := 5 }, dstSocket := 200
    src := { net := 30, node := 7 }, srcSocket := 200, typ := 9, data := List.replicate 700 0 }

/-- A datagram of 700 octets goes out in a LocalTalk frame no receiver takes. -/
theorem long_frame_sent :
    ¬∀ (r : Router) (e : Event × Instant), Reachable .lowest r →
      ∀ id l, .toLlap id l ∈ (r.event .lowest e).2 → Llap.parse l.toBytes = some l := by
  intro h
  let bytes := (Aurp.data { dst := .null, src := .null } longRelay.toBytes).toBytes
  have hacts : (pair.step .lowest (.aurp ⟨192, 0, 2, 1⟩ bytes) (fromSecs 5)).2 =
      [.toLlap 0 { dst := 5, src := 128, typ := LLAP_LONG_DDP, data := longRelay.toBytes }] := by
    decide +kernel
  have hlegal := h pair (.input (.aurp ⟨192, 0, 2, 1⟩ bytes), fromSecs 5) pair_reachable 0 _
    (hacts ▸ List.mem_singleton_self _)
  rw [Llap.long_legal_iff] at hlegal
  have hlen : longRelay.data.length = 700 := List.length_replicate
  unfold LLAP_MAX_DATA at hlegal
  omega

end Router

end AppleTalk
