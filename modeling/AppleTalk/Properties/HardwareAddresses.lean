import AppleTalk.Properties.Addressed
import AppleTalk.Router.Arrivals

/-!
# Whose hardware address a frame is sent to

An EtherTalk port looks one node's hardware address up under the network of the datagram, and
failing that takes any it gleaned for the same node number within its range. On a range of several
networks, and for a datagram on its way to the next router, that may be another node's.
-/

namespace AppleTalk

/-! ### One port -/

/-- The frame goes to nobody in particular, or to the hardware address gleaned for `a`. -/
def Port.RightMac (p : Port) (a : Addr) (m : MacAddr) : Prop :=
  m = BROADCAST_MAC ∨ (a, m) ∈ p.amt

/-- The port cannot take another node for `a`: what it has gleaned for `a`'s number on the
datagram's network, or else for that number on any network of its range, is the hardware address of
`a`. -/
def Port.Clear (p : Port) (a : Addr) (net : UInt16) : Prop :=
  if macFor p.amt { net := net, node := a.node } ≠ BROADCAST_MAC then
    (a, macFor p.amt { net := net, node := a.node }) ∈ p.amt
  else ∀ e ∈ p.amt, e.1.node = a.node → p.owns e.1.net → p.RightMac a e.2

/-- The map is iterated in another order. -/
def Host.ordered (host : Host) (order : List (Addr × MacAddr) → List (Addr × MacAddr)) : Host :=
  { host with order := order }

/-- **When a port finds the right hardware address**, in whatever order its map is iterated. -/
theorem Port.rightMac_iff (host : Host) (p : Port) (a : Addr) (net : UInt16) :
    (∀ order : List (Addr × MacAddr) → List (Addr × MacAddr), (∀ l, (order l).Perm l) →
        p.RightMac a (p.macForNode (host.ordered order) a.node net)) ↔ p.Clear a net := by
  unfold Clear macForNode
  dsimp only
  by_cases hexact : macFor p.amt { net := net, node := a.node } ≠ BROADCAST_MAC
  · simp only [if_pos hexact]
    constructor
    · exact fun h => (h (fun l => l) fun l => .refl l).resolve_left hexact
    · exact fun h _ _ => Or.inr h
  · simp only [if_neg hexact, Host.ordered]
    constructor
    · intro h e he hnode hown
      -- Iterated with this entry first, the map yields this entry.
      classical
      let order := fun l : List (Addr × MacAddr) => if e ∈ l then e :: l.erase e else l
      have hperm : ∀ l, (order l).Perm l := by
        intro l
        by_cases hl : e ∈ l
        · rw [show order l = e :: l.erase e from if_pos hl]
          exact (List.perm_cons_erase hl).symm
        · rw [show order l = l from if_neg hl]
      have hfirst := h order hperm
      rw [show order p.amt = e :: p.amt.erase e from if_pos he] at hfirst
      simpa [hnode, hown] using hfirst
    · intro h order hperm
      cases hfind : (order p.amt).find? fun e => e.1.node = a.node ∧ p.owns e.1.net with
      | none => exact Or.inl rfl
      | some e =>
        have he := (hperm p.amt).mem_iff.1 (List.mem_of_find?_eq_some hfind)
        have hp := List.find?_some hfind
        simp only [decide_eq_true_eq] at hp
        exact h e he hp.1 hp.2

theorem Port.emit_node {host : Host} {p : Port} {n : UInt8} {d : Ddp} {id : PortId} {f : Frame}
    (h : p.emit host (.node n) d = some (.toEther id f)) :
    p.extended ∧ p.node.isSome ∧ f.dst = p.macForNode host n d.dst.net := by
  obtain ⟨node, hn, h⟩ := Option.map_eq_some_iff.1 h
  unfold Port.extended
  cases hk : p.kind with
  | ether mac =>
    rw [hk] at h
    cases h
    exact ⟨rfl, by simp [hn], rfl⟩
  | _ =>
    rw [hk] at h
    dsimp only at h
    split_ifs at h

theorem Port.exists_emit_node (host : Host) {p : Port} (hext : p.extended) (hn : p.node.isSome)
    (n : UInt8) (d : Ddp) : ∃ id f, p.emit host (.node n) d = some (.toEther id f) := by
  obtain ⟨node, hn⟩ := Option.isSome_iff_exists.1 hn
  unfold Port.extended at hext
  split at hext
  · rename_i mac hk
    exact ⟨p.id, _, by rw [Port.emit, hn, Option.map_some, hk]⟩
  · cases hext

/-! ### The services name the node a datagram is for -/

theorem rtmpData_node {port : Port} {dest : Dest} {dst : Addr} {dstSocket : UInt8}
    {tuples : List NetworkTuple} {id : PortId} {n : UInt8} {d : Ddp}
    (h : .on id (.node n) d ∈ rtmpData port dest dst dstSocket tuples) :
    dest = .node n ∧ d.dst = dst := by
  unfold rtmpData at h
  split at h
  · cases h
  · obtain ⟨r, -, he⟩ := List.mem_map.1 h
    simp only [Emit.on.injEq] at he
    obtain ⟨-, hdest, rfl⟩ := he
    exact ⟨hdest, rfl⟩

/-- A service pins a datagram to the node it is for. -/
theorem Local.Sends.node {s : Local} {here concerning : Port} {ports : List Port} {d : Ddp}
    {tables : Tables} {body : DdpBody} {e : Emit}
    (h : s.Sends here concerning ports d tables body e) :
    ∀ id n d', e = .on id (.node n) d' → n = d'.dst.node := by
  rintro id n d' rfl
  cases h with
  | data _ he =>
    obtain ⟨hdest, hdst⟩ := rtmpData_node he
    rw [hdst]
    exact (Dest.node.inj hdest).symm
  | netInfo he =>
    obtain ⟨d0, hd, he⟩ := Option.map_eq_some_iff.1 he
    obtain ⟨src, -, rfl⟩ := Option.map_eq_some_iff.1 hd
    simp only [Emit.on.injEq] at he
    obtain ⟨-, hdest, rfl⟩ := he
    split_ifs at hdest
    exact (Dest.node.inj hdest).symm
  | zoneList he =>
    obtain ⟨-, _, _, _, he, -⟩ := zoneList_eq he
    cases he
  | lkUp _ _ he =>
    obtain ⟨d0, -, he⟩ := Option.map_eq_some_iff.1 he
    cases he
  | reply _ he =>
    obtain ⟨_, _, -, he, -⟩ := Local.reply_eq he
    cases he
  | echo he =>
    unfold AppleTalk.echo at he
    split_ifs at he
    obtain ⟨d0, -, he⟩ := Option.map_eq_some_iff.1 he
    cases he

theorem Local.tick_node {s : Local} {ports : List Port} {tables : Tables} {now : Instant}
    {e : Emit} (h : e ∈ (s.tick ports tables now).2) :
    ∀ id n d, e = .on id (.node n) d → n = d.dst.node := by
  rintro id n d rfl
  rcases List.mem_append.1 h with h | h
  · split_ifs at h
    · obtain ⟨p, -, h⟩ := List.mem_flatMap.1 h
      cases (rtmpData_node h).1
    · cases h
  · split_ifs at h
    · obtain ⟨g, -, h⟩ := List.mem_flatMap.1 h
      split at h
      · cases h
      · obtain ⟨batch, -, h⟩ := List.mem_filterMap.1 h
        obtain ⟨d0, hd, he⟩ := Option.map_eq_some_iff.1 h
        obtain ⟨src, -, rfl⟩ := Option.map_eq_some_iff.1 hd
        simp only [Emit.on.injEq] at he
        obtain ⟨-, hdest, rfl⟩ := he
        exact (Dest.node.inj hdest).symm
    · cases h

/-! ### Everything sent to one node -/

/-- The frame goes to the whole cable or to a zone of it. -/
def Frame.ToMany (f : Frame) : Prop := f.dst = BROADCAST_MAC ∨ ∃ z, f.dst = zoneMulticast z

namespace Router

variable (host : Host)

/-- `forward` sends the datagram on to the node at `a`: the node it is for when its network is a
cable of ours, else the next router. -/
def Onward (r : Router) (origin : Origin) (d : Ddp) (p : Port) (a : Addr) (d' : Ddp) : Prop :=
  d.hops < MAX_HOPS ∧ ∃ route, r.tables.best d.dst.net = some route ∧
    origin.is route.target = false ∧ d' = crossed origin route.target d ∧
    (∃ id, route.target = .port id ∧ r.port id = some p) ∧
    if route.distance = 0 then d.dst.node ≠ 255 ∧ a = d.dst else a = route.next

/-- A service's datagram goes to the node at `a`: the one it is for, or the next router. -/
def ToNode (r : Router) (e : Emit) (p : Port) (a : Addr) (d' : Ddp) : Prop :=
  match e with
  | .on id (.node _) d => r.port id = some p ∧ d' = d ∧ a = d.dst
  | .on .. => False
  | .route d => r.Onward .here d p a d'

/-- The router that sends the services' answers. -/
def answering (x : Arrival) (q : Port) (now : Instant) : Router :=
  (x.router.served host x.origin q x.datagram x.body now).1

/-- Everything a step sends to one node: the port, the node's address and the datagram. -/
inductive NodeSend (r : Router) (i : In) (now : Instant) (p : Port) (a : Addr) (d : Ddp) : Prop
  | forwarded {x : Arrival} (hx : r.arrival host i now = some x) (hf : x.Forwarded)
      (h : (x.settled host now).Onward x.origin x.datagram p a d)
  | answered {x : Arrival} {q : Port} {e : Emit} (hx : r.arrival host i now = some x)
      (hq : x.Served q)
      (he : e ∈ (x.router.local.handle (x.router.arrivedOn x.origin) q x.router.ports x.datagram
        x.body x.router.tables now).emits)
      (h : (answering host x q now).ToNode e p a d)
  | owed {e : Emit} (hi : i = .tick)
      (he : e ∈ ((r.aged now).local.tick (r.aged now).ports (r.aged now).tables now).2)
      (h : (r.aged now).ToNode e p a d)

variable {host} {r : Router}

theorem mem_forward_of_onward {origin : Origin} {d : Ddp} {p : Port} {a : Addr} {d' : Ddp}
    (h : r.Onward origin d p a d') {act : Action} (ha : p.emit host (.node a.node) d' = some act) :
    act ∈ r.forward host origin d := by
  obtain ⟨hh, route, hb, hi, rfl, ⟨id, ht, hp⟩, hto⟩ := h
  have hdest : nextDest route d = .node a.node := by
    unfold nextDest
    split_ifs at hto ⊢ with h0 h255
    · exact absurd h255 hto.1
    · rw [hto.2]
    · rw [hto]
  refine mem_forward.2 ⟨hh, route, hb, hi, ?_⟩
  rw [ht] at ha ⊢
  exact ⟨p, hp, hdest ▸ ha⟩

/-- `forward` sends a frame to one node or broadcasts it. -/
theorem forward_toEther {origin : Origin} {d : Ddp} {id : PortId} {f : Frame}
    (h : .toEther id f ∈ r.forward host origin d) :
    (∃ p a d', r.Onward origin d p a d' ∧
      p.emit host (.node a.node) d' = some (.toEther id f)) ∨ f.ToMany := by
  obtain ⟨hh, route, hb, hi, h⟩ := mem_forward.1 h
  split at h
  · cases h
  · rename_i id' ht
    obtain ⟨p, hp, he⟩ := h
    unfold nextDest at he
    have honward : ∀ a,
        (if route.distance = 0 then d.dst.node ≠ 255 ∧ a = d.dst else a = route.next) →
        r.Onward origin d p a (crossed origin route.target d) := fun a ha =>
      ⟨hh, route, hb, hi, rfl, ⟨id', ht, hp⟩, ha⟩
    split_ifs at he with h0 h255
    · refine Or.inr (Or.inl ?_)
      obtain ⟨node, -, he⟩ := Option.map_eq_some_iff.1 he
      split at he
      · cases he
        rfl
      · dsimp only at he
        split_ifs at he
    · exact Or.inl ⟨p, d.dst, _, honward _ (by rw [if_pos h0]; exact ⟨h255, rfl⟩), he⟩
    · exact Or.inl ⟨p, route.next, _, honward _ (by rw [if_neg h0]), he⟩

theorem mem_emit_of_toNode {e : Emit} {p : Port} {a : Addr} {d : Ddp}
    (hn : ∀ id n d, e = .on id (.node n) d → n = d.dst.node) (h : r.ToNode e p a d) {act : Action}
    (ha : p.emit host (.node a.node) d = some act) : act ∈ r.emit host e := by
  cases e with
  | on id dest d0 =>
    cases dest with
    | node n =>
      obtain ⟨hp, rfl, rfl⟩ := h
      obtain rfl := hn id n d rfl
      unfold emit
      dsimp only
      rw [hp]
      exact Option.mem_toList.2 ha
    | _ => exact h.elim
  | route d0 => exact mem_forward_of_onward h ha

theorem emit_toEther {e : Emit} {id : PortId} {f : Frame}
    (hn : ∀ id n d, e = .on id (.node n) d → n = d.dst.node)
    (h : .toEther id f ∈ r.emit host e) :
    (∃ p a d, r.ToNode e p a d ∧ p.emit host (.node a.node) d = some (.toEther id f)) ∨
      f.ToMany := by
  cases e with
  | on id' dest d =>
    unfold emit at h
    dsimp only at h
    split at h
    · rename_i p hp
      have he := Option.mem_toList.1 h
      cases dest with
      | node n =>
        obtain rfl := hn id' n d rfl
        exact Or.inl ⟨p, d.dst, d, ⟨hp, rfl, rfl⟩, he⟩
      | _ =>
        obtain ⟨node, -, he⟩ := Option.map_eq_some_iff.1 he
        split at he
        · cases he
          first
            | exact Or.inr (Or.inl rfl)
            | exact Or.inr (Or.inr ⟨_, rfl⟩)
        · dsimp only at he
          split_ifs at he
    · cases h
  | route d => exact forward_toEther h

/-- What is sent to one node goes out in the step's frames. -/
theorem mem_step_of_nodeSend {i : In} {now : Instant} {p : Port} {a : Addr} {d : Ddp}
    (h : NodeSend host r i now p a d) {act : Action}
    (ha : p.emit host (.node a.node) d = some act) : act ∈ (r.step host i now).2 := by
  cases h with
  | forwarded hx hf h =>
    exact mem_step_of_arrived hx
      (Arrival.mem_arrived.2 (Or.inr ⟨hf, mem_forward_of_onward h ha⟩))
  | answered hx hq he h =>
    refine mem_step_of_arrived hx (Arrival.mem_arrived.2 (Or.inl ⟨_, hq, ?_⟩))
    have := mem_emit_of_toNode (Local.sends_of_mem he).node h ha
    exact List.mem_append_right _ (List.mem_flatMap.2 ⟨_, he, this⟩)
  | owed hi he h =>
    subst hi
    have := mem_emit_of_toNode (Local.tick_node he) h ha
    exact List.mem_append_left _ (List.mem_append_left _ (List.mem_append_right _
      (List.mem_flatMap.2 ⟨_, he, this⟩)))

/-- Every frame a step sends with a datagram in it goes to one node, or to many. -/
theorem nodeSend_of_mem_step {i : In} {now : Instant} {id : PortId} {f : Frame}
    (h : .toEther id f ∈ (r.step host i now).2) (hf : f.proto = DDP) :
    (∃ p a d, NodeSend host r i now p a d ∧
      p.emit host (.node a.node) d = some (.toEther id f)) ∨ f.ToMany := by
  cases acts_of_mem h with
  | remote h => exact h.elim
  | link h => exact absurd (h.symm.trans hf) (by decide)
  | owed hi he ha =>
    refine (emit_toEther (Local.tick_node he) ha).imp_left ?_
    rintro ⟨p, a, d, h, he'⟩
    exact ⟨p, a, d, .owed hi he h, he'⟩
  | arrived hx ha =>
    rcases Arrival.mem_arrived.1 ha with ⟨q, hq, ha⟩ | ⟨hfwd, ha⟩
    · unfold served at ha
      dsimp only at ha
      rcases List.mem_append.1 ha with ha | ha
      · exact (changed_remote _ _ _ ha).elim
      · obtain ⟨e, he, ha⟩ := List.mem_flatMap.1 ha
        refine (emit_toEther (Local.sends_of_mem he).node ha).imp_left ?_
        rintro ⟨p, a, d, h, he'⟩
        exact ⟨p, a, d, .answered hx hq he h, he'⟩
    · refine (forward_toEther ha).imp_left ?_
      rintro ⟨p, a, d, h, he'⟩
      exact ⟨p, a, d, .forwarded hx hfwd h, he'⟩

/-- **When every frame goes to the right hardware address.** Whatever order the ports' maps are
iterated in, each frame for one node carries the broadcast address or the one gleaned for the
address the datagram is handed to, just when no port it leaves by can take another node for that
address. What is sent to one node is exactly what the step's frames carry, but for those to a whole
cable or zone. -/
theorem right_macs_iff (host : Host) (r : Router) (i : In) (now : Instant) :
    ((∀ order : List (Addr × MacAddr) → List (Addr × MacAddr), (∀ l, (order l).Perm l) →
        ∀ p a d, NodeSend host r i now p a d → ∀ id f,
          p.emit (host.ordered order) (.node a.node) d = some (.toEther id f) →
          p.RightMac a f.dst) ↔
      ∀ p a d, NodeSend host r i now p a d → p.extended → p.node.isSome → p.Clear a d.dst.net) ∧
    ∀ id f, f.proto = DDP → (.toEther id f ∈ (r.step host i now).2 ∧ ¬f.ToMany →
        ∃ p a d, NodeSend host r i now p a d ∧
          p.emit host (.node a.node) d = some (.toEther id f)) ∧
      ((∃ p a d, NodeSend host r i now p a d ∧
          p.emit host (.node a.node) d = some (.toEther id f)) →
        .toEther id f ∈ (r.step host i now).2) := by
  refine ⟨⟨fun h p a d hs hext hn => ?_, fun h order hperm p a d hs id f he => ?_⟩,
    fun id f hf => ⟨fun hmem => ?_, ?_⟩⟩
  · refine (p.rightMac_iff host a d.dst.net).1 fun order hperm => ?_
    obtain ⟨id, f, he⟩ := Port.exists_emit_node (host.ordered order) hext hn a.node d
    rw [← (Port.emit_node he).2.2]
    exact h order hperm p a d hs id f he
  · obtain ⟨hext, hn, hdst⟩ := Port.emit_node he
    rw [hdst]
    exact (p.rightMac_iff host a d.dst.net).2 (h p a d hs hext hn) order hperm
  · exact (nodeSend_of_mem_step hmem.1 hf).resolve_right hmem.2
  · rintro ⟨p, a, d, hs, he⟩
    exact mem_step_of_nodeSend hs he

/-- An EtherTalk cable of two networks, 10 and 11. -/
def wideConfig : Config :=
  { name := ['R'], publicIp := none, openPeering := true, peers := []
    ethertalk := [{ interface := "eth0", net := (10, 11), zones := [['A']] }]
    ltoudp := [], tashtalk := [] }

/-- A frame of node 11.5. -/
def frameOf11 : Packet :=
  let d : Ddp :=
    { hops := 0, length := 13, checksum := 0, dst := { net := 11, node := 255 }, dstSocket := 9
      src := { net := 11, node := 5 }, srcSocket := 9, typ := 9, data := [] }
  { frame := frame ⟨2, 0, 0, 0, 0, 5⟩ BROADCAST_MAC DDP d.toBytes, body := .ddp d .unknown }

/-- Its router has claimed an address and has heard node 11.5. -/
def wide : Router :=
  (new .lowest wideConfig [("eth0", .ether ⟨2, 0, 0, 0, 0, 1⟩)] 0).after .lowest
    (((List.range 11).map fun k => (.input .tick, fromMillis (200 * k))) ++
      [(.input (.ether 0 frameOf11), fromSecs 3)])

theorem wide_reachable : Reachable .lowest wide := by
  refine ⟨_, _, ⟨wideConfig, _, 0, rfl, ?_, rfl⟩, rfl⟩
  exact ⟨[("eth0", .ether ⟨2, 0, 0, 0, 0, 1⟩)], [], [], by simp [wideConfig]⟩

/-- A datagram for node 10.5 out of a tunnel. -/
def for10 : In :=
  .aurp ⟨192, 0, 2, 1⟩ (Aurp.data { dst := .null, src := .null }
    { hops := 1, length := 13, checksum := 0, dst := { net := 10, node := 5 }, dstSocket := 9
      src := { net := 30, node := 7 }, srcSocket := 9, typ := 9, data := [] : Ddp }.toBytes).toBytes

/-- What the router makes of it. -/
def arrival10 : Arrival := (wide.arrival .lowest for10 (fromSecs 4)).get (by decide +kernel)

theorem arrival_for10 : wide.arrival .lowest for10 (fromSecs 4) = some arrival10 :=
  (Option.some_get _).symm

/-- It passes the datagram on, off the tunnel to its own cable. -/
theorem forwarded_for10 :
    arrival10.Forwarded ∧ arrival10.settled .lowest (fromSecs 4) = arrival10.router := by
  have howner : (arrival10.router.owner arrival10.datagram.dst.net).map
      (fun q => forUs q arrival10.datagram.dst.node) = some false := by decide +kernel
  obtain ⟨q, hq, hus⟩ := Option.map_eq_some_iff.1 howner
  constructor
  · refine ⟨by decide +kernel, fun q' hq' => Or.inr ?_⟩
    obtain rfl := Option.some.inj (hq.symm.trans hq')
    exact hus
  · unfold Arrival.settled
    rw [hq]
    dsimp only
    rw [hus]
    rfl

/-- The router hands a datagram for node 10.5 to the hardware address of node 11.5. -/
theorem wrong_mac_used :
    ¬∀ (r : Router) (i : In) (now : Instant), Reachable .lowest r →
      ∀ p a d, NodeSend .lowest r i now p a d → ∀ id f,
        p.emit .lowest (.node a.node) d = some (.toEther id f) → p.RightMac a f.dst := by
  intro h
  obtain ⟨hforwarded, hsettled⟩ := forwarded_for10
  have hport : (arrival10.router.port 0).map (fun p => (p.kind, p.node)) =
      some (.ether ⟨2, 0, 0, 0, 0, 1⟩, some 1) := by decide +kernel
  have hcable : (arrival10.router.port 0).map (fun p => (p.range, p.amt)) =
      some ((10, 11), [({ net := 11, node := 5 }, ⟨2, 0, 0, 0, 0, 5⟩)]) := by decide +kernel
  obtain ⟨p, hp, hfields⟩ := Option.map_eq_some_iff.1 hport
  obtain ⟨hkind, hnode⟩ := Prod.mk.inj hfields
  rw [hp, Option.map_some] at hcable
  obtain ⟨hrange, hamt⟩ := Prod.mk.inj (Option.some.inj hcable)
  have hbest : (arrival10.router.tables.best arrival10.datagram.dst.net).map
      (fun route => (route.target, route.distance)) = some (.port 0, 0) := by decide +kernel
  obtain ⟨route, hroute, hfields⟩ := Option.map_eq_some_iff.1 hbest
  obtain ⟨htarget, hdistance⟩ := Prod.mk.inj hfields
  have horigin : arrival10.origin = .peer ⟨192, 0, 2, 1⟩ := by decide +kernel
  have hdst : arrival10.datagram.dst = { net := 10, node := 5 } := by decide +kernel
  have hhops : arrival10.datagram.hops < MAX_HOPS := by decide +kernel
  have honward : arrival10.router.Onward arrival10.origin arrival10.datagram p
      arrival10.datagram.dst (crossed arrival10.origin route.target arrival10.datagram) := by
    refine ⟨hhops, route, hroute, ?_, rfl, ⟨0, htarget, hp⟩, ?_⟩
    · rw [horigin, htarget]
      rfl
    · rw [if_pos hdistance, hdst]
      exact ⟨by decide, rfl⟩
  obtain ⟨id, f, he⟩ := Port.exists_emit_node .lowest (p := p)
    (by rw [Port.extended, hkind]) (by rw [hnode]; rfl) arrival10.datagram.dst.node
    (crossed arrival10.origin route.target arrival10.datagram)
  have hright := h wide for10 (fromSecs 4) wide_reachable p arrival10.datagram.dst _
    (.forwarded arrival_for10 hforwarded (hsettled ▸ honward)) id f he
  obtain ⟨hops, hcross⟩ := crossed_eq arrival10.origin route.target arrival10.datagram
  have hmac : f.dst = ⟨2, 0, 0, 0, 0, 5⟩ := by
    rw [(Port.emit_node he).2.2, hcross, Port.macForNode, hdst, hamt]
    simp only [Port.owns, hrange]
    decide
  rw [Port.RightMac, hmac, hamt, hdst] at hright
  exact absurd hright (by decide)

end Router

end AppleTalk
