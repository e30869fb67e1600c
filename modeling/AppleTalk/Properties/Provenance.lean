import AppleTalk.Router.Reach

/-!
# Route provenance

Every table operation behind a frame on a port concerns routes through that port alone, and every
one behind an AURP datagram concerns routes through its sender alone. So no node on one cable and
no tunnel peer touches a route reached through a different cable or peer.
-/

namespace AppleTalk

open TableOp

/-- The routes not reached through a target. -/
def others (g : Target) (rs : List Route) : List Route := rs.filter fun r => r.target ≠ g

namespace TableOp

/-- An operation concerns routes through a target alone. -/
def OnlyVia (g : Target) : TableOp → Prop
  | .learn _ t _ _ | .removeTarget t | .remove t _ | .setDistance t _ _ _ => t = g
  | .addZones .. => True
  | .age _ => False

/-- A tuple changes no route through another target. -/
theorem others_learnRoutes (rs : List Route) (x : NetworkTuple) (g : Target) (next : Addr)
    (now : Instant) : others g (Tables.learnRoutes rs x g next now) = others g rs := by
  have hentry : ∀ r : Route, Tables.entryOf x g next r → decide (r.target ≠ g) = false :=
    fun r hr => by
      simp only [Tables.entryOf, decide_eq_true_eq] at hr
      simp [hr.2.1]
  unfold Tables.learnRoutes others
  split_ifs
  · exact filter_eraseP hentry rs
  · refine filter_modifyFirst (fun r hr => ⟨hentry r hr, ?_⟩) rs
    exact hentry r hr
  · rfl
  all_goals simp [List.filter_append]

/-- **One operation** leaves every route through another target as it was. -/
theorem OnlyVia.others_routes {g : Target} {op : TableOp} (h : op.OnlyVia g) (rs : List Route) :
    others g (op.routes rs) = others g rs := by
  cases op with
  | learn x t next now =>
    obtain rfl : t = g := h
    simp only [routes]
    split_ifs
    · rfl
    · exact others_learnRoutes rs x t next now
  | age now => exact h.elim
  | removeTarget t =>
    obtain rfl : t = g := h
    simp [routes, others, List.filter_filter]
  | remove t start =>
    obtain rfl : t = g := h
    simp only [routes, others, List.filter_filter]
    refine List.filter_congr fun r _ => ?_
    by_cases hr : r.target = t <;> simp [hr]
  | setDistance t start distance now =>
    obtain rfl : t = g := h
    simp only [routes, others]
    induction rs with
    | nil => rfl
    | cons r rs ih =>
      rw [List.map_cons, List.filter_cons, List.filter_cons, ih]
      by_cases hr : r.target = t
      · split_ifs <;> simp_all
      · simp [hr]
  | addZones => rfl

/-- A run of operations leaves every route through another target as it was. -/
theorem others_after {g : Target} {ops : List TableOp} (h : ∀ op ∈ ops, op.OnlyVia g)
    (t : Tables) : others g (after t ops).routes = others g t.routes := by
  induction ops generalizing t with
  | nil => rfl
  | cons op ops ih =>
    rw [show after t (op :: ops) = after (op.apply t).1 ops from rfl,
      ih (fun op hop => h op (by simp [hop])), apply_routes, (h op (by simp)).others_routes]

end TableOp

/-! ### The operations of a frame -/

namespace Router

/-- A datagram off a cable makes the services touch routes through that cable's port alone; one
out of a tunnel makes them touch none. -/
theorem serviceOps_onlyVia (r : Router) {origin : Origin} {g : Target}
    (h : ∀ id, origin = .port id → g = .port id) (ddp : Ddp) (body : DdpBody) (now : Instant) :
    ∀ op ∈ r.serviceOps origin ddp body now, op.OnlyVia g := by
  intro op hop
  rcases mem_serviceOps hop with ⟨id, x, sender, ho, rfl⟩ | ⟨_, _, _, rfl⟩
  · exact (h id ho).symm
  · trivial

end Router

/-! ### The operations of a tunnel packet -/

namespace Peer

/-- A routing packet touches routes through its peer alone. -/
theorem routingOps_onlyVia (p : Peer) (conn seq : UInt16) (cmd : Cmd) (tables : Tables)
    (now : Instant) : ∀ op ∈ p.routingOps conn seq cmd tables now, op.OnlyVia (.peer p.addr) := by
  intro op hop
  cases causes_of_mem_routingOps op hop with
  | addZones => trivial
  | _ => rfl

end Peer

/-! ### Reachable states -/

namespace Router

variable {host : Host}

theorem Reachable.core {r : Router} (h : Reachable host r) :
    ∃ r0 es, Built host r0 ∧ r.core = r0.core.after (r0.coreTrace host es) := by
  obtain ⟨r0, es, h0, rfl⟩ := h
  exact ⟨r0, es, h0, after_core host r0 es⟩

/-- In every reachable state every entry is filed under its own address. -/
theorem Reachable.filed {r : Router} (h : Reachable host r) : r.core.Filed := by
  obtain ⟨r0, es, ⟨cfg, kinds, now, -, -, rfl⟩, hr⟩ := h.core
  rw [hr]
  refine Machine.run_invariant (fun c i hc => hc.next i) ?_ _
  intro ip p hp
  cases hp

theorem event_routes (host : Host) (r : Router) (e : Event × Instant) :
    (r.event host e).1.tables = (r.core.after (r.coreInputs host e)).tables :=
  congrArg Core.tables (event_core host r e)

/-- A datagram a port lifted leaves every route through another target as it was. -/
theorem inboundInputs_others (r q : Router) (id : PortId) (i : Inbound)
    (body : Ddp → Option DdpBody) (now : Instant) :
    others (.port id) (r.core.after (q.inboundInputs id i body now)).tables.routes =
      others (.port id) r.tables.routes := by
  unfold inboundInputs
  cases i with
  | ddp d =>
    dsimp only
    cases body d with
    | none => rfl
    | some b =>
      show others _ (r.core.next _).tables.routes = _
      rw [Core.next_tables]
      exact others_after (q.serviceOps_onlyVia (fun id h => by cases h; rfl) d b now) r.tables
  | _ => rfl

/-- **Route provenance isolation.** In every reachable state, a step whose input is a frame on a
port leaves every route that is not through that port exactly as it was, and a step whose input
is an AURP datagram leaves every route that is not through its sender exactly as it was. -/
theorem step_keeps_other_routes {r : Router} (h : Reachable host r) (now : Instant) :
    (∀ id packet, others (.port id) (r.step host (.ether id packet) now).1.tables.routes =
        others (.port id) r.tables.routes) ∧
      (∀ id llap, others (.port id) (r.step host (.llap id llap) now).1.tables.routes =
        others (.port id) r.tables.routes) ∧
      ∀ ip bytes, others (.peer ip) (r.step host (.aurp ip bytes) now).1.tables.routes =
        others (.peer ip) r.tables.routes := by
  refine ⟨fun id packet => ?_, fun id l => ?_, fun ip bytes => ?_⟩
  · have he := event_routes host r (.input (.ether id packet), now)
    simp only [event] at he
    rw [he]
    simp only [coreInputs]
    cases r.port id with
    | none => rfl
    | some p => exact inboundInputs_others r _ id _ _ now
  · have he := event_routes host r (.input (.llap id l), now)
    simp only [event] at he
    rw [he]
    simp only [coreInputs]
    cases r.port id with
    | none => rfl
    | some p => exact inboundInputs_others r _ id _ _ now
  · have he := event_routes host r (.input (.aurp ip bytes), now)
    simp only [event] at he
    rw [he]
    -- The packet itself first: its peer's entry is filed under `ip`.
    have hpacket : others (.peer ip) (r.core.next (.packet ip bytes, now)).tables.routes =
        others (.peer ip) r.tables.routes := by
      rw [Core.next_tables]
      refine others_after (fun op hop => ?_) r.tables
      obtain ⟨_, conn, seq, cmd, p, -, hp, hop⟩ := Peers.mem_packetOps hop
      rw [← h.filed ip p hp]
      exact p.routingOps_onlyVia conn seq cmd _ now op hop
    simp only [coreInputs]
    cases (r.peers.packet ip bytes r.tables now).ddp.bind Ddp.parse with
    | none => exact hpacket
    | some d =>
      show others _ ((r.core.next _).next _).tables.routes = _
      rw [Core.next_tables]
      refine (others_after (fun op hop => ?_) _).trans hpacket
      exact r.serviceOps_onlyVia (fun id h => by cases h) d (decodeDdpBody d) now op hop

/-- A configured name resolves, the connection opens, and the peer exports network 20. -/
def learnedFrom (ip : Ipv4Addr) : List (Event × Instant) :=
  [(.resolved ['P'] ip, 0), (.input .tick, fromSecs 20),
    (.input (.aurp ip (peerPacket 1 0 (.openRsp 0 1 []))), fromSecs 20),
    (.input (.aurp ip (peerPacket 1 1 (.riRsp true
      [{ range := (20, 20), extended := false, distance := 0 }]))), fromSecs 20)]

/-- RTMP Data of node 1 of network 10: it is a router, and network 20 lies behind it. -/
def announced : Llap :=
  { dst := 255, src := 1, typ := LLAP_SHORT_DDP
    data := [0, 15, 1, 1, 1, 0, 10, 8, 1, 0, 0, 130, 0, 20, 0] }

/-- A route is learned from a cable, and the one to the same network through a peer stays. -/
theorem step_keeps_other_routes_small :
    let r := small.after .lowest (learnedFrom ⟨192, 0, 2, 1⟩)
    let routes := (r.step .lowest (.llap 0 announced) (fromSecs 20)).1.tables.routes
    routes.map (fun q => (q.range, q.target)) = [((10, 10), .port 0),
        ((20, 20), .peer ⟨192, 0, 2, 1⟩), ((20, 20), .port 0)] ∧
      others (.port 0) r.tables.routes ≠ [] ∧
      others (.port 0) routes = others (.port 0) r.tables.routes := by
  intro r routes
  have hreach : Reachable .lowest r := ⟨small, _, small_built, rfl⟩
  exact ⟨by decide +kernel, by decide +kernel,
    (step_keeps_other_routes hreach (fromSecs 20)).2.1 0 announced⟩

end Router

end AppleTalk
