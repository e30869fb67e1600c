import AppleTalk.Router.Entries

/-!
# Built routers and the states they reach

What the checks of a configuration guarantee of its networks, the tables a router starts with,
and what no event changes: the ports' identities, their ranges and their kinds.
-/

namespace AppleTalk

/-- A network of our own: the port it sits on, its range and its zones. -/
structure Net where
  port : PortId
  range : UInt16 × UInt16
  zones : List Str
  deriving DecidableEq, Repr

namespace Config

variable {host : Host}

/-- What the checks guarantee of one port. -/
def Sound (s : (UInt16 × UInt16) × List Str) : Prop :=
  s.1.1 ≠ 0 ∧ s.1.2 ≤ MAX_NET ∧ s.1.1 ≤ s.1.2 ∧ s.2 ≠ []

theorem portSpecs_eq (cfg : Config) : cfg.portSpecs = cfg.ports.map Prod.snd := by
  simp [portSpecs, ports, Function.comp_def]

theorem checkPorts_ok {earlier ports : List PortSpec} (h : checkPorts host earlier ports = .ok ()) :
    (∀ p ∈ ports, Sound p.2) ∧
      ports.Pairwise (fun a b => ¬overlaps a.2.1 b.2.1) ∧
      ∀ e ∈ earlier, ∀ p ∈ ports, ¬overlaps e.2.1 p.2.1 := by
  induction ports generalizing earlier with
  | nil => simp
  | cons p ports ih =>
    obtain ⟨name, net, zones⟩ := p
    rw [checkPorts] at h
    split_ifs at h with h1 h2 h3
    · split at h <;> cases h
    · split at h
      · cases h
      · rename_i hfind
        split at h
        · cases h
        · obtain ⟨hs, hpw, he⟩ := ih h
          have hfree : ∀ e ∈ earlier, ¬overlaps e.2.1 net := by
            intro e hmem
            have := List.find?_eq_none.1 hfind e hmem
            simpa [overlaps] using this
          have hsound : Sound (net, zones) := by
            refine ⟨?_, ?_, ?_, by simpa using h3⟩ <;> grind
          refine ⟨?_, List.pairwise_cons.2 ⟨fun b hb => ?_, hpw⟩, ?_⟩
          · intro q hq
            rcases List.mem_cons.1 hq with rfl | hq
            · exact hsound
            · exact hs q hq
          · exact he (name, net, zones) (by simp) b hb
          · intro e hmem q hq
            rcases List.mem_cons.1 hq with rfl | hq
            · exact hfree e hmem
            · exact he e (by simp [hmem]) q hq

/-- **What validation guarantees**: every port's range is legal and its zones are there, and no
two ranges overlap. -/
theorem validate_ok {cfg : Config} (h : cfg.validate host = .ok ()) :
    (∀ s ∈ cfg.portSpecs, Sound s) ∧
      cfg.portSpecs.Pairwise fun a b => ¬overlaps a.1 b.1 := by
  unfold validate at h
  split at h
  · cases h
  · split_ifs at h
    obtain ⟨hs, hpw, -⟩ := checkPorts_ok h
    rw [portSpecs_eq]
    refine ⟨fun s hmem => ?_, List.pairwise_map.2 hpw⟩
    obtain ⟨p, hp, rfl⟩ := List.mem_map.1 hmem
    exact hs p hp

theorem Opened.length {cfg : Config} {kinds : List (String × Kind)} (h : cfg.Opened kinds) :
    kinds.length = cfg.portSpecs.length := by
  obtain ⟨e, l, t, rfl, he, hl, ht, -, -, -⟩ := h
  simp [portSpecs, he, hl, ht]

/-- The networks of a list of specs, on ports numbered from `id` on. -/
def netsFrom : ℕ → List ((UInt16 × UInt16) × List Str) → List Net
  | _, [] => []
  | id, s :: specs =>
    { port := UInt8.ofNat id, range := s.1, zones := s.2 } :: netsFrom (id + 1) specs

/-- Our own networks, each on the port it is configured on. -/
def nets (cfg : Config) : List Net := netsFrom 0 cfg.portSpecs

end Config

/-! ### What no event changes -/

namespace Port

/-- The network of a port. -/
def net (p : Port) : Net := { port := p.id, range := p.range, zones := p.zones }

/-- What of a port never changes: its network and its kind. -/
def fixed (p : Port) : Net × Kind := (p.net, p.kind)

theorem tick_fixed (p : Port) (now : Instant) : (p.tick now).1.fixed = p.fixed := by
  unfold tick claimed
  dsimp only
  split_ifs <;> rfl

theorem inboundEther_fixed (host : Host) (p : Port) (packet : Packet) (now : Instant) :
    (p.inboundEther host packet now).1.fixed = p.fixed := by
  unfold inboundEther
  split
  · split_ifs
    · rfl
    · dsimp only
      split
      · unfold inboundAarp
        dsimp only
        split
        · split_ifs <;> rfl
        · rfl
        · rfl
      · rfl
      · rfl
  · rfl

theorem inboundLlap_fixed (host : Host) (p : Port) (l : Llap) (now : Instant) :
    (p.inboundLlap host l now).1.fixed = p.fixed := by
  unfold inboundLlap
  dsimp only
  split_ifs <;> rfl

end Port

namespace Router

variable {host : Host}

/-- What of the ports never changes. -/
def fixed (r : Router) : List (Net × Kind) := r.ports.map Port.fixed

theorem nets_of_fixed {r r' : Router} (h : r'.fixed = r.fixed) :
    r'.ports.map Port.net = r.ports.map Port.net := by
  simpa [fixed, Function.comp_def, Port.fixed] using congrArg (List.map Prod.fst) h

theorem setPort_fixed {r : Router} {id : PortId} {p p' : Port} (h : r.port id = some p)
    (hf : p'.fixed = p.fixed) : (r.setPort p').fixed = r.fixed := by
  have hid : p'.id = id := by
    have h2 := congrArg (fun f => f.1.port) hf
    exact h2.trans (port_id h)
  unfold port at h
  simp only [fixed, setPort, hid]
  generalize r.ports = l at h ⊢
  induction l with
  | nil => rfl
  | cons q l ih =>
    rw [List.find?_cons] at h
    rw [Tables.modifyFirst]
    by_cases hq : q.id = id
    · simp only [hq, decide_true, Option.some.injEq] at h
      subst h
      rw [if_pos (by simpa using hq), List.map_cons, hf, List.map_cons]
    · simp only [hq, decide_false] at h
      simp [hq, ih h]

/-- A port that is put back is found where it was, and the others are as they were. -/
theorem port_setPort (r : Router) (p' : Port) (id : PortId) :
    (r.setPort p').port id = (r.port id).map fun q => if q.id = p'.id then p' else q := by
  unfold port setPort
  dsimp only
  generalize r.ports = ports
  induction ports with
  | nil => rfl
  | cons q ports ih =>
    rw [Tables.modifyFirst]
    by_cases hq : q.id = id
    · by_cases hput : q.id = p'.id
      · rw [if_pos (by simpa using hput), List.find?_cons_of_pos (by simp [← hput, hq]),
          List.find?_cons_of_pos (by simpa using hq), Option.map_some, if_pos hput]
      · rw [if_neg (by simpa using hput), List.find?_cons_of_pos (by simpa using hq),
          List.find?_cons_of_pos (by simpa using hq), Option.map_some, if_neg hput]
    · rw [List.find?_cons_of_neg (l := ports) (a := q) (by simpa using hq)]
      by_cases hput : q.id = p'.id
      · rw [if_pos (by simpa using hput), List.find?_cons_of_neg (by simpa [← hput] using hq)]
        -- No port behind it is found in its place.
        cases hfind : ports.find? fun q => q.id = id with
        | none => rfl
        | some q' =>
          have hid : q'.id = id := by simpa using List.find?_some hfind
          rw [Option.map_some, if_neg (by rw [hid, ← hput]; exact fun h => hq h.symm)]
      · rw [if_neg (by simpa using hput), List.find?_cons_of_neg (by simpa using hq)]
        exact ih

theorem inbound_ports (r : Router) (id : PortId) (i : Inbound) (body : Ddp → Option DdpBody)
    (now : Instant) : (r.inbound host id i body now).1.ports = r.ports := by
  unfold inbound
  cases i with
  | ddp d =>
    dsimp only
    cases body d with
    | none => rfl
    | some b => exact arrived_ports host r _ d b now
  | _ => rfl

theorem tickPorts_fixed (now : Instant) (ports : List Port) :
    (tickPorts now ports).1.map Port.fixed = ports.map Port.fixed := by
  induction ports with
  | nil => rfl
  | cons p ports ih => simp only [tickPorts, List.map_cons, p.tick_fixed, ih]

/-- No event changes the ports' networks or their kinds. -/
theorem event_fixed (r : Router) (e : Event × Instant) :
    (r.event host e).1.fixed = r.fixed := by
  obtain ⟨e, now⟩ := e
  cases e with
  | input i =>
    cases i with
    | ether id packet =>
      simp only [event, step]
      cases hp : r.port id with
      | none => rfl
      | some p =>
        simp only [fixed, inbound_ports]
        exact setPort_fixed hp (p.inboundEther_fixed host packet now)
    | llap id l =>
      simp only [event, step]
      cases hp : r.port id with
      | none => rfl
      | some p =>
        simp only [fixed, inbound_ports]
        exact setPort_fixed hp (p.inboundLlap_fixed host l now)
    | aurp «from» bytes =>
      simp only [event, step, fixed]
      cases (r.peers.packet «from» bytes r.tables now).ddp.bind Ddp.parse with
      | none => simp
      | some d => simp
    | tick =>
      simp only [event, step, fixed, changed_ports]
      exact tickPorts_fixed now r.ports
    | _ => rfl
  | _ => rfl

theorem after_fixed (host : Host) (r : Router) (es : List (Event × Instant)) :
    (r.after host es).fixed = r.fixed := by
  induction es generalizing r with
  | nil => rfl
  | cons e es ih => exact (ih _).trans (event_fixed r e)

theorem Reachable.after {r : Router} (h : Reachable host r) (es : List (Event × Instant)) :
    Reachable host (r.after host es) := by
  obtain ⟨r0, es0, h0, rfl⟩ := h
  exact ⟨r0, es0 ++ es, h0, (Machine.run_append _ _ _ _).symm⟩

theorem Built.no_peers {r : Router} (h : Built host r) (ip : Ipv4Addr) :
    r.core.entry ip = none := by
  obtain ⟨cfg, kinds, now, -, -, rfl⟩ := h
  rfl

theorem Built.reachable {r : Router} (h : Built host r) : Reachable host r := ⟨r, [], h, rfl⟩

/-! ### What a router is built with -/

/-- A port's tables entry is its own network's, with nothing before it. -/
structure Direct (p : Port) (r : Route) : Prop where
  range : r.range = p.range
  extended : r.extended = p.extended
  distance : r.distance = 0

theorem addPorts_direct (now : Instant) (id : ℕ)
    (specs : List ((String × Kind) × (UInt16 × UInt16) × List Str)) (t : Tables) :
    ∀ r ∈ (addPorts host now id specs t).2.routes,
      r ∈ t.routes ∨ ∃ p ∈ (addPorts host now id specs t).1, Direct p r := by
  induction specs generalizing id t with
  | nil => exact fun r hr => Or.inl hr
  | cons s specs ih =>
    obtain ⟨⟨name, kind⟩, range, zones⟩ := s
    intro r hr
    rcases ih (id + 1) _ r hr with hr | ⟨p, hp, hd⟩
    · rcases List.mem_append.1 hr with hr | hr
      · exact Or.inl hr
      · obtain rfl := List.mem_singleton.1 hr
        exact Or.inr ⟨_, List.mem_cons_self, rfl, rfl, rfl⟩
    · exact Or.inr ⟨p, List.mem_cons_of_mem _ hp, hd⟩

/-- The ports of a router are one for each network, in order. -/
theorem addPorts_nets (now : Instant) (id : ℕ)
    (specs : List ((String × Kind) × (UInt16 × UInt16) × List Str)) (t : Tables) :
    (addPorts host now id specs t).1.map Port.net = Config.netsFrom id (specs.map Prod.snd) := by
  induction specs generalizing id t with
  | nil => rfl
  | cons s specs ih =>
    obtain ⟨⟨name, kind⟩, range, zones⟩ := s
    simp only [addPorts, List.map_cons, Config.netsFrom, ih]
    rfl

theorem zip_snd {cfg : Config} {kinds : List (String × Kind)} (h : cfg.Opened kinds) :
    (kinds.zip cfg.portSpecs).map Prod.snd = cfg.portSpecs :=
  List.map_snd_zip h.length.ge

theorem new_nets (host : Host) {cfg : Config} {kinds : List (String × Kind)} (h : cfg.Opened kinds)
    (now : Instant) : (new host cfg kinds now).ports.map Port.net = cfg.nets := by
  simp only [new, addPorts_nets, zip_snd h, Config.nets]

/-- The ports of every state of a run sit on the configured networks. -/
theorem after_nets (host : Host) {cfg : Config} {kinds : List (String × Kind)}
    (h : cfg.Opened kinds) (now : Instant) (es : List (Event × Instant)) :
    ((new host cfg kinds now).after host es).ports.map Port.net = cfg.nets := by
  have hf := congrArg (List.map Prod.fst) (after_fixed host (new host cfg kinds now) es)
  simp only [fixed, List.map_map] at hf
  rw [← new_nets host h now]
  exact hf

end Router

/-! ### A small router -/

/-- A host whose hash always starts from the lowest candidate. -/
def Host.lowest : Host :=
  { seed := fun _ _ _ _ => 0, order := id, nanos := 0
    debug := fun s => "\"" ++ String.ofList s ++ "\"" }

/-- One LocalTalk network, number 10 in zone `A`, and open peering. -/
def Config.small : Config :=
  { name := ['R'], publicIp := none, openPeering := true, peers := [], ethertalk := []
    ltoudp := [{ interface := none, net := 10, zones := [['A']] }], tashtalk := [] }

/-- The router of that configuration. -/
def Router.small : Router := Router.new .lowest .small [("ltoudp", .ltoudp)] 0

theorem Config.small_opened : Config.small.Opened [("ltoudp", .ltoudp)] :=
  ⟨[], [("ltoudp", .ltoudp)], [], by simp [Config.small]⟩

theorem Router.small_built : Built .lowest Router.small :=
  ⟨.small, _, 0, rfl, Config.small_opened, rfl⟩

/-- A routing packet whose domain identifiers name nobody. -/
def peerPacket (conn seq : UInt16) (cmd : Cmd) : Bytes :=
  (Aurp.routing { dst := .null, src := .null } conn seq cmd).toBytes

end AppleTalk
