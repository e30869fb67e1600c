import AppleTalk.Properties.Addressed

/-!
# How far a datagram travels

Every emission of a datagram but two kinds costs a hop, and the free ones cannot follow each
other, so a chain of routers that pass it on soon ends. Only a LocalTalk short header forgets the
hop count; the chain ends there because nobody routes a cable's own network off that cable.
-/

namespace AppleTalk

/-- One router's turn with a datagram: where it came from, what the forwarding rules were given
and what they emitted. -/
structure Hop where
  router : Router
  origin : Origin
  ddp : Ddp
  emitted : Action

namespace Router

/-- What a router makes of another's emission: a frame off a cable it hears is lifted by one of
its ports, a tunnel packet read as one of the peer that sent it. -/
def Hears (host : Host) (r : Router) (origin : Origin) (d : Ddp) : Action → Prop
  | .toEther _ f => ∃ id p packet now d0, origin = .port id ∧ r.port id = some p ∧
    packet.frame = f ∧ packet.Decoded ∧ (p.inboundEther host packet now).2.1 = .ddp d0 ∧
    d = localize (some p) d0
  | .toLlap _ l => ∃ id p now d0, origin = .port id ∧ r.port id = some p ∧ p.extended = false ∧
    (p.inboundLlap host l now).2.1 = .ddp d0 ∧ d = localize (some p) d0
  | .toPeer _ bytes => ∃ ip dh ddp, origin = .peer ip ∧
    Aurp.parse bytes = some (.data dh ddp) ∧ Ddp.parse ddp = some d
  | _ => False

/-- The best route to the network of a LocalTalk port of the router's own is through that port. -/
def RoutesHome (r : Router) : Prop :=
  ∀ p ∈ r.ports, p.extended = false → ∀ route, r.tables.best p.range.1 = some route →
    route.target = .port p.id

/-- Every reachable state routes its own LocalTalk networks home. -/
theorem OwnRouted.routesHome {r : Router} (h : r.OwnRouted) : r.RoutesHome := by
  intro p hp _ route hroute
  have hown : p.owns p.range.1 := by simpa [Port.owns] using h.legal p hp
  obtain ⟨b, hb, ht, -⟩ := h.best hp hown
  rw [← ht, Option.some.inj (hroute.symm.trans hb)]

end Router

namespace Hop

variable {host : Host}

/-- The emission is one of `forward`'s. -/
def Forwarded (host : Host) (x : Hop) : Prop := x.emitted ∈ x.router.forward host x.origin x.ddp

/-- The second router takes up what the first one emitted. -/
def Follows (host : Host) (x y : Hop) : Prop := y.router.Hears host y.origin y.ddp x.emitted

/-- How far along a datagram is: a hop counts two, and so does half a hop onto a cable one. -/
def rank (x : Hop) : ℕ :=
  match x.router.tables.best x.ddp.dst.net with
  | some route => 2 * (Router.crossed x.origin route.target x.ddp).hops.toNat +
    if route.target.isPort then 1 else 0
  | none => 0

/-- What a turn emits: the datagram with at most fifteen hops, into a tunnel or onto a cable. -/
theorem Forwarded.emits {x : Hop} (h : x.Forwarded host) :
    ∃ d route, x.router.tables.best x.ddp.dst.net = some route ∧
      x.origin.is route.target = false ∧ d = Router.crossed x.origin route.target x.ddp ∧
      Encodes d x.emitted ∧
      d.hops.toNat = x.ddp.hops.toNat + (if Router.free x.origin route.target then 0 else 1) ∧
      d.hops ≤ 15 ∧ x.rank = 2 * d.hops.toNat + (if route.target.isPort then 1 else 0) ∧
      ((∃ ip bytes, x.emitted = .toPeer ip bytes) ↔ route.target.isPort = false) := by
  obtain ⟨route, hb, hi, he⟩ := Router.forward_encodes h
  obtain ⟨hh, route', hb', -, hcase⟩ := Router.mem_forward.1 h
  obtain rfl := Option.some.inj (hb.symm.trans hb')
  have hhops := Router.crossed_hops x.origin route.target hh
  refine ⟨_, route, hb, hi, rfl, he, hhops, ?_, by simp only [rank, hb], ?_⟩
  · rw [UInt8.le_iff_toNat_le, hhops]
    have : x.ddp.hops.toNat < 15 := UInt8.lt_iff_toNat_lt.1 hh
    show _ ≤ 15
    split_ifs <;> omega
  · cases ht : route.target with
    | peer ip =>
      rw [ht] at hcase
      simp [hcase, Peers.forward, Target.isPort]
    | port id =>
      rw [ht] at hcase
      obtain ⟨p, -, hp⟩ := hcase
      obtain ⟨node, -, hp⟩ := Option.map_eq_some_iff.1 hp
      simp only [Target.isPort, Bool.true_eq_false, iff_false, not_exists]
      intro ip bytes hpeer
      rw [hpeer] at hp
      split at hp
      · cases hp
      · dsimp only at hp
        split_ifs at hp

theorem Forwarded.rank_lt_bound {x : Hop} (h : x.Forwarded host) : x.rank < 32 := by
  obtain ⟨d, route, -, -, -, -, -, hd, hr, -⟩ := h.emits
  have : d.hops.toNat ≤ 15 := UInt8.le_iff_toNat_le.1 hd
  rw [hr]
  split_ifs <;> omega

theorem localize_hops (p : Option Port) (d : Ddp) : (Router.localize p d).hops = d.hops := by
  cases p <;> rfl

/-- **Each turn takes the datagram further**: off a cable it costs a hop, and off a tunnel it
costs one unless it goes onto a cable. -/
theorem rank_lt {x y : Hop} (hx : x.Forwarded host) (hy : y.Forwarded host)
    (hhome : y.router.RoutesHome) (h : x.Follows host y) : x.rank < y.rank := by
  obtain ⟨d, route, -, -, -, he, -, hd, hr, hkind⟩ := hx.emits
  obtain ⟨d', route', hb', hi', -, -, hh', -, hr', -⟩ := hy.emits
  obtain ⟨len, hparse⟩ := Ddp.parse_toBytes d hd
  -- A datagram off a cable costs a hop wherever it goes next.
  have hcable : ∀ id, y.origin = .port id → y.ddp.hops = d.hops → x.rank < y.rank := by
    intro id ho hhops
    have hfree : Router.free y.origin route'.target = false := by rw [ho]; rfl
    rw [hfree] at hh'
    rw [hr, hr', hh', hhops]
    simp only [Bool.false_eq_true, if_false]
    split_ifs <;> omega
  unfold Follows at h
  cases hem : x.emitted with
  | toEther id f =>
    rw [hem] at h he
    obtain ⟨id', p, packet, now, d0, ho, hp, rfl, hdec, hin, hloc⟩ := h
    obtain ⟨body, hbody, -⟩ := Port.inboundEther_ddp hin
    obtain ⟨hd0, -⟩ := hdec.ddp hbody
    rw [he.2, hparse] at hd0
    refine hcable id' ho ?_
    rw [hloc, localize_hops, ← Option.some.inj hd0]
  | toLlap id l =>
    rw [hem] at h he
    obtain ⟨id', p, now, d0, ho, hp, hext, hin, hloc⟩ := h
    rcases Port.inboundLlap_reads hin with ⟨hs, hd0⟩ | ⟨hl, hd0⟩
    · -- A short header names the cable's own network, which is routed home: the chain ends.
      have hnet : y.ddp.dst.net = p.range.1 := by
        have h0 : d0.dst.net = p.range.1 := by
          unfold Ddp.fromShort at hd0
          split at hd0
          · split_ifs at hd0
            cases hd0
            rfl
          · cases hd0
        rw [hloc, Router.localize]
        dsimp only
        split_ifs
        · rfl
        · exact h0
      rw [hnet] at hb'
      have hmem : p ∈ y.router.ports := List.mem_of_find?_eq_some hp
      rw [hhome p hmem hext route' hb', ho, Router.port_id hp] at hi'
      simp [Origin.is] at hi'
    · rcases he with ⟨-, hdata⟩ | ⟨hs, -⟩
      · rw [hdata, hparse] at hd0
        refine hcable id' ho ?_
        rw [hloc, localize_hops, ← Option.some.inj hd0]
      · exact absurd (hs.symm.trans hl) (by decide)
  | toPeer ip bytes =>
    have hport : route.target.isPort = false := hkind.1 ⟨ip, bytes, hem⟩
    rw [hem] at h he
    obtain ⟨ip', dh, ddp, ho, hparse', hd0⟩ := h
    obtain ⟨dh', rfl⟩ := he
    cases Aurp.parse_data hparse'
    rw [hparse] at hd0
    have hhops : y.ddp.hops = d.hops := by rw [← Option.some.inj hd0]
    rw [hr, hr', hh', hhops, hport, ho]
    cases route'.target with
    | port id => simp [Router.free, Target.isPort]
    | peer ip => simp [Router.free, Target.isPort]
  | setNode id node => rw [hem] at he; exact he.elim
  | log m => rw [hem] at he; exact he.elim

/-- **No datagram circulates.** Among any routers, with any tables that route their own LocalTalk
networks home, every chain of turns with a datagram has at most thirty-two links, and every one
emits the datagram with at most fifteen hops. -/
theorem chain_le {chain : List Hop} (hfwd : ∀ x ∈ chain, x.Forwarded host)
    (hhome : ∀ x ∈ chain, x.router.RoutesHome) (hchain : chain.IsChain (Follows host)) :
    chain.length ≤ 32 ∧ ∀ x ∈ chain, ∃ hops, Encodes { x.ddp with hops := hops } x.emitted ∧
      hops ≤ 15 := by
  refine ⟨Machine.length_le_of_isChain rank (P := fun x => x.Forwarded host ∧ x.router.RoutesHome)
    (fun x hx => hx.1.rank_lt_bound) (fun x y hx hy h => rank_lt hx.1 hy.1 hy.2 h)
    (fun x hx => ⟨hfwd x hx, hhome x hx⟩) hchain, fun x hx => ?_⟩
  obtain ⟨d, route, -, -, hd, he, -, hle, -, -⟩ := (hfwd x hx).emits
  obtain ⟨hops, hc⟩ := Router.crossed_eq x.origin route.target x.ddp
  rw [hd, hc] at he hle
  exact ⟨hops, he, hle⟩

/-- A LocalTalk port that holds an address. -/
def localTalk (id : PortId) (net : UInt16) (node : UInt8) : Port :=
  { id := id, name := "", kind := .ltoudp, range := (net, net), zones := [], node := some node
    amt := [], claim := { node := node, tries := 0, next := 0, attempt := 0 } }

/-- A router of a row: it joins a LocalTalk network and the next, and knows that network 40 lies
that way. -/
def inRow (net : UInt16) (node : UInt8) : Router :=
  { ports := [localTalk 0 net node, localTalk 1 (net + 10) node]
    tables := (((Tables.new.addPort 0 (net, net) false [] 0).addPort 1 (net + 10, net + 10) false
      [] 0).learn { range := (40, 40), extended := false, distance := 0 } (.port 1)
        { net := net + 10, node := node + 1 } 0).1
    «local» := Local.new ['R']
    peers := Peers.new .null false [] 0 0 }

/-- A datagram from network 10 to network 40. -/
def outbound (hops : UInt8) : Ddp :=
  { hops := hops, length := 14, checksum := 0, dst := { net := 40, node := 5 }, dstSocket := 200
    src := { net := 10, node := 7 }, srcSocket := 200, typ := 9, data := [1] }

/-- A turn of a router of the row, which hands the datagram to a node of the next network. -/
def inTurn (net : UInt16) (node : UInt8) (hops : UInt8) (next : UInt8) : Hop :=
  { router := inRow net node, origin := .port 0, ddp := outbound hops
    emitted := .toLlap 1
      { dst := next, src := node, typ := LLAP_LONG_DDP, data := (outbound (hops + 1)).toBytes } }

/-- From network 10 to network 40 over three routers. -/
def across : List Hop := [inTurn 10 128 0 129, inTurn 20 129 1 130, inTurn 30 130 2 5]

theorem chain_le_across :
    across.IsChain (Follows .lowest) ∧ across.length ≤ 32 ∧ ∀ x ∈ across, ∃ hops,
      Encodes { x.ddp with hops := hops } x.emitted ∧ hops ≤ 15 := by
  have hfwd : ∀ x ∈ across, x.Forwarded .lowest := by
    unfold Forwarded
    decide +kernel
  have hhome : ∀ x ∈ across, x.router.RoutesHome := by
    have hbest : ∀ x ∈ across, ∀ p ∈ x.router.ports,
        (x.router.tables.best p.range.1).map Route.target = some (.port p.id) := by decide +kernel
    intro x hx p hp _ route hroute
    have htarget := hbest x hx p hp
    rw [hroute] at htarget
    exact Option.some.inj htarget
  have hchain : across.IsChain (Follows .lowest) := by
    refine .cons_cons ?_ (.cons_cons ?_ (.singleton _))
    · exact ⟨0, localTalk 0 20 129, 0, outbound 1, rfl, rfl, rfl, by decide +kernel,
        by decide +kernel⟩
    · exact ⟨0, localTalk 0 30 130, 0, outbound 2, rfl, rfl, rfl, by decide +kernel,
        by decide +kernel⟩
  exact ⟨hchain, chain_le hfwd hhome hchain⟩

/-! ### A table that leads a cable's own network away -/

/-- A router between LocalTalk networks 10 and 20 with one route, to network 10. -/
def between (node : UInt8) (distance : UInt8) (target : PortId) (next : Addr) : Router :=
  { ports := [localTalk 0 10 node, localTalk 1 20 node]
    tables := { Tables.new with
      routes := [{ range := (10, 10), extended := false, distance := distance
                   target := .port target, next := next, state := .good, seen := 0 }] }
    «local» := Local.new ['R']
    peers := Peers.new .null false [] 0 0 }

/-- A datagram within network 10. -/
def strayed (hops : UInt8) : Ddp :=
  { hops := hops, length := 14, checksum := 0, dst := { net := 10, node := 5 }, dstSocket := 200
    src := { net := 10, node := 128 }, srcSocket := 200, typ := 9, data := [1] }

/-- Brought home off network 20, with a short header. -/
def homeward : Hop :=
  { router := between 128 0 0 Tables.NO_NEXT, origin := .port 1, ddp := strayed 1
    emitted := .toLlap 0
      { dst := 5, src := 128, typ := LLAP_SHORT_DDP, data := (strayed 1).toShortBytes } }

/-- Led off network 10 by a table with another idea of where it is. -/
def astray : Hop :=
  { router := between 129 1 1 { net := 20, node := 128 }, origin := .port 0, ddp := strayed 0
    emitted := .toLlap 1
      { dst := 128, src := 129, typ := LLAP_LONG_DDP, data := (strayed 1).toBytes } }

theorem homeward_forwarded : homeward.Forwarded .lowest := by
  unfold Forwarded
  decide +kernel

theorem astray_forwarded : astray.Forwarded .lowest := by
  unfold Forwarded
  decide +kernel

/-- With a table that leads network 10 away, two routers pass a datagram round for ever: the
short header forgets the hop it took. -/
theorem short_header_circulates :
    ∃ chain : List Hop, (∀ x ∈ chain, x.Forwarded .lowest) ∧ chain.IsChain (Follows .lowest) ∧
      ¬chain.length ≤ 32 := by
  refine ⟨(List.replicate 17 [homeward, astray]).flatten, fun x hx => ?_,
    Machine.isChain_replicate ?_ ?_ 17, by simp⟩
  · obtain ⟨l, hl, hx⟩ := List.mem_flatten.1 hx
    rw [List.eq_of_mem_replicate hl] at hx
    rcases List.mem_cons.1 hx with rfl | hx
    · exact homeward_forwarded
    · rw [List.mem_singleton.1 hx]
      exact astray_forwarded
  · exact ⟨0, localTalk 0 10 129, 0, strayed 0, rfl, rfl, rfl, by decide +kernel, by decide +kernel⟩
  · exact ⟨1, localTalk 1 20 128, 0, strayed 1, rfl, rfl, rfl, by decide +kernel, by decide +kernel⟩

end Hop

end AppleTalk
