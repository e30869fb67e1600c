import AppleTalk.Internet.Beacons
import AppleTalk.Lib.Nearest
import Mathlib.Logic.Function.Basic

/-!
# An internet of routers

Routers on a fixed arrangement of cables and tunnels. What a router sends stays in the air, from
where the links may deliver it at any time, in any order, more than once or never.
-/

namespace AppleTalk

/-! ### The routes a router starts with -/

namespace Config

/-- Only an EtherTalk port spans more than one network. -/
theorem Opened.single {cfg : Config} {kinds : List (String × Kind)} (h : cfg.Opened kinds) :
    ∀ s ∈ kinds.zip cfg.portSpecs, (∃ mac, s.1.2 = .ether mac) ∨ s.2.1.1 = s.2.1.2 := by
  obtain ⟨e, l, t, rfl, he, hl, -, hether, -, -⟩ := h
  unfold portSpecs
  rw [List.zip_append (by simp [he, hl]), List.zip_append (by simp [he])]
  intro s hs
  rcases List.mem_append.1 hs with hs | hs
  · rcases List.mem_append.1 hs with hs | hs
    · exact Or.inl (hether s.1 (List.of_mem_zip hs).1)
    · obtain ⟨p, -, hp⟩ := List.mem_map.1 (List.of_mem_zip hs).2
      exact Or.inr (by rw [← hp])
  · obtain ⟨p, -, hp⟩ := List.mem_map.1 (List.of_mem_zip hs).2
    exact Or.inr (by rw [← hp])

end Config

namespace Router

variable {host : Host}

theorem addPorts_single (now : Instant) (id : ℕ)
    (specs : List ((String × Kind) × (UInt16 × UInt16) × List Str)) (t : Tables)
    (h : ∀ s ∈ specs, (∃ mac, s.1.2 = .ether mac) ∨ s.2.1.1 = s.2.1.2) :
    ∀ p ∈ (addPorts host now id specs t).1, p.extended = false → p.range.1 = p.range.2 := by
  induction specs generalizing id t with
  | nil => simp [addPorts]
  | cons s specs ih =>
    obtain ⟨⟨name, kind⟩, range, zones⟩ := s
    refine List.forall_mem_cons.2 ⟨fun hx => ?_, ih (id + 1) _ fun s hs =>
      h s (List.mem_cons_of_mem _ hs)⟩
    rcases h _ List.mem_cons_self with ⟨mac, hk⟩ | hs
    · obtain rfl : kind = .ether mac := hk
      cases hx
    · exact hs

/-- **A built router** knows the networks of its ports and nothing else: at distance 0, one network
number on a port that is not extended. -/
theorem Built.direct {r : Router} (h : Built host r) :
    ∀ route ∈ r.tables.routes, ∃ p ∈ r.ports, Direct p route ∧
      (p.extended = false → p.range.1 = p.range.2) := by
  obtain ⟨cfg, kinds, now, -, ho, rfl⟩ := h
  intro route hroute
  rcases addPorts_direct now 0 (kinds.zip cfg.portSpecs) Tables.new route hroute with
    h0 | ⟨p, hp, hd⟩
  · simp [Tables.new] at h0
  · exact ⟨p, hp, hd, addPorts_single now 0 _ _ ho.single p hp⟩

/-- The ports of a built router are sound. -/
theorem Reachable.sound {r : Router} (h : Reachable host r) :
    ∀ p ∈ r.ports, Config.Sound (p.range, p.zones) := by
  obtain ⟨r0, es, ⟨cfg, kinds, now, hv, ho, rfl⟩, rfl⟩ := h
  intro p hp
  have hmem : p.net ∈ cfg.nets := after_nets host ho now es ▸ List.mem_map_of_mem hp
  exact netsFrom_sound (Config.validate_ok hv).1 0 p.net hmem

end Router

/-! ### The arrangement -/

/-- Routers on cables and tunnels. Every port sits on a cable; the ports of one cable have one
range, and different cables have ranges apart from each other. -/
structure Arrangement (ι κ : Type*) where
  host : ι → Host
  start : ι → Router
  built : ∀ i, Router.Built (host i) (start i)
  cable : ι → PortId → κ
  ip : ι → Ipv4Addr
  tunnel : ι → ι → Prop
  same : ∀ i j, ∀ p ∈ (start i).ports, ∀ q ∈ (start j).ports,
    cable i p.id = cable j q.id → p.range = q.range
  apart : ∀ i j, ∀ p ∈ (start i).ports, ∀ q ∈ (start j).ports,
    cable i p.id ≠ cable j q.id → ¬overlaps p.range q.range

namespace Arrangement

open Router (Event)

variable {ι κ : Type*} (A : Arrangement ι κ)

/-- Two routers are one step apart if they share a cable or a tunnel. -/
def Linked (i j : ι) : Prop :=
  (∃ p ∈ (A.start i).ports, ∃ q ∈ (A.start j).ports, A.cable i p.id = A.cable j q.id) ∨
    A.tunnel i j

/-- The routers as a graph. -/
def graph : SimpleGraph ι := SimpleGraph.fromRel A.Linked

/-- The fewest steps from a router to one with a port on the network. -/
noncomputable def steps (i : ι) (net : UInt16) : ℕ∞ :=
  A.graph.stepsTo {j | ∃ p ∈ (A.start j).ports, p.owns net} i

/-! ### Runs -/

/-- The routers as they stand, and what they have sent so far. -/
structure State (ι : Type*) where
  routers : ι → Router
  air : List (ι × Action)

def init : State ι := { routers := A.start, air := [] }

/-- One event at one router. What it sends joins what is in the air. -/
def next [DecidableEq ι] (s : State ι) (e : ι × Event × Instant) : State ι :=
  let r := (s.routers e.1).event (A.host e.1) e.2
  { routers := Function.update s.routers e.1 r.1
    air := s.air ++ r.2.map fun a => (e.1, a) }

/-- What the links make of what `j` sent: a frame reaches the ports of its cable, with the body
that is decoded from it, and a packet the far end of its tunnel. -/
inductive Carries (j i : ι) : Action → In → Prop
  | ether {p q : PortId} {packet : Packet} (hc : A.cable j p = A.cable i q)
      (hd : packet.Decoded) : Carries j i (.toEther p packet.frame) (.ether q packet)
  | llap {p q : PortId} {l : Llap} (hc : A.cable j p = A.cable i q) :
      Carries j i (.toLlap p l) (.llap q l)
  | tunnel {bytes : Bytes} (ht : A.tunnel j i) :
      Carries j i (.toPeer (A.ip i) bytes) (.aurp (A.ip j) bytes)

/-- An event that tells the router of no routes: a tick, a report, a name resolved, a shutdown, or
a delivery without RTMP and without a tuple that says how far a network is. -/
structure Quiet (host : Host) (r : Router) (e : Event × Instant) : Prop where
  decoded : ∀ i, e.1 = .input i → i.Decoded
  datagram : ∀ i x, e.1 = .input i → r.arrival host i e.2 = some x → ∀ m, x.body ≠ .rtmp m
  packet : ∀ «from» bytes dh conn seq cmd, e.1 = .input (.aurp «from» bytes) →
    Aurp.parse bytes = some (.routing dh conn seq cmd) → cmd.tuples = []

/-- What may happen: a delivery of something that is in the air, or a quiet event. -/
def Allowed (s : State ι) (e : ι × Event × Instant) : Prop :=
  (∃ j a i, (j, a) ∈ s.air ∧ A.Carries j e.1 a i ∧ e.2.1 = .input i) ∨
    Quiet (A.host e.1) (s.routers e.1) e.2

/-- The state after a run. -/
def after [DecidableEq ι] (es : List (ι × Event × Instant)) : State ι :=
  Machine.run A.next A.init es

/-- A run in which every event is one that may happen. -/
def Run [DecidableEq ι] (es : List (ι × Event × Instant)) : Prop :=
  Machine.Guarded A.next A.Allowed A.init es

end Arrangement

end AppleTalk
