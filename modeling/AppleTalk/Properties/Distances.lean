import AppleTalk.Internet.Arrangement
import AppleTalk.Properties.Addressed

/-!
# Distances are never underestimated

However the links of an internet of routers lose, delay, repeat and reorder what the routers send,
no stored route and no announced tuple is shorter than the way there.
-/

namespace AppleTalk

open Router (Event)

/-! ### Short lemmas -/

namespace Router

variable {host : Host}

/-- A port is found under its ID with the same network, whatever became of its node. -/
theorem port_of_fixed {r r' : Router} (h : r'.fixed = r.fixed) {id : PortId} {p : Port}
    (hp : r.port id = some p) : ∃ p', r'.port id = some p' ∧ p'.range = p.range := by
  have hfind : ∀ {l l' : List Port}, l'.map Port.fixed = l.map Port.fixed →
      l.find? (fun p => p.id = id) = some p →
      ∃ p', l'.find? (fun p => p.id = id) = some p' ∧ p'.range = p.range := by
    intro l
    induction l with
    | nil => intro l' _ h; cases h
    | cons q l ih =>
      intro l' hl hp
      cases l' with
      | nil => cases hl
      | cons q' l' =>
        obtain ⟨hq, hl⟩ := List.cons.inj hl
        have hid : q'.id = q.id := congrArg (fun f => f.1.port) hq
        have hrange : q'.range = q.range := congrArg (fun f => f.1.range) hq
        rw [List.find?_cons] at hp ⊢
        rw [hid]
        by_cases hqid : q.id = id
        · simp only [hqid, decide_true, Option.some.injEq] at hp ⊢
          exact ⟨q', rfl, hp ▸ hrange⟩
        · simp only [hqid, decide_false] at hp ⊢
          exact ih hl hp
  exact hfind h hp

end Router

/-- A datagram out of the tunnel came in a data packet. -/
theorem Peers.packet_data {s : Peers} {«from» : Ipv4Addr} {bytes : Bytes} {tables : Tables}
    {now : Instant} {b : Bytes} (h : (s.packet «from» bytes tables now).ddp = some b) :
    ∃ dh, Aurp.parse bytes = some (.data dh b) := by
  have hdeliver : ∀ (s : Peers) (p : Peer) (pkt : Aurp),
      (s.deliver p «from» pkt tables now).ddp = some b → ∃ dh, pkt = .data dh b := by
    intro s p pkt h
    cases pkt with
    | data dh ddp => exact ⟨dh, by rw [Option.some.inj h]⟩
    | routing => cases h
  unfold packet at h
  split at h
  · cases h
  · rename_i pkt hpkt
    suffices ∃ dh, pkt = .data dh b by
      obtain ⟨dh, rfl⟩ := this
      exact ⟨dh, hpkt⟩
    split at h
    · exact hdeliver _ _ _ h
    · split_ifs at h
      · cases h
      · cases h
      · exact hdeliver _ _ _ h

namespace Arrangement

variable {ι κ : Type*} (A : Arrangement ι κ)

/-! ### Steps -/

/-- What is heard on a link is at most one step further off than for who sent it. -/
theorem steps_le {i j : ι} (h : A.Linked j i) {net : UInt16} {n : ℕ} (hn : A.steps j net ≤ n) :
    A.steps i net ≤ (n + 1 : ℕ) := by
  by_cases he : i = j
  · subst he
    exact hn.trans (by exact_mod_cast Nat.le_succ n)
  · refine SimpleGraph.stepsTo_le_of_adj ?_ hn
    exact SimpleGraph.fromRel_adj _ _ _ |>.2 ⟨he, Or.inr h⟩

/-- The networks of one range are equally far away. -/
theorem steps_range {j : ι} {p : Port} (hp : p ∈ (A.start j).ports) (i : ι) {net : UInt16}
    (hnet : p.owns net) : A.steps i net = A.steps i p.range.1 := by
  have hsound := (A.built j).reachable.sound p hp
  have hfirst : p.owns p.range.1 := by simpa [Port.owns] using hsound.2.2.1
  -- A port that owns a network of the range sits on the range's cable.
  have hall : ∀ {m m' : UInt16}, p.owns m → p.owns m' → ∀ k, ∀ q ∈ (A.start k).ports,
      q.owns m → q.owns m' := by
    intro m m' hm hm' k q hq hqm
    have hr : p.range = q.range := by
      refine A.same j k p hp q hq ?_
      by_contra hc
      refine A.apart j k p hp q hq hc ?_
      simp only [Port.owns, decide_eq_true_eq] at hm hqm
      simp only [overlaps, decide_eq_true_eq]
      exact ⟨UInt16.le_trans hm.1 hqm.2, UInt16.le_trans hqm.1 hm.2⟩
    simpa [Port.owns, hr] using hm'
  unfold steps
  congr 1
  ext k
  constructor
  · rintro ⟨q, hq, h⟩
    exact ⟨q, hq, hall hnet hfirst k q hq h⟩
  · rintro ⟨q, hq, h⟩
    exact ⟨q, hq, hall hfirst hnet k q hq h⟩

/-! ### The floor of a router -/

/-- The ranges of the cables, and the steps to each. -/
noncomputable def floor (i : ι) : Floor :=
  { ranges := {x | ∃ j, ∃ p ∈ (A.start j).ports, p.range = x}
    least := A.steps i }

/-- What is fair where it was sent is fair one step away. -/
theorem fair_linked {i j : ι} (h : A.Linked j i) {x : NetworkTuple} (hx : (A.floor j).Fair 0 x) :
    (A.floor i).Fair 1 x :=
  ⟨hx.range, hx.wire, fun hd => A.steps_le h (hx.least hd)⟩

/-- A distance above the floor is no shorter than the way to any network of its range. -/
theorem steps_of_range {x : UInt16 × UInt16} {i : ι} (hx : x ∈ (A.floor i).ranges) {n : ℕ}
    (hn : A.steps i x.1 ≤ n) {net : UInt16} (hnet : x.1 ≤ net ∧ net ≤ x.2) :
    A.steps i net ≤ n := by
  obtain ⟨j, p, hp, rfl⟩ := hx
  rw [A.steps_range hp i (by simpa [Port.owns] using hnet)]
  exact hn

/-! ### The invariant -/

/-- The routers are in reachable states on their own ports, and neither what they store nor what is
in the air is too short. -/
structure Fair (s : State ι) : Prop where
  reached : ∀ i, Router.Reachable (A.host i) (s.routers i)
  fixed : ∀ i, (s.routers i).fixed = (A.start i).fixed
  core : ∀ i, (s.routers i).core.Fair (A.floor i)
  air : ∀ x ∈ s.air, x.2.Fair (A.floor x.1) ((A.start x.1).ports.map Port.net)

theorem fair_init : A.Fair A.init := by
  refine ⟨fun i => (A.built i).reachable, fun _ => rfl, fun i => ⟨?_, ?_⟩, by simp [init]⟩
  · intro r hr
    obtain ⟨p, hp, hd, hone⟩ := (A.built i).direct r hr
    refine ⟨⟨i, p, hp, hd.range.symm⟩, ⟨?_, ?_⟩, ?_⟩
    · show r.distance ≤ 127
      rw [hd.distance]
      decide
    · intro hx
      have hx : r.extended = false := hx
      rw [hd.extended] at hx
      show r.range.1 = r.range.2
      rw [hd.range]
      exact hone hx
    · show A.steps i r.range.1 ≤ _
      have hsound := (A.built i).reachable.sound p hp
      have hown : i ∈ {j | ∃ p ∈ (A.start j).ports, p.owns r.range.1} :=
        ⟨p, hp, by simpa [Port.owns, hd.range] using hsound.2.2.1⟩
      rw [steps, SimpleGraph.stepsTo_of_mem hown]
      exact zero_le
  · intro ip p hp
    have hp : (A.start i).core.entry ip = some p := hp
    rw [(A.built i).no_peers] at hp
    cases hp

variable {A}

/-- What a quiet event tells a router is fair. -/
theorem Quiet.told {host : Host} {r : Router} {e : Event × Instant} (h : Quiet host r e)
    (F : Floor) : r.Told F host e :=
  ⟨h.decoded, fun i x hi hx m hm => absurd hm (h.datagram i x hi hx m),
    fun ip bytes dh conn seq cmd he hp t ht => by
      rw [h.packet ip bytes dh conn seq cmd he hp] at ht
      cases ht⟩

namespace Fair

variable {s : State ι}

/-- The port an RTMP datagram came off, and the cable it shares with the sender. -/
theorem beacon_told (h : A.Fair s) {i j : ι} {a : Action} {id id' : PortId}
    (ha : a.Fair (A.floor j) ((A.start j).ports.map Port.net)) (hout : ∀ o, a.Out o → o = .port id')
    (hc : A.cable j id' = A.cable i id) {x : Arrival} {q : Port}
    (hq : (s.routers i).port id = some q) (hx : x.router.fixed = (s.routers i).fixed)
    (ho : x.origin = .port id) (hd : a.datagram q.range.1 = some x.ddp)
    (hb : x.body = decodeDdpBody x.ddp) : x.Told (A.floor i) := by
  intro m hm
  obtain ⟨n, hn, hn', hnode, hnet, sender, range, tuples, rfl, ht⟩ :=
    ha.beacon _ _ m hd (hb ▸ hm)
  obtain ⟨p, hp, rfl⟩ := List.mem_map.1 hn
  have hid : p.id = id' := by simpa [Port.net] using hout _ hn'
  obtain ⟨q0, hq0, hrange0⟩ := Router.port_of_fixed (h.fixed i).symm hq
  obtain ⟨q', hq', hrange'⟩ := Router.port_of_fixed hx hq
  have hq0mem := Router.mem_of_port hq0
  have hcable : A.cable j p.id = A.cable i q0.id := by rw [hid, hq0mem.2, hc]
  have hrange : p.range = q.range := (A.same j i p hp q0 hq0mem.1 hcable).trans hrange0
  have hnet' : x.ddp.dst.net = q.range.1 := by
    rcases hnet with hnet | hnet
    · rw [hnet]
      exact congrArg Prod.fst hrange
    · exact hnet
  have hsound := (h.reached i).sound q (Router.mem_of_port hq).1
  have hdst : x.datagram.dst = x.ddp.dst := by
    have hzero : x.ddp.dst.net ≠ 0 := hnet' ▸ hsound.1
    unfold Arrival.datagram Router.localize
    split
    · rfl
    · simp [hzero]
  refine ⟨id, q', ho, hq', ?_, ?_, sender, range, tuples, rfl, fun t htm => ?_⟩
  · rw [hdst, hnet']
    simpa [Port.owns, hrange'] using hsound.2.2.1
  · rw [hdst]
    exact hnode
  · exact A.fair_linked (Or.inl ⟨p, hp, q0, hq0mem.1, hcable⟩) (ht t htm)

/-- **What the links deliver** is fair one step away from who sent it. -/
theorem told_of_carries (h : A.Fair s) {i j : ι} {a : Action} {m : In}
    (ha : a.Fair (A.floor j) ((A.start j).ports.map Port.net)) (hc : A.Carries j i a m)
    (now : Instant) : (s.routers i).Told (A.floor i) (A.host i) (.input m, now) := by
  have hm : m.Decoded := by
    cases hc with
    | ether _ hd => exact hd
    | _ => trivial
  refine ⟨fun m' he => ?_, fun m' x he hx => ?_, ?_⟩
  · cases he
    exact hm
  · cases he
    obtain ⟨hfixed, -, -⟩ := Router.arrival_same hx
    obtain ⟨hbody, -⟩ := Router.arrival_reads hm hx
    cases hc with
    | @ether p id packet hcable hd =>
      obtain ⟨q, hq, hx⟩ := Option.bind_eq_some_iff.1 hx
      dsimp only at hx
      split at hx
      · rename_i d d' body hin hb
        cases hx
        obtain ⟨body', hb', -⟩ := Port.inboundEther_ddp hin
        refine h.beacon_told ha (fun o ho => ho) hcable hq hfixed rfl ?_ hbody
        have hd : decodeBody packet.frame = some packet.body := hd
        simp only [Action.datagram, hd, hb']
      · cases hx
    | @llap p id l hcable =>
      obtain ⟨q, hq, hx⟩ := Option.bind_eq_some_iff.1 hx
      dsimp only at hx
      split at hx
      · rename_i d hin
        cases hx
        refine h.beacon_told ha (fun o ho => ho) hcable hq hfixed rfl ?_ hbody
        rcases Port.inboundLlap_reads hin with ⟨ht, hd⟩ | ⟨ht, hd⟩
        · simp [Action.datagram, ht, hd]
        · have hne : LLAP_LONG_DDP ≠ LLAP_SHORT_DDP := by decide
          simp [Action.datagram, ht, hne, hd]
      · cases hx
    | @tunnel bytes ht =>
      -- No tunnel carries RTMP.
      obtain ⟨d, hd, rfl⟩ := Option.map_eq_some_iff.1 hx
      obtain ⟨b, hb, hparse⟩ := Option.bind_eq_some_iff.1 hd
      obtain ⟨dh, hdata⟩ := Peers.packet_data hb
      intro m hm
      obtain ⟨n, -, hout, -⟩ := ha.beacon 0 d m (by simp [Action.datagram, hdata, hparse]) hm
      cases hout
  · intro ip bytes dh conn seq cmd he hp t ht
    cases he
    cases hc with
    | tunnel htunnel =>
      exact A.fair_linked (Or.inr htunnel)
        (ha.routing (A.ip i) (conn, seq, cmd) (by simp [routingOf, hp]) t ht)

/-- **One event** that may happen keeps every distance long enough. -/
theorem next [DecidableEq ι] (h : A.Fair s) {e : ι × Event × Instant} (he : A.Allowed s e) :
    A.Fair (A.next s e) := by
  obtain ⟨i, e⟩ := e
  have htold : (s.routers i).Told (A.floor i) (A.host i) e := by
    rcases he with ⟨j, a, m, hair, hc, hm⟩ | hq
    · obtain ⟨e, now⟩ := e
      cases hm
      exact h.told_of_carries (h.air _ hair) hc now
    · exact hq.told _
  obtain ⟨hcore, hacts⟩ := Router.fair_event (h.reached i) (h.core i) htold
  have hnets := Router.nets_of_fixed (h.fixed i)
  refine ⟨fun k => ?_, fun k => ?_, fun k => ?_, ?_⟩
  · by_cases hk : k = i
    · subst hk
      simpa [Arrangement.next, Router.after] using (h.reached k).after [e]
    · simpa [Arrangement.next, hk] using h.reached k
  · by_cases hk : k = i
    · subst hk
      simpa [Arrangement.next] using (Router.event_fixed _ e).trans (h.fixed k)
    · simpa [Arrangement.next, hk] using h.fixed k
  · by_cases hk : k = i
    · subst hk
      simpa [Arrangement.next] using hcore
    · simpa [Arrangement.next, hk] using h.core k
  · refine List.forall_mem_append.2 ⟨h.air, fun x hx => ?_⟩
    obtain ⟨a, ha, rfl⟩ := List.mem_map.1 hx
    rw [← hnets]
    exact hacts a ha

end Fair

variable (A) in
/-- **Distances are never underestimated.** After every run, no route of any router is shorter than
the way to a network of its range, and no tuple in the air that announces a way is shorter than its
sender's. -/
theorem never_underestimated [DecidableEq ι] {es : List (ι × Event × Instant)} (h : A.Run es) :
    (∀ i, ∀ r ∈ ((A.after es).routers i).tables.routes, ∀ net, r.range.1 ≤ net ∧ net ≤ r.range.2 →
      A.steps i net ≤ r.distance.toNat) ∧
    ∀ x ∈ (A.after es).air, ∀ cable, ∀ t ∈ x.2.tuples cable, t.distance < 15 →
      ∀ net, t.range.1 ≤ net ∧ net ≤ t.range.2 → A.steps x.1 net ≤ t.distance.toNat := by
  have hfair : A.Fair (A.after es) :=
    Machine.Guarded.invariant (I := A.Fair) (fun s e hs he => hs.next he) A.fair_init h
  refine ⟨fun i r hr net hnet => ?_, fun x hx cable t ht hd net hnet => ?_⟩
  · have habove := (hfair.core i).routes r hr
    exact A.steps_of_range habove.range habove.least hnet
  · have hx := (hfair.air x hx).tuples cable t ht
    exact A.steps_of_range hx.range (hx.least hd) hnet

/-- A router on network 10, and one that joins it to network 20. -/
def neighbours : Arrangement Bool PortId :=
  { host := fun _ => .lowest
    start := fun b => bif b then .small
      else .new .lowest Router.pairConfig [("ltoudp", .ltoudp), ("tty", .tashtalk)] 0
    built := fun b => match b with
      | true => Router.small_built
      | false => Router.pair_built
    cable := fun _ id => id
    ip := fun _ => ⟨192, 0, 2, 1⟩
    tunnel := fun _ _ => False
    same := by decide
    apart := by decide }

/-- What the second one announces on network 10. -/
def beacon : Llap :=
  { dst := 255, src := 128, typ := LLAP_SHORT_DDP
    data := [0, 15, 1, 1, 1, 0, 10, 8, 128, 0, 0, 130, 0, 20, 0] }

/-- It claims its addresses and announces its networks, and the first one hears it. -/
def announcement : List (Bool × Event × Instant) :=
  (((List.range 9).map fun k => fromMillis (250 * k)) ++ [fromSecs 10]).map
    (fun t => (false, .input .tick, t)) ++ [(true, .input (.llap 0 beacon), fromSecs 10)]

/-- A tick brings nothing. -/
theorem quiet_tick (host : Host) (r : Router) (now : Instant) :
    Quiet host r (.input .tick, now) where
  decoded i h := by
    cases h
    trivial
  datagram i x h hx := by
    cases h
    cases hx
  packet _ _ _ _ _ _ h := by cases h

theorem neighbours_run : neighbours.Run announcement := by
  refine Machine.Guarded.append.2 ⟨?_, Or.inl ⟨false, .toLlap 0 beacon, _, by decide +kernel,
    .llap rfl, rfl⟩, trivial⟩
  have hticks : ∀ e ∈ (((List.range 9).map fun k => fromMillis (250 * k)) ++ [fromSecs 10]).map
      (fun t => ((false, .input .tick, t) : Bool × Event × Instant)),
      ∃ t, e.2 = (.input .tick, t) :=
    List.forall_mem_map.2 fun t _ => ⟨t, rfl⟩
  exact (Machine.guarded_of_forall hticks).mono fun s e ⟨t, he⟩ => Or.inr (he ▸ quiet_tick _ _ t)

/-- The first one learns of network 20, at distance 1. -/
theorem never_underestimated_neighbours :
    ((neighbours.after announcement).routers true).tables.routes.map
        (fun r => (r.range, r.distance)) = [((10, 10), 0), ((20, 20), 1)] ∧
      neighbours.steps true 20 ≤ 1 ∧
      ∀ x ∈ (neighbours.after announcement).air, ∀ cable, ∀ t ∈ x.2.tuples cable,
        t.distance < 15 → ∀ net, t.range.1 ≤ net ∧ net ≤ t.range.2 →
          neighbours.steps x.1 net ≤ t.distance.toNat := by
  have hroutes : ((neighbours.after announcement).routers true).tables.routes.map
      (fun r => (r.range, r.distance)) = [((10, 10), 0), ((20, 20), 1)] := by decide +kernel
  obtain ⟨hstored, hair⟩ := neighbours.never_underestimated neighbours_run
  obtain ⟨r, hr, hlearned⟩ := List.mem_map.1 (hroutes ▸ List.mem_cons_of_mem _ List.mem_cons_self :
    ((20, 20), 1) ∈ ((neighbours.after announcement).routers true).tables.routes.map
      (fun r => (r.range, r.distance)))
  obtain ⟨hrange, hdistance⟩ := Prod.mk.inj hlearned
  have hsteps := hstored true r hr 20 (by rw [hrange]; decide)
  rw [hdistance] at hsteps
  exact ⟨hroutes, hsteps, hair⟩

end Arrangement

end AppleTalk
