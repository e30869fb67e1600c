import AppleTalk.Properties.Provenance

/-!
# Strangers

With open peering anybody who sends the router a packet gets an entry of its own, and addresses can
be made up. The entries nobody configured never number more than the router has set aside for them,
and without open peering there are none.
-/

namespace AppleTalk

/-- The most entries nobody configured. -/
def Peers.allowance (s : Peers) : ℕ := if s.openPeering then MAX_OPEN_PEERS else 0

namespace Core

variable {c : Core} {ip : Ipv4Addr}

/-- The addresses of the entries nobody configured. -/
def strangers (c : Core) : List Ipv4Addr :=
  (c.peers.peers.retain fun _ p => p.configured = none).keys

theorem mem_strangers :
    ip ∈ c.strangers ↔ ∃ p, c.entry ip = some p ∧ p.configured = none := by
  simp only [strangers, SortedMap.mem_keys, SortedMap.get?_retain, Option.filter_eq_some_iff,
    decide_eq_true_eq]
  rfl

theorem nodup_strangers (c : Core) : c.strangers.Nodup := SortedMap.nodup_keys _

theorem length_strangers_le_size (c : Core) : c.strangers.length ≤ c.peers.peers.size := by
  have hlen : c.strangers.length =
      (c.peers.peers.retain fun _ p => p.configured = none).size := List.length_map ..
  rw [hlen]
  exact List.length_filter_le ..

/-- There is room for one more stranger. -/
def Room (c : Core) : Prop := c.peers.openPeering ∧ c.peers.peers.size < MAX_OPEN_PEERS

/-- Where an entry that nobody configured comes from: it was there before, or a packet made it
while there was room. -/
theorem stranger_of_entryStep {i : CoreIn × Instant} {q : Peer} (hq : c.entryStep i ip = some q)
    (hnone : q.configured = none) :
    ip ∈ c.strangers ∨ c.Room ∧ ∃ bytes, i.1 = .packet ip bytes := by
  have hsame : ∀ {p : Peer}, c.entry ip = some p → q.identity = p.identity →
      ip ∈ c.strangers ∨ c.Room ∧ ∃ bytes, i.1 = .packet ip bytes := fun hp hid =>
    Or.inl (mem_strangers.2 ⟨_, hp, (Peer.configured_eq hid).symm.trans hnone⟩)
  obtain ⟨i, now⟩ := i
  unfold entryStep at hq
  cases i with
  | batch ops => exact hsame hq rfl
  | packet «from» bytes =>
    dsimp only at hq
    split_ifs at hq with hfrom
    · subst hfrom
      cases hpkt : Aurp.parse bytes with
      | none =>
        rw [hpkt] at hq
        exact hsame hq rfl
      | some pkt =>
        rw [hpkt] at hq
        obtain ⟨p, hp, rfl⟩ := Option.map_eq_some_iff.1 hq
        unfold recipient at hp
        cases hentry : c.entry «from» with
        | some p' =>
          rw [hentry] at hp
          obtain rfl := Option.some.inj hp
          exact hsame hentry (p'.received_identity «from» pkt c.tables now)
        | none =>
          rw [hentry] at hp
          dsimp only at hp
          split_ifs at hp with hroom
          exact Or.inr ⟨hroom, bytes, rfl⟩
    · exact hsame hq rfl
  | tick =>
    obtain ⟨hq, -⟩ := Option.filter_eq_some_iff.1 hq
    obtain ⟨p, hp, rfl⟩ := Option.map_eq_some_iff.1 hq
    exact hsame hp (p.timed_identity _ now)
  | resolved name addr =>
    dsimp only at hq
    cases ha : c.entry addr with
    | some p =>
      rw [ha] at hq
      dsimp only at hq
      split_ifs at hq
      · obtain rfl := Option.some.inj hq
        cases hnone
      · exact hsame hq rfl
    | none =>
      rw [ha] at hq
      dsimp only at hq
      split_ifs at hq
      · obtain rfl := Option.some.inj hq
        cases hnone
      · exact hsame (Option.filter_eq_some_iff.1 hq).1 rfl
  | ping =>
    obtain ⟨p, hp, rfl⟩ := Option.map_eq_some_iff.1 hq
    exact hsame hp (p.pinged_identity now)
  | pingReport =>
    rcases samePeers_pingReport c.peers ip with he | he
    · exact hsame (he.symm.trans hq) rfl
    · obtain ⟨p, hp, rfl⟩ := Option.map_eq_some_iff.1 (he.symm.trans hq)
      exact hsame hp rfl
  | shutdown =>
    obtain ⟨p, hp, rfl⟩ := Option.map_eq_some_iff.1 hq
    exact hsame hp (p.shut_identity now)

theorem stranger_of_next {i : CoreIn × Instant} (h : ip ∈ (c.next i).strangers) :
    ip ∈ c.strangers ∨ c.Room ∧ ∃ bytes, i.1 = .packet ip bytes := by
  obtain ⟨q, hq, hnone⟩ := mem_strangers.1 h
  rw [next_entry] at hq
  obtain ⟨p, hp, rfl⟩ := Option.map_eq_some_iff.1 hq
  exact stranger_of_entryStep hp ((Peer.configured_eq (p.hear_identity _)).symm.trans hnone)

theorem report_openPeering (c : Core) (chs : List RouteChange) :
    (c.report chs).peers.openPeering = c.peers.openPeering := by
  unfold report
  split_ifs <;> rfl

/-- Nothing changes whether the router peers with anybody. -/
theorem next_openPeering (c : Core) (i : CoreIn × Instant) :
    (c.next i).peers.openPeering = c.peers.openPeering := by
  obtain ⟨i, now⟩ := i
  cases i with
  | batch ops => exact report_openPeering _ _
  | packet «from» bytes =>
    refine (report_openPeering _ _).trans ?_
    have hdeliver : ∀ (s : Peers) p pkt,
        (s.deliver p «from» pkt c.tables now).peers.openPeering = s.openPeering := by
      intro s p pkt
      cases pkt <;> rfl
    have haway : ∀ line,
        (c.peers.turnAway «from» line c.tables now).peers.openPeering = c.peers.openPeering := by
      intro line
      unfold Peers.turnAway Peers.logUnknown
      dsimp only
      split_ifs <;> rfl
    show (c.peers.packet «from» bytes c.tables now).peers.openPeering = _
    unfold Peers.packet
    cases Aurp.parse bytes with
    | none => rfl
    | some pkt =>
      cases c.peers.peers.get? «from» with
      | some p => exact hdeliver c.peers p pkt
      | none =>
        dsimp only
        split_ifs
        · exact haway _
        · exact haway _
        · exact hdeliver _ _ pkt
  | tick => exact report_openPeering _ _
  | resolved name addr =>
    show (c.peers.resolved name addr now).openPeering = _
    unfold Peers.resolved
    cases c.peers.peers.get? addr <;> rfl
  | _ => rfl

/-- There are no more strangers than allowed. -/
def Bounded (c : Core) : Prop := c.strangers.length ≤ c.peers.allowance

/-- **One input** keeps the bound. -/
theorem Bounded.next (h : c.Bounded) (i : CoreIn × Instant) : (c.next i).Bounded := by
  have hallow : (c.next i).peers.allowance = c.peers.allowance := by
    unfold Peers.allowance
    rw [next_openPeering]
  unfold Bounded
  rw [hallow]
  by_cases hnew : ∃ «from» bytes, i.1 = .packet «from» bytes ∧ c.Room
  · obtain ⟨«from», bytes, hi, hopen, hsize⟩ := hnew
    have hsub : (c.next i).strangers ⊆ «from» :: c.strangers := by
      intro ip hip
      rcases stranger_of_next hip with hold | ⟨-, bytes', hi'⟩
      · exact List.mem_cons_of_mem _ hold
      · rw [hi] at hi'
        cases hi'
        exact List.mem_cons_self
    have hlen := (nodup_strangers (c.next i)).length_le_of_subset hsub
    have hroom := c.length_strangers_le_size
    rw [Peers.allowance, if_pos hopen]
    rw [List.length_cons] at hlen
    omega
  · refine ((nodup_strangers (c.next i)).length_le_of_subset fun ip hip => ?_).trans h
    rcases stranger_of_next hip with hold | ⟨hroom, bytes, hi⟩
    · exact hold
    · exact absurd ⟨ip, bytes, hi, hroom⟩ hnew

end Core

namespace Router

variable {host : Host} {r : Router}

/-- **Strangers are bounded.** In every reachable state at most `MAX_OPEN_PEERS` entries are ones
that nobody configured, and without open peering none is. -/
theorem strangers_bounded (h : Reachable host r) :
    r.core.strangers.Nodup ∧
      (∀ ip, ip ∈ r.core.strangers ↔
        ∃ p, r.peers.peers.get? ip = some p ∧ p.configured = none) ∧
      r.core.strangers.length ≤ if r.peers.openPeering then MAX_OPEN_PEERS else 0 := by
  refine ⟨Core.nodup_strangers _, fun ip => Core.mem_strangers, ?_⟩
  obtain ⟨r0, es, hbuilt, hr⟩ := h.core
  have hstart : r0.core.Bounded := by
    obtain ⟨cfg, kinds, now, -, -, rfl⟩ := hbuilt
    exact Nat.zero_le _
  have hend : r.core.Bounded := by
    rw [hr]
    exact Machine.run_invariant (fun c i hc => hc.next i) hstart _
  exact hend

/-- Two strangers have called on the small router. -/
def visited : Router :=
  small.after .lowest [(.input (.aurp ⟨192, 0, 2, 1⟩ (peerPacket 1 0 .tickle)), 0),
    (.input (.aurp ⟨192, 0, 2, 2⟩ (peerPacket 1 0 .tickle)), 0)]

theorem strangers_bounded_visited :
    visited.core.strangers.length = 2 ∧ visited.core.strangers.length ≤ MAX_OPEN_PEERS :=
  ⟨by decide +kernel, (strangers_bounded ⟨small, _, small_built, rfl⟩).2.2.trans_eq
    (if_pos (by decide +kernel))⟩

end Router

end AppleTalk
