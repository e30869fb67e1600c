import AppleTalk.Properties.Transparency

/-!
# Checksums on the way

The checksum covers both network numbers, and a router fills in its cable's for network 0 without
touching the field. What it passes on then has a wrong checksum, unless the far end never reads the
field or the two sums are the two that are written alike.
-/

namespace AppleTalk

open Octets

/-! ### Sums -/

/-- The two totals that are written alike. -/
def Alike (s t : UInt16) : Prop := s = 0 ∧ t = 0xffff ∨ s = 0xffff ∧ t = 0

theorem checksum_eq_iff (a b : Bytes) :
    checksum a = checksum b ↔
      runningSum a 0 = runningSum b 0 ∨ Alike (runningSum a 0) (runningSum b 0) := by
  rw [checksum_eq, checksum_eq]
  unfold Alike
  split_ifs with h1 h2 h2
  · simp [h1, h2]
  · have hmax : (0 : UInt16) ≠ 0xffff := by decide
    simp only [h1, true_and, hmax, false_and, or_false]
    exact ⟨fun h => Or.inr h.symm, fun h => h.elim (fun h => absurd h.symm h2) Eq.symm⟩
  · simp [h1, h2]
  · simp [h1, h2]

theorem runningSum_append (a b : Bytes) (s : UInt16) :
    runningSum (a ++ b) s = runningSum b (runningSum a s) := List.foldl_append

/-- A word added to a small total carries nothing. -/
theorem toNat_runningSum_ofWord (n : UInt16) {s : UInt16} (hs : s.toNat ≤ 2000) :
    (runningSum (ofWord n) s).toNat = 4 * (s.toNat + (hi8 n).toNat) + 2 * (lo8 n).toNat := by
  have hhi := (hi8 n).toNat_lt
  have hlo := (lo8 n).toNat_lt
  have hsmall : ∀ (t : UInt16) (b : UInt8), t.toNat ≤ 6000 →
      (rotateLeft1 (t + b.toUInt16)).toNat = 2 * (t.toNat + b.toNat) := by
    intro t b ht
    have hb := b.toNat_lt
    rw [toNat_rotateLeft1, toNat_add_byte, Nat.mod_eq_of_lt (a := t.toNat + b.toNat) (by omega),
      Nat.mod_eq_of_lt (by omega), Nat.div_eq_of_lt (by omega), Nat.add_zero]
  have h1 := hsmall s (hi8 n) (by omega)
  have h2 := hsmall (rotateLeft1 (s + (hi8 n).toUInt16)) (lo8 n) (by omega)
  simp only [ofWord, runningSum_cons, runningSum_nil]
  omega

/-- The same word twice, and twice the word zero. -/
theorem runningSum_ofWord_twice {n : UInt16} (hn : n ≠ 0) :
    runningSum (ofWord n) (runningSum (ofWord n) 0) ≠
      runningSum (ofWord 0) (runningSum (ofWord 0) 0) := by
  intro h
  have hhi := (hi8 n).toNat_lt
  have hlo := (lo8 n).toNat_lt
  have h1 := toNat_runningSum_ofWord n (s := 0) (by decide)
  have hzero : (0 : UInt16).toNat = 0 := rfl
  rw [hzero] at h1
  have h2 := toNat_runningSum_ofWord n (s := runningSum (ofWord n) 0) (by omega)
  rw [h, show (runningSum (ofWord 0) (runningSum (ofWord 0) 0)).toNat = 0 from by decide] at h2
  have hhi0 : (hi8 n).toNat = 0 := by omega
  have hlo0 : (lo8 n).toNat = 0 := by omega
  refine hn ?_
  rw [← be16_hi8_lo8 n]
  unfold be16
  rw [hhi0, hlo0]
  rfl

/-- **Filling in a network shows in the sum.** -/
theorem runningSum_nets (n dst src : UInt16) (rest : Bytes) :
    runningSum (ofWord (if dst = 0 then n else dst) ++
        (ofWord (if src = 0 then n else src) ++ rest)) 0 =
      runningSum (ofWord dst ++ (ofWord src ++ rest)) 0 ↔
      n = 0 ∨ dst ≠ 0 ∧ src ≠ 0 := by
  simp only [runningSum_append]
  constructor
  · intro h
    have h := runningSum_injective rest h
    by_cases hn : n = 0
    · exact Or.inl hn
    refine Or.inr ?_
    by_cases hd : dst = 0 <;> by_cases hs : src = 0
    · simp only [hd, hs, if_true] at h
      exact absurd h (runningSum_ofWord_twice hn)
    · simp only [hd, hs, if_true, if_false] at h
      exact absurd (runningSum_injective _ h) (runningSum_ofWord hn 0)
    · simp only [hd, hs, if_true, if_false] at h
      exact absurd h (runningSum_ofWord hn _)
    · exact ⟨hd, hs⟩
  · rintro (rfl | ⟨hd, hs⟩)
    · have hz : ∀ m : UInt16, (if m = 0 then 0 else m) = m := fun m => by split_ifs <;> simp_all
      rw [hz, hz]
    · rw [if_neg hd, if_neg hs]

theorem Ddp.computeChecksum_eq_iff (d d' : Ddp) :
    d.computeChecksum = d'.computeChecksum ↔
      runningSum d.summed 0 = runningSum d'.summed 0 ∨
        Alike (runningSum d.summed 0) (runningSum d'.summed 0) := checksum_eq_iff _ _

/-! ### What the router makes of them -/

/-- The field says nothing, or what it should. -/
def Ddp.ChecksumOk (d : Ddp) : Prop := d.checksum = 0 ∨ d.checksum = d.computeChecksum

/-- Neither the hop count nor the length is summed. -/
theorem checksumOk_written {d : Ddp} {origin : Origin} {target : Target} :
    (Router.crossed origin target d).written.ChecksumOk ↔ d.ChecksumOk := by
  obtain ⟨hops, h⟩ := Router.crossed_eq origin target d
  rw [h]
  rfl

namespace Arrival

/-- There is no network to fill in: no cable, a cable without a number, or both networks named. -/
def NetsNamed (x : Arrival) : Prop :=
  ∀ p, x.router.arrivedOn x.origin = some p →
    p.range.1 = 0 ∨ x.ddp.dst.net ≠ 0 ∧ x.ddp.src.net ≠ 0

theorem runningSum_datagram (x : Arrival) :
    runningSum x.datagram.summed 0 = runningSum x.ddp.summed 0 ↔ x.NetsNamed := by
  unfold NetsNamed datagram Router.localize
  cases x.router.arrivedOn x.origin with
  | none => simp
  | some p =>
    have hnet : ∀ a : Addr, (if a.net = 0 then { a with net := p.range.1 } else a).net =
        if a.net = 0 then p.range.1 else a.net := fun a => by split_ifs <;> rfl
    have hnode : ∀ a : Addr, (if a.net = 0 then { a with net := p.range.1 } else a).node =
        a.node := fun a => by split_ifs <;> rfl
    unfold Ddp.summed
    simp only [hnet, hnode, Option.some.injEq, forall_eq']
    exact runningSum_nets _ _ _ _

/-- **When the checksum is still right**: there was no network to fill in, or the sums are written
alike. -/
theorem checksumOk_iff {x : Arrival} (hne : x.ddp.checksum ≠ 0)
    (hsum : x.ddp.checksum = x.ddp.computeChecksum) :
    x.datagram.ChecksumOk ↔
      x.NetsNamed ∨ Alike (runningSum x.datagram.summed 0) (runningSum x.ddp.summed 0) := by
  have hfield : x.datagram.checksum = x.ddp.checksum := by rw [datagram_eq]
  unfold Ddp.ChecksumOk
  rw [hfield, or_iff_right hne, hsum, eq_comm, Ddp.computeChecksum_eq_iff, runningSum_datagram]

end Arrival

namespace Router

variable {host : Host} {r : Router}

/-- A copy goes out behind an extended header, where there is room for it. -/
def Extended (r : Router) (origin : Origin) (d : Ddp) : Prop :=
  d.hops < MAX_HOPS ∧ ∃ route, r.tables.best d.dst.net = some route ∧
    origin.is route.target = false ∧
    ∀ id, route.target = .port id → ∃ p, r.port id = some p ∧ p.node.isSome ∧
      ¬p.Short d.src.net d.dst.net ∧ (p.extended = false → 13 + d.data.length ≤ LLAP_MAX_DATA)

variable (host) in
theorem Extended.exists_copy {origin : Origin} {d : Ddp} (h : r.Extended origin d)
    (hlen : d.data.length ≤ 1010) :
    ∃ a ∈ r.forward host origin d,
      ∃ target, r.farEnd a = some (crossed origin target d).written := by
  obtain ⟨hh, route, hb, hi, hport⟩ := h
  have hroute : ∀ route', r.tables.best d.dst.net = some route' → route' = route := fun route' h =>
    Option.some.inj (h.symm.trans hb)
  cases ht : route.target with
  | peer ip =>
    have ha : r.peers.forward ip (crossed origin route.target d).toBytes ∈
        r.forward host origin d := mem_forward.2 ⟨hh, route, hb, hi, by rw [ht]⟩
    refine ⟨_, ha, route.target, ?_⟩
    obtain ⟨route', hb', ⟨ip, -, -, hread⟩ | ⟨id, p, ht', -⟩⟩ := forward_farEnd ha hlen
    · rw [hread, hroute route' hb']
    · rw [hroute route' hb', ht] at ht'
      cases ht'
  | port id =>
    obtain ⟨p, hp, hn, hs, hroom⟩ := hport id ht
    obtain ⟨a, ha⟩ := Port.exists_emit host hn (nextDest route d) (crossed origin route.target d)
    have ha : a ∈ r.forward host origin d :=
      mem_forward.2 ⟨hh, route, hb, hi, by rw [ht]; exact ⟨p, hp, ht ▸ ha⟩⟩
    refine ⟨a, ha, route.target, ?_⟩
    obtain ⟨route', hb', ⟨ip, ht', -⟩ | ⟨id', p', ht', hp', -, -, -, hread⟩⟩ :=
      forward_farEnd ha hlen
    · rw [hroute route' hb', ht] at ht'
      cases ht'
    · obtain rfl := hroute route' hb'
      obtain rfl : id = id' := Target.port.inj (ht.symm.trans ht')
      obtain rfl := Option.some.inj (hp.symm.trans hp')
      rw [hread hs, if_neg fun h => absurd (hroom h.1) (Nat.not_le.2 h.2)]

variable (host) in
/-- What the far end gets to read has a field that is right, unless a copy goes out behind an
extended header and its own is wrong. -/
theorem forward_checksums_iff {origin : Origin} {d : Ddp} (hlen : d.data.length ≤ 1010) :
    (∀ a ∈ r.forward host origin d, ∀ d', r.farEnd a = some d' → d'.ChecksumOk) ↔
      (r.Extended origin d → d.ChecksumOk) := by
  constructor
  · intro h hext
    obtain ⟨a, ha, target, hread⟩ := hext.exists_copy host hlen
    exact checksumOk_written.1 (h a ha _ hread)
  · intro h a ha d' hd'
    obtain ⟨hh, route', hb', hi, -⟩ := mem_forward.1 ha
    obtain ⟨route, hb, ⟨ip, ht, -, hread⟩ | ⟨id, p, ht, hp, hn, -, hshort, hread⟩⟩ :=
      forward_farEnd ha hlen
    all_goals obtain rfl := Option.some.inj (hb.symm.trans hb')
    · rw [hread] at hd'
      cases hd'
      exact checksumOk_written.2 (h ⟨hh, route, hb, hi, fun id hid => by
        rw [ht] at hid
        cases hid⟩)
    · by_cases hs : p.Short d.src.net d.dst.net
      · exact Or.inl (hshort hs d' hd')
      · rw [hread hs] at hd'
        split_ifs at hd' with hroom
        cases hd'
        refine checksumOk_written.2 (h ⟨hh, route, hb, hi, fun id' hid => ?_⟩)
        obtain rfl : id = id' := Target.port.inj (ht.symm.trans hid)
        exact ⟨p, hp, hn, hs, fun hext => Nat.not_lt.1 fun hlt => hroom ⟨hext, hlt⟩⟩

/-- **When checksums survive the router**: just when no copy goes out behind an extended header, or
there was no network to fill in, or the sums without and with it are written alike. -/
theorem checksums_survive_iff {i : In} {now : Instant} {x : Arrival} (hi : i.Decoded)
    (hx : r.arrival host i now = some x) (hne : x.ddp.checksum ≠ 0)
    (hsum : x.ddp.checksum = x.ddp.computeChecksum) :
    (∀ a ∈ (r.step host i now).2, a.CopyOf x.ddp → ∀ d', x.router.farEnd a = some d' →
        d'.checksum = 0 ∨ d'.checksum = d'.computeChecksum) ↔
      (x.Forwarded → (x.settled host now).Extended x.origin x.datagram →
        x.NetsNamed ∨ Alike (runningSum x.datagram.summed 0) (runningSum x.ddp.summed 0)) := by
  rw [← Arrival.checksumOk_iff hne hsum]
  have hlen : x.Forwarded → x.datagram.data.length ≤ 1010 := by
    intro hf
    have hlength := hf.length
    rw [Arrival.datagram_eq]
    dsimp only
    rcases (arrival_reads hi hx).2 with ⟨b, hb⟩ | ⟨b, net, dst, src, hb⟩
    · have := Ddp.length_lt_of_parse hb
      omega
    · exact absurd (Ddp.checksum_of_fromShort hb) hne
  constructor
  · intro h hf
    refine (forward_checksums_iff host (hlen hf)).1 fun a ha d' hd' => ?_
    obtain ⟨hstep, hcopy⟩ := (copies_iff hi hx).2 ⟨hf, ha⟩
    exact h a hstep hcopy d' (by rw [← settled_farEnd host x now]; exact hd')
  · intro h a ha hcopy d' hd'
    obtain ⟨hf, ha⟩ := (copies_iff hi hx).1 ⟨ha, hcopy⟩
    rw [← settled_farEnd host x now] at hd'
    exact (forward_checksums_iff host (hlen hf)).2 (h hf) a ha d' hd'

/-- A datagram from node 7 of its own network to node 5 of network 20, with its checksum. -/
def summedDatagram : Ddp :=
  { hops := 0, length := 14, checksum := 15622, dst := { net := 20, node := 5 }, dstSocket := 200
    src := { net := 0, node := 7 }, srcSocket := 200, typ := 9, data := [1] }

/-- A node's frame with it. -/
def summedFrame : Llap :=
  { dst := 128, src := 7, typ := LLAP_LONG_DDP, data := summedDatagram.toBytes }

theorem exists_summed_arrival :
    ∃ x, pair.arrival .lowest (.llap 0 summedFrame) (fromSecs 5) = some x ∧
      x.ddp = summedDatagram :=
  Option.map_eq_some_iff.1 (by decide +kernel)

theorem checksums_survive_iff_pair :
    ∃ x, pair.arrival .lowest (.llap 0 summedFrame) (fromSecs 5) = some x ∧
      ((∀ a ∈ (pair.step .lowest (.llap 0 summedFrame) (fromSecs 5)).2, a.CopyOf x.ddp →
          ∀ d', x.router.farEnd a = some d' →
            d'.checksum = 0 ∨ d'.checksum = d'.computeChecksum) ↔
        (x.Forwarded → (x.settled .lowest (fromSecs 5)).Extended x.origin x.datagram →
          x.NetsNamed ∨
            Alike (runningSum x.datagram.summed 0) (runningSum x.ddp.summed 0))) := by
  obtain ⟨x, hx, hd⟩ := exists_summed_arrival
  exact ⟨x, hx, checksums_survive_iff trivial hx (by rw [hd]; decide) (by rw [hd]; decide)⟩

/-- Network 10 filled in for network 0, and the checksum left as it was. -/
theorem checksum_broken :
    ¬∀ (r : Router) (i : In) (now : Instant) (x : Arrival), i.Decoded →
      r.arrival .lowest i now = some x → x.ddp.checksum ≠ 0 →
      x.ddp.checksum = x.ddp.computeChecksum →
      ∀ a ∈ (r.step .lowest i now).2, a.CopyOf x.ddp → ∀ d', x.router.farEnd a = some d' →
        d'.checksum = 0 ∨ d'.checksum = d'.computeChecksum := by
  intro h
  obtain ⟨x, hx, hd⟩ := exists_summed_arrival
  let sent : Ddp := { summedDatagram with src := { net := 10, node := 7 }, hops := 1 }
  have hacts : (pair.step .lowest (.llap 0 summedFrame) (fromSecs 5)).2 =
      [.toLlap 1 { dst := 5, src := 128, typ := LLAP_LONG_DDP, data := sent.toBytes }] := by
    decide +kernel
  have hcopy : (Action.toLlap 1 { dst := 5, src := 128, typ := LLAP_LONG_DDP
                                  data := sent.toBytes }).CopyOf x.ddp := by
    rw [hd]
    exact ⟨sent, rfl, rfl, Or.inl ⟨rfl, rfl⟩⟩
  have hread : x.router.farEnd (.toLlap 1 { dst := 5, src := 128, typ := LLAP_LONG_DDP
                                            data := sent.toBytes }) = some sent := by
    unfold farEnd
    rw [Action.reads_long]
    decide
  have hbad := h pair (.llap 0 summedFrame) (fromSecs 5) x trivial hx (by rw [hd]; decide)
    (by rw [hd]; decide) _ (hacts ▸ List.mem_singleton_self _) hcopy sent hread
  revert hbad
  decide

end Router

end AppleTalk
