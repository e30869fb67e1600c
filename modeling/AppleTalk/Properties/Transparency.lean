import AppleTalk.Properties.Addressed
import AppleTalk.Properties.Storms
import AppleTalk.Router.FarEnd

/-!
# Transparent forwarding

A datagram passed on comes out of the far end as it went in, with the arriving cable's network where
it said network 0 and a hop counted. Three framings in and three out meet in one form, the
extended header.
-/

namespace AppleTalk

/-- The action carries a datagram's type and data, at whatever addresses and hop count. -/
def Action.CopyOf (d : Ddp) (a : Action) : Prop :=
  ∃ d', d'.typ = d.typ ∧ d'.data = d.data ∧ Encodes d' a

/-- What a link sends itself is no datagram. -/
theorem Action.Link.not_copyOf {a : Action} (h : a.Link) (d : Ddp) : ¬a.CopyOf d := by
  rintro ⟨d', -, -, hd'⟩
  cases a with
  | toEther id f => exact absurd (hd'.1.symm.trans h) (by decide)
  | toLlap id l =>
    rcases hd' with ⟨-, hl⟩ | ⟨-, hl⟩
    · simp [h.1, Ddp.toBytes] at hl
    · simp [h.1, Ddp.toShortBytes] at hl
  | toPeer ip b => exact h
  | _ => exact hd'

/-- What crossing a router costs: a hop, but nothing from a tunnel to a cable. -/
def hopCost : Origin → Action → UInt8
  | .peer _, .toEther .. | .peer _, .toLlap .. => 0
  | _, _ => 1

namespace Arrival

/-- The address with the arriving cable's network for network 0. -/
def named (x : Arrival) (a : Addr) : Addr :=
  match x.router.arrivedOn x.origin with
  | some p => if a.net = 0 then { a with net := p.range.1 } else a
  | none => a

theorem datagram_eq (x : Arrival) :
    x.datagram = { x.ddp with dst := x.named x.ddp.dst, src := x.named x.ddp.src } := by
  unfold datagram Router.localize named
  cases x.router.arrivedOn x.origin <;> rfl

/-- Nothing the services answer is a copy of the datagram. -/
theorem served_not_copyOf {host : Host} {x : Arrival} (hb : x.body = decodeDdpBody x.ddp) (q : Port)
    (now : Instant) :
    ∀ a ∈ (x.router.served host x.origin q x.datagram x.body now).2, ¬a.CopyOf x.ddp := by
  intro a ha
  rcases List.mem_append.1 ha with ha | ha
  · have hlog : a.Link := by
      unfold Router.changed at ha
      split_ifs at ha
      · cases ha
      · obtain ⟨c, -, rfl⟩ := List.mem_map.1 ha
        trivial
    exact hlog.not_copyOf _
  · obtain ⟨e, he, ha⟩ := List.mem_flatMap.1 ha
    rintro ⟨d', ht, hd, henc⟩
    -- An answer ranks below the datagram, a copy would rank with it.
    obtain ⟨ht', hd'⟩ := (Router.emit_encodes ha).inside henc
    have hlt := (Local.sends_of_mem he).rank_lt
    have hrank : e.ddp.rank = x.ddp.rank := Ddp.rank_congr (ht'.trans ht) (hd'.trans hd)
    rw [hb, hrank] at hlt
    exact lt_irrefl _ hlt

end Arrival

namespace Router

variable {host : Host} {r : Router}

theorem settled_port (host : Host) (x : Arrival) (now : Instant) (id : PortId) :
    (x.settled host now).port id = x.router.port id := by
  unfold port
  rw [Arrival.settled_ports]

theorem settled_farEnd (host : Host) (x : Arrival) (now : Instant) (a : Action) :
    (x.settled host now).farEnd a = x.router.farEnd a := by
  cases a <;> simp only [farEnd, cable, settled_port]

/-- The copies a step sends of the datagram that arrived are what is passed on. -/
theorem copies_iff {i : In} {now : Instant} {x : Arrival} {a : Action} (hi : i.Decoded)
    (hx : r.arrival host i now = some x) :
    a ∈ (r.step host i now).2 ∧ a.CopyOf x.ddp ↔
      x.Forwarded ∧ a ∈ (x.settled host now).forward host x.origin x.datagram := by
  obtain ⟨own, hstep, hown⟩ := step_of_arrival hx
  constructor
  · rintro ⟨ha, hcopy⟩
    rw [hstep] at ha
    rcases List.mem_append.1 ha with ha | ha
    · exact absurd hcopy ((hown a ha).not_copyOf _)
    · rcases Arrival.mem_arrived.1 ha with ⟨q, -, ha⟩ | h
      · exact absurd hcopy (Arrival.served_not_copyOf (arrival_reads hi hx).1 q now a ha)
      · exact h
  · rintro ⟨hf, ha⟩
    refine ⟨mem_step_of_arrived hx (Arrival.mem_arrived.2 (Or.inr ⟨hf, ha⟩)), ?_⟩
    obtain ⟨route, -, -, henc⟩ := forward_encodes ha
    refine ⟨_, ?_, ?_, henc⟩
    all_goals
      obtain ⟨hops, hcross⟩ := crossed_eq x.origin route.target x.datagram
      rw [hcross, Arrival.datagram_eq]

/-- What the far end reads of a copy that has an extended header. -/
theorem written_crossed {x : Arrival} {target : Target} {a : Action} (hf : x.Forwarded)
    (hlen : x.ddp.data.length ≤ 586) (hh : x.datagram.hops < MAX_HOPS) (ho : x.origin ≠ .here)
    (hout : (∃ ip, target = .peer ip ∧ a.Out (.peer ip)) ∨
      ∃ id, target = .port id ∧ a.Out (.port id)) :
    (crossed x.origin target x.datagram).written =
      { x.ddp with
        dst := x.named x.ddp.dst, src := x.named x.ddp.src
        hops := x.ddp.hops + hopCost x.origin a } := by
  have hcost : crossed x.origin target x.datagram =
      { x.datagram with hops := x.ddp.hops + hopCost x.origin a } := by
    rw [Arrival.datagram_eq]
    unfold crossed
    rcases hout with ⟨ip, rfl, hout⟩ | ⟨id, rfl, hout⟩
    · cases a with
      | toPeer => cases ho' : x.origin with
        | here => exact absurd ho' ho
        | _ => rfl
      | _ => cases hout
    · cases a with
      | toPeer => cases hout
      | toEther => cases ho' : x.origin with
        | here => exact absurd ho' ho
        | port => rfl
        | peer => simp [free, hopCost]
      | toLlap => cases ho' : x.origin with
        | here => exact absurd ho' ho
        | port => rfl
        | peer => simp [free, hopCost]
      | _ => cases hout
  have hle : (crossed x.origin target x.datagram).hops ≤ 15 := by
    have := crossed_hops x.origin target hh
    have h15 : x.datagram.hops.toNat < 15 := UInt8.lt_iff_toNat_lt.1 hh
    rw [UInt8.le_iff_toNat_le, this]
    show _ ≤ 15
    split_ifs <;> omega
  have hlength : UInt16.ofNat ((13 + x.ddp.data.length) % 1024) = x.ddp.length := by
    apply UInt16.toNat_inj.1
    rw [hf.length, UInt16.toNat_ofNat']
    omega
  have hhops := Ddp.written_hops hle
  rw [hcost, Arrival.datagram_eq] at hhops ⊢
  unfold Ddp.written at hhops ⊢
  dsimp only at hhops ⊢
  rw [hhops, hlength]

/-- **Transparent forwarding.** Of a datagram passed on a step sends what `forward` makes of it, one
copy at most and not back the way it came, and no other copy. The far end reads the datagram as it
arrived, network 0 filled in and a hop counted; where the target is LocalTalk, unless it comes from
the target's own network. -/
theorem forwards_transparently {i : In} {now : Instant} {x : Arrival} (hi : i.Decoded)
    (hx : r.arrival host i now = some x) (hf : x.Forwarded) (hlen : x.ddp.data.length ≤ 586) :
    let copies := (x.settled host now).forward host x.origin x.datagram
    ∃ others, (r.step host i now).2 = others ++ copies ∧
      (∀ a ∈ others, ¬a.CopyOf x.ddp) ∧ copies.length ≤ 1 ∧
      ∀ a ∈ copies, a.CopyOf x.ddp ∧ ¬a.Out x.origin ∧
        ((∀ id p, a.Out (.port id) → x.router.port id = some p → p.extended = false →
            (x.named x.ddp.src).net ≠ p.range.1) →
          x.router.farEnd a = some
            { x.ddp with
              dst := x.named x.ddp.dst, src := x.named x.ddp.src
              hops := x.ddp.hops + hopCost x.origin a }) := by
  intro copies
  obtain ⟨own, hstep, hown⟩ := step_of_arrival hx
  obtain ⟨answers, harrived, hanswers⟩ := hf.arrived_eq host now
  refine ⟨own ++ answers, ?_, ?_, length_forward_le, fun a ha =>
    ⟨((copies_iff hi hx).2 ⟨hf, ha⟩).2, forward_out ha, fun hsrc => ?_⟩⟩
  · rw [hstep, harrived, List.append_assoc]
  · intro a ha
    rcases List.mem_append.1 ha with ha | ha
    · exact (hown a ha).not_copyOf _
    · obtain ⟨q, -, ha⟩ := hanswers a ha
      exact Arrival.served_not_copyOf (arrival_reads hi hx).1 q now a ha
  · obtain ⟨hh, -⟩ := mem_forward.1 ha
    have ho := arrival_origin hx
    have hlen' : x.datagram.data.length ≤ 586 := by
      rw [Arrival.datagram_eq]
      exact hlen
    obtain ⟨route, -, ⟨ip, ht, hout, hread⟩ | ⟨id, p, ht, hp, -, hout, -, hread⟩⟩ :=
      forward_farEnd ha (by omega)
    · rw [← settled_farEnd host x now, hread, written_crossed hf hlen hh ho (Or.inl ⟨ip, ht, hout⟩)]
    · have hshort : ¬p.Short x.datagram.src.net x.datagram.dst.net := by
        rintro ⟨hext, hnet, -⟩
        rw [settled_port] at hp
        rw [Arrival.datagram_eq] at hnet
        exact hsrc id p hout hp hext hnet
      have hroom : ¬(p.extended = false ∧ LLAP_MAX_DATA < 13 + x.datagram.data.length) := by
        rintro ⟨-, h⟩
        unfold LLAP_MAX_DATA at h
        omega
      rw [← settled_farEnd host x now, hread hshort, if_neg hroom,
        written_crossed hf hlen hh ho (Or.inr ⟨id, ht, hout⟩)]

/-- From one LocalTalk network to the other: one frame, which reads as the datagram a hop later. -/
theorem forwards_transparently_pair :
    ∃ x a, pair.arrival .lowest (.llap 0 farFrame) (fromSecs 5) = some x ∧
      (pair.step .lowest (.llap 0 farFrame) (fromSecs 5)).2 = [a] ∧
      x.router.farEnd a = some { farDatagram with hops := 1 } := by
  have harrival : (pair.arrival .lowest (.llap 0 farFrame) (fromSecs 5)).map (fun x =>
      (decide (x.ddp = farDatagram ∧ x.origin = .port 0 ∧ x.named x.ddp.dst = farDatagram.dst ∧
        x.named x.ddp.src = farDatagram.src ∧ (x.router.port 1).map Port.range = some (20, 20)),
        (x.router.owner x.datagram.dst.net).map fun q => forUs q x.datagram.dst.node)) =
      some (true, some false) := by decide +kernel
  obtain ⟨x, hx, hfacts⟩ := Option.map_eq_some_iff.1 harrival
  simp only [Prod.mk.injEq, decide_eq_true_eq] at hfacts
  obtain ⟨⟨hd, ho, hdst, hsrc, hport⟩, howner⟩ := hfacts
  have hf : x.Forwarded := by
    refine ⟨by rw [hd]; decide, fun q hq => Or.inr ?_⟩
    rw [hq] at howner
    exact Option.some.inj howner
  obtain ⟨others, hstep, hothers, -, hcopies⟩ :=
    forwards_transparently (i := .llap 0 farFrame) trivial hx hf (by rw [hd]; decide)
  -- The one action of the step is a copy, so it is what is passed on.
  let a : Action := .toLlap 1 { dst := 5, src := 128, typ := LLAP_LONG_DDP
                                data := { farDatagram with hops := 1 }.toBytes }
  have hacts : (pair.step .lowest (.llap 0 farFrame) (fromSecs 5)).2 = [a] := by decide +kernel
  have hcopy : a.CopyOf x.ddp :=
    ⟨{ farDatagram with hops := 1 }, by rw [hd], by rw [hd], Or.inl ⟨rfl, rfl⟩⟩
  have hmem : a ∈ others ++ (x.settled .lowest (fromSecs 5)).forward .lowest x.origin x.datagram :=
    hstep ▸ hacts ▸ List.mem_singleton_self a
  obtain ⟨-, -, hread⟩ :=
    hcopies a ((List.mem_append.1 hmem).resolve_left fun h => hothers a h hcopy)
  refine ⟨x, a, hx, hacts, ?_⟩
  rw [hread fun id p hout hp _ => ?_, hdst, hsrc, hd, ho]
  · rfl
  · obtain rfl : id = 1 := by simpa [a, Action.Out] using hout
    rw [hp] at hport
    rw [hsrc, Option.some.inj hport]
    decide

end Router

end AppleTalk
