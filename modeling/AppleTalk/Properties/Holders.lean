import AppleTalk.Lib.Contention
import AppleTalk.Properties.Claiming
import AppleTalk.Wire.Stack

/-!
# One holder each

Any number of routers have a port on one cable, come up whenever they like, and hear each other's
frames after some time, among anything else that is sent there. As long as a frame takes less than
half a round of requests, no two of the ports ever hold the same node number.
-/

namespace AppleTalk

/-- What a frame is to a port that hears it. -/
def Action.heard : Action → Option PortIn
  | .toLlap _ l => (Llap.parse l.toBytes).map .llap
  | .toEther _ f => (decode f.toBytes).map .ether
  | _ => none

/-- A frame reaches a port: on Ethernet it is for everybody or for the port's NIC. -/
def Port.ReachedBy (q : Port) : Action → Prop
  | .toEther _ f => f.dst = BROADCAST_MAC ∨ q.kind = .ether f.dst
  | _ => True

variable {ι : Type}

/-- A frame on its way from one port to another. -/
structure Flight (ι : Type) where
  source : ι
  dest : ι
  input : PortIn
  sent : Instant

/-- The ports of one cable, and the frames on it. -/
structure Lan (ι : Type) where
  ports : ι → Port
  air : Set (Flight ι)
  now : Instant

namespace Lan

/-- The frames that a port's actions put on the cable. -/
def sends (s : Lan ι) (i : ι) (acts : List Action) : Set (Flight ι) :=
  {f | f.source = i ∧ f.dest ≠ i ∧ f.sent = s.now ∧
    ∃ a ∈ acts, (s.ports f.dest).ReachedBy a ∧ a.heard = some f.input}

variable [DecidableEq ι] (host : ι → Host)

/-- A port takes something in. -/
def after (s : Lan ι) (i : ι) (x : PortIn) : Lan ι :=
  let r := (s.ports i).step (host i) (x, s.now)
  { s with ports := Function.update s.ports i r.1, air := s.air ∪ s.sends i r.2 }

/-- What may happen on a cable. -/
inductive Step (delay : ℕ) : Lan ι → Lan ι → Prop
  /-- Time passes, though not beyond what a frame may take. -/
  | pass {s : Lan ι} (t : Instant) (hnow : s.now ≤ t) (hdue : ∀ f ∈ s.air, t ≤ f.sent + delay) :
    Step delay s { s with now := t }
  /-- A port's clock ticks, or it hears any frame at all. -/
  | input {s : Lan ι} (i : ι) (x : PortIn) : Step delay s (s.after host i x)
  /-- A frame on its way arrives. -/
  | hear {s : Lan ι} (f : Flight ι) (hf : f ∈ s.air) :
    Step delay s { s.after host f.dest f.input with
      air := (s.after host f.dest f.input).air \ {f} }

/-- One cable: a LToUDP group, or an Ethernet on which no two NICs are the same. All ports are
configured for the network it is, and claim by the same rules. -/
structure Medium (R : Claimant.Rules) (s : Lan ι) : Prop where
  kind : (∀ i, (s.ports i).kind = .ltoudp) ∨
    ∃ mac : ι → MacAddr, Function.Injective mac ∧ ∀ i, (s.ports i).kind = .ether (mac i)
  net : ∀ i j, (s.ports i).range.1 = (s.ports j).range.1
  rules : ∀ i, Port.rules (s.ports i).kind = R

end Lan

/-! ### One frame -/

/-- An AARP packet is heard as it was sent. -/
theorem aarp_heard (id : PortId) (src dst : MacAddr) (a : Aarp) :
    (Action.toEther id (frame src dst AARP a.toBytes)).heard =
      some (.ether { frame := frame src dst AARP a.toBytes, body := .aarp a }) := by
  have hc : (frame src dst AARP a.toBytes).Carries (.aarp a) := ⟨rfl, rfl⟩
  have hdecode : decode (frame src dst AARP a.toBytes).toBytes =
      some { frame := frame src dst AARP a.toBytes, body := .aarp a } := by
    have hlen : a.toBytes.length = 28 := rfl
    rw [decode, Frame.parse_toBytes rfl hc.proto (by
      show a.toBytes.length ≤ 1492
      omega)]
    simp [hc.decodeBody]
  show (decode (frame src dst AARP a.toBytes).toBytes).map PortIn.ether = _
  rw [hdecode]
  rfl

namespace Port

variable {host : Host} {p q : Port} {k k' : UInt8}

/-- A frame conflicts with one number at most. -/
theorem conflicts_unique {x : PortIn} (h : p.Conflicts k x) (h' : p.Conflicts k' x) : k = k' := by
  cases x with
  | tick => exact h.elim
  | ether packet =>
    obtain ⟨mac, a, -, -, hb, hsrc, -⟩ := h
    obtain ⟨mac', a', -, -, hb', hsrc', -⟩ := h'
    obtain rfl : a = a' := Body.aarp.inj (hb.symm.trans hb')
    exact congrArg Addr.node (hsrc.symm.trans hsrc')
  | llap l => exact h.2.2.symm.trans h'.2.2

/-- A conflict over another number leaves a port its candidate. -/
theorem next_other (hnode : p.node = none) {x : PortIn} (hx : p.Conflicts k x)
    (hk : k ≠ p.claim.node) (now : Instant) : (p.next host (x, now)).claim = p.claim := by
  have hquiet : ¬p.Conflicts p.claim.node x := fun h => hk (conflicts_unique hx h)
  cases x with
  | tick => exact hx.elim
  | ether packet =>
    show (p.inboundEther host packet now).1.claim = p.claim
    unfold inboundEther
    split
    · rename_i mac hmac
      by_cases hsrc : packet.frame.src = mac
      · rw [if_pos hsrc]
      · rw [if_neg hsrc]
        dsimp only
        cases hbody : packet.body with
        | aarp a =>
          dsimp only
          rw [inboundAarp_unclaimed (p := { p with amt := glean p.amt packet }) hnode]
          dsimp only
          rw [if_neg fun hc => hquiet ⟨mac, a, hmac, hsrc, hbody, hc⟩]
        | ddp d body => rfl
        | unknown => rfl
    · rfl
  | llap l =>
    show (p.inboundLlap host l now).1.claim = p.claim
    unfold inboundLlap
    dsimp only
    rw [claimingNode_eq hnode, if_neg fun hc => hquiet ⟨hx.1, hc.2⟩]
    split_ifs <;> rfl

/-- A port that has a number after a frame had it before. -/
theorem node_of_next {x : PortIn} {now : Instant} {n : UInt8}
    (hrange : p.node = none → Claimable p.kind p.claim.node) (hx : x ≠ .tick)
    (h : (p.next host (x, now)).node = some n) : p.node = some n := by
  cases hnode : p.node with
  | some n' => exact (next_claimed hnode (x, now)).symm.trans h
  | none =>
    have hcourse := step_course host hnode (hrange hnode) (x, now)
    unfold next at h
    generalize p.step host (x, now) = r at hcourse h
    cases hcourse with
    | idle hq => cases hq.symm.trans h
    | asked hi => exact absurd hi hx
    | took hi => exact absurd hi hx
    | moved hq => cases hq.symm.trans h

/-- A port that has no number after a conflict asks for another one. -/
theorem claim_of_next {x : PortIn} {now : Instant}
    (hnode : p.node = none) (hrange : Claimable p.kind p.claim.node)
    (hx : p.Conflicts k x) : (p.next host (x, now)).claim.node ≠ k := by
  by_cases hk : k = p.claim.node
  · subst hk
    have hcourse := step_course host hnode hrange (x, now)
    unfold next
    generalize p.step host (x, now) = r at hcourse ⊢
    cases hcourse with
    | idle _ _ hquiet => exact absurd hx hquiet
    | asked hi =>
      obtain rfl : x = .tick := hi
      exact hx.elim
    | took hi =>
      obtain rfl : x = .tick := hi
      exact hx.elim
    | moved _ _ _ hother => exact hother
  · rw [next_other hnode hx hk]
    exact Ne.symm hk

/-- Two ports of one cable. -/
structure Beside (p q : Port) : Prop where
  kind : p.kind = .ltoudp ∧ q.kind = .ltoudp ∨
    ∃ mac mac', mac ≠ mac' ∧ p.kind = .ether mac ∧ q.kind = .ether mac'
  net : p.range.1 = q.range.1

/-- **A request** reaches every other port of the cable, and conflicts with its number there. -/
theorem request_heard (h : Beside p q) (k : UInt8) :
    ∃ x, (p.request k).heard = some x ∧ q.ReachedBy (p.request k) ∧ q.Conflicts k x := by
  unfold request
  rcases h.kind with ⟨hp, hq⟩ | ⟨mac, mac', hne, hp, hq⟩
  · rw [hp]
    exact ⟨_, rfl, trivial, by rw [extended, hq], Or.inl rfl, rfl⟩
  · rw [hp]
    refine ⟨_, aarp_heard _ _ _ _, Or.inl rfl, mac', _, hq, hne, rfl, ?_, Or.inr ⟨rfl, hne⟩⟩
    rw [← h.net]
    rfl

/-- **The holder answers**: its answer reaches who asked, and conflicts with the number there. -/
theorem answer_heard (h : Beside p q) (hq : q.node = some k) {x : PortIn}
    (hx : (p.request k).heard = some x) (now : Instant) :
    ∃ a ∈ (q.step host (x, now)).2, p.ReachedBy a ∧ ∃ y, a.heard = some y ∧ p.Conflicts k y := by
  unfold request at hx
  rcases h.kind with ⟨hpk, hqk⟩ | ⟨mac, mac', hne, hpk, hqk⟩
  · rw [hpk] at hx
    obtain rfl : PortIn.llap (.control k k LLAP_ENQ) = x := Option.some.inj hx
    have hstep : (q.step host (.llap (.control k k LLAP_ENQ), now)).2 =
        [.toLlap q.id (.control k k LLAP_ACK)] := by
      show (q.inboundLlap host (.control k k LLAP_ENQ) now).2.2 = _
      unfold inboundLlap
      dsimp only
      rw [if_neg (by simp [hq]), if_pos (show (Llap.control k k LLAP_ENQ).typ = LLAP_ENQ from rfl),
        if_pos ⟨hq, by rw [hqk]; decide⟩]
      rfl
    rw [hstep]
    exact ⟨_, List.mem_singleton_self _, trivial, _, rfl, by rw [extended, hpk], Or.inr rfl, rfl⟩
  · rw [hpk] at hx
    obtain rfl := Option.some.inj ((aarp_heard _ _ _ _).symm.trans hx)
    -- The Probe names its sender's hardware address, and so the holder answers to it.
    have hours : ({ net := p.range.1, node := k } : Addr) =
        { net := q.range.1, node := q.claimingNode } := by
      rw [h.net, claimingNode, hq, Option.getD_some]
    generalize haddr : ({ net := p.range.1, node := k } : Addr) = ours at hours
    have haction : aarpAction (probe ours mac) ours mac' false = .answerTo mac := by
      unfold aarpAction
      rw [if_neg fun h2 => absurd h2.1 (show (3 : UInt16) ≠ 2 by decide), if_pos ⟨rfl, rfl, hne⟩]
      rfl
    have hstep : (q.step host (.ether
        { frame := frame mac BROADCAST_MAC AARP (probe ours mac).toBytes
          body := .aarp (probe ours mac) }, now)).2 =
        [.toEther q.id (frame mac' mac AARP (aarpResponse ours mac' ours mac).toBytes)] := by
      show (q.inboundEther host _ now).2.2 = _
      unfold inboundEther
      split
      · rename_i mac'' hmac
        obtain rfl : mac'' = mac' := Kind.ether.inj (hmac.symm.trans hqk)
        rw [if_neg (show (frame mac BROADCAST_MAC AARP _).src ≠ mac'' from hne)]
        unfold inboundAarp
        dsimp only
        rw [show ∀ amt, claimingNode { q with amt := amt } = q.claimingNode from fun _ => rfl,
          ← hours, hq]
        dsimp only [Option.isNone_some]
        rw [haction]
        rfl
      · rename_i hother
        exact absurd hqk (hother mac')
    rw [hstep]
    refine ⟨_, List.mem_singleton_self _, Or.inr hpk, _, aarp_heard _ _ _ _, mac, _, hpk, hne.symm,
      rfl, haddr.symm, Or.inl rfl⟩

/-! ### Ports are claimants -/

/-- A port is a claimant: it is asking for its candidate, or holds it. -/
def Is {R : Claimant.Rules} (p : Port) : Claimant R UInt8 → Prop
  | .asking k r => p.node = none ∧ p.claim.node = k ∧ Claimable p.kind k ∧
      p.claim.tries = r.times.length ∧ p.claim.next = r.due
  | .holding k _ _ _ _ => p.node = some k

theorem Is.node {R : Claimant.Rules} {c : Claimant R UInt8} (h : p.Is c) {n : UInt8} :
    p.node = some n ↔ c.Holds n := by
  cases c with
  | asking k r => simp [h.1, Claimant.Holds]
  | holding k r since full rest =>
    have hk : p.node = some k := h
    rw [hk, Option.some.injEq]
    rfl

end Port

namespace Lan

open Contention (Letter)

variable {host : ι → Host} {R : Claimant.Rules} {s s' : Lan ι} {delay : ℕ}

/-- The letters that frames on their way are. -/
def letters (s : Lan ι) (F : Set (Flight ι)) : Set (Letter ι UInt8) :=
  {m | m.source ≠ m.dest ∧ ∃ f ∈ F, f.source = m.source ∧ f.dest = m.dest ∧ f.sent = m.sent ∧
    (s.ports m.dest).Conflicts m.key f.input ∧
    (m.asks → ((s.ports m.source).request m.key).heard = some f.input)}

/-- The cable is a medium on which the ports are claimants; what of their letters matters is still
on its way. -/
structure Sim (s : Lan ι) (S : Contention.State R ι UInt8) : Prop where
  now : S.now = s.now
  who : ∀ i, (s.ports i).Is (S.who i)
  mail : S.mail ⊆ s.letters s.air

/-- What never changes of the ports. -/
theorem letters_congr (h : ∀ i, (s'.ports i).fixed = (s.ports i).fixed) (F : Set (Flight ι)) :
    s'.letters F = s.letters F := by
  ext m
  unfold letters
  simp only [Set.mem_ofPred_eq, Port.request_of_fixed (h m.source),
    Port.conflicts_of_fixed (h m.dest)]

theorem Medium.congr (hm : s.Medium R) (h : ∀ i, (s'.ports i).fixed = (s.ports i).fixed) :
    s'.Medium R := by
  have hkind : ∀ i, (s'.ports i).kind = (s.ports i).kind := fun i => congrArg Prod.snd (h i)
  have hrange : ∀ i, (s'.ports i).range = (s.ports i).range := fun i =>
    congrArg (fun f => f.1.range) (h i)
  constructor
  · simpa only [hkind] using hm.kind
  · simpa only [hrange] using hm.net
  · simpa only [hkind] using hm.rules

theorem Medium.beside (hm : s.Medium R) {i j : ι} (hij : i ≠ j) :
    (s.ports i).Beside (s.ports j) where
  kind := by
    rcases hm.kind with hk | ⟨mac, hinj, hk⟩
    · exact Or.inl ⟨hk i, hk j⟩
    · exact Or.inr ⟨mac i, mac j, fun he => hij (hinj he), hk i, hk j⟩
  net := hm.net i j

theorem letters_union (s : Lan ι) (F G : Set (Flight ι)) :
    s.letters (F ∪ G) = s.letters F ∪ s.letters G := by
  ext m
  constructor
  · rintro ⟨hne, f, hf | hf, hrest⟩
    · exact Or.inl ⟨hne, f, hf, hrest⟩
    · exact Or.inr ⟨hne, f, hf, hrest⟩
  · rintro (⟨hne, f, hf, hrest⟩ | ⟨hne, f, hf, hrest⟩)
    · exact ⟨hne, f, Or.inl hf, hrest⟩
    · exact ⟨hne, f, Or.inr hf, hrest⟩

/-- A port that asks tells everybody. -/
theorem request_sent (hm : s.Medium R) {i j : ι} (hij : j ≠ i) (k : UInt8) :
    { source := i, dest := j, key := k, asks := true, sent := s.now } ∈
      s.letters (s.sends i [(s.ports i).request k]) := by
  obtain ⟨x, hx, hreached, hconf⟩ := Port.request_heard (hm.beside hij.symm) k
  exact ⟨hij.symm, { source := i, dest := j, input := x, sent := s.now },
    ⟨rfl, hij, rfl, _, List.mem_singleton_self _, hreached, hx⟩, rfl, rfl, rfl, hconf, fun _ => hx⟩

/-- Ports that were just built, and nothing on the cable. -/
structure Quiet (host : ι → Host) (s : Lan ι) : Prop where
  built : ∀ i, ∃ id name kind range zones start,
    s.ports i = Port.new (host i) id name kind range zones start
  air : s.air = ∅

theorem Quiet.sim (h : Quiet host s) : ∃ S : Contention.State R ι UInt8,
    Contention.Fresh S ∧ Sim s S := by
  refine ⟨{ who := fun i => .asking (s.ports i).claim.node (.start R (s.ports i).claim.next)
            mail := ∅
            now := s.now }, ⟨fun i => ⟨_, _, rfl, rfl⟩, rfl⟩, rfl, fun i => ?_, Set.empty_subset _⟩
  obtain ⟨id, name, kind, range, zones, start, hnew⟩ := h.built i
  dsimp only
  rw [hnew]
  exact ⟨rfl, rfl, Port.claimable_candidate _ _, rfl, rfl⟩

variable [DecidableEq ι]

theorem after_fixed (s : Lan ι) (i : ι) (x : PortIn) (j : ι) :
    ((s.after host i x).ports j).fixed = (s.ports j).fixed := by
  show (Function.update s.ports i _ j).fixed = _
  rcases eq_or_ne j i with rfl | hne
  · rw [Function.update_self]
    exact Port.next_fixed (host j) (s.ports j) (x, s.now)
  · rw [Function.update_of_ne hne]

variable (host) in
theorem after_is {S : Contention.State R ι UInt8} (h : Sim s S) {i : ι} {x : PortIn}
    {c : Claimant R UInt8} (hc : ((s.ports i).next (host i) (x, s.now)).Is c) (j : ι) :
    ((s.after host i x).ports j).Is (Function.update S.who i c j) := by
  show (Function.update s.ports i _ j).Is _
  rcases eq_or_ne j i with rfl | hne
  · rw [Function.update_self, Function.update_self]
    exact hc
  · rw [Function.update_of_ne hne, Function.update_of_ne hne]
    exact h.who j

variable (host) in
/-- **A port takes something in**, and the claimant it is does what a claimant may. -/
theorem Sim.after (hm : s.Medium R) {S : Contention.State R ι UInt8} (h : Sim s S) (i : ι)
    (x : PortIn) :
    ∃ S' : Contention.State R ι UInt8, Relation.ReflTransGen (Contention.Step delay) S S' ∧
      S'.now = s.now ∧ (∀ j, ((s.after host i x).ports j).Is (S'.who j)) ∧
      S'.mail = S.mail ∪ s.letters (s.sends i ((s.ports i).step (host i) (x, s.now)).2) := by
  have hpost : Contention.Step delay S
      { S with
        mail := S.mail ∪ s.letters (s.sends i ((s.ports i).step (host i) (x, s.now)).2) } := by
    refine .post _ ?_
    rintro m ⟨-, f, ⟨-, -, hsent, -⟩, -, -, hm, -⟩
    rw [← hm, hsent, h.now]
  have hfixed := Port.next_fixed (host i) (s.ports i) (x, s.now)
  have his := h.who i
  cases hwho : S.who i with
  | holding k r since full rest =>
    rw [hwho] at his
    refine ⟨_, .single hpost, h.now, fun j => ?_, rfl⟩
    have hstill := after_is host (x := x) (i := i) (c := S.who i) h (by
      rw [hwho]
      exact Port.next_claimed his (x, s.now)) j
    rwa [Function.update_eq_self] at hstill
  | asking k r =>
    rw [hwho] at his
    obtain ⟨hnode, rfl, hrange, htries, hnext⟩ := his
    have hcourse := Port.step_course (host i) hnode hrange (x, s.now)
    have hports : ∀ c, ((s.ports i).next (host i) (x, s.now)).Is c → ∀ j,
        ((s.after host i x).ports j).Is (Function.update S.who i c j) :=
      fun c hc => after_is host h hc
    have hrules := hm.rules i
    unfold Port.next at hports hfixed
    generalize (s.ports i).step (host i) (x, s.now) = r' at hcourse hfixed hports hpost ⊢
    have hkind : r'.1.kind = (s.ports i).kind := congrArg Prod.snd hfixed
    cases hcourse with
    | @idle q hq hclaim hquiet =>
      refine ⟨_, .single hpost, h.now, fun j => ?_, rfl⟩
      have hstill := hports (S.who i) (by
        rw [hwho]
        exact ⟨hq, congrArg Claim.node hclaim, hkind ▸ hrange, hclaim ▸ htries, hclaim ▸ hnext⟩) j
      rwa [Function.update_eq_self] at hstill
    | asked hi hdue hleft =>
      rw [hnext, ← h.now] at hdue
      rw [hrules, htries] at hleft
      have hask : Contention.Step delay _ _ :=
        .ask (s := { S with mail := S.mail ∪ s.letters (s.sends i [(s.ports i).request _]) }) i
          hwho hdue hleft fun j hj => Or.inr (h.now ▸ request_sent hm hj _)
      refine ⟨_, .tail (.single hpost) hask, h.now, hports _ ⟨hnode, rfl, hrange, ?_, ?_⟩, rfl⟩
      · show (s.ports i).claim.tries + 1 = (r.times ++ [S.now]).length
        rw [htries, List.length_append, List.length_singleton]
      · show s.now + (Port.rules (s.ports i).kind).interval = S.now + R.interval
        rw [hrules, h.now]
    | took hi hdue hfull =>
      rw [hnext, ← h.now] at hdue
      rw [hrules, htries] at hfull
      have htake : Contention.Step delay _ _ :=
        .take (s := { S with mail := S.mail ∪ s.letters (s.sends i (s.ports i).claimed.2) }) i
          hwho hdue (le_antisymm r.count hfull)
      exact ⟨_, .tail (.single hpost) htake, h.now, hports _ rfl, rfl⟩
    | @moved q hq htries' hnext' hother hrange' =>
      have hyield : Contention.Step delay _ _ :=
        .yield (s := { S with mail := S.mail ∪ s.letters (s.sends i []) }) i q.claim.node hwho
      exact ⟨_, .tail (.single hpost) hyield, h.now,
        hports _ ⟨hq, rfl, hkind ▸ hrange', htries', hnext'.trans h.now.symm⟩, rfl⟩

/-- **A frame that arrives** has had the effect of a letter. -/
theorem answered (hm : s.Medium R) {S S' : Contention.State R ι UInt8} (h : Sim s S)
    {f : Flight ι} (hnow : S'.now = s.now)
    (hwho : ∀ j, ((s.after host f.dest f.input).ports j).Is (S'.who j))
    (hmail : s.letters (s.sends f.dest ((s.ports f.dest).step (host f.dest)
      (f.input, s.now)).2) ⊆ S'.mail) {m : Letter ι UInt8} (hletter : m ∈ s.letters {f}) :
    Contention.Answered { S' with mail := S'.mail \ s.letters {f} } m := by
  obtain ⟨hne, g, rfl, hsource, hdest, hsent, hconf, hasks⟩ := hletter
  have hport : (s.after host g.dest g.input).ports m.dest =
      (s.ports m.dest).next (host m.dest) (g.input, s.now) := by
    rw [hdest]
    exact Function.update_self ..
  have hrange : (s.ports m.dest).node = none →
      Port.Claimable (s.ports m.dest).kind (s.ports m.dest).claim.node := by
    intro hnone
    have hbefore := h.who m.dest
    cases hc : S.who m.dest with
    | asking k r =>
      rw [hc] at hbefore
      obtain ⟨-, rfl, hrange, -⟩ := hbefore
      exact hrange
    | holding k r since full rest =>
      rw [hc] at hbefore
      cases hnone.symm.trans hbefore
  have htick : g.input ≠ .tick := by
    intro he
    rw [he] at hconf
    exact hconf
  have his := hwho m.dest
  rw [hport] at his
  unfold Contention.Answered
  dsimp only
  cases hc : S'.who m.dest with
  | asking k r =>
    rw [hc] at his
    obtain ⟨hnone, rfl, -⟩ := his
    have hnode : (s.ports m.dest).node = none := by
      cases hn : (s.ports m.dest).node with
      | none => rfl
      | some n => cases hnone.symm.trans (Port.next_claimed hn (g.input, s.now))
    exact Port.claim_of_next hnode (hrange hnode) hconf
  | holding k r since full rest =>
    rw [hc] at his
    dsimp only
    rintro rfl hasking
    obtain ⟨a, ha, hreached, y, hy, hyconf⟩ := Port.answer_heard (hm.beside hne)
      (Port.node_of_next hrange htick his) (hasks hasking) s.now
    refine ⟨hmail ⟨hne.symm, ⟨m.dest, m.source, y, s.now⟩, ⟨hdest.symm, ?_, rfl, a, ?_, hreached,
      hy⟩, rfl, rfl, hnow.symm, hyconf, fun hf => by cases hf⟩, ?_⟩
    · rw [hdest]
      exact hne
    · rw [hdest]
      exact ha
    · rintro ⟨-, f', rfl, hsource', -⟩
      exact hne (hsource.symm.trans hsource')

/-- **One step of the cable** is some steps of the claimants. -/
theorem Sim.step (hm : s.Medium R) {S : Contention.State R ι UInt8} (h : Sim s S)
    (hs : Step host delay s s') :
    ∃ S', Relation.ReflTransGen (Contention.Step delay) S S' ∧ Sim s' S' := by
  cases hs with
  | pass t hnow hdue =>
    refine ⟨_, .single (.pass t (h.now ▸ hnow) fun m hm => ?_), rfl, h.who, h.mail⟩
    obtain ⟨-, f, hf, -, -, hsent, -⟩ := h.mail hm
    exact hsent ▸ hdue f hf
  | input i x =>
    obtain ⟨S', hreach, hnow, hwho, hmail⟩ := h.after host hm i x
    refine ⟨S', hreach, hnow, hwho, ?_⟩
    rw [letters_congr (after_fixed s i x), hmail]
    exact (Set.union_subset_union_left _ h.mail).trans (s.letters_union _ _).ge
  | hear f hf =>
    obtain ⟨S', hreach, hnow, hwho, hmail⟩ := h.after host hm f.dest f.input
    refine ⟨_, .tail hreach (.arrive (s.letters {f}) fun m hletter => ?_), hnow, hwho, ?_⟩
    · exact answered hm h hnow hwho (hmail ▸ Set.subset_union_right) hletter
    · show S'.mail \ s.letters {f} ⊆ letters (s.after host f.dest f.input)
        ((s.after host f.dest f.input).air \ {f})
      rw [letters_congr (after_fixed s f.dest f.input), hmail]
      rintro m ⟨hm', hother⟩
      have hair : m ∈ s.letters (s.after host f.dest f.input).air := by
        rcases hm' with hm' | hm'
        · exact (s.letters_union _ _).ge (Or.inl (h.mail hm'))
        · exact (s.letters_union _ _).ge (Or.inr hm')
      obtain ⟨hne, g, hg, hrest⟩ := hair
      exact ⟨hne, g, ⟨hg, fun he => hother ⟨hne, g, he, hrest⟩⟩, hrest⟩

theorem step_fixed (hs : Step host delay s s') (i : ι) :
    (s'.ports i).fixed = (s.ports i).fixed := by
  cases hs with
  | pass => rfl
  | input j x => exact after_fixed s j x i
  | hear f hf => exact after_fixed s f.dest f.input i

/-- **No two ports of a cable ever hold the same number**, in whatever order their clocks tick and
they hear each other, if a frame takes less than half a round of requests. -/
theorem one_holder (hm : s.Medium R) (hq : s.Quiet host)
    (hdelay : 2 * delay < R.tries * R.interval)
    (h : Relation.ReflTransGen (Step host delay) s s') {i j : ι} (hij : i ≠ j) {n : UInt8}
    (hi : (s'.ports i).node = some n) : (s'.ports j).node ≠ some n := by
  obtain ⟨S, hfresh, hsim⟩ := hq.sim (R := R)
  have hrun : s'.Medium R ∧
      ∃ S', Relation.ReflTransGen (Contention.Step delay) S S' ∧ Sim s' S' := by
    clear hi
    induction h with
    | refl => exact ⟨hm, S, .refl, hsim⟩
    | tail _ hstep ih =>
      obtain ⟨hm', S', hreach, hsim'⟩ := ih
      obtain ⟨S'', hreach', hsim''⟩ := hsim'.step hm' hstep
      exact ⟨hm'.congr (step_fixed hstep), S'', hreach.trans hreach', hsim''⟩
  obtain ⟨-, S', hreach, hsim'⟩ := hrun
  have hinv := Contention.inv_of_reaches hfresh hdelay hreach
  intro hj
  exact hinv.unique hdelay hij ((hsim'.who i).node.1 hi) ((hsim'.who j).node.1 hj)

/-! ### Two ports -/

/-- Two ports, and nothing on the cable. -/
def pair (p q : Port) (now : Instant) : Lan Bool :=
  { ports := fun b => bif b then q else p, air := ∅, now := now }

/-- The first asks, the second hears it, and an interval passes. -/
theorem pair_round (host : Bool → Host) (delay : ℕ) {p q : Port} (now : Instant)
    (hp : p.kind = .ltoudp) (hpn : p.node = none) (hqn : q.node = none)
    (hdue : p.claim.next ≤ now) (hleft : p.claim.tries < ENQ_TRIES)
    (hne : q.claim.node ≠ p.claim.node) :
    Relation.ReflTransGen (Step host delay) (pair p q now)
      (pair (p.asks now) q (now + ENQ_INTERVAL)) := by
  have hask : p.tick now = (p.asks now, [p.request p.claim.node]) := by
    rw [Port.tick_eq, if_neg (by simp [hpn, hdue]), if_neg]
    rw [hp]
    exact not_le.2 hleft
  have hhear : q.step (host true) (.llap (.control p.claim.node p.claim.node LLAP_ENQ), now) =
      (q, []) := by
    show ((q.inboundLlap (host true) _ now).1, (q.inboundLlap (host true) _ now).2.2) = _
    unfold Port.inboundLlap
    dsimp only
    rw [Port.claimingNode_eq hqn, if_neg fun h => hne h.2.2.symm,
      if_pos (show (Llap.control _ _ LLAP_ENQ).typ = LLAP_ENQ from rfl), if_neg (by simp [hqn])]
  let f : Flight Bool :=
    ⟨false, true, .llap (.control p.claim.node p.claim.node LLAP_ENQ), now⟩
  have hsends : (pair p q now).sends false [p.request p.claim.node] = {f} := by
    ext g
    obtain ⟨source, dest, input, sent⟩ := g
    unfold sends Port.request
    rw [hp]
    constructor
    · rintro ⟨rfl, hdest, rfl, a, ha, -, hinput⟩
      obtain rfl := List.mem_singleton.1 ha
      obtain rfl : dest = true := by simpa using hdest
      obtain rfl := Option.some.inj hinput
      rfl
    · intro he
      obtain ⟨rfl, rfl, rfl, rfl⟩ := Flight.mk.inj (Set.mem_singleton_iff.1 he)
      exact ⟨rfl, by simp, rfl, _, List.mem_singleton_self _, trivial, rfl⟩
  have htick : (pair p q now).after host false .tick =
      { ports := fun b => bif b then q else p.asks now, air := {f}, now := now } := by
    unfold Lan.after
    dsimp only
    rw [show ((pair p q now).ports false).step (host false) (.tick, (pair p q now).now) = _
      from hask, hsends]
    congr 1
    · funext b
      cases b <;> rfl
    · exact Set.empty_union _
  have hheard : ({ ports := fun b => bif b then q else p.asks now, air := {f}, now := now } :
      Lan Bool).after host f.dest f.input =
      { ports := fun b => bif b then q else p.asks now, air := {f}, now := now } := by
    unfold Lan.after
    dsimp only
    rw [show (bif f.dest then q else p.asks now).step (host f.dest) (f.input, now) = _ from hhear]
    congr 1
    · funext b
      cases b <;> rfl
    · refine Set.union_eq_self_of_subset_right ?_
      rintro g ⟨-, -, -, a, ha, -⟩
      cases ha
  have h1 : Step host delay (pair p q now) _ := .input false .tick
  rw [htick] at h1
  have h2 : Step host delay
    { ports := fun b => bif b then q else p.asks now, air := {f}, now := now } _ :=
      .hear f (Set.mem_singleton f)
  rw [hheard, Set.sdiff_self] at h2
  have h3 : Step host delay
    { ports := fun b => bif b then q else p.asks now, air := ∅, now := now } _ :=
      .pass (now + ENQ_INTERVAL) (Nat.le_add_right _ _) fun g hg => hg.elim
  exact ((Relation.ReflTransGen.single h1).tail h2).tail h3

/-- A port that asks eight times, with another one beside it that has a candidate of its own. -/
theorem one_holder_pair :
    let host : Bool → Host := fun b =>
      { Host.lowest with seed := fun _ _ _ _ => bif b then 1 else 0 }
    let s := pair (Port.new (host false) 0 "p" .ltoudp (10, 10) [['A']] 0)
      (Port.new (host true) 0 "q" .ltoudp (10, 10) [['A']] 0) 0
    ∃ s', Relation.ReflTransGen (Step host (3 * ENQ_INTERVAL)) s s' ∧
      (s'.ports false).node = some 128 ∧ (s'.ports true).node ≠ some 128 := by
  intro host s
  have hcand : (s.ports true).claim.node ≠ 128 := by decide
  -- After so many rounds the port has asked so often, and the other one is as it was.
  have hround : ∀ k ≤ 8, ∃ p : Port, p.kind = .ltoudp ∧ p.node = none ∧
      p.claim = ⟨128, k, k * ENQ_INTERVAL, 0⟩ ∧
      Relation.ReflTransGen (Step host (3 * ENQ_INTERVAL)) s
        (pair p (s.ports true) (k * ENQ_INTERVAL)) := by
    intro k
    induction k with
    | zero => exact fun _ => ⟨s.ports false, rfl, rfl, rfl, .refl⟩
    | succ k ih =>
      intro hk
      obtain ⟨p, hp, hnode, hclaim, hreach⟩ := ih (Nat.le_of_succ_le hk)
      have hone := pair_round host (3 * ENQ_INTERVAL) (k * ENQ_INTERVAL) hp hnode
        (rfl : (s.ports true).node = none) (by rw [hclaim])
        (by rw [hclaim]; exact hk) (by rw [hclaim]; exact hcand)
      have hnext : (k + 1) * ENQ_INTERVAL = k * ENQ_INTERVAL + ENQ_INTERVAL := Nat.succ_mul ..
      rw [hnext]
      refine ⟨p.asks (k * ENQ_INTERVAL), hp, hnode, ?_, hreach.trans hone⟩
      rw [Port.asks, hclaim, hp]
      rfl
  obtain ⟨p, hp, hnode, hclaim, hreach⟩ := hround 8 le_rfl
  have htake : Relation.ReflTransGen (Step host (3 * ENQ_INTERVAL)) s
      ((pair p (s.ports true) (8 * ENQ_INTERVAL)).after host false .tick) :=
    hreach.tail (.input false .tick)
  have htook : (((pair p (s.ports true) (8 * ENQ_INTERVAL)).after host false .tick).ports
      false).node = some 128 := by
    show (p.tick (8 * ENQ_INTERVAL)).1.node = some 128
    rw [Port.tick_eq, if_neg (by rw [hnode, hclaim]; decide), if_pos (by rw [hp, hclaim]; decide)]
    show some p.claim.node = some 128
    rw [hclaim]
  have hm : s.Medium (Port.rules .ltoudp) := by
    refine ⟨Or.inl fun b => ?_, fun b c => ?_, fun b => ?_⟩
    · cases b <;> rfl
    · cases b <;> cases c <;> rfl
    · cases b <;> rfl
  have hq : s.Quiet host := by
    refine ⟨fun b => ?_, rfl⟩
    cases b
    · exact ⟨_, _, _, _, _, _, rfl⟩
    · exact ⟨_, _, _, _, _, _, rfl⟩
  exact ⟨_, htake, htook, one_holder hm hq (by decide) htake Bool.false_ne_true htook⟩

end Lan

end AppleTalk
