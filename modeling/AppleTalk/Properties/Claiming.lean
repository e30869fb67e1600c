import AppleTalk.Lib.Claimant
import AppleTalk.Router.Reach

/-!
# Claiming a node number

A port asks for a candidate with Probes or lapENQs and takes it after a whole interval of silence;
whoever holds the candidate, or is asking for it too, makes the port move on to another one. What
is asked and heard is kept beside the port from the moment its candidate became what it is.
-/

namespace AppleTalk

/-- What a port takes in. -/
inductive PortIn
  | tick
  | ether (packet : Packet)
  | llap (l : Llap)

namespace Port

/-- One input, and what the port sends. -/
def step (host : Host) (p : Port) (i : PortIn × Instant) : Port × List Action :=
  match i.1 with
  | .tick => p.tick i.2
  | .ether packet =>
    let r := p.inboundEther host packet i.2
    (r.1, r.2.2)
  | .llap l =>
    let r := p.inboundLlap host l i.2
    (r.1, r.2.2)

/-- The port after an input. -/
def next (host : Host) (p : Port) (i : PortIn × Instant) : Port := (p.step host i).1

/-! ### Candidates -/

/-- The node numbers a port may claim. -/
def Claimable : Kind → UInt8 → Prop
  | .ether _, n => 1 ≤ n ∧ n ≤ 253
  | _, n => 128 ≤ n ∧ n ≤ 254

theorem claimable_iff (kind : Kind) (n : UInt8) :
    Claimable kind n ↔ (idRange kind).1.toNat ≤ n.toNat ∧
      n.toNat < (idRange kind).1.toNat + (idRange kind).2.toNat := by
  cases kind <;> simp only [Claimable, idRange, UInt8.le_iff_toNat_le] <;> simp <;> omega

theorem idRange_pos (kind : Kind) : 0 < (idRange kind).2.toNat := by
  cases kind <;> simp [idRange]

theorem candidate_toNat (kind : Kind) (seed : UInt64) :
    (candidate kind seed).toNat =
      (idRange kind).1.toNat + seed.toNat % (idRange kind).2.toNat := by
  cases kind <;>
    simp only [candidate, idRange, UInt8.toNat_add, UInt64.toNat_toUInt8, UInt64.toNat_mod] <;>
    simp <;> omega

theorem claimable_candidate (kind : Kind) (seed : UInt64) :
    Claimable kind (candidate kind seed) := by
  rw [claimable_iff, candidate_toNat]
  have := Nat.mod_lt seed.toNat (idRange_pos kind)
  omega

/-- The next number up, around the end of the range. -/
theorem nextNode_toNat {kind : Kind} {n : UInt8} (h : Claimable kind n) :
    (nextNode kind n).toNat = (idRange kind).1.toNat +
      (n.toNat - (idRange kind).1.toNat + 1) % (idRange kind).2.toNat := by
  cases kind <;>
    simp only [Claimable, UInt8.le_iff_toNat_le] at h <;>
    simp only [nextNode, idRange, UInt8.toNat_add, UInt64.toNat_toUInt8, UInt64.toNat_mod,
      UInt64.toNat_add, UInt8.toNat_toUInt64, UInt8.toNat_sub] <;>
    simp at h ⊢ <;> omega

theorem claimable_nextNode {kind : Kind} {n : UInt8} (h : Claimable kind n) :
    Claimable kind (nextNode kind n) := by
  rw [claimable_iff, nextNode_toNat h]
  have := Nat.mod_lt (n.toNat - (idRange kind).1.toNat + 1) (idRange_pos kind)
  omega

/-- The next number is another one. -/
theorem nextNode_ne {kind : Kind} {n : UInt8} (h : Claimable kind n) : nextNode kind n ≠ n := by
  intro he
  have hn := congrArg UInt8.toNat he
  rw [nextNode_toNat h] at hn
  have hr := (claimable_iff kind n).1 h
  have hspan : 1 < (idRange kind).2.toNat := by cases kind <;> simp [idRange]
  rcases Nat.lt_or_ge (n.toNat - (idRange kind).1.toNat + 1) (idRange kind).2.toNat with hlt | hge
  · rw [Nat.mod_eq_of_lt hlt] at hn
    omega
  · rw [show n.toNat - (idRange kind).1.toNat + 1 = (idRange kind).2.toNat by omega,
      Nat.mod_self] at hn
    omega

/-- A port that gives way asks for another candidate. -/
theorem restart_claim (host : Host) {p : Port} (h : Claimable p.kind p.claim.node) (now : Instant) :
    (p.restart host now).claim.node ≠ p.claim.node ∧
      Claimable p.kind (p.restart host now).claim.node := by
  unfold restart
  dsimp only
  split_ifs with hsame
  · rw [hsame]
    exact ⟨nextNode_ne h, claimable_nextNode h⟩
  · exact ⟨hsame, claimable_candidate _ _⟩

/-! ### One input -/

/-- How a kind of port claims. -/
def rules : Kind → Claimant.Rules
  | .ether _ => { tries := PROBE_TRIES, interval := PROBE_INTERVAL }
  | _ => { tries := ENQ_TRIES, interval := ENQ_INTERVAL }

/-- The Probe or the lapENQ a port asks for a candidate with. -/
def request (p : Port) (n : UInt8) : Action :=
  match p.kind with
  | .ether mac =>
    .toEther p.id (frame mac BROADCAST_MAC AARP (probe { net := p.range.1, node := n } mac).toBytes)
  | _ => .toLlap p.id (.control n n LLAP_ENQ)

/-- The frame says that somebody else has the candidate, or is asking for it. -/
def Conflicts (p : Port) (n : UInt8) : PortIn → Prop
  | .tick => False
  | .ether packet => ∃ mac a, p.kind = .ether mac ∧ packet.frame.src ≠ mac ∧
    packet.body = .aarp a ∧ a.src = { net := p.range.1, node := n } ∧
    (a.op = 2 ∨ a.op = 3 ∧ a.srcHw ≠ mac)
  | .llap l => p.extended = false ∧ (l.typ = LLAP_ENQ ∨ l.typ = LLAP_ACK) ∧ l.dst = n

/-- The port after it has asked once more. -/
def asks (p : Port) (now : Instant) : Port :=
  { p with
    claim :=
      { p.claim with tries := p.claim.tries + 1, next := now + (rules p.kind).interval } }

/-- What an input makes of a port that has no number yet, and what it sends. -/
inductive Course (p : Port) (i : PortIn × Instant) : Port × List Action → Prop
  | idle {q : Port} (hnode : q.node = none) (hclaim : q.claim = p.claim)
    (hquiet : ¬p.Conflicts p.claim.node i.1) : Course p i (q, [])
  | asked (hi : i.1 = .tick) (hdue : p.claim.next ≤ i.2)
    (hleft : p.claim.tries < (rules p.kind).tries) :
    Course p i (p.asks i.2, [p.request p.claim.node])
  | took (hi : i.1 = .tick) (hdue : p.claim.next ≤ i.2)
    (hfull : (rules p.kind).tries ≤ p.claim.tries) : Course p i p.claimed
  | moved {q : Port} (hnode : q.node = none) (htries : q.claim.tries = 0)
    (hnext : q.claim.next = i.2) (hother : q.claim.node ≠ p.claim.node)
    (hrange : Claimable p.kind q.claim.node) : Course p i (q, [])

variable {host : Host} {p : Port}

theorem claimingNode_eq (hnode : p.node = none) : p.claimingNode = p.claim.node := by
  unfold claimingNode
  rw [hnode, Option.getD_none]

theorem tick_eq (p : Port) (now : Instant) :
    p.tick now =
      if p.node.isSome ∨ now < p.claim.next then (p, [])
      else if (rules p.kind).tries ≤ p.claim.tries then p.claimed
      else (p.asks now, [p.request p.claim.node]) := by
  obtain ⟨id, name, kind, range, zones, node, amt, claim⟩ := p
  cases kind <;> rfl

theorem tick_course (hnode : p.node = none) (now : Instant) :
    Course p (.tick, now) (p.tick now) := by
  rw [tick_eq]
  by_cases hdue : now < p.claim.next
  · rw [if_pos (Or.inr hdue)]
    exact .idle hnode rfl not_false
  · rw [if_neg (by simp [hnode, hdue])]
    split_ifs with hfull
    · exact .took rfl (not_lt.1 hdue) hfull
    · exact .asked rfl (not_lt.1 hdue) (not_le.1 hfull)

/-- Without a number yet there are conflicts, and nothing to answer. -/
theorem aarpAction_probing (a : Aarp) (ours : Addr) (mac : MacAddr) :
    aarpAction a ours mac true =
      if a.src = ours ∧ (a.op = 2 ∨ a.op = 3 ∧ a.srcHw ≠ mac) then .conflict else .ignore := by
  unfold aarpAction
  by_cases h2 : a.op = 2 ∧ a.src = ours
  · rw [if_pos h2, if_pos (And.intro h2.2 (Or.inl h2.1))]
  · rw [if_neg h2]
    by_cases h3 : a.op = 3 ∧ a.src = ours ∧ a.srcHw ≠ mac
    · rw [if_pos h3, if_pos (And.intro h3.2.1 (Or.inr (And.intro h3.1 h3.2.2)))]
      rfl
    · rw [if_neg h3, if_neg (by simp), if_neg]
      rintro ⟨hsrc, hop | ⟨hop, hhw⟩⟩
      · exact h2 ⟨hop, hsrc⟩
      · exact h3 ⟨hop, hsrc, hhw⟩

theorem inboundAarp_unclaimed (hnode : p.node = none) (mac : MacAddr) (a : Aarp) (now : Instant) :
    p.inboundAarp host mac a now =
      if a.src = { net := p.range.1, node := p.claim.node } ∧
        (a.op = 2 ∨ a.op = 3 ∧ a.srcHw ≠ mac) then (p.restart host now, []) else (p, []) := by
  unfold inboundAarp
  rw [claimingNode_eq hnode, hnode]
  dsimp only [Option.isNone_none]
  rw [aarpAction_probing]
  by_cases hc : a.src = { net := p.range.1, node := p.claim.node } ∧
      (a.op = 2 ∨ a.op = 3 ∧ a.srcHw ≠ mac)
  · rw [if_pos hc, if_pos hc]
    rfl
  · rw [if_neg hc, if_neg hc]

theorem inboundEther_course (hnode : p.node = none) (hr : Claimable p.kind p.claim.node)
    (packet : Packet) (now : Instant) :
    Course p (.ether packet, now)
      ((p.inboundEther host packet now).1, (p.inboundEther host packet now).2.2) := by
  have hother : (∀ mac, p.kind ≠ .ether mac) → ¬p.Conflicts p.claim.node (.ether packet) := by
    rintro hk ⟨mac, -, hmac, -⟩
    exact hk mac hmac
  unfold inboundEther
  split
  · rename_i mac hmac
    by_cases hsrc : packet.frame.src = mac
    · rw [if_pos hsrc]
      refine .idle hnode rfl ?_
      rintro ⟨mac', a, hk, hne, -⟩
      obtain rfl : mac = mac' := Kind.ether.inj (hmac.symm.trans hk)
      exact hne hsrc
    · rw [if_neg hsrc]
      dsimp only
      cases hbody : packet.body with
      | aarp a =>
        dsimp only
        rw [inboundAarp_unclaimed (p := { p with amt := glean p.amt packet }) hnode]
        dsimp only
        split_ifs with hc
        · obtain ⟨hne, hin⟩ :=
            restart_claim host (p := { p with amt := glean p.amt packet }) hr now
          exact .moved hnode rfl rfl hne hin
        · refine .idle hnode rfl ?_
          rintro ⟨mac', a', hk, -, hb, h⟩
          obtain rfl : mac = mac' := Kind.ether.inj (hmac.symm.trans hk)
          obtain rfl : a = a' := Body.aarp.inj (hbody.symm.trans hb)
          exact hc h
      | ddp d body =>
        refine .idle hnode rfl ?_
        rintro ⟨-, a, -, -, hb, -⟩
        cases hbody.symm.trans hb
      | unknown =>
        refine .idle hnode rfl ?_
        rintro ⟨-, a, -, -, hb, -⟩
        cases hbody.symm.trans hb
  · rename_i hk
    exact .idle hnode rfl (hother fun mac hmac => hk mac hmac)

theorem inboundLlap_course (hnode : p.node = none) (hr : Claimable p.kind p.claim.node)
    (l : Llap) (now : Instant) :
    Course p (.llap l, now)
      ((p.inboundLlap host l now).1, (p.inboundLlap host l now).2.2) := by
  unfold inboundLlap
  dsimp only
  rw [claimingNode_eq hnode]
  by_cases hc : p.node = none ∧ (l.typ = LLAP_ENQ ∨ l.typ = LLAP_ACK) ∧ l.dst = p.claim.node
  · rw [if_pos hc]
    obtain ⟨hne, hin⟩ := restart_claim host hr now
    exact .moved hnode rfl rfl hne hin
  · rw [if_neg hc]
    have hquiet : ¬p.Conflicts p.claim.node (.llap l) := fun h => hc ⟨hnode, h.2⟩
    have hdeny : ¬(p.node = some l.dst ∧ p.kind ≠ .tashtalk) := by simp [hnode]
    rw [if_neg hdeny]
    split_ifs <;> exact .idle hnode rfl hquiet

variable (host) in
/-- **One input of a port without a number.** -/
theorem step_course (hnode : p.node = none) (hr : Claimable p.kind p.claim.node)
    (i : PortIn × Instant) : Course p i (p.step host i) := by
  obtain ⟨i, now⟩ := i
  cases i with
  | tick => exact tick_course hnode now
  | ether packet => exact inboundEther_course hnode hr packet now
  | llap l => exact inboundLlap_course hnode hr l now

/-- A port that has its number keeps it. -/
theorem next_claimed {n : UInt8} (h : p.node = some n) (i : PortIn × Instant) :
    (p.next host i).node = some n := by
  obtain ⟨i, now⟩ := i
  cases i with
  | tick =>
    have htick : p.tick now = (p, []) := by
      unfold tick
      rw [if_pos (Or.inl (by simp [h]))]
    exact (congrArg (fun r => r.1.node) htick).trans h
  | ether packet =>
    show (p.inboundEther host packet now).1.node = some n
    unfold inboundEther
    split
    · split_ifs
      · exact h
      · dsimp only
        split
        · unfold inboundAarp
          dsimp only
          split
          · rw [h]
            rfl
          · exact h
          · exact h
        · exact h
        · exact h
    · exact h
  | llap l =>
    show (p.inboundLlap host l now).1.node = some n
    unfold inboundLlap
    dsimp only
    rw [if_neg (by simp [h])]
    split_ifs <;> exact h

/-- What never changes of a port, input by input. -/
theorem next_fixed (host : Host) (p : Port) (i : PortIn × Instant) :
    (p.next host i).fixed = p.fixed := by
  obtain ⟨i, now⟩ := i
  cases i with
  | tick => exact p.tick_fixed now
  | ether packet => exact p.inboundEther_fixed host packet now
  | llap l => exact p.inboundLlap_fixed host l now

/-! ### What is kept beside a port -/

/-- One input, and what the port answered. -/
structure Exchange where
  input : PortIn
  «at» : Instant
  acts : List Action

/-- What was sent, and when. -/
def Exchange.sends (e : Exchange) : List (Instant × Action) := e.acts.map fun a => (e.at, a)

/-- A port and the exchanges since its candidate became what it is. -/
def record (host : Host) (x : Port × List Exchange) (i : PortIn × Instant) :
    Port × List Exchange :=
  let r := x.1.step host i
  (r.1,
    if r.1.claimingNode = x.1.claimingNode then
      x.2 ++ [{ input := i.1, «at» := i.2, acts := r.2 }]
    else [])

/-- The port after some inputs. -/
def after (host : Host) (p : Port) (is : List (PortIn × Instant)) : Port :=
  Machine.run (next host) p is

/-- The exchanges since the candidate became what it is after some inputs. -/
def since (host : Host) (p : Port) (is : List (PortIn × Instant)) : List Exchange :=
  (Machine.run (record host) (p, []) is).2

/-- The exchanges for a candidate ask for it, and hear of no conflict. -/
structure Asked (p : Port) (n : UInt8) (h : List Exchange) (times : List Instant) : Prop where
  sends : h.flatMap Exchange.sends = times.map fun t => (t, p.request n)
  quiet : ∀ e ∈ h, ¬p.Conflicts n e.input

/-- A port is a claimant: it is asking for its candidate, or holds it. -/
inductive Claims (kind : Kind) (p : Port) (h : List Exchange) :
    Claimant (rules kind) UInt8 → Prop
  | asking (r : Claimant.Round (rules kind)) (hnode : p.node = none)
    (hrange : Claimable kind p.claim.node) (htries : p.claim.tries = r.times.length)
    (hnext : p.claim.next = r.due) (hasked : p.Asked p.claim.node h r.times) :
    Claims kind p h (.asking p.claim.node r)
  | holding {n : UInt8} (r : Claimant.Round (rules kind)) (since : Instant)
    (hfull : r.times.length = (rules kind).tries) (hrest : r.due ≤ since)
    (hnode : p.node = some n) (hrange : Claimable kind n) :
    Claims kind p h (.holding n r since hfull hrest)

theorem request_of_fixed {q : Port} (h : q.fixed = p.fixed) (n : UInt8) :
    q.request n = p.request n := by
  have hkind : q.kind = p.kind := congrArg Prod.snd h
  have hrange : q.range = p.range := congrArg (fun f => f.1.range) h
  have hid : q.id = p.id := congrArg (fun f => f.1.port) h
  unfold request
  rw [hkind, hrange, hid]

theorem conflicts_of_fixed {q : Port} (h : q.fixed = p.fixed) (n : UInt8) (i : PortIn) :
    q.Conflicts n i ↔ p.Conflicts n i := by
  have hkind : q.kind = p.kind := congrArg Prod.snd h
  have hrange : q.range = p.range := congrArg (fun f => f.1.range) h
  unfold Conflicts extended
  rw [hkind, hrange]

theorem Asked.of_fixed {q : Port} (h : q.fixed = p.fixed) {n : UInt8} {es : List Exchange}
    {times : List Instant} (ha : p.Asked n es times) : q.Asked n es times := by
  refine ⟨ha.sends.trans ?_, fun e he hc => ha.quiet e he ((conflicts_of_fixed h n _).1 hc)⟩
  simp only [request_of_fixed h]

/-- An exchange in which nothing is sent and no conflict is heard. -/
theorem Asked.silence {n : UInt8} {es : List Exchange} {times : List Instant}
    (h : p.Asked n es times) {i : PortIn} (hquiet : ¬p.Conflicts n i) (now : Instant) :
    p.Asked n (es ++ [{ input := i, «at» := now, acts := [] }]) times := by
  constructor
  · rw [List.flatMap_append, h.sends]
    simp [Exchange.sends]
  · intro e he
    rcases List.mem_append.1 he with he | he
    · exact h.quiet e he
    · rw [List.mem_singleton.1 he]
      exact hquiet

/-- A tick in which the candidate is asked for once more. -/
theorem Asked.again {n : UInt8} {es : List Exchange} {times : List Instant}
    (h : p.Asked n es times) (now : Instant) :
    p.Asked n (es ++ [{ input := .tick, «at» := now, acts := [p.request n] }])
      (times ++ [now]) := by
  constructor
  · rw [List.flatMap_append, h.sends, List.map_append]
    simp [Exchange.sends]
  · intro e he
    rcases List.mem_append.1 he with he | he
    · exact h.quiet e he
    · rw [List.mem_singleton.1 he]
      exact not_false

variable (host) in
/-- **One input** moves a port as the clock or a refusal moves its claimant, or not at all. -/
theorem Claims.step {kind : Kind} {es : List Exchange} {c : Claimant (rules kind) UInt8}
    (h : Claims kind p es c) (hkind : p.kind = kind) (i : PortIn × Instant) :
    ∃ c', (c' = c ∨ c' = (c.tick i.2).1 ∨ ∃ k, c' = c.refuse k i.2) ∧
      Claims kind (record host (p, es) i).1 (record host (p, es) i).2 c' := by
  have hfixed := next_fixed host p i
  unfold next at hfixed
  cases h with
  | holding r since hfull hrest hnode hrange =>
    exact ⟨_, Or.inl rfl, .holding r since hfull hrest (next_claimed hnode i) hrange⟩
  | asking r hnode hrange htries hnext hasked =>
    have hnone := claimingNode_eq hnode
    have hcourse := step_course host hnode (by rw [hkind]; exact hrange) i
    unfold record
    dsimp only
    generalize hstep : p.step host i = x at hcourse hfixed ⊢
    cases hcourse with
    | @idle q hq hclaim hquiet =>
      have hsame : q.claimingNode = p.claimingNode := by
        rw [claimingNode_eq hq, hnone, hclaim]
      rw [if_pos hsame]
      refine ⟨_, Or.inl rfl, ?_⟩
      rw [← hclaim] at hrange htries hnext hasked hquiet ⊢
      exact .asking r hq hrange htries hnext ((hasked.silence hquiet i.2).of_fixed hfixed)
    | asked hi hdue hleft =>
      have hdue' : r.due ≤ i.2 := hnext ▸ hdue
      have hleft' : r.times.length < (rules kind).tries := by
        rw [hkind, htries] at hleft
        exact hleft
      refine ⟨_, Or.inr (Or.inl rfl), ?_⟩
      have hsame : (p.asks i.2).claimingNode = p.claimingNode :=
        (claimingNode_eq (p := p.asks i.2) hnode).trans hnone.symm
      rw [if_pos hsame, hi, Claimant.tick_ask hdue' hleft']
      refine .asking (r.ask i.2 hdue' hleft') hnode hrange ?_ ?_ ?_
      · show p.claim.tries + 1 = (r.times ++ [i.2]).length
        rw [htries, List.length_append, List.length_singleton]
      · exact congrArg (fun kind => i.2 + (rules kind).interval) hkind
      · exact (hasked.again i.2).of_fixed hfixed
    | took hi hdue hfull =>
      have hdue' : r.due ≤ i.2 := hnext ▸ hdue
      have hfull' : r.times.length = (rules kind).tries := by
        rw [hkind, htries] at hfull
        exact le_antisymm r.count hfull
      refine ⟨_, Or.inr (Or.inl rfl), ?_⟩
      rw [Claimant.tick_take hdue' hfull']
      exact .holding r i.2 hfull' hdue' rfl hrange
    | @moved q hq htries' hnext' hother hrange' =>
      refine ⟨_, Or.inr (Or.inr ⟨q.claim.node, rfl⟩), ?_⟩
      rw [if_neg (by rw [claimingNode_eq hq, hnone]; exact hother)]
      exact .asking (.start (rules kind) i.2) hq (by rw [← hkind]; exact hrange') htries' hnext'
        ⟨rfl, by simp⟩

/-! ### Runs -/

theorem run_record (host : Host) (p : Port) (es : List Exchange) (is : List (PortIn × Instant)) :
    (Machine.run (record host) (p, es) is).1 = p.after host is :=
  Machine.run_map (f := Prod.fst) (fun _ _ => rfl) (p, es) is

/-- A port that is built is a claimant, and so it is after every run. -/
theorem claims_run (host : Host) (id : PortId) (name : String) (kind : Kind)
    (range : UInt16 × UInt16) (zones : List Str) (start : Instant)
    (is : List (PortIn × Instant)) :
    let p := new host id name kind range zones start
    (p.after host is).kind = kind ∧ ∃ c, Claims kind (p.after host is) (p.since host is) c := by
  intro p
  rw [← run_record host p [] is]
  refine Machine.run_invariant (I := fun x : Port × List Exchange =>
    x.1.kind = kind ∧ ∃ c, Claims kind x.1 x.2 c) ?_ ⟨rfl, ?_⟩ is
  · rintro ⟨p, es⟩ i ⟨hkind, c, hc⟩
    obtain ⟨c', -, hc'⟩ := hc.step host hkind i
    exact ⟨(congrArg Prod.snd (next_fixed host p i)).trans hkind, c', hc'⟩
  · exact ⟨_, .asking (.start (rules kind) start) rfl (claimable_candidate _ _) rfl rfl
      ⟨rfl, by simp⟩⟩

/-- The input takes the candidate: since it became the candidate it was asked for as often as the
rules want and nothing else was sent, consecutive requests an interval apart and the last one an
interval ago, and no conflict was heard. -/
structure Thorough (p : Port) (n : UInt8) (es : List Exchange) (i : PortIn × Instant) : Prop where
  candidate : p.claimingNode = n
  tick : i.1 = .tick
  asked : ∃ times, p.Asked n es times ∧ times.length = (rules p.kind).tries ∧
    (times.IsChain fun t t' => t + (rules p.kind).interval ≤ t') ∧
    ∀ t ∈ times.getLast?, t + (rules p.kind).interval ≤ i.2

/-- What a port that claims a number does, whatever comes next. -/
structure ClaimsWell (host : Host) (p : Port) (es : List Exchange) : Prop where
  thorough : ∀ i n, p.node = none → (p.next host i).node = some n → p.Thorough n es i
  legal : ∀ n, p.node = some n → Claimable p.kind n
  yields : ∀ i, p.node = none → p.Conflicts p.claimingNode i.1 →
    (p.next host i).claimingNode ≠ p.claimingNode
  silent : p.node = none → ∀ dest d, p.emit host dest d = none
  final : ∀ n, p.node = some n → ∀ is, (p.after host is).node = some n

theorem Claims.thorough {kind : Kind} {es : List Exchange} {c : Claimant (rules kind) UInt8}
    (h : Claims kind p es c) (hkind : p.kind = kind) {i : PortIn × Instant} {n : UInt8}
    (hnode : p.node = none) (hn : (p.next host i).node = some n) : p.Thorough n es i := by
  cases h with
  | holding r since hfull hrest hnode' => cases hnode.symm.trans hnode'
  | asking r _ hrange htries hnext hasked =>
    have hcourse := step_course host hnode (by rw [hkind]; exact hrange) i
    unfold next at hn
    generalize p.step host i = x at hcourse hn
    cases hcourse with
    | idle hq => cases hq.symm.trans hn
    | asked => cases hnode.symm.trans hn
    | moved hq => cases hq.symm.trans hn
    | took hi hdue hfull =>
      obtain rfl : p.claim.node = n := Option.some.inj hn
      rw [hkind, htries] at hfull
      refine ⟨claimingNode_eq hnode, hi, r.times, hasked, ?_, ?_, ?_⟩
      · rw [hkind]
        exact le_antisymm r.count hfull
      · rw [hkind]
        exact r.apart
      · rw [hkind]
        exact fun t ht => (r.rested t ht).trans (hnext ▸ hdue)

/-- A conflict makes a port without a number move on. -/
theorem Claims.yields {kind : Kind} {es : List Exchange} {c : Claimant (rules kind) UInt8}
    (h : Claims kind p es c) (hkind : p.kind = kind) {i : PortIn × Instant}
    (hnode : p.node = none) (hc : p.Conflicts p.claimingNode i.1) :
    (p.next host i).claimingNode ≠ p.claimingNode := by
  cases h with
  | holding r since hfull hrest hnode' => cases hnode.symm.trans hnode'
  | asking r _ hrange =>
    have hcourse := step_course host hnode (by rw [hkind]; exact hrange) i
    rw [claimingNode_eq hnode] at hc ⊢
    unfold next
    generalize p.step host i = x at hcourse ⊢
    cases hcourse with
    | idle _ _ hquiet => exact absurd hc hquiet
    | asked hi =>
      rw [hi] at hc
      exact hc.elim
    | took hi =>
      rw [hi] at hc
      exact hc.elim
    | moved hq _ _ hother =>
      rw [claimingNode_eq hq]
      exact hother

/-- **Address claiming is thorough and final**, in every run of every kind of port. -/
theorem address_claimed_well (host : Host) (id : PortId) (name : String) (kind : Kind)
    (range : UInt16 × UInt16) (zones : List Str) (start : Instant)
    (is : List (PortIn × Instant)) :
    let p := new host id name kind range zones start
    (p.after host is).ClaimsWell host (p.since host is) := by
  intro p
  obtain ⟨hkind, c, hc⟩ := claims_run host id name kind range zones start is
  constructor
  · exact fun i n hnode hn => hc.thorough hkind hnode hn
  · intro n hn
    rw [hkind]
    cases hc with
    | asking r hnode => cases hnode.symm.trans hn
    | holding r since hfull hrest hnode hrange =>
      obtain rfl := Option.some.inj (hnode.symm.trans hn)
      exact hrange
  · exact fun i hnode hconf => hc.yields hkind hnode hconf
  · intro hnode dest d
    unfold emit
    rw [hnode, Option.map_none]
  · exact fun n hn is => Machine.run_invariant (I := fun p : Port => p.node = some n)
      (fun p i hp => next_claimed hp i) hn is

/-- Eight lapENQs and a ninth interval of silence. -/
example : ((new Host.lowest 0 "l" .ltoudp (10, 10) [['A']] 0).after .lowest
    ((List.range 9).map fun k => (.tick, k * ENQ_INTERVAL))).node = some 128 := by decide

end Port

end AppleTalk
