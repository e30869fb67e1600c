import AppleTalk.Bridge.Slots

/-!
# What one step does about one node

A step lets time act on the node's slot, records the sighting of the frame's source, and then
leaves the slot alone, puts a question, or pays what a question owes. What it sends about the
node (a lapACK that denies its ID, an AARP Response that names its address) comes from the last
part alone.
-/

namespace AppleTalk

namespace Bridge

/-! ### What is observed on the links -/

namespace Action

/-- A lapACK for the node ID. -/
def Acks (n : UInt8) : Action → Prop
  | toLocal l => l.typ = LLAP_ACK ∧ l.dst = n
  | _ => False

/-- An AARP Response that names the address. -/
def Names (x : Addr) : Action → Prop
  | toEther f => f.proto = AARP ∧ ∃ a, Aarp.parse f.payload = some a ∧ a.op = 2 ∧ a.src = x
  | _ => False

/-- A question to one side who holds the address. -/
def Asks (x : Addr) : Side → Action → Prop
  | .ether _, toEther f => f.dst = BROADCAST_MAC ∧ f.proto = AARP ∧
      ∃ a, Aarp.parse f.payload = some a ∧ (a.op = 1 ∨ a.op = 3) ∧ a.dst = x
  | Side.local, toLocal l => l.typ = LLAP_ENQ ∧ l.dst = x.node
  | _, _ => False

/-- A question or a report. -/
def Asking : Action → Prop
  | toEther f => f.proto = AARP ∧ ∃ a, Aarp.parse f.payload = some a ∧ a.op ≠ 2
  | toLocal l => l.typ = LLAP_ENQ
  | report _ => True

/-- A datagram repeated to a link. -/
def Datagram : Action → Prop
  | toEther f => f.proto = DDP
  | toLocal l => l.typ = LLAP_SHORT_DDP ∨ l.typ = LLAP_LONG_DDP
  | report _ => False

theorem Asking.not_datagram {a : Action} (h : a.Asking) : ¬a.Datagram := by
  cases a with
  | toEther f =>
    intro hd
    have hd : f.proto = DDP := hd
    have ha : f.proto = AARP := h.1
    rw [ha] at hd
    exact absurd hd (by decide)
  | toLocal l =>
    have h : l.typ = LLAP_ENQ := h
    simp only [Datagram, h]
    decide
  | report m => exact id

end Action

namespace In

/-- The AARP packet of a frame from Ethernet. -/
def aarp : In → Option Aarp
  | ether p =>
    match p.body with
    | .aarp a => some a
    | _ => none
  | _ => none

/-- An AARP Response from the address. -/
def IsResponse (x : Addr) (i : In) : Prop := ∃ a, i.aarp = some a ∧ a.op = 2 ∧ a.src = x

/-- An AARP Request for the address. -/
def IsRequest (x : Addr) (i : In) : Prop := ∃ a, i.aarp = some a ∧ a.op = 1 ∧ a.dst = x

/-- An AARP Probe for the address. -/
def IsProbe (x : Addr) (i : In) : Prop := ∃ a, i.aarp = some a ∧ a.op = 3 ∧ a.dst = x

/-- A lapENQ for the node ID. -/
def IsEnq (n : UInt8) : In → Prop
  | In.local l => l.typ = LLAP_ENQ ∧ l.dst = n
  | _ => False

/-- A lapACK from the node ID. -/
def IsAck (n : UInt8) : In → Prop
  | In.local l => l.typ = LLAP_ACK ∧ l.src = n
  | _ => False

/-- A frame from the side that names the address as its source. -/
def From (x : Addr) : Side → In → Prop
  | .ether _, ether p =>
    match p.body with
    | .aarp a => a.src = x
    | .ddp d _ => d.src = x
    | .unknown => False
  | Side.local, In.local l => l.src = x.node
  | _, _ => False

/-- The input that answers, from the side, who holds the address. -/
def Answers (x : Addr) (i : In) : Side → Prop
  | .ether _ => i.IsResponse x
  | Side.local => i.IsAck x.node

/-- The input that leaves the debt. -/
def Owes (x : Addr) (i : In) : Owed → Prop
  | .localAck => i.IsEnq x.node
  | .etherResponse _ _ => i.IsRequest x ∨ i.IsProbe x
  | .nothing => True

end In

/-- What is sent puts the question that can pay the debt. -/
def Owed.Put (x : Addr) (acts : List Action) : Owed → Prop
  | .localAck => ∃ a ∈ acts, a.Asks x (.ether MacAddr.zero)
  | .etherResponse _ _ => ∃ a ∈ acts, a.Asks x Side.local
  | .nothing => True

/-- What else is sent first takes no question back. -/
theorem Owed.Put.prepend {x : Addr} {acts : List Action} {owed : Owed} (h : owed.Put x acts)
    (pre : List Action) : owed.Put x (pre ++ acts) := by
  cases owed with
  | localAck | etherResponse =>
    obtain ⟨a, ha, hasks⟩ := h
    exact ⟨a, List.mem_append_right _ ha, hasks⟩
  | nothing => trivial

/-- Nothing sent denies the node's ID or answers for it. -/
def Quiet (x : Addr) (acts : List Action) : Prop :=
  ∀ a ∈ acts, ¬a.Acks x.node ∧ ¬a.Names x

theorem Quiet.nil (x : Addr) : Quiet x [] := by
  simp [Quiet]

theorem Quiet.append {x : Addr} {as bs : List Action} (ha : Quiet x as) (hb : Quiet x bs) :
    Quiet x (as ++ bs) := List.forall_mem_append.2 ⟨ha, hb⟩

/-- A question denies nothing and answers nothing. -/
theorem quiet_of_asking {acts : List Action} (h : ∀ a ∈ acts, a.Asking) (x : Addr) :
    Quiet x acts := by
  intro a ha
  have h := h a ha
  cases a with
  | toEther f =>
    refine ⟨id, ?_⟩
    rintro ⟨-, y, hy, hop, -⟩
    obtain ⟨-, z, hz, hop'⟩ := h
    rw [hy] at hz
    obtain rfl := Option.some.inj hz
    exact hop' hop
  | toLocal l =>
    refine ⟨?_, id⟩
    rintro ⟨hack, -⟩
    rw [show l.typ = LLAP_ENQ from h] at hack
    exact absurd hack (by decide)
  | report m => exact ⟨id, id⟩

theorem quiet_toLocal {x : Addr} {l : Llap} (h : l.typ ≠ LLAP_ACK ∨ l.dst ≠ x.node) :
    Quiet x [.toLocal l] := by
  simp only [Quiet, List.mem_singleton, forall_eq, Action.Acks, Action.Names, not_false_eq_true,
    and_true]
  tauto

theorem quiet_datagram (x : Addr) (src dst : MacAddr) (bytes : Bytes) :
    Quiet x [.toEther (frame src dst DDP bytes)] := by
  simp [Quiet, Action.Acks, Action.Names, frame, DDP, AARP]

/-- An AARP packet on its way answers for the address it names as its sender's. -/
theorem names_frame_iff {x : Addr} {src dst : MacAddr} {a : Aarp} :
    (Action.toEther (frame src dst AARP a.toBytes)).Names x ↔ a.op = 2 ∧ a.src = x := by
  simp [Action.Names, frame, Aarp.parse_toBytes]

theorem quiet_aarp {x : Addr} {src dst : MacAddr} {a : Aarp} (h : a.op ≠ 2 ∨ a.src ≠ x) :
    Quiet x [.toEther (frame src dst AARP a.toBytes)] := by
  simp only [Quiet, List.mem_singleton, forall_eq, names_frame_iff, Action.Acks, not_false_eq_true,
    true_and]
  tauto

/-! ### The sighting -/

/-- The node whose sighting a frame is, and the side it is seen on. -/
def sighting (b : Bridge) : In → Option (UInt8 × Side)
  | .ether p =>
    if p.frame.src = b.mac ∨ p.frame.snap = false then none
    else
      match p.body with
      | .aarp a =>
        if a.op = 2 ∧ a.src.net = b.addr.net then some (a.src.node, .ether a.srcHw) else none
      | .ddp d _ => if d.src.net = b.addr.net then some (d.src.node, .ether p.frame.src) else none
      | .unknown => none
  | In.local l =>
    if l.typ = LLAP_SHORT_DDP ∨ l.typ = LLAP_LONG_DDP ∨ l.typ = LLAP_ACK then
      some (l.src, Side.local)
    else none
  | .tick => none

/-- The side on which a frame shows the node. -/
def heard (b : Bridge) (i : In) (n : UInt8) : Option Side :=
  (b.sighting i).bind fun s => if s.1 = n ∧ b.Real n then some s.2 else none

theorem heard_eq_some_iff {b : Bridge} {i : In} {n : UInt8} {side : Side} :
    b.heard i n = some side ↔ b.sighting i = some (n, side) ∧ b.Real n := by
  unfold heard
  cases b.sighting i with
  | none => simp
  | some s =>
    obtain ⟨m, side'⟩ := s
    simp only [Option.bind_some, Option.ite_none_right_eq_some, Option.some.injEq, Prod.mk.injEq]
    tauto

/-- An acknowledgement shows its sender on LocalTalk. -/
theorem sighting_of_ack {b : Bridge} {i : In} {n : UInt8} (h : i.IsAck n) :
    b.sighting i = some (n, Side.local) := by
  cases i with
  | «local» l =>
    obtain ⟨hack, rfl⟩ := h
    exact if_pos (Or.inr (Or.inr hack))
  | _ => cases h

/-- Record the sighting of a frame's source. -/
def record (b : Bridge) (i : In) (now : Instant) : Bridge × List Action :=
  match b.sighting i with
  | none => (b, [])
  | some s => b.confirm s.1 s.2 now

/-- The bridge once a step has recorded the sighting of the frame's source. -/
def recorded (b : Bridge) (i : In) (now : Instant) : Bridge := ((b.expire now).1.record i now).1

theorem record_fixed (b : Bridge) (i : In) (now : Instant) :
    (b.record i now).1.addr = b.addr ∧ (b.record i now).1.mac = b.mac := by
  unfold record
  cases b.sighting i with
  | none => exact ⟨rfl, rfl⟩
  | some s => exact confirm_fixed b s.1 now s.2

theorem sighting_congr {b c : Bridge} (ha : c.addr = b.addr) (hm : c.mac = b.mac) (i : In) :
    c.sighting i = b.sighting i := by
  unfold sighting
  rw [ha, hm]

theorem slot_record (b : Bridge) (i : In) (n : UInt8) (now : Instant) :
    (b.record i now).1.slot n =
      match b.heard i n with
      | none => b.slot n
      | some side => (b.slot n).sighted side now := by
  unfold record heard
  cases b.sighting i with
  | none => rfl
  | some s =>
    rw [slot_confirm, Option.bind_some]
    by_cases h : n = s.1
    · subst h
      by_cases hr : b.Real s.1 <;> simp [hr]
    · rw [if_neg (by tauto), if_neg (by tauto)]

/-! ### The outcome -/

/-- What a step makes of a node's slot, once its sighting is recorded, and what it sends about
the node. -/
inductive Outcome (ours x : Addr) (i : In) (now : Instant) (s : Slot) :
    Slot → List Action → Prop
  /-- Nothing about the node. -/
  | quiet {acts : List Action} (h : Quiet x acts) : Outcome ours x i now s s acts
  /-- Our own address is defended. -/
  | defended {acts : List Action} (h : x = ours) : Outcome ours x i now s s acts
  /-- A question. -/
  | asked {acts : List Action} (owed : Owed) (hx : x.node ≠ 0 ∧ x.node ≠ 255)
      (hs : s.pending = none) (hi : i.Owes x owed) (hput : owed.Put x acts) (h : Quiet x acts) :
      Outcome ours x i now s { s with pending := some ⟨now, owed, none⟩ } acts
  /-- The ID is denied to the LocalTalk node that claims it. -/
  | acked {acts : List Action} (q : Pending) (hs : s.pending = some q) (hm : q.movedTo = none)
      (ho : q.owed = .localAck) (hi : i.IsResponse x)
      (hack : .toLocal (.control x.node x.node LLAP_ACK) ∈ acts)
      (h : ∀ a ∈ acts, ¬a.Names x) : Outcome ours x i now s { s with pending := none } acts
  /-- A question of Ethernet's is answered for a node on LocalTalk, if nothing we know is against
  it. -/
  | proxied {acts : List Action} (q : Pending) («to» : Addr) (m : MacAddr) (hs : s.pending = some q)
      (hm : q.movedTo = none) (ho : q.owed = .etherResponse «to» m) (hi : i.IsAck x.node)
      (h : ∀ a ∈ acts, ¬a.Acks x.node ∧
        (a.Names x → s.entry = none ∨ s.live = some Side.local)) :
      Outcome ours x i now s { s with pending := none } acts
  /-- A Request is answered from the table. -/
  | cached {acts : List Action} (hi : i.IsRequest x) (hl : s.live = some Side.local)
      (h : ∀ a ∈ acts, ¬a.Acks x.node) : Outcome ours x i now s s acts

namespace Outcome

variable {ours x : Addr} {i : In} {now : Instant} {s s' : Slot} {acts : List Action}

/-- What else is sent first says nothing about the node. -/
theorem prepend (h : Outcome ours x i now s s' acts) {pre : List Action} (hpre : Quiet x pre) :
    Outcome ours x i now s s' (pre ++ acts) := by
  cases h with
  | quiet h => exact .quiet (hpre.append h)
  | defended h => exact .defended h
  | asked owed hx hs hi hput h => exact .asked owed hx hs hi (hput.prepend _) (hpre.append h)
  | acked q hs hm ho hi hack h =>
    exact .acked q hs hm ho hi (List.mem_append_right _ hack)
      (List.forall_mem_append.2 ⟨fun a ha => (hpre a ha).2, h⟩)
  | proxied q «to» m hs hm ho hi h =>
    refine .proxied q «to» m hs hm ho hi (List.forall_mem_append.2 ⟨fun a ha => ?_, h⟩)
    exact ⟨(hpre a ha).1, fun hn => absurd hn (hpre a ha).2⟩
  | cached hi hl h =>
    exact .cached hi hl (List.forall_mem_append.2 ⟨fun a ha => (hpre a ha).1, h⟩)

/-- Once the sighting is recorded the entry stays. -/
theorem entry_eq (h : Outcome ours x i now s s' acts) : s'.entry = s.entry := by
  cases h <;> rfl

/-- A question in flight after the step was in flight before, or is put by the step for the debt
its input leaves; nobody was denied the ID meanwhile. -/
theorem pending (h : Outcome ours x i now s s' acts) (hx : x ≠ ours) {q : Pending}
    (hq : s'.pending = some q) :
    (∀ a ∈ acts, ¬a.Acks x.node) ∧
      (s.pending = some q ∨ x.node ≠ 0 ∧ x.node ≠ 255 ∧ q.asked = now ∧ i.Owes x q.owed ∧
        q.owed.Put x acts) := by
  cases h with
  | quiet h => exact ⟨fun a ha => (h a ha).1, Or.inl hq⟩
  | defended h => exact absurd h hx
  | asked owed hreal _ hi hput h =>
    obtain rfl := Option.some.inj hq
    exact ⟨fun a ha => (h a ha).1, Or.inr ⟨hreal.1, hreal.2, rfl, hi, hput⟩⟩
  | cached _ _ h => exact ⟨h, Or.inl hq⟩
  | acked | proxied => cases hq

/-- An ID is denied for a claim's debt, on a Response. -/
theorem of_acks (h : Outcome ours x i now s s' acts) (hx : x ≠ ours) {a : Action} (ha : a ∈ acts)
    (hacks : a.Acks x.node) :
    i.IsResponse x ∧ ∃ q, s.pending = some q ∧ q.movedTo = none ∧ q.owed = .localAck := by
  cases h with
  | quiet h => exact absurd hacks (h a ha).1
  | defended h => exact absurd h hx
  | asked _ _ _ _ _ h => exact absurd hacks (h a ha).1
  | proxied _ _ _ _ _ _ _ h => exact absurd hacks (h a ha).1
  | cached _ _ h => exact absurd hacks (h a ha)
  | acked q hq hm ho hi _ _ => exact ⟨hi, q, hq, hm, ho⟩

/-- An address is answered for from the table, or for a debt on an acknowledgement. -/
theorem of_names (h : Outcome ours x i now s s' acts) (hx : x ≠ ours) {a : Action} (ha : a ∈ acts)
    (hnames : a.Names x) :
    i.IsRequest x ∧ s.live = some Side.local ∨
      i.IsAck x.node ∧ (s.entry = none ∨ s.live = some Side.local) ∧
        ∃ q «to» m, s.pending = some q ∧ q.movedTo = none ∧ q.owed = .etherResponse «to» m := by
  cases h with
  | quiet h => exact absurd hnames (h a ha).2
  | defended h => exact absurd h hx
  | asked _ _ _ _ _ h => exact absurd hnames (h a ha).2
  | acked _ _ _ _ _ _ h => exact absurd hnames (h a ha)
  | cached hi hl _ => exact Or.inl ⟨hi, hl⟩
  | proxied q «to» m hq hm ho hi h =>
    exact Or.inr ⟨hi, (h a ha).2 hnames, q, «to», m, hq, hm, ho⟩

/-- Only a sighting raises a move-check. -/
theorem moved (h : Outcome ours x i now s s' acts) {q : Pending} {side : Side}
    (hq : s'.pending = some q) (hm : q.movedTo = some side) : s.pending = some q := by
  cases h with
  | quiet | defended | cached => exact hq
  | asked owed _ _ _ _ _ =>
    obtain rfl := Option.some.inj hq
    cases hm
  | acked | proxied => cases hq

end Outcome

variable (b : Bridge) (n m : UInt8) (now : Instant)

/-! ### Questions and reports -/

/-- A question is an AARP packet that is no Response, or a lapENQ. -/
theorem ask_forall {P : Action → Prop}
    (hether : ∀ x : Aarp, x.op ≠ 2 → P (.toEther (frame b.mac BROADCAST_MAC AARP x.toBytes)))
    (hlocal : P (.toLocal (.control m m LLAP_ENQ))) (link : Ask) (owed : Owed)
    (movedTo : Option Side) : ∀ a ∈ (b.ask m link owed movedTo now).2, P a := by
  have hreq := hether (aarpRequest b.addr b.mac ⟨b.addr.net, m⟩) (show (1 : UInt16) ≠ 2 by decide)
  unfold ask
  by_cases h : m = 0 ∨ m = 255 ∨ (b.pending.get? m).isSome
  · rw [if_pos h]
    exact List.forall_mem_nil _
  · rw [if_neg h]
    cases link with
    | ether =>
      dsimp only
      split_ifs
      · exact List.forall_mem_singleton.2 (hether _ (show (3 : UInt16) ≠ 2 by decide))
      · exact List.forall_mem_singleton.2 hreq
    | «local» => exact List.forall_mem_singleton.2 hlocal
    | both => exact List.forall_mem_cons.2 ⟨hreq, List.forall_mem_singleton.2 hlocal⟩

/-- A sighting sends a question or a report. -/
theorem confirm_forall {P : Action → Prop}
    (hask : ∀ (c : Bridge) (link : Ask) (movedTo : Option Side), c.mac = b.mac →
      ∀ a ∈ (c.ask m link .nothing movedTo now).2, P a)
    (hreport : ∀ s, P (.report s)) (side : Side) : ∀ a ∈ (b.confirm m side now).2, P a := by
  unfold confirm
  by_cases hm : m = 0 ∨ m = 255 ∨ m = b.addr.node
  · rw [if_pos hm]
    exact List.forall_mem_nil _
  · rw [if_neg hm]
    cases b.nodes.get? m with
    | none => exact List.forall_mem_nil _
    | some e =>
      dsimp only
      split_ifs
      · exact List.forall_mem_nil _
      · exact hask _ _ _ rfl
      · exact List.forall_mem_singleton.2 (hreport _)
      · exact List.forall_mem_nil _
      · exact List.forall_mem_nil _

/-- Expiry sends reports. -/
theorem expire_forall {P : Action → Prop} (hreport : ∀ s, P (.report s)) :
    ∀ a ∈ (b.expire now).2, P a := by
  suffices ∀ (ms : List UInt8) (r : Bridge × List Action), (∀ a ∈ r.2, P a) →
      ∀ a ∈ (ms.foldl (resolve now) r).2, P a from this _ _ (List.forall_mem_nil _)
  intro ms
  induction ms with
  | nil => exact fun r h => h
  | cons m ms ih =>
    intro r h
    refine ih _ ?_
    unfold resolve
    cases r.1.pending.get? m with
    | none => exact h
    | some q =>
      dsimp only
      cases q.movedTo with
      | none => exact h
      | some side => exact List.forall_mem_append.2 ⟨h, List.forall_mem_singleton.2 (hreport _)⟩

theorem ask_asking (link : Ask) (owed : Owed) (movedTo : Option Side) :
    ∀ a ∈ (b.ask m link owed movedTo now).2, a.Asking :=
  ask_forall b m now (P := Action.Asking) (fun x hx => ⟨rfl, x, Aarp.parse_toBytes x, hx⟩) rfl link
    owed movedTo

theorem confirm_asking (side : Side) : ∀ a ∈ (b.confirm m side now).2, a.Asking :=
  confirm_forall b m now (P := Action.Asking)
    (fun c link movedTo _ => ask_asking c m now link .nothing movedTo) (fun _ => trivial) side

theorem expire_asking : ∀ a ∈ (b.expire now).2, a.Asking :=
  expire_forall b now (P := Action.Asking) fun _ => trivial

/-- A question is put to each link it is for. -/
theorem ask_asks {x : Addr} (hx : x.net = b.addr.net) (h0 : x.node ≠ 0) (h255 : x.node ≠ 255)
    (hp : b.pending.get? x.node = none) (side : Side) (owed : Owed) (movedTo : Option Side) :
    ∃ a ∈ (b.ask x.node side.link owed movedTo now).2, a.Asks x side := by
  have hx' : (⟨b.addr.net, x.node⟩ : Addr) = x := by rw [← hx]
  unfold ask
  rw [if_neg (by simp [h0, h255, hp])]
  cases side with
  | «local» => exact ⟨_, List.mem_singleton.2 rfl, rfl, rfl⟩
  | ether mac =>
    dsimp only [Side.link]
    split_ifs
    · exact ⟨_, List.mem_singleton.2 rfl, rfl, rfl, _, Aarp.parse_toBytes _, Or.inr rfl, hx'⟩
    · exact ⟨_, List.mem_singleton.2 rfl, rfl, rfl, _, Aarp.parse_toBytes _, Or.inl rfl, hx'⟩

/-- A question put outside a move-check. -/
theorem ask_outcome {ours x : Addr} {i : In} {link : Ask} {owed : Owed}
    (hi : x.node = m → i.Owes x owed)
    (hput : x.node = m → m ≠ 0 → m ≠ 255 → b.pending.get? m = none →
      owed.Put x (b.ask m link owed none now).2) :
    Outcome ours x i now (b.slot x.node) ((b.ask m link owed none now).1.slot x.node)
      (b.ask m link owed none now).2 := by
  have hquiet := quiet_of_asking (ask_asking b m now link owed none) x
  rw [slot_ask]
  split_ifs with h
  · unfold Slot.asked
    split_ifs with hs
    · exact .quiet hquiet
    · have hs := Option.not_isSome_iff_eq_none.1 hs
      refine .asked owed (h.1 ▸ h.2) hs (hi h.1) (hput h.1 h.2.1 h.2.2 ?_) hquiet
      rw [← h.1]
      exact hs
  · exact .quiet hquiet

/-- A side's answer pays what was owed. -/
theorem settle_outcome {ours x : Addr} {i : In} {side : Side}
    (hi : x.node = m → i.Answers x side) :
    Outcome ours x i now (b.slot x.node) ((b.settle m side).1.slot x.node) (b.settle m side).2 := by
  unfold settle
  cases hq : b.pending.get? m with
  | none => exact .quiet (.nil x)
  | some q =>
    dsimp only
    cases hm : q.movedTo with
    | some side' => exact .quiet (.nil x)
    | none =>
      rw [if_neg (by simp)]
      have hslot : x.node ≠ m → ({ b with pending := b.pending.erase m } : Bridge).slot x.node =
          b.slot x.node := fun h => by simp [slot, SortedMap.get?_erase, h]
      have hpaid : x.node = m → ({ b with pending := b.pending.erase m } : Bridge).slot x.node =
          { b.slot x.node with pending := none } := fun h => by simp [slot, h]
      cases ho : q.owed with
      | nothing => exact .quiet (.nil x)
      | localAck =>
        cases side with
        | «local» => exact .quiet (.nil x)
        | ether mac =>
          dsimp only
          by_cases h : x.node = m
          · rw [hpaid h]
            refine .acked q (by simpa [h] using hq) hm ho (hi h) ?_ ?_
            · simp [h]
            · simp [Action.Names]
          · rw [hslot h]
            exact .quiet (quiet_toLocal (Or.inr (Ne.symm h)))
      | etherResponse «to» toMac =>
        cases side with
        | ether mac => exact .quiet (.nil x)
        | «local» =>
          dsimp only
          by_cases h : x.node = m
          · rw [hpaid h]
            refine .proxied q «to» toMac (by simpa [h] using hq) hm ho (hi h) ?_
            split_ifs with hl
            · simp
            · rw [List.forall_mem_singleton]
              refine ⟨by simp [Action.Acks], fun _ => ?_⟩
              rw [not_and_or, Option.not_isSome_iff_eq_none, not_not, ← h] at hl
              exact hl
          · rw [hslot h]
            refine .quiet ?_
            split_ifs
            · exact .nil x
            · exact quiet_aarp (Or.inr fun he => h (by rw [← he]; rfl))

/-! ### Frames from Ethernet -/

theorem cross_quiet (x : Addr) (payload : Bytes) (d : Ddp) : Quiet x (cross payload d) := by
  unfold cross
  split_ifs
  · exact .nil x
  · exact quiet_toLocal (Or.inl (show LLAP_LONG_DDP ≠ LLAP_ACK by decide))

theorem etherDst_outcome (ours x : Addr) (i : In) (p : Packet) (d : Ddp) :
    Outcome ours x i now (b.slot x.node) ((b.etherDst p d now).1.slot x.node)
      (b.etherDst p d now).2 := by
  have hcross := cross_quiet x p.frame.payload d
  unfold etherDst
  by_cases h1 : d.dst.net = b.addr.net ∧ d.dst.node = b.addr.node
  · rw [if_pos h1]
    exact .quiet (.nil x)
  rw [if_neg h1]
  by_cases h2 : d.dst.net ≠ b.addr.net ∧ d.dst.node ≠ 255
  · rw [if_pos h2]
    exact .quiet (.nil x)
  rw [if_neg h2]
  by_cases h3 : d.dst.node = 255
  · rw [if_pos h3]
    exact .quiet hcross
  rw [if_neg h3]
  cases b.live d.dst.node with
  | some side =>
    cases side with
    | ether mac => exact .quiet (.nil x)
    | «local» => exact .quiet hcross
  | none =>
    dsimp only
    by_cases h4 : (b.nodes.get? d.dst.node).isSome
    · rw [if_pos h4]
      exact .quiet (.nil x)
    · rw [if_neg h4]
      refine Outcome.prepend ?_ hcross
      exact ask_outcome (i := i) b _ now (fun _ => trivial) fun _ _ _ _ => trivial

/-- A claimed node answers no Response. -/
theorem op_of_answerTo {a : Aarp} {ours : Addr} {mac dst : MacAddr} {probing : Bool}
    (h : aarpAction a ours mac probing = .answerTo dst) : a.op ≠ 2 := by
  intro ho
  unfold aarpAction at h
  simp only [ho, true_and, show (2 : UInt16) ≠ 3 by decide, show (2 : UInt16) ≠ 1 by decide,
    false_and, if_false] at h
  split_ifs at h

theorem etherAarp_outcome {i : In} {a : Aarp} (hi : i.aarp = some a) :
    Outcome b.addr ⟨b.addr.net, n⟩ i now
      ((if a.op = 2 ∧ a.src.net = b.addr.net then
        (b.confirm a.src.node (.ether a.srcHw) now).1 else b).slot n)
      ((b.etherAarp a now).1.slot n) (b.etherAarp a now).2 := by
  have hresponse : ∀ «to» m, n ≠ m → Quiet ⟨b.addr.net, n⟩ [.toEther (frame b.mac «to» AARP
      (aarpResponse ⟨b.addr.net, m⟩ b.mac a.src «to»).toBytes)] := fun «to» m hm =>
    quiet_aarp (Or.inr fun he => hm (congrArg Addr.node he).symm)
  unfold etherAarp
  cases hact : aarpAction a b.addr b.mac false
  case answerTo dst =>
    rw [if_neg fun h => op_of_answerTo hact h.1]
    by_cases hn : n = b.addr.node
    · exact .defended (by rw [hn])
    · exact .quiet (hresponse dst b.addr.node hn)
  case conflict | ignore =>
    dsimp only
    by_cases h2 : a.op = 2
    · simp only [if_pos h2]
      by_cases hnet : a.src.net = b.addr.net
      · rw [if_neg (not_not.2 hnet), if_pos ⟨h2, hnet⟩]
        have hresp : n = a.src.node → i.Answers ⟨b.addr.net, n⟩ (.ether a.srcHw) := fun hnode =>
          ⟨a, hi, h2, by rw [← hnet, hnode]⟩
        exact (settle_outcome _ a.src.node now hresp).prepend
          (quiet_of_asking (confirm_asking b a.src.node now _) _)
      · rw [if_pos hnet, if_neg fun h => hnet h.2]
        exact .quiet (.nil _)
    rw [if_neg fun h => h2 h.1, if_neg h2]
    by_cases hreq : (a.op = 1 ∨ a.op = 3) ∧ a.dst.net = b.addr.net ∧ a.dst.node ≠ b.addr.node
    · rw [if_pos hreq]
      obtain ⟨hop, hnet, -⟩ := hreq
      have hasked : Outcome b.addr ⟨b.addr.net, n⟩ i now (b.slot n)
          ((b.ask a.dst.node Ask.local (.etherResponse a.src a.srcHw) none now).1.slot n)
          (b.ask a.dst.node Ask.local (.etherResponse a.src a.srcHw) none now).2 := by
        refine ask_outcome (x := ⟨b.addr.net, n⟩) b a.dst.node now ?_ ?_
        · intro hnode
          have hdst : a.dst = ⟨b.addr.net, n⟩ := by rw [← hnet, show n = a.dst.node from hnode]
          exact hop.imp (fun h => ⟨a, hi, h, hdst⟩) fun h => ⟨a, hi, h, hdst⟩
        · intro hnode
          rw [← hnode]
          exact fun h0 h255 hp =>
            ask_asks b now (x := ⟨b.addr.net, n⟩) rfl h0 h255 hp Side.local _ _
      cases hl : b.live a.dst.node with
      | none => exact hasked
      | some side =>
        cases side with
        | ether mac => exact .quiet (.nil _)
        | «local» =>
          dsimp only
          by_cases h1 : a.op = 1
          · rw [if_pos h1]
            by_cases hnode : n = a.dst.node
            · subst hnode
              refine .cached ⟨a, hi, h1, by rw [← hnet]⟩ hl ?_
              simp [Action.Acks]
            · exact .quiet (hresponse a.srcHw a.dst.node hnode)
          · rw [if_neg h1]
            exact hasked
    · rw [if_neg hreq]
      exact .quiet (.nil _)

theorem etherDdp_outcome (ours x : Addr) (i : In) (p : Packet) (d : Ddp) :
    Outcome ours x i now
      ((if d.src.net = b.addr.net then
        (b.confirm d.src.node (.ether p.frame.src) now).1 else b).slot x.node)
      ((b.etherDdp p d now).1.slot x.node) (b.etherDdp p d now).2 := by
  unfold etherDdp
  by_cases hnet : d.src.net = b.addr.net
  · simp only [if_pos hnet]
    have hquiet := quiet_of_asking (confirm_asking b d.src.node now (.ether p.frame.src)) x
    by_cases hd : (b.confirm d.src.node (.ether p.frame.src) now).1.doubts d.src.node
    · rw [if_pos hd]
      exact .quiet hquiet
    · rw [if_neg hd]
      exact (etherDst_outcome _ now ours x i p d).prepend hquiet
  · simp only [if_neg hnet]
    exact etherDst_outcome { b with amt := amtInsert b.amt d.src p.frame.src } now ours x i p d

theorem onEther_outcome (p : Packet) :
    Outcome b.addr ⟨b.addr.net, n⟩ (.ether p) now ((b.record (.ether p) now).1.slot n)
      ((b.onEther p now).1.slot n) (b.onEther p now).2 := by
  unfold onEther record sighting
  dsimp only
  by_cases hsrc : p.frame.src = b.mac
  · rw [if_pos hsrc, if_pos (Or.inl hsrc)]
    exact .quiet (.nil _)
  by_cases hsnap : p.frame.snap = false
  · rw [if_neg hsrc, if_pos (Or.inr hsnap), if_pos (by simp [hsnap])]
    exact .quiet (.nil _)
  rw [if_neg hsrc, if_neg (not_or.2 ⟨hsrc, hsnap⟩), if_neg (by simpa using hsnap)]
  cases hb : p.body with
  | unknown => exact .quiet (.nil _)
  | aarp a =>
    have h := etherAarp_outcome (i := .ether p) b n now (a := a) (by simp [In.aarp, hb])
    dsimp only
    split_ifs at h ⊢ <;> exact h
  | ddp d body =>
    have h := etherDdp_outcome b now b.addr ⟨b.addr.net, n⟩ (.ether p) p d
    dsimp only at h ⊢
    split_ifs at h ⊢ <;> exact h

/-! ### Frames from LocalTalk -/

theorem localDdp_outcome (ours x : Addr) (i : In) (l : Llap) :
    Outcome ours x i now ((b.confirm l.src Side.local now).1.slot x.node)
      ((b.localDdp l now).1.slot x.node) (b.localDdp l now).2 := by
  have hquiet := quiet_of_asking (confirm_asking b l.src now Side.local) x
  unfold localDdp
  dsimp only
  generalize b.confirm l.src Side.local now = r at hquiet ⊢
  by_cases hd : r.1.doubts l.src
  · rw [if_pos hd]
    exact .quiet hquiet
  rw [if_neg hd]
  cases r.1.extendedOf l with
  | none => exact .quiet hquiet
  | some d =>
    refine .quiet (hquiet.append ?_)
    cases r.1.localDst l d.1 with
    | none => exact .nil x
    | some m => exact quiet_datagram x _ _ _

theorem onLocal_outcome (l : Llap) :
    Outcome b.addr ⟨b.addr.net, n⟩ (In.local l) now ((b.record (In.local l) now).1.slot n)
      ((b.onLocal l now).1.slot n) (b.onLocal l now).2 := by
  unfold onLocal record sighting
  dsimp only
  by_cases hddp : l.typ = LLAP_SHORT_DDP ∨ l.typ = LLAP_LONG_DDP
  · rw [if_pos hddp, if_pos (by tauto)]
    exact localDdp_outcome b now b.addr ⟨b.addr.net, n⟩ (In.local l) l
  rw [if_neg hddp]
  by_cases henq : l.typ = LLAP_ENQ
  · rw [if_pos henq, if_neg (by rw [henq]; decide)]
    by_cases hown : l.dst = b.addr.node
    · rw [if_pos hown]
      by_cases hn : n = b.addr.node
      · exact .defended (by rw [hn])
      · exact .quiet (quiet_toLocal (Or.inr fun h => hn (hown ▸ h).symm))
    · rw [if_neg hown]
      refine ask_outcome (x := ⟨b.addr.net, n⟩) b l.dst now (fun h => ⟨henq, h.symm⟩) ?_
      intro hnode
      rw [← hnode]
      exact fun h0 h255 hp =>
        ask_asks b now (x := ⟨b.addr.net, n⟩) rfl h0 h255 hp (.ether MacAddr.zero) _ _
  rw [if_neg henq]
  by_cases hack : l.typ = LLAP_ACK
  · rw [if_pos hack, if_pos (by tauto)]
    have hi : n = l.src → (In.local l).Answers ⟨b.addr.net, n⟩ Side.local := fun h => ⟨hack, h.symm⟩
    exact (settle_outcome _ l.src now hi).prepend
      (quiet_of_asking (confirm_asking b l.src now _) _)
  · rw [if_neg hack, if_neg (by tauto)]
    exact .quiet (.nil _)

/-! ### One step -/

/-- The bridge's own address and MAC, which no step changes. -/
def Same (b c : Bridge) : Prop := c.addr = b.addr ∧ c.mac = b.mac

theorem Same.trans {b c d : Bridge} (h : b.Same c) (h' : c.Same d) : b.Same d :=
  ⟨h'.1.trans h.1, h'.2.trans h.2⟩

theorem ask_same (link : Ask) (owed : Owed) (movedTo : Option Side) :
    b.Same (b.ask m link owed movedTo now).1 :=
  ⟨(ask_fixed b m now link owed movedTo).1, (ask_fixed b m now link owed movedTo).2.1⟩

theorem etherDst_same (p : Packet) (d : Ddp) : b.Same (b.etherDst p d now).1 := by
  unfold etherDst
  split_ifs
  · exact ⟨rfl, rfl⟩
  · exact ⟨rfl, rfl⟩
  · exact ⟨rfl, rfl⟩
  · cases b.live d.dst.node with
    | some side => cases side <;> exact ⟨rfl, rfl⟩
    | none => exact ⟨rfl, rfl⟩
  · cases b.live d.dst.node with
    | some side => cases side <;> exact ⟨rfl, rfl⟩
    | none => exact ask_same b _ now _ _ _

theorem etherDdp_same (p : Packet) (d : Ddp) : b.Same (b.etherDdp p d now).1 := by
  have hconfirm : b.Same (b.confirm d.src.node (.ether p.frame.src) now).1 :=
    confirm_fixed b d.src.node now (.ether p.frame.src)
  unfold etherDdp
  split_ifs
  · dsimp only
    split_ifs
    · exact hconfirm
    · exact hconfirm.trans (etherDst_same _ now p d)
  · exact etherDst_same { b with amt := amtInsert b.amt d.src p.frame.src } now p d

theorem etherAarp_same (a : Aarp) : b.Same (b.etherAarp a now).1 := by
  unfold etherAarp
  cases aarpAction a b.addr b.mac false
  case answerTo dst => exact ⟨rfl, rfl⟩
  case conflict | ignore =>
    dsimp only
    by_cases h2 : a.op = 2
    · rw [if_pos h2]
      split_ifs
      · exact ⟨rfl, rfl⟩
      · exact Same.trans (confirm_fixed b a.src.node now (.ether a.srcHw))
          (settle_fixed _ a.src.node (.ether a.srcHw))
    rw [if_neg h2]
    by_cases h : (a.op = 1 ∨ a.op = 3) ∧ a.dst.net = b.addr.net ∧ a.dst.node ≠ b.addr.node
    · rw [if_pos h]
      cases b.live a.dst.node with
      | none => exact ask_same b _ now _ _ _
      | some side =>
        cases side with
        | ether mac => exact ⟨rfl, rfl⟩
        | «local» =>
          dsimp only
          split_ifs
          · exact ⟨rfl, rfl⟩
          · exact ask_same b _ now _ _ _
    · rw [if_neg h]
      exact ⟨rfl, rfl⟩

theorem onEther_same (p : Packet) : b.Same (b.onEther p now).1 := by
  unfold onEther
  by_cases h1 : p.frame.src = b.mac
  · rw [if_pos h1]
    exact ⟨rfl, rfl⟩
  rw [if_neg h1]
  by_cases h2 : (!p.frame.snap) = true
  · rw [if_pos h2]
    exact ⟨rfl, rfl⟩
  rw [if_neg h2]
  cases p.body with
  | aarp a => exact etherAarp_same b now a
  | ddp d body => exact etherDdp_same b now p d
  | unknown => exact ⟨rfl, rfl⟩

theorem onLocal_same (l : Llap) : b.Same (b.onLocal l now).1 := by
  have hconfirm : b.Same (b.confirm l.src Side.local now).1 := confirm_fixed b l.src now Side.local
  unfold onLocal
  split_ifs
  · unfold localDdp
    dsimp only
    generalize b.confirm l.src Side.local now = r at hconfirm ⊢
    split_ifs
    · exact hconfirm
    · cases r.1.extendedOf l <;> exact hconfirm
  · exact ⟨rfl, rfl⟩
  · exact ask_same b _ now _ _ _
  · exact hconfirm.trans (settle_fixed _ l.src Side.local)
  · exact ⟨rfl, rfl⟩

theorem step_same (i : In) : b.Same (b.step i now).1 := by
  have hexp : b.Same (b.expire now).1 := expire_fixed b now
  unfold step
  cases i with
  | tick => exact hexp
  | ether p => exact hexp.trans (onEther_same _ now p)
  | «local» l => exact hexp.trans (onLocal_same _ now l)

theorem heard_congr {b c : Bridge} (ha : c.addr = b.addr) (hm : c.mac = b.mac) (i : In)
    (n : UInt8) : c.heard i n = b.heard i n := by
  have hreal : c.Real n ↔ b.Real n := by simp only [Real, ha]
  simp only [heard, sighting_congr ha hm, hreal]

/-- **What the recorded sighting leaves of a slot.** -/
theorem slot_recorded (i : In) :
    (b.recorded i now).slot n =
      match b.heard i n with
      | none => (b.slot n).expired now
      | some side => ((b.slot n).expired now).sighted side now := by
  obtain ⟨ha, hm⟩ := expire_fixed b now
  rw [recorded, slot_record, slot_expire, heard_congr ha hm]

/-- A question in flight once the sighting is recorded was in flight before and is not due, or is
the move-check the sighting raises. -/
theorem recorded_pending {i : In} {q : Pending}
    (hq : ((b.recorded i now).slot n).pending = some q) :
    (b.slot n).pending = some q ∧ since now q.asked < QUERY_TIMEOUT ∨
      ∃ side, b.heard i n = some side ∧ q = ⟨now, .nothing, some side⟩ := by
  rw [slot_recorded] at hq
  cases hh : b.heard i n with
  | none =>
    rw [hh] at hq
    obtain ⟨hp, hdue, -⟩ := Slot.expired_pending hq
    exact Or.inl ⟨hp, hdue⟩
  | some side =>
    rw [hh] at hq
    rcases Slot.sighted_pending hq with hq | hq
    · obtain ⟨hp, hdue, -⟩ := Slot.expired_pending hq
      exact Or.inl ⟨hp, hdue⟩
    · exact Or.inr ⟨side, rfl, hq⟩

/-- **What one step does about a node.** -/
theorem step_outcome (i : In) :
    Outcome b.addr ⟨b.addr.net, n⟩ i now ((b.recorded i now).slot n) ((b.step i now).1.slot n)
      (b.step i now).2 := by
  have hpre := quiet_of_asking (expire_asking b now) ⟨b.addr.net, n⟩
  obtain ⟨ha, -⟩ := expire_fixed b now
  unfold step recorded
  dsimp only
  generalize b.expire now = r at hpre ha ⊢
  rw [← ha] at hpre ⊢
  cases i with
  | tick => exact .quiet (by simpa using hpre)
  | ether p => exact (onEther_outcome r.1 n now p).prepend hpre
  | «local» l => exact (onLocal_outcome r.1 n now l).prepend hpre

/-! ### The question of a move-check -/

theorem onEther_sends_record (p : Packet) {a : Action}
    (h : a ∈ (b.record (.ether p) now).2) : a ∈ (b.onEther p now).2 := by
  unfold record sighting at h
  unfold onEther
  dsimp only at h
  by_cases hsrc : p.frame.src = b.mac
  · rw [if_pos (Or.inl hsrc)] at h
    cases h
  by_cases hsnap : p.frame.snap = false
  · rw [if_pos (Or.inr hsnap)] at h
    cases h
  rw [if_neg (not_or.2 ⟨hsrc, hsnap⟩)] at h
  rw [if_neg hsrc, if_neg (by simpa using hsnap)]
  cases hb : p.body with
  | unknown =>
    rw [hb] at h
    cases h
  | aarp x =>
    rw [hb] at h
    dsimp only at h ⊢
    by_cases hx : x.op = 2 ∧ x.src.net = b.addr.net
    · rw [if_pos hx] at h
      unfold etherAarp
      cases hact : aarpAction x b.addr b.mac false
      case answerTo dst => exact absurd hx.1 (op_of_answerTo hact)
      case conflict | ignore =>
        dsimp only
        rw [if_pos hx.1, if_neg (not_not.2 hx.2)]
        exact List.mem_append_left _ h
    · rw [if_neg hx] at h
      cases h
  | ddp d body =>
    rw [hb] at h
    dsimp only at h ⊢
    by_cases hx : d.src.net = b.addr.net
    · rw [if_pos hx] at h
      unfold etherDdp
      rw [if_pos hx]
      dsimp only at h ⊢
      split_ifs
      · exact h
      · exact List.mem_append_left _ h
    · rw [if_neg hx] at h
      cases h

theorem onLocal_sends_record (l : Llap) {a : Action}
    (h : a ∈ (b.record (In.local l) now).2) : a ∈ (b.onLocal l now).2 := by
  unfold record sighting at h
  unfold onLocal
  dsimp only at h
  by_cases hddp : l.typ = LLAP_SHORT_DDP ∨ l.typ = LLAP_LONG_DDP
  · rw [if_pos (by tauto)] at h
    rw [if_pos hddp]
    unfold localDdp
    dsimp only at h ⊢
    generalize b.confirm l.src Side.local now = r at h ⊢
    by_cases hd : r.1.doubts l.src
    · rwa [if_pos hd]
    · rw [if_neg hd]
      cases r.1.extendedOf l with
      | none => exact h
      | some d => exact List.mem_append_left _ h
  by_cases hack : l.typ = LLAP_ACK
  · rw [if_pos (by tauto)] at h
    rw [if_neg hddp, if_neg (by rw [hack]; decide), if_pos hack]
    exact List.mem_append_left _ h
  · rw [if_neg (by tauto)] at h
    cases h

/-- What recording a sighting sends, the step sends. -/
theorem step_sends_record (i : In) {a : Action} (h : a ∈ ((b.expire now).1.record i now).2) :
    a ∈ (b.step i now).2 := by
  unfold step
  refine List.mem_append_right _ ?_
  cases i with
  | tick => cases h
  | ether p => exact onEther_sends_record _ now p h
  | «local» l => exact onLocal_sends_record _ now l h

/-- **A contradiction is put to the side we believed.** -/
theorem step_asks {i : In} {side : Side} (hh : b.heard i n = some side) {e : Entry}
    (he : ((b.slot n).expired now).entry = some e) (hside : e.side.sameAs side = false)
    (hd : e.doubted = false) : ∃ a ∈ (b.step i now).2, a.Asks ⟨b.addr.net, n⟩ e.side := by
  obtain ⟨ha, hm⟩ := expire_fixed b now
  rw [← slot_expire] at he
  rw [← heard_congr ha hm] at hh
  obtain ⟨hs, hreal⟩ := heard_eq_some_iff.1 hh
  have hask := ask_asks
    ({ (b.expire now).1 with
        nodes := (b.expire now).1.nodes.insert n ⟨e.side, now, true⟩
        pending := (b.expire now).1.pending.erase n })
    now (x := ⟨b.addr.net, n⟩) (by rw [← ha]) hreal.1 hreal.2.1 (by simp) e.side
      .nothing (some side)
  obtain ⟨a, hmem, hasks⟩ := hask
  refine ⟨a, step_sends_record b now i ?_, hasks⟩
  rw [slot_entry] at he
  unfold record
  rw [hs]
  dsimp only
  unfold confirm
  rw [if_neg (by simpa [Real, not_or] using hreal), he]
  simpa [hside, hd] using hmem

namespace Run

theorem same_state (r : Run) (k : ℕ) : (r.state 0).Same (r.state k) := by
  induction k with
  | zero => exact ⟨rfl, rfl⟩
  | succ k ih => exact ih.trans (step_same (r.state k) (r.time k) (r.input k))

theorem addr_state (r : Run) (k : ℕ) : (r.state k).addr = r.addr := (r.same_state k).1

theorem mac_state (r : Run) (k : ℕ) : (r.state k).mac = r.mac := (r.same_state k).2

theorem real_state (r : Run) (k : ℕ) (n : UInt8) :
    (r.state k).Real n ↔ n ≠ 0 ∧ n ≠ 255 ∧ n ≠ r.addr.node := by
  rw [Real, addr_state]

/-- What a run knows of a node once the step has recorded the sighting of its frame's source. -/
def seen (r : Run) (k : ℕ) (n : UInt8) : Slot :=
  ((r.state k).recorded (r.input k) (r.time k)).slot n

/-- **What one step of a run does about a node.** -/
theorem outcome (r : Run) (k : ℕ) (n : UInt8) :
    Outcome r.addr ⟨r.addr.net, n⟩ (r.input k) (r.time k) (r.seen k n) ((r.state (k + 1)).slot n)
      (r.sent k) := by
  have h := step_outcome (r.state k) n (r.time k) (r.input k)
  rw [addr_state] at h
  exact h

end Run

end Bridge

end AppleTalk
