import AppleTalk.Router.Entries

/-!
# What a peer is sent

The packets of one kind among the actions of a step, as they read back at the other end, and who
an entry sends to: its own address and nobody else.
-/

namespace AppleTalk

/-! ### The packets of one kind -/

/-- A command as it reads back at the other end. -/
def Cmd.wire (cmd : Cmd) : Option Cmd := Cmd.parse cmd.code cmd.flags cmd.encodeBody

/-- The packets whose commands are of one kind, in order. -/
def sentOf (k : UInt16 → Bool) (ip : Ipv4Addr) (acts : List Action) :
    List (UInt16 × UInt16 × Cmd) :=
  (sentTo ip acts).filter fun x => k x.2.2.code

/-- What packets of one kind read back as at the other end. -/
def onWire (k : UInt16 → Bool) (l : List (UInt16 × UInt16 × Cmd)) :
    List (UInt16 × UInt16 × Cmd) :=
  l.filterMap fun x => if k x.2.2.code then x.2.2.wire.map fun cmd => (x.1, x.2.1, cmd) else none

section Sent

variable {k : UInt16 → Bool} {ip : Ipv4Addr}

@[simp] theorem sentOf_nil : sentOf k ip [] = [] := rfl

@[simp] theorem sentOf_append (a b : List Action) :
    sentOf k ip (a ++ b) = sentOf k ip a ++ sentOf k ip b := by
  simp [sentOf]

theorem sentOf_cons (a : Action) (b : List Action) :
    sentOf k ip (a :: b) = sentOf k ip [a] ++ sentOf k ip b := sentOf_append [a] b

@[simp] theorem onWire_nil : onWire k [] = [] := rfl

@[simp] theorem onWire_append (a b : List (UInt16 × UInt16 × Cmd)) :
    onWire k (a ++ b) = onWire k a ++ onWire k b := List.filterMap_append

theorem onWire_other {conn seq : UInt16} {cmd : Cmd} (h : k cmd.code = false) :
    onWire k [(conn, seq, cmd)] = [] := by
  simp [onWire, h]

theorem onWire_one {conn seq : UInt16} {cmd cmd' : Cmd} (h : k cmd.code = true)
    (hw : cmd.wire = some cmd') : onWire k [(conn, seq, cmd)] = [(conn, seq, cmd')] := by
  simp [onWire, h, hw]

/-- A routing packet is read back as what its command reads back as. -/
theorem sentOf_routing (dh : DomainHeader) (conn seq : UInt16) (cmd : Cmd) :
    sentOf k ip [.toPeer ip (Aurp.routing dh conn seq cmd).toBytes] =
      onWire k [(conn, seq, cmd)] := by
  have hp := Aurp.parse_routing dh conn seq cmd
  cases hw : Cmd.parse cmd.code cmd.flags cmd.encodeBody with
  | none => simp [sentOf, sentTo, routingOf, onWire, Cmd.wire, hp, hw]
  | some cmd' =>
    rw [hw] at hp
    have hc := Cmd.code_of_parse hw
    cases hk : k cmd.code <;>
      simp [sentOf, sentTo, routingOf, onWire, Cmd.wire, hp, hw, hc, hk]

theorem sentOf_send (p : Peer) (conn seq : UInt16) (cmd : Cmd) :
    sentOf k p.addr [p.send conn seq cmd] = onWire k [(conn, seq, cmd)] :=
  sentOf_routing _ conn seq cmd

theorem sentOf_sends (p : Peer) (conn seq : UInt16) (cmds : List Cmd) :
    sentOf k p.addr (cmds.map (p.send conn seq)) =
      onWire k (cmds.map fun cmd => (conn, seq, cmd)) := by
  induction cmds with
  | nil => rfl
  | cons cmd cmds ih =>
    rw [List.map_cons, sentOf_cons, ih, sentOf_send, ← onWire_append]
    rfl

@[simp] theorem sentOf_log (m : String) : sentOf k ip [.log m] = [] := rfl

end Sent

/-- Every action is a packet to one peer, or a log line. -/
def ToOnly (ip : Ipv4Addr) (acts : List Action) : Prop :=
  ∀ a ∈ acts, (∃ m, a = .log m) ∨ ∃ b, a = .toPeer ip b

section ToOnly

variable {ip : Ipv4Addr}

@[simp] theorem toOnly_nil : ToOnly ip [] := by simp [ToOnly]

@[simp] theorem toOnly_append {a b : List Action} :
    ToOnly ip (a ++ b) ↔ ToOnly ip a ∧ ToOnly ip b := by
  simp only [ToOnly, List.forall_mem_append]

@[simp] theorem toOnly_toPeer_cons {q : Ipv4Addr} {bytes : Bytes} {l : List Action} :
    ToOnly ip (.toPeer q bytes :: l) ↔ q = ip ∧ ToOnly ip l := by
  simp [ToOnly]

@[simp] theorem toOnly_log_cons {m : String} {l : List Action} :
    ToOnly ip (.log m :: l) ↔ ToOnly ip l := by
  simp [ToOnly]

@[simp] theorem toOnly_send_cons {p : Peer} {conn seq : UInt16} {cmd : Cmd} {l : List Action} :
    ToOnly ip (p.send conn seq cmd :: l) ↔ p.addr = ip ∧ ToOnly ip l := toOnly_toPeer_cons

theorem toOnly_sends (p : Peer) (conn seq : UInt16) (cmds : List Cmd) :
    ToOnly p.addr (cmds.map (p.send conn seq)) := by
  induction cmds with
  | nil => exact toOnly_nil
  | cons cmd cmds ih => exact toOnly_send_cons.2 ⟨rfl, ih⟩

theorem ToOnly.sentTo_eq_nil {acts : List Action} (h : ToOnly ip acts) {ip' : Ipv4Addr}
    (hne : ip' ≠ ip) : sentTo ip' acts = [] := by
  refine AppleTalk.sentTo_eq_nil fun a ha => ?_
  rcases h a ha with ⟨m, rfl⟩ | ⟨b, rfl⟩
  · rfl
  · simp [routingOf, hne.symm]

end ToOnly

/-! ### Who an entry sends to -/

namespace Peer

theorem sendSequenced_toOnly (p : Peer) (cmd : Cmd) (nets : List UInt16) (now : Instant) :
    ToOnly p.addr (p.sendSequenced cmd nets now).2.acts := toOnly_toPeer_cons.2 ⟨rfl, toOnly_nil⟩

theorem openReq_toOnly (p : Peer) (conn version : UInt16) (options : List (UInt8 × Bytes))
    (now : Instant) : ToOnly p.addr (p.openReq conn version options now).2.acts := by
  unfold openReq
  dsimp only
  split_ifs <;> simp [openRsp, «open», sendSequenced]

theorem sendPage_toOnly (p : Peer) (now : Instant) : ToOnly p.addr (p.sendPage now).2.acts := by
  unfold sendPage
  split <;> simp [sendSequenced]

theorem zonesFor_toOnly (p : Peer) (szi : Bool) (nets : List UInt16) (tables : Tables) :
    ToOnly p.addr (p.zonesFor szi nets tables).acts := by
  unfold zonesFor
  dsimp only
  split_ifs
  · exact toOnly_sends p _ _ _
  · exact toOnly_nil

theorem riAck_toOnly (p : Peer) (seq : UInt16) (szi : Bool) (tables : Tables) (now : Instant) :
    ToOnly p.addr (p.riAck seq szi tables now).2.acts := by
  have h := p.riAck_acked seq szi tables now
  generalize p.riAck seq szi tables now = r at h ⊢
  cases h with
  | ignored => exact toOnly_nil
  | paged =>
    rw [Out.append_acts, toOnly_append]
    exact ⟨p.zonesFor_toOnly szi _ tables, sendPage_toOnly { p with outstanding := none } now⟩
  | _ => exact p.zonesFor_toOnly szi _ tables

theorem routing_toOnly (p : Peer) (conn seq : UInt16) (cmd : Cmd) (tables : Tables)
    (now : Instant) : ToOnly p.addr (p.routing conn seq cmd tables now).out.acts := by
  have hseq : ∀ last apply szi,
      ToOnly p.addr (p.sequenced conn seq last tables now apply szi).out.acts := by
    intro last apply szi
    unfold sequenced
    dsimp only
    split <;> simp
  unfold routing
  dsimp only
  cases cmd with
  | openReq => exact openReq_toOnly p _ _ _ now
  | riReq =>
    dsimp only
    split_ifs
    · exact sendPage_toOnly _ now
    · exact toOnly_nil
  | riAck =>
    dsimp only
    split_ifs
    · exact riAck_toOnly p seq _ tables now
    · exact toOnly_nil
  | riRsp =>
    dsimp only
    split_ifs
    · exact hseq _ _ _
    · exact toOnly_nil
  | riUpd =>
    dsimp only
    split_ifs
    · exact hseq _ _ _
    · exact toOnly_nil
  | gznRsp => exact toOnly_nil
  | gdzlRsp => exact toOnly_nil
  | openRsp | rd | ziRsp | tickleAck =>
    dsimp only
    split_ifs <;> simp
  | _ =>
    dsimp only
    split_ifs
    · exact toOnly_sends p conn 0 _
    · exact toOnly_nil

theorem timers_toOnly (p : Peer) (scan zi : Bool) (tables : Tables) (now : Instant) :
    ToOnly p.addr (p.timers scan zi tables now).out.acts := by
  have h1 : ToOnly p.addr (if scan then p.reconnect now else (p, .nil)).2.acts := by
    rcases p.scan_cases scan now with hscan | ⟨-, -, hscan⟩
    · rw [hscan]
      exact toOnly_nil
    · rw [hscan]
      simp [«open»]
  have h2 : ∀ q : Peer, q.addr = p.addr → ToOnly p.addr (q.receiverTimers tables now).out.acts := by
    intro q hq
    have h := q.receiverTimers_timed tables now
    generalize q.receiverTimers tables now = r at h ⊢
    cases h <;> simp [hq, quiet, retry, sendSequenced, closeReceiver]
  have h3 : ∀ q : Peer, q.addr = p.addr → ToOnly p.addr (q.senderTimers now).2.acts := by
    intro q hq
    have h := q.senderTimers_timed now
    generalize q.senderTimers now = r at h ⊢
    cases h with
    | updated _ _ _ _ hr => simp [hr, hq, sendSequenced]
    | _ => simp [hq]
  have h4 : ∀ (q : Peer) t, q.addr = p.addr →
      ToOnly p.addr (if zi then q.ziRerequest t else .nil).acts := by
    intro q t hq
    split_ifs
    · unfold ziRerequest
      dsimp only
      split_ifs
      · exact toOnly_nil
      · intro a ha
        obtain ⟨chunk, -, rfl⟩ := List.mem_map.1 ha
        exact Or.inr ⟨_, by rw [← hq]; rfl⟩
    · exact toOnly_nil
  have ha := p.scan_addr scan now
  have hb := (receiverTimers_addr _ tables now).trans ha
  have hc := (senderTimers_addr _ now).trans hb
  simp only [timers, report, Out.append_acts, toOnly_append]
  refine ⟨⟨⟨⟨⟨h1, h2 _ ha⟩, h3 _ hb⟩, h4 _ _ hc⟩, ?_⟩, ?_⟩
  · split_ifs <;> simp
  · split_ifs <;> simp

/-- What the operator's ping sends an entry. -/
def pingActs (p : Peer) : List Action :=
  if p.receiver = .connected ∨ p.receiver = .waitTickleAck then [p.send p.connLocal 0 .tickle]
  else []

end Peer

end AppleTalk
