import AppleTalk.Properties.Heard

/-!
# Receipts

What a data receiver acknowledges of the packets said to it is what it applied of them, as long as
none of them has the last sequence number.
-/

namespace AppleTalk

/-- What was said on the connections of a receiver, and what the receiver acknowledged and applied
of it. -/
structure Traffic where
  said : List (UInt16 × UInt16 × Cmd)
  acked : List (UInt16 × UInt16)
  applied : List (UInt16 × UInt16 × Cmd)

namespace Traffic

/-- A packet of this number was applied, or was an RD. -/
def Settled (t : Traffic) (conn seq : UInt16) : Prop :=
  (∃ cmd, (conn, seq, cmd) ∈ t.applied) ∨ ∃ cmd, (conn, seq, cmd) ∈ t.said ∧ cmd.code = 5

theorem Settled.mono {t t' : Traffic} {conn seq : UInt16} (h : t.Settled conn seq)
    (hsaid : ∀ x ∈ t.said, x ∈ t'.said) (happ : ∀ x ∈ t.applied, x ∈ t'.applied) :
    t'.Settled conn seq :=
  h.imp (fun ⟨cmd, hc⟩ => ⟨cmd, happ _ hc⟩) fun ⟨cmd, hc, hd⟩ => ⟨cmd, hsaid _ hc, hd⟩

/-- What was acknowledged is settled, and what was applied was said. -/
structure Sound (t : Traffic) : Prop where
  acked : ∀ x ∈ t.acked, t.Settled x.1 x.2
  applied : ∀ x ∈ t.applied, x ∈ t.said

end Traffic

namespace Receiving

/-- What comes before the expected packet of an open connection is settled. -/
def Follows (r : Receiving) (t : Traffic) : Prop :=
  r.isOpen → r.seq = 1 ∨ t.Settled r.conn (pred r.seq)

theorem pred_succ {n : UInt16} (h : n ≠ 0) : pred (succ n) = n := by
  unfold pred succ
  split_ifs <;> grind

/-- **One move of the receiver**, when what it takes was said and what it applies is recorded. -/
theorem Follows.move {t : Traffic} {pkt : Option (UInt16 × UInt16 × Cmd)} {r r' : Receiving}
    {opens : List UInt16} {acks : List (UInt16 × UInt16)} (h : r.Follows t)
    (hm : Move pkt r r' opens acks) (hsaid : ∀ x, pkt = some x → isData x.2.2.code → x ∈ t.said)
    (hlow : ∀ x ∈ t.said, x.2.1 ≠ 65535)
    (happ : ∀ cmd, r.isOpen → r.seq ≠ 0 → pkt = some (r.conn, r.seq, cmd) →
      cmd.code = 2 ∨ cmd.code = 4 → (r.conn, r.seq, cmd) ∈ t.applied) :
    r'.Follows t ∧ ∀ x ∈ acks, t.Settled x.1 x.2 := by
  cases hm with
  | keep | reopen => exact ⟨h, by simp⟩
  | tickle receiver hopen => exact ⟨fun _ => h hopen, by simp⟩
  | «open» => exact ⟨fun _ => Or.inl rfl, by simp⟩
  | opened => exact ⟨fun _ => Or.inl rfl, by simp⟩
  | close => exact ⟨fun _ => Or.inl rfl, by simp⟩
  | apply cmd receiver hopen hp hd h0 =>
    have hsettled : t.Settled r.conn r.seq := by
      have hdata : (cmd.code = 2 ∨ cmd.code = 4) ∨ cmd.code = 5 := by
        simpa [isData, or_assoc] using hd
      rcases hdata with hdata | hrd
      · exact Or.inl ⟨cmd, happ cmd hopen h0 hp hdata⟩
      · exact Or.inr ⟨cmd, hsaid _ hp hd, hrd⟩
    refine ⟨fun _ => Or.inr ?_, List.forall_mem_singleton.2 hsettled⟩
    rw [show pred (succ r.seq) = r.seq from pred_succ h0]
    exact hsettled
  | repeated cmd hopen hp hd =>
    refine ⟨h, List.forall_mem_singleton.2 ?_⟩
    rcases h hopen with h1 | hsettled
    · -- Only the last number comes before the first.
      have hlast : pred r.seq = 65535 := by
        rw [h1]
        decide
      exact absurd hlast (hlow _ (hsaid _ hp hd))
    · exact hsettled
  | down seq code hopen hp =>
    exact ⟨fun _ => Or.inl rfl,
      List.forall_mem_singleton.2 (Or.inr ⟨.rd code, hsaid _ hp rfl, rfl⟩)⟩

end Receiving

namespace Peer

/-- A packet is an RI-Rsp or an RI-Upd that is the next on the connection we opened: its tuples or
events are applied. -/
def applies (p : Peer) (conn seq : UInt16) (cmd : Cmd) : Bool :=
  p.onReceiver conn ∧ p.checkSeq seq = .new ∧ (cmd.code = 2 ∨ cmd.code = 4)

/-- The tables after the tuples or events of a packet. -/
def applied (p : Peer) (cmd : Cmd) (tables : Tables) (now : Instant) : Tables :=
  match cmd with
  | .riRsp _ tuples => (p.riRsp tuples tables now).1
  | .riUpd events => (p.riUpd events tables now).1
  | _ => tables

/-- An RI-Rsp or RI-Upd changes the tables when it is applied and not otherwise. -/
theorem routing_tables (p : Peer) (conn seq : UInt16) {cmd : Cmd} (hc : cmd.code = 2 ∨ cmd.code = 4)
    (tables : Tables) (now : Instant) : (p.routing conn seq cmd tables now).tables =
      if p.applies conn seq cmd then p.applied cmd tables now else tables := by
  have hseq : ∀ last apply szi, p.onReceiver conn = true →
      (p.sequenced conn seq last tables now apply szi).tables =
        if p.applies conn seq cmd then apply.1 else tables := by
    intro last apply szi hon
    have hsame : ({ p with lastHeard := now } : Peer).checkSeq seq = p.checkSeq seq := rfl
    unfold sequenced
    dsimp only
    rw [hsame]
    cases hk : p.checkSeq seq <;> simp [applies, hon, hk, hc]
  have hoff : p.onReceiver conn = false → p.applies conn seq cmd = false := fun hon => by
    simp [applies, hon]
  cases cmd with
  | riRsp last tuples =>
    unfold routing
    dsimp only
    cases hon : p.onReceiver conn with
    | true => exact hseq _ _ _ hon
    | false => simp [hoff hon]
  | riUpd events =>
    unfold routing
    dsimp only
    cases hon : p.onReceiver conn with
    | true => exact hseq _ _ _ hon
    | false => simp [hoff hon]
  | _ => simp [Cmd.code] at hc

end Peer

namespace Core

/-- The RI-Rsp or RI-Upd from an address that an input has us apply. -/
def applies (c : Core) (i : CoreIn × Instant) (ip : Ipv4Addr) : Option (UInt16 × UInt16 × Cmd) :=
  match c.entry ip, i.1.routing ip with
  | some p, some (conn, seq, cmd) => if p.applies conn seq cmd then some (conn, seq, cmd) else none
  | _, _ => none

/-- One input, with what it acknowledges and applies of what an address said. -/
def settle (ip : Ipv4Addr) (s : Core × Traffic) (i : CoreIn × Instant) : Core × Traffic :=
  (s.1.next i,
    { s.2 with
      acked := s.2.acked ++ (sentOf isAck ip (s.1.step i).2).map fun x => (x.1, x.2.1)
      applied := s.2.applied ++ (s.1.applies i ip).toList })

/-- The receiver of an address is in step with what was said to it. -/
structure Settling (ip : Ipv4Addr) (s : Core × Traffic) : Prop where
  regular : s.1.Regular
  follows : ∀ p, s.1.entry ip = some p → p.receiving.Follows s.2
  sound : s.2.Sound

variable {c : Core} {i : CoreIn × Instant} {ip : Ipv4Addr} {s : Core × Traffic}

theorem applies_eq_some {x : UInt16 × UInt16 × Cmd} (h : c.applies i ip = some x) :
    i.1.routing ip = some x ∧ isData x.2.2.code := by
  unfold applies at h
  split at h
  · rename_i p conn seq cmd _ hr
    split_ifs at h with ha
    obtain rfl := Option.some.inj h
    refine ⟨hr, ?_⟩
    obtain ⟨-, -, hc⟩ := of_decide_eq_true ha
    simp only [isData, decide_eq_true_eq]
    tauto
  · cases h

/-- **One input** keeps the receiver in step, when the sequenced packets it takes were said. -/
theorem Settling.next (h : Settling ip s) (hlow : ∀ x ∈ s.2.said, x.2.1 ≠ 65535)
    (hsaid : ∀ x, i.1.routing ip = some x → isData x.2.2.code → x ∈ s.2.said) :
    Settling ip (settle ip s i) := by
  obtain ⟨c, t⟩ := s
  obtain ⟨hreg, hfollows, hsound⟩ := h
  have hmono : ∀ {conn seq}, t.Settled conn seq → (settle ip (c, t) i).2.Settled conn seq :=
    fun hs => hs.mono (fun x hx => hx) fun x hx => List.mem_append_left _ hx
  have hentry : ∀ p, c.subject i ip = some p → p.receiving.Follows (settle ip (c, t) i).2 := by
    intro p hp hopen
    rcases subject_new hp with hp | ⟨-, configured, rfl⟩
    · exact (hfollows p hp hopen).imp_right hmono
    · exact absurd rfl hopen.1
  have hmove : ∀ {p p' sent opens acks}, c.subject i ip = some p →
      c.Moved i ip p p' sent opens acks → p'.receiving.Follows (settle ip (c, t) i).2 ∧
        ∀ x ∈ acks, (settle ip (c, t) i).2.Settled x.1 x.2 := by
    intro p p' sent opens acks hp hm
    refine (hentry p hp).move hm.receiving hsaid hlow fun cmd hopen h0 hr hcode => ?_
    have he : c.entry ip = some p := (subject_new hp).resolve_right fun hnew => by
      obtain ⟨-, configured, rfl⟩ := hnew
      exact hopen.1 rfl
    have happ : p.applies p.connLocal p.seqRecv cmd = true := by
      have hon : p.onReceiver p.connLocal = true := by
        simpa [Peer.onReceiver, Peer.receiverOpen, Receiving.isOpen, Peer.receiving] using hopen
      have hnew : p.checkSeq p.seqRecv = .new := by
        unfold Peer.checkSeq
        rw [if_neg (show p.seqRecv ≠ 0 from h0), if_pos rfl]
      simp [Peer.applies, hon, hnew, hcode]
    have hr' : i.1.routing ip = some (p.connLocal, p.seqRecv, cmd) := hr
    refine List.mem_append_right _ ?_
    unfold applies
    rw [he, hr']
    dsimp only
    rw [if_pos happ]
    exact List.mem_singleton_self _
  refine ⟨hreg.next i, fun q hq => ?_, ⟨?_, ?_⟩⟩
  · obtain ⟨p, p', sent, opens, acks, hp, -, hm, rfl⟩ := hreg.moved hq
    rw [p'.hear_receiving]
    exact (hmove hp hm).1
  · refine List.forall_mem_append.2 ⟨fun x hx => hmono (hsound.acked x hx), ?_⟩
    cases hs : c.subject i ip with
    | none =>
      rw [sentOf, (no_subject hreg.filed hs).2]
      simp
    | some p =>
      obtain ⟨p', sent, opens, acks, hm, -⟩ := exists_move hreg.filed hreg.ok hs
      rw [hm.acks]
      exact (hmove hs hm).2
  · refine List.forall_mem_append.2 ⟨hsound.applied, fun x hx => ?_⟩
    obtain ⟨hr, hd⟩ := applies_eq_some (Option.mem_toList.1 hx)
    exact hsaid x hr hd

end Core

end AppleTalk
