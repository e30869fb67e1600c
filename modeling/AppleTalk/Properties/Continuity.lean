import AppleTalk.Properties.Senders
import AppleTalk.Router.CoreMoves

/-!
# A connection that goes on

An input that leaves the connection an address opened in service accepts an Open-Req for it or goes
on with it: under the same ID, with the same numbering, and with the pages that wait.
-/

namespace AppleTalk

/-- The connection is open and not on its way down. -/
def Sender.Serving (s : Sender) : Prop := s ≠ .unconnected ∧ s ≠ .waitRdAck

instance (s : Sender) : Decidable s.Serving := inferInstanceAs (Decidable (_ ∧ _))

namespace Peer

/-- The connection the peer opened goes on: it was in service under the same ID, its numbering does
not start over from nothing, and the pages that waited are not dropped. -/
structure Continues (p q : Peer) : Prop where
  serving : p.sender.Serving
  conn : q.connRemote = p.connRemote
  seq : q.seqSend = 0 → p.seqSend = 0
  pages : q.sender = .connected → q.pages = [] → p.pages = []

/-- An Open-Req is accepted: it opens the connection, or opens the open one again. -/
structure Accepts (p q : Peer) (conn : UInt16) (cmd : Cmd) : Prop where
  cmd : ∃ sui, cmd = .openReq sui 1 []
  free : p.sender = .unconnected ∨ conn = p.connRemote
  sending : q.sending = { p.sending with
    sender := .connected, conn := conn, seq := 0, outstanding := none, pages := [] }

theorem continues_of_same {p q : Peer} (h : q.sending = p.sending) (hq : q.sender.Serving) :
    p.Continues q := by
  have hsender : q.sender = p.sender := congrArg Sending.sender h
  have hseq : q.seqSend = p.seqSend := congrArg Sending.seq h
  have hpages : q.pages = p.pages := congrArg Sending.pages h
  have hconn : q.connRemote = p.connRemote := congrArg Sending.conn h
  exact ⟨hsender ▸ hq, hconn, fun h0 => hseq ▸ h0, fun _ hp => hpages ▸ hp⟩

/-- A new sequenced packet goes on with the numbering. -/
theorem continues_of_sent {p q : Peer} (h : p.sender.Serving) (hc : q.connRemote = p.connRemote)
    (hs : q.seqSend ≠ 0) (hq : q.sender ≠ .connected) : p.Continues q where
  serving := h
  conn := hc
  seq h0 := absurd h0 hs
  pages hc := absurd hc hq

theorem continues_riAck {p : Peer} (h : p.sending.Coherent) (seq : UInt16) (szi : Bool)
    (tables : Tables) (now : Instant) (hq : (p.riAck seq szi tables now).1.sender.Serving) :
    p.Continues (p.riAck seq szi tables now).1 := by
  have hack := p.riAck_acked seq szi tables now
  generalize p.riAck seq szi tables now = r at hack hq ⊢
  cases hack with
  | ignored => exact continues_of_same rfl hq
  | paged ho hseq hs hp =>
    obtain ⟨tuples, rest, hp⟩ := List.exists_cons_of_ne_nil hp
    simp only [sendPage, hp]
    exact continues_of_sent (by simp [Sender.Serving, hs]) rfl (succ_ne_zero _) (by simp)
  | idle ho hseq hs =>
    rcases hs with ⟨hs, hp⟩ | hs
    · exact ⟨by simp [Sender.Serving, hs], rfl, id, fun _ _ => hp⟩
    · refine ⟨by simp [Sender.Serving, hs], rfl, id, fun _ _ => ?_⟩
      by_contra hp
      have hpaging : p.sender = .waitRiRspAck := h.paging hp
      rw [hs] at hpaging
      cases hpaging
  | closed => exact absurd rfl hq.1
  | unawaited ho hseq hs =>
    have hwaits : p.sender.Waits := h.waits.1 (by simp [sending, ho])
    rcases hs with hs | hs <;> simp [hs, Sender.Waits] at hwaits

theorem continues_openReq {p : Peer} (h : p.sending.Coherent) (conn sui version : UInt16)
    (options : List (UInt8 × Bytes)) (now : Instant)
    (hq : (p.openReq conn version options now).1.sender.Serving) :
    p.Accepts (p.openReq conn version options now).1 conn (.openReq sui version options) ∨
      p.Continues (p.openReq conn version options now).1 := by
  unfold openReq at hq ⊢
  dsimp only at hq ⊢
  split_ifs at hq ⊢ with h1 h2 h3 h4 h5
  · exact Or.inr (continues_of_same rfl hq)
  · exact Or.inr (continues_of_same rfl hq)
  · -- A probe goes out only with nothing outstanding.
    have ho : p.outstanding = none := by simpa using h4.2
    have hc : p.sender = .connected := h.connected h3.1 ho
    exact Or.inr (continues_of_sent (by simp [Sender.Serving, hc]) rfl (succ_ne_zero _) (by simp))
  · exact Or.inr (continues_of_same rfl hq)
  all_goals
    refine Or.inl ⟨⟨sui, by rw [not_not.1 h1, not_not.1 h2]⟩, ?_, rfl⟩
    by_contra hfree
    push Not at hfree
    exact h3 hfree

theorem continues_routing {p : Peer} (h : p.sending.Coherent) {conn seq : UInt16} {cmd : Cmd}
    {tables : Tables} {now : Instant}
    (hq : (p.routing conn seq cmd tables now).peer.sender.Serving) :
    p.Accepts (p.routing conn seq cmd tables now).peer conn cmd ∨
      p.Continues (p.routing conn seq cmd tables now).peer := by
  generalize hr : (p.routing conn seq cmd tables now).peer = q at hq
  have hrouted := p.routing_routed conn seq cmd tables now
  rw [hr] at hrouted
  cases hrouted with
  | same hsame => exact Or.inr (continues_of_same hsame.1 hq)
  | opened sui version options hcmd =>
    subst hcmd
    exact continues_openReq h conn sui version options now hq
  | asked htakes =>
    obtain ⟨tuples, rest, hx⟩ := exists_splitTuples tables.export
    have hserv : p.sender.Serving := by
      constructor <;> intro hs <;> simp [takesRiReq, hs] at htakes
    simp only [sendPage, hx]
    exact Or.inr (continues_of_sent hserv rfl (succ_ne_zero 0) (by simp))
  | acked szi => exact Or.inr (continues_riAck h seq szi tables now hq)
  | down => exact absurd rfl hq.1

/-- The sender's timers go on with a connection they leave in service. -/
theorem Continues.senderTimers {p q : Peer} (h : q.sender.Serving → p.Continues q) {now : Instant}
    (hq : (q.senderTimers now).1.sender.Serving) : p.Continues (q.senderTimers now).1 := by
  have htimed := q.senderTimers_timed now
  generalize q.senderTimers now = r at htimed hq ⊢
  cases htimed with
  | waiting | idle => exact h hq
  | spent => exact absurd rfl hq.1
  | again =>
    obtain ⟨hserv, hconn, hseq, hpages⟩ := h hq
    exact ⟨hserv, hconn, hseq, hpages⟩
  | updated ho hs hp hdue hr =>
    have hcont := h (by simp [Sender.Serving, hs])
    rw [hr]
    exact continues_of_sent hcont.serving hcont.conn (succ_ne_zero _) (by simp)

theorem continues_timed {p : Peer} {scan : Bool} {now : Instant}
    (hq : (p.timed scan now).sender.Serving) : p.Continues (p.timed scan now) := by
  refine Continues.senderTimers (fun hserv => ?_) hq
  have h1 := (p.scan_sameSender scan now).1
  generalize (if scan then p.reconnect now else (p, .nil)).1 = p1 at h1 hserv ⊢
  rcases p1.receiverTimers_sender .new now with hsame | ⟨hs, p', hsame, he⟩
  · exact continues_of_same (hsame.1.trans h1) hserv
  · -- The probe is a sequenced packet of a connection that was idle.
    have hsender : p.sender = .connected := (congrArg Sending.sender h1).symm.trans hs
    have hconn : p'.connRemote = p.connRemote := congrArg Sending.conn (hsame.1.trans h1)
    rw [he]
    exact continues_of_sent (by simp [Sender.Serving, hsender]) hconn (succ_ne_zero _) (by simp)

end Peer

namespace Core

variable {c : Core} {i : CoreIn × Instant} {ip : Ipv4Addr}

/-- **An input that leaves a connection in service** accepts an Open-Req for it or goes on with
it. -/
theorem accepts_or_continues {p q : Peer} (hp : c.subject i ip = some p)
    (h : p.sending.Coherent) (hq : c.entryStep i ip = some q) (hserv : q.sender.Serving) :
    (∃ conn seq cmd, i.1.routing ip = some (conn, seq, cmd) ∧ p.Accepts q conn cmd) ∨
      p.Continues q := by
  have hsame : q.sending = p.sending →
      (∃ conn seq cmd, i.1.routing ip = some (conn, seq, cmd) ∧ p.Accepts q conn cmd) ∨
        p.Continues q := fun hs => Or.inr (Peer.continues_of_same hs hserv)
  have hkept : c.entry ip = some p → c.entry ip = some q →
      (∃ conn seq cmd, i.1.routing ip = some (conn, seq, cmd) ∧ p.Accepts q conn cmd) ∨
        p.Continues q := fun hp hq => hsame (by rw [Option.some.inj (hp.symm.trans hq)])
  obtain ⟨i, now⟩ := i
  unfold subject at hp
  unfold entryStep at hq
  cases i with
  | batch ops => exact hkept hp hq
  | packet «from» bytes =>
    dsimp only at hp hq
    by_cases hip : «from» = ip
    swap
    · rw [if_neg hip] at hq
      exact hkept (by simpa [hip] using hp) hq
    subst hip
    cases hb : Aurp.parse bytes with
    | none =>
      rw [if_pos rfl, hb] at hq
      exact hkept (by simpa [hb] using hp) hq
    | some pkt =>
      have hrec : c.recipient «from» now = some p := by simpa [hb] using hp
      rw [if_pos rfl, hb, hrec] at hq
      obtain rfl := Option.some.inj hq
      cases pkt with
      | data dh ddp => exact hsame rfl
      | routing dh conn seq cmd =>
        refine (Peer.continues_routing (p := p.named dh «from») h hserv).imp (fun hacc => ?_)
          fun hc => ⟨hc.serving, hc.conn, hc.seq, hc.pages⟩
        exact ⟨conn, seq, cmd, by simp [CoreIn.routing, hb], hacc.cmd, hacc.free, hacc.sending⟩
  | tick =>
    obtain ⟨hq, -⟩ := Option.filter_eq_some_iff.1 hq
    rw [show c.entry ip = some p from hp] at hq
    obtain rfl := Option.some.inj hq
    exact Or.inr (Peer.continues_timed hserv)
  | resolved name addr =>
    dsimp only at hp hq
    cases ha : c.entry addr with
    | some p' =>
      rw [if_neg (by simp [ha])] at hp
      rw [ha] at hq
      dsimp only at hq
      split_ifs at hq with hip
      · subst hip
        obtain rfl := Option.some.inj (ha.symm.trans hp)
        obtain rfl := Option.some.inj hq
        exact hsame rfl
      · exact hkept hp hq
    | none =>
      rw [ha] at hq
      dsimp only at hq
      split_ifs at hq with hip
      · obtain rfl := Option.some.inj hq
        exact absurd rfl hserv.1
      · rw [if_neg (by simp [hip])] at hp
        exact hkept hp (Option.filter_eq_some_iff.1 hq).1
  | ping =>
    rw [show c.entry ip = some p from hp] at hq
    obtain rfl := Option.some.inj hq
    exact hsame (p.pinged_sameSender now).1
  | pingReport =>
    rcases samePeers_pingReport c.peers ip with he | he
    · exact hkept hp (he.symm.trans hq)
    · obtain ⟨p', hp', rfl⟩ := Option.map_eq_some_iff.1 (he.symm.trans hq)
      obtain rfl := Option.some.inj (hp'.symm.trans hp)
      exact hsame rfl
  | shutdown =>
    rw [show c.entry ip = some p from hp] at hq
    obtain rfl := Option.some.inj hq
    by_cases hs : p.sender = .unconnected ∨ p.sender = .waitRdAck
    · exact hsame (by simp [Peer.shut, hs])
    · exact absurd (by simp [Peer.shut, hs]) hserv.2

end Core

end AppleTalk
