import AppleTalk.Properties.Heard

/-!
# One content for each number

A sender numbers its sequenced packets from 1 on each connection, and starts over on an Open-Req or
an RI-Req. While it starts over only with what it has said already, a number of the connection it
serves stands for one packet, and a receiver's ack of the number is an ack of that packet.
-/

namespace AppleTalk

/-! ### The sender -/

/-- A page of an export as it reads back at the other end, numbered from 0. -/
def pageAt (pages : List (List NetworkTuple)) (k : ℕ) : Option Cmd :=
  pages[k]?.map fun tuples => .riRsp (k + 1 = pages.length) (tuples.map NetworkTuple.onWire)

@[simp] theorem pageAt_nil (k : ℕ) : pageAt [] k = none := rfl

theorem pageAt_zero (tuples : List NetworkTuple) (rest : List (List NetworkTuple)) :
    pageAt (tuples :: rest) 0 = some (.riRsp rest.isEmpty (tuples.map NetworkTuple.onWire)) := by
  cases rest <;> simp [pageAt]

theorem pageAt_succ (tuples : List NetworkTuple) (rest : List (List NetworkTuple)) (k : ℕ) :
    pageAt (tuples :: rest) (k + 1) = pageAt rest k := by
  simp [pageAt]

theorem succ_toNat {n : UInt16} (h : n ≠ 65535) : (succ n).toNat = n.toNat + 1 := by
  have hlt : n.toNat + 1 < 65536 := by
    have hle := n.toNat_lt
    have hne : n.toNat ≠ 65535 := fun he => h (UInt16.toNat_inj.1 he)
    omega
  have hadd : (n + 1).toNat = n.toNat + 1 := by
    rw [UInt16.toNat_add]
    exact Nat.mod_eq_of_lt hlt
  unfold succ
  rw [if_neg, hadd]
  intro h0
  rw [h0] at hadd
  simp at hadd

namespace Sending

/-- What was said on the connection: no RD, one packet for each number, none beyond the last number
but pages that are to be said again under it; and what is outstanding was said. -/
structure Once (s : Sending) (said : List (UInt16 × UInt16 × Cmd)) : Prop where
  live : ∀ x ∈ said, x.1 = s.conn → x.2.2.code ≠ 5
  once : ∀ x ∈ said, ∀ y ∈ said, x.1 = s.conn → y.1 = s.conn → x.2.1 = y.2.1 → x = y
  past : ∀ x ∈ said, x.1 = s.conn → x.2.1.toNat ≤ s.seq.toNat ∨
    ∃ k, x.2.1.toNat = s.seq.toNat + k + 1 ∧ pageAt s.pages k = some x.2.2
  out : ∀ o, s.outstanding = some o → ∃ dh cmd,
    Aurp.parse o.bytes = some (.routing dh s.conn o.seq cmd) ∧ (s.conn, o.seq, cmd) ∈ said

variable {s s' : Sending} {said : List (UInt16 × UInt16 × Cmd)}

/-- A connection on which nothing was said. -/
theorem once_of_unsaid (h : ∀ x ∈ said, x.1 ≠ s.conn) (ho : s.outstanding = none) :
    s.Once said where
  live x hx hc := absurd hc (h x hx)
  once x hx _ _ hc := absurd hc (h x hx)
  past x hx hc := absurd hc (h x hx)
  out o hout := by
    rw [ho] at hout
    cases hout

theorem Once.congr (h : s.Once said) (hconn : s'.conn = s.conn) (hseq : s'.seq = s.seq)
    (hpages : s'.pages = s.pages)
    (hout : s'.outstanding = none ∨ s'.outstanding = s.outstanding) : s'.Once said where
  live := hconn ▸ h.live
  once := hconn ▸ h.once
  past := by rw [hconn, hseq, hpages]; exact h.past
  out o ho := by
    rcases hout with hout | hout
    · rw [hout] at ho
      cases ho
    · rw [hconn]
      exact h.out o (hout ▸ ho)

theorem parse_carries {o : Outstanding} {conn seq : UInt16} {cmd cmd' : Cmd}
    (h : o.Carries conn seq cmd) (hw : cmd.wire = some cmd') :
    ∃ dh, Aurp.parse o.bytes = some (.routing dh conn o.seq cmd') := by
  obtain ⟨rfl, -, dh, hb⟩ := h
  refine ⟨dh, ?_⟩
  rw [hb, Aurp.parse_routing, show Cmd.parse _ _ _ = some cmd' from hw, Option.map_some]

/-- A new packet goes out under the next number. -/
theorem Once.post (h : s.Once said) {o : Outstanding} {cmd cmd' : Cmd} (hconn : s'.conn = s.conn)
    (hseq : s'.seq = succ s.seq) (ho : s'.outstanding = some o)
    (hc : o.Carries s.conn (succ s.seq) cmd) (hw : cmd.wire = some cmd') (hd : cmd.code ≠ 5)
    (hroom : s.seq ≠ 65535) (hfirst : ∀ m, pageAt s.pages 0 = some m → m = cmd')
    (hrest : ∀ k, pageAt s.pages (k + 1) = pageAt s'.pages k) :
    s'.Once (said ++ [(s.conn, succ s.seq, cmd')]) := by
  have hnext := succ_toNat hroom
  have hcode : cmd'.code ≠ 5 := Cmd.code_of_parse hw ▸ hd
  -- Only a page that is said again has the next number already.
  have hsaid : ∀ x ∈ said, x.1 = s.conn → x.2.1 = succ s.seq → x = (s.conn, succ s.seq, cmd') := by
    intro x hx hxc hxs
    rcases h.past x hx hxc with hle | ⟨k, hk, hpage⟩
    · rw [hxs] at hle
      omega
    · obtain rfl : k = 0 := by
        rw [hxs] at hk
        omega
      exact Prod.ext hxc (Prod.ext hxs (hfirst _ hpage))
  refine ⟨?_, ?_, ?_, ?_⟩
  · rw [hconn]
    exact List.forall_mem_append.2 ⟨h.live, List.forall_mem_singleton.2 fun _ => hcode⟩
  · rw [hconn]
    intro x hx y hy hxc hyc hxy
    rcases List.mem_append.1 hx with hx | hx <;> rcases List.mem_append.1 hy with hy | hy
    · exact h.once x hx y hy hxc hyc hxy
    · obtain rfl := List.mem_singleton.1 hy
      exact hsaid x hx hxc hxy
    · obtain rfl := List.mem_singleton.1 hx
      exact (hsaid y hy hyc hxy.symm).symm
    · rw [List.mem_singleton.1 hx, List.mem_singleton.1 hy]
  · rw [hconn, hseq, hnext]
    refine List.forall_mem_append.2 ⟨fun x hx hxc => ?_, List.forall_mem_singleton.2 fun _ => ?_⟩
    · rcases h.past x hx hxc with hle | ⟨k, hk, hpage⟩
      · exact Or.inl (by omega)
      · cases k with
        | zero => exact Or.inl (by omega)
        | succ k => exact Or.inr ⟨k, by omega, hrest k ▸ hpage⟩
    · exact Or.inl hnext.le
  · intro o' ho'
    obtain rfl := Option.some.inj (ho.symm.trans ho')
    obtain ⟨dh, hp⟩ := parse_carries hc hw
    rw [hconn, hc.1]
    exact ⟨dh, cmd', hc.1 ▸ hp, by simp⟩

/-- The outstanding packet goes out once more. -/
theorem Once.again (h : s.Once said) {o o' : Outstanding} {cmd : Cmd}
    (ho : s.outstanding = some o) (hd : isData cmd.code) (hc : o.Carries s.conn s.seq cmd)
    (hc' : o'.Carries s.conn s.seq cmd) :
    { s with outstanding := some o' }.Once (said ++ onWire isData [(s.conn, s.seq, cmd)]) := by
  obtain ⟨dh, cmd', hp, hmem⟩ := h.out o ho
  have hw : cmd.wire = some cmd' := by
    obtain ⟨-, -, dh', hb⟩ := hc
    rw [hb, Aurp.parse_routing] at hp
    obtain ⟨m, hm, he⟩ := Option.map_eq_some_iff.1 hp
    obtain ⟨-, -, -, rfl⟩ := Aurp.routing.inj he
    exact hm
  rw [hc.1] at hmem
  have hsub : ∀ x ∈ said ++ onWire isData [(s.conn, s.seq, cmd)], x ∈ said := by
    rw [onWire_one hd hw]
    exact List.forall_mem_append.2 ⟨fun x hx => hx, List.forall_mem_singleton.2 hmem⟩
  refine ⟨fun x hx => h.live x (hsub x hx), fun x hx y hy => h.once x (hsub x hx) y (hsub y hy),
    fun x hx => h.past x (hsub x hx), fun o'' ho'' => ?_⟩
  obtain rfl := Option.some.inj ho''
  obtain ⟨dh', hp'⟩ := parse_carries hc' hw
  refine ⟨dh', cmd', hp', List.mem_append_left _ ?_⟩
  rw [hc'.1]
  exact hmem

/-- The numbering starts over with pages that are all that was said. -/
theorem Once.startOver (h : s.Once said) {pages : List (List NetworkTuple)}
    (hsaid : ∀ x ∈ said, x.1 = s.conn →
      x.2.1 ≠ 0 ∧ pageAt pages (x.2.1.toNat - 1) = some x.2.2) :
    { s with seq := 0, outstanding := none, pages := pages }.Once said where
  live := h.live
  once := h.once
  past x hx hxc := by
    obtain ⟨h0, hpage⟩ := hsaid x hx hxc
    have hpos : x.2.1.toNat ≠ 0 := fun hz => h0 (UInt16.toNat_inj.1 hz)
    refine Or.inr ⟨x.2.1.toNat - 1, ?_, hpage⟩
    show x.2.1.toNat = 0 + (x.2.1.toNat - 1) + 1
    omega
  out o ho := by cases ho

/-- **One move of a connection that goes on** keeps one content for each number. -/
theorem Once.move {x : List NetworkTuple} {asked : Bool} {sent : List (UInt16 × UInt16 × Cmd)}
    (h : s.Once said) (hm : Move x asked s s' sent) (hsay : s.Sayable)
    (hx : ∀ y ∈ x, y.distance < 15) (hserv : s'.sender.Serving) (hconn : s'.conn = s.conn)
    (hseq : s'.seq = 0 → s.seq = 0)
    (hpages : s'.sender = .connected → s'.pages = [] → s.pages = [])
    (hidle : s'.sender ≠ .waitRiRspAck → s'.pages = []) (hroom : s.seq ≠ 65535)
    (hasked : asked = true → ∀ y ∈ said, y.1 = s.conn →
      y.2.1 ≠ 0 ∧ pageAt (splitTuples x) (y.2.1.toNat - 1) = some y.2.2) :
    s'.Once (said ++ onWire isData sent) := by
  cases hm with
  | keep => simpa using h
  | close => exact absurd rfl hserv.1
  | accept _ conn =>
    rw [onWire_nil, List.append_nil]
    exact h.congr hconn (hseq rfl).symm (hpages rfl rfl).symm (Or.inl rfl)
  | acked =>
    rw [onWire_nil, List.append_nil]
    exact h.congr rfl rfl rfl (Or.inl rfl)
  | again _ o o' cmd ho hd hc hc' => exact h.again ho hd hc hc'
  | null _ o _ hc =>
    have hw : nullUpd.wire = some nullUpd := by decide
    have hnone : s.pages = [] := hidle (by simp [posted])
    rw [onWire_one rfl hw]
    exact h.post rfl rfl rfl hc hw (by decide) hroom (by simp [hnone]) (by simp [posted, hnone])
  | page _ tuples rest o _ hp hc =>
    have hw := wire_riRsp rest.isEmpty fun y hy =>
      hsay.pages y (by rw [hp]; exact List.mem_append_left _ hy)
    rw [onWire_one rfl hw]
    refine h.post rfl rfl rfl hc hw (by simp [Cmd.code]) hroom (fun m hm => ?_) fun k => ?_
    · rw [hp, pageAt_zero] at hm
      exact (Option.some.inj hm).symm
    · rw [hp, pageAt_succ]
      rfl
  | exported _ tuples rest o _ hsplit hc =>
    have hw := wire_riRsp rest.isEmpty fun y hy => hx y (by
      rw [← flatten_splitTuples x, hsplit]
      exact List.mem_append_left _ hy)
    rw [onWire_one rfl hw]
    refine (h.startOver (hasked rfl)).post rfl rfl rfl hc hw (by simp [Cmd.code])
      (by decide : (0 : UInt16) ≠ 65535) (fun m hm => ?_) fun k => ?_
    · rw [show pageAt _ 0 = pageAt (tuples :: rest) 0 from congrArg (pageAt · 0) hsplit,
        pageAt_zero] at hm
      exact (Option.some.inj hm).symm
    · rw [show pageAt _ (k + 1) = pageAt (tuples :: rest) (k + 1) from
        congrArg (pageAt · (k + 1)) hsplit, pageAt_succ]
      rfl
  | update _ o _ _ _ hc =>
    have hw : (Cmd.riUpd s.pending).wire = some (.riUpd (s.pending.map EventTuple.onWire)) :=
      Cmd.parse_riUpd fun e he => (hsay.pending e he).bounds
    have hnone : s.pages = [] := hidle (by simp [posted])
    rw [onWire_one rfl hw]
    exact h.post rfl rfl rfl hc hw (by simp [Cmd.code]) hroom (by simp [hnone])
      (by simp [posted, hnone])
  | down => exact absurd rfl hserv.2

/-- A move that leaves the connection idle says nothing. -/
theorem Move.silent {x : List NetworkTuple} {asked : Bool} {sent : List (UInt16 × UInt16 × Cmd)}
    (hm : Move x asked s s' sent) (hs : s'.sender = .connected) (ho : s'.outstanding = none) :
    sent = [] := by
  cases hm with
  | keep | close | accept | acked => rfl
  | again => cases ho
  | null | page | exported | update | down => cases hs

theorem seq_of_mem_onWire {k : UInt16 → Bool} {l : List (UInt16 × UInt16 × Cmd)}
    {y : UInt16 × UInt16 × Cmd} (h : y ∈ onWire k l) : ∃ x ∈ l, y.2.1 = x.2.1 := by
  obtain ⟨x, hx, hy⟩ := List.mem_filterMap.1 h
  split_ifs at hy
  obtain ⟨cmd, -, rfl⟩ := Option.map_eq_some_iff.1 hy
  exact ⟨x, hx, rfl⟩

theorem succ_ne_last {n : UInt16} (h : n ≠ 65535) (h' : n ≠ 65534) : succ n ≠ 65535 := by
  intro he
  have hn := succ_toNat h
  rw [he] at hn
  refine h' (UInt16.toNat_inj.1 ?_)
  exact (Nat.succ.inj hn).symm

/-- While the last number is not reached no packet bears it. -/
theorem Move.low {x : List NetworkTuple} {asked : Bool} {sent : List (UInt16 × UInt16 × Cmd)}
    (hm : Move x asked s s' sent) (h : s.seq ≠ 65535) (hroom : s.seq ≠ 65534) :
    s'.seq ≠ 65535 ∧ ∀ y ∈ onWire isData sent, y.2.1 ≠ 65535 := by
  have hnext := succ_ne_last h hroom
  have hone : ∀ {conn seq cmd}, seq ≠ 65535 →
      ∀ y ∈ onWire isData [(conn, seq, cmd)], y.2.1 ≠ 65535 := fun hs y hy => by
    obtain ⟨z, hz, he⟩ := seq_of_mem_onWire hy
    rw [List.mem_singleton.1 hz] at he
    exact he ▸ hs
  cases hm with
  | keep | acked => exact ⟨h, by simp⟩
  | close | accept => exact ⟨show (0 : UInt16) ≠ 65535 by decide, by simp⟩
  | again => exact ⟨h, hone h⟩
  | null | page | update | down => exact ⟨hnext, hone hnext⟩
  | exported => exact ⟨show succ 0 ≠ 65535 by decide, hone (by decide)⟩

end Sending

namespace Peer

/-- The pages with which a packet has the numbering of its connection start over, if it has: those
of the export for an RI-Req that is taken, and none for an Open-Req that is accepted. -/
def restarts (p : Peer) (tables : Tables) (conn : UInt16) :
    Cmd → Option (List (List NetworkTuple))
  | .openReq _ version options =>
    if version = 1 ∧ options = [] ∧ (p.sender = .unconnected ∨ conn = p.connRemote) then some []
    else none
  | .riReq _ => if p.takesRiReq conn then some (splitTuples tables.export) else none
  | _ => none

/-- Queued events change what waits and nothing else. -/
theorem hear_sending (p : Peer) (evs : List EventTuple) :
    ∃ pending, (p.hear evs).sending = { p.sending with pending := pending } := by
  unfold hear
  split_ifs
  · exact ⟨p.pending, rfl⟩
  · exact ⟨_, rfl⟩

end Peer

namespace Core

/-- The connection ID on which an input has the numbering start over, and the pages to come. -/
def restarts (c : Core) (i : CoreIn × Instant) (ip : Ipv4Addr) :
    Option (UInt16 × List (List NetworkTuple)) :=
  match c.subject i ip, i.1.routing ip with
  | some p, some (conn, _, cmd) => (p.restarts c.tables conn cmd).map fun pages => (conn, pages)
  | _, _ => none

/-- The condition under which an input numbers no two packets to an address alike: the last number
is not near, and a numbering starts over only where all that was said on the connection is to be
said again, under the number it had. -/
structure NumbersOnce (ip : Ipv4Addr) (said : List (UInt16 × UInt16 × Cmd)) (c : Core)
    (i : CoreIn × Instant) : Prop where
  room : ∀ p, c.entry ip = some p → p.seqSend ≠ 65534
  again : ∀ conn pages, c.restarts i ip = some (conn, pages) → ∀ x ∈ said, x.1 = conn →
    x.2.1 ≠ 0 ∧ pageAt pages (x.2.1.toNat - 1) = some x.2.2

theorem numbersOnce_iff {ip : Ipv4Addr} {said : List (UInt16 × UInt16 × Cmd)} {c : Core}
    {i : CoreIn × Instant} : c.NumbersOnce ip said i ↔
      ((c.entry ip).all fun p => p.seqSend ≠ 65534) ∧ (c.restarts i ip).all fun r =>
        said.all fun x => x.1 = r.1 → x.2.1 ≠ 0 ∧ pageAt r.2 (x.2.1.toNat - 1) = some x.2.2 := by
  simp only [Option.all_eq_true, List.all_eq_true, decide_eq_true_eq]
  exact ⟨fun h => ⟨h.room, fun r hr => h.again r.1 r.2 hr⟩,
    fun h => ⟨h.1, fun conn pages hr => h.2 (conn, pages) hr⟩⟩

instance {ip : Ipv4Addr} {said : List (UInt16 × UInt16 × Cmd)} {c : Core} {i : CoreIn × Instant} :
    Decidable (c.NumbersOnce ip said i) := decidable_of_iff _ numbersOnce_iff.symm

/-- Each number of the connection an address has open stands for one packet. -/
structure Numbering (ip : Ipv4Addr) (said : List (UInt16 × UInt16 × Cmd)) (c : Core) : Prop where
  regular : c.Regular
  once : ∀ p, c.entry ip = some p → p.sender.Serving → p.sending.Once said
  low : ∀ p, c.entry ip = some p → p.seqSend ≠ 65535
  said : ∀ x ∈ said, x.2.1 ≠ 65535

variable {c : Core} {i : CoreIn × Instant} {ip : Ipv4Addr} {said : List (UInt16 × UInt16 × Cmd)}

/-- A batch of table operations says nothing. -/
theorem Numbering.batch (h : c.Numbering ip said) (ops : List TableOp) (now : Instant) :
    (c.next (.batch ops, now)).Numbering ip said := by
  have hentry : ∀ q, (c.next (.batch ops, now)).entry ip = some q → ∃ p, c.entry ip = some p ∧
      ∃ pending, q.sending = { p.sending with pending := pending } := by
    intro q hq
    rw [next_entry] at hq
    obtain ⟨p, hp, rfl⟩ := Option.map_eq_some_iff.1 hq
    exact ⟨p, hp, p.hear_sending _⟩
  refine ⟨h.regular.next _, fun q hq hserv => ?_, fun q hq => ?_, h.said⟩
  · obtain ⟨p, hp, pending, he⟩ := hentry q hq
    have hsender : q.sender = p.sender := congrArg Sending.sender he
    rw [he]
    exact (h.once p hp (hsender ▸ hserv)).congr rfl rfl rfl (Or.inr rfl)
  · obtain ⟨p, hp, pending, he⟩ := hentry q hq
    have hseq : q.seqSend = p.seqSend := congrArg Sending.seq he
    rw [hseq]
    exact h.low p hp

/-- The entry an input acts on is not near the last number. -/
theorem Numbering.subject (h : c.Numbering ip said) (hg : c.NumbersOnce ip said i) {p : Peer}
    (hp : c.subject i ip = some p) : p.seqSend ≠ 65535 ∧ p.seqSend ≠ 65534 := by
  rcases subject_cases hp with hp | ⟨-, hnew⟩
  · exact ⟨h.low p hp, hg.room p hp⟩
  · have hseq : p.seqSend = 0 := congrArg Sending.seq hnew
    rw [hseq]
    decide

/-- **One input** keeps one packet for each number. -/
theorem Numbering.next (h : c.Numbering ip said) (hg : c.NumbersOnce ip said i) :
    (c.next i).Numbering ip (said ++ sentOf isData ip (c.step i).2) := by
  have hreg := h.regular.next i
  refine ⟨hreg, fun q hq hserv => ?_, fun q hq => ?_, List.forall_mem_append.2 ⟨h.said, ?_⟩⟩
  · have hcoh := hreg.reached.coherent ip q hq
    obtain ⟨p, p', sent, opens, acks, hp, hp', hm, rfl⟩ := h.regular.moved hq
    obtain ⟨pending, he⟩ := p'.hear_sending (c.reported i)
    have hsender : (p'.hear (c.reported i)).sender = p'.sender := congrArg Sending.sender he
    rw [hsender] at hserv
    rw [he] at hcoh ⊢
    rw [hm.data]
    refine Sending.Once.congr (s := p'.sending) ?_ rfl rfl rfl (Or.inr rfl)
    rcases accepts_or_continues hp (h.regular.subject hp).1 hp' hserv with
      ⟨conn, seq, cmd, hr, ⟨sui, rfl⟩, hfree, hacc⟩ | hcont
    · -- The connection is opened under an ID on which nothing was said.
      have hrestart : c.restarts i ip = some (conn, []) := by
        unfold restarts
        rw [hp, hr]
        simp [Peer.restarts, hfree]
      have hmove := hm.sending
      rw [hacc] at hmove ⊢
      rw [hmove.silent rfl rfl, onWire_nil, List.append_nil]
      refine Sending.once_of_unsaid (fun x hx hxc => ?_) rfl
      have := (hg.again _ _ hrestart x hx hxc).2
      cases this
    · have hentry : c.entry ip = some p := (subject_cases hp).resolve_right fun hnew => by
        exact hcont.serving.1 (congrArg Sending.sender hnew.2)
      refine (h.once p hentry hcont.serving).move hm.sending (h.regular.subject hp).2
        c.tables.export_distance hserv hcont.conn hcont.seq hcont.pages (fun hs => ?_)
        (h.subject hg hp).1 fun hasked => ?_
      · by_contra hpages
        exact hs (hcoh.paging hpages)
      · -- An RI-Req says the export again.
        unfold asked at hasked
        cases hr : i.1.routing ip with
        | none => simp [hp, hr] at hasked
        | some y =>
          obtain ⟨conn, seq, cmd⟩ := y
          rw [hp, hr] at hasked
          cases cmd with
          | riReq sui =>
            have htakes : p.takesRiReq conn = true := hasked
            obtain ⟨rfl, -⟩ := of_decide_eq_true htakes
            refine hg.again _ _ ?_
            unfold restarts
            rw [hp, hr]
            simp only [Peer.restarts, htakes, if_true]
            rfl
          | _ => cases hasked
  · obtain ⟨p, p', sent, opens, acks, hp, -, hm, rfl⟩ := h.regular.moved hq
    obtain ⟨pending, he⟩ := p'.hear_sending (c.reported i)
    have hseq : (p'.hear (c.reported i)).seqSend = p'.seqSend := congrArg Sending.seq he
    obtain ⟨h1, h2⟩ := h.subject hg hp
    rw [hseq]
    exact (hm.sending.low h1 h2).1
  · cases hs : c.subject i ip with
    | none =>
      rw [sentOf, (no_subject h.regular.filed hs).2]
      simp
    | some p =>
      obtain ⟨p', sent, opens, acks, hm, -⟩ := exists_move h.regular.filed h.regular.ok hs
      obtain ⟨h1, h2⟩ := h.subject hg hs
      rw [hm.data]
      exact (hm.sending.low h1 h2).2

end Core

end AppleTalk
