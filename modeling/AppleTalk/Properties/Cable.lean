import AppleTalk.Router.FarEnd

/-!
# Two ports on one cable

What a LocalTalk port puts on its cable is read there by the others. The short header leaves out
the networks, the nodes, the hop count and the checksum; the receiver fills them in from the LLAP
header and from its own network, the extended header carries them. Whichever the sender picks, the
receiver has the datagram that was sent.
-/

namespace AppleTalk

/-- A LocalTalk port that holds the node `n`, and another port of its network that holds `m`. -/
structure Cable (p q : Port) (n m : UInt8) : Prop where
  localTalk : p.extended = false
  sender : p.node = some n
  receiver : q.node = some m
  apart : m ≠ n
  network : q.range.1 = p.range.1

/-- The LocalTalk node a frame goes to. -/
def Dest.llapNode : Dest → UInt8
  | .node n => n
  | .broadcast | .zone _ => 255

/-- The datagram as a receiver on the network has it: network 0 is the cable's own, and the length
is that of the extended header and the data. -/
def Ddp.received (net : UInt16) (d : Ddp) : Ddp :=
  { d with
    dst := { d.dst with net := if d.dst.net = 0 then net else d.dst.net }
    length := UInt16.ofNat (13 + d.data.length) }

namespace Port

variable {host : Host} {p q : Port} {n m : UInt8}

/-! ### The sender -/

theorem emit_localTalk (hext : p.extended = false) (hn : p.node = some n) (dest : Dest) (d : Ddp) :
    p.emit host dest d =
      some (.toLlap p.id
        (if d.src.net = p.range.1 ∧ (d.dst.net = p.range.1 ∨ d.dst.net = 0) then
          ⟨dest.llapNode, n, LLAP_SHORT_DDP, d.toShortBytes⟩
        else ⟨dest.llapNode, n, LLAP_LONG_DDP, d.toBytes⟩)) := by
  unfold extended at hext
  unfold emit
  rw [hn, Option.map_some]
  cases hk : p.kind with
  | ether mac => simp [hk] at hext
  | _ =>
    dsimp only
    split_ifs <;> cases dest <;> rfl

theorem emit_short (hn : p.node = some n) {dest : Dest} {d : Ddp}
    (h : p.Short d.src.net d.dst.net) :
    p.emit host dest d =
      some (.toLlap p.id ⟨dest.llapNode, n, LLAP_SHORT_DDP, d.toShortBytes⟩) := by
  rw [emit_localTalk h.1 hn, if_pos h.2]

theorem emit_long (hext : p.extended = false) (hn : p.node = some n) {dest : Dest} {d : Ddp}
    (h : ¬p.Short d.src.net d.dst.net) :
    p.emit host dest d =
      some (.toLlap p.id ⟨dest.llapNode, n, LLAP_LONG_DDP, d.toBytes⟩) := by
  rw [emit_localTalk hext hn, if_neg fun hnets => h ⟨hext, hnets⟩]

/-! ### The receiver -/

/-- A port that holds a node lifts every datagram that is not an echo of its own. -/
theorem inboundLlap_lifts (hm : q.node = some m) {l : Llap} (hsrc : l.src ≠ m)
    (ht : l.typ = LLAP_SHORT_DDP ∨ l.typ = LLAP_LONG_DDP) (now : Instant) :
    q.inboundLlap host l now =
      (q, lifted (if l.typ = LLAP_SHORT_DDP then Ddp.fromShort l.data q.range.1 l.dst l.src
        else Ddp.parse l.data), []) := by
  have henq : l.typ ≠ LLAP_ENQ := by rcases ht with ht | ht <;> rw [ht] <;> decide
  have hack : l.typ ≠ LLAP_ACK := by rcases ht with ht | ht <;> rw [ht] <;> decide
  have hours : ¬(l.src = q.claimingNode ∧ q.node.isSome) := by
    rintro ⟨h, -⟩
    unfold claimingNode at h
    rw [hm] at h
    exact hsrc h
  unfold inboundLlap
  dsimp only
  rw [if_neg (by simp [hm]), if_neg henq, if_neg hours, if_neg hack]
  rcases ht with ht | ht
  · rw [if_pos ht, if_pos ht]
  · have hshort : l.typ ≠ LLAP_SHORT_DDP := by rw [ht]; decide
    rw [if_neg hshort, if_pos ht, if_neg hshort]

/-! ### From one port to the other -/

variable (host) in
/-- Behind a short header the receiver has its own network at both ends, and the nodes of the LLAP
header. -/
theorem heard_short (hm : q.node = some m) (hne : m ≠ n) (dst : UInt8) {d : Ddp}
    (hlen : 5 + d.data.length ≤ LLAP_MAX_DATA) (now : Instant) :
    ∃ l, Llap.parse (Llap.toBytes ⟨dst, n, LLAP_SHORT_DDP, d.toShortBytes⟩) = some l ∧
      q.inboundLlap host l now =
        (q, .ddp { d with
          hops := 0, length := UInt16.ofNat (13 + d.data.length), checksum := 0
          dst := { net := q.range.1, node := dst }, src := { net := q.range.1, node := n } },
          []) := by
  refine ⟨_, (Llap.short_legal_iff dst n d).2 hlen, ?_⟩
  rw [inboundLlap_lifts hm hne.symm (Or.inl rfl), if_pos rfl, Ddp.fromShort_toShortBytes,
    if_pos (by unfold LLAP_MAX_DATA at hlen; omega)]
  rfl

variable (host) in
/-- Behind an extended header the receiver has what the header says. -/
theorem heard_long (hm : q.node = some m) (hne : m ≠ n) (dst : UInt8) {d : Ddp}
    (hlen : 13 + d.data.length ≤ LLAP_MAX_DATA) (now : Instant) :
    ∃ l, Llap.parse (Llap.toBytes ⟨dst, n, LLAP_LONG_DDP, d.toBytes⟩) = some l ∧
      q.inboundLlap host l now = (q, .ddp d.written, []) := by
  refine ⟨_, (Llap.long_legal_iff dst n d).2 hlen, ?_⟩
  rw [inboundLlap_lifts hm hne.symm (Or.inr rfl),
    if_neg (show LLAP_LONG_DDP ≠ LLAP_SHORT_DDP by decide), Ddp.parse_toBytes_eq]
  rfl

/-- **LocalTalk framing agrees between two ports on one cable.** -/
theorem heard_as_sent (host host' : Host) (h : Cable p q n m) {dest : Dest} {d : Ddp}
    (hsrc : d.src = { net := p.range.1, node := n }) (hhops : d.hops = 0)
    (hsum : d.checksum = 0) (hlen : d.data.length ≤ 586)
    (hdest : d.dst.net = p.range.1 ∨ d.dst.net = 0 → dest.llapNode = d.dst.node)
    (now : Instant) :
    ∃ l, p.emit host dest d = some (.toLlap p.id l) ∧
      ∃ l', Llap.parse l.toBytes = some l' ∧
        q.inboundLlap host' l' now = (q, .ddp (d.received p.range.1), []) := by
  by_cases hs : p.Short d.src.net d.dst.net
  · refine ⟨_, emit_short h.sender hs, ?_⟩
    obtain ⟨l', hparse, hl'⟩ := heard_short host' h.receiver h.apart dest.llapNode
      (d := d) (by unfold LLAP_MAX_DATA; omega) now
    refine ⟨l', hparse, hl'.trans ?_⟩
    have hnet : (if d.dst.net = 0 then p.range.1 else d.dst.net) = p.range.1 := by
      rcases hs.2.2 with he | he
      · rw [he, ite_self]
      · rw [if_pos he]
    unfold Ddp.received
    rw [hnet, h.network, hdest hs.2.2, ← hsrc, ← hhops, ← hsum]
  · refine ⟨_, emit_long h.localTalk h.sender hs, ?_⟩
    obtain ⟨l', hparse, hl'⟩ := heard_long host' h.receiver h.apart dest.llapNode
      (d := d) (by unfold LLAP_MAX_DATA; omega) now
    refine ⟨l', hparse, hl'.trans ?_⟩
    have hnet : d.dst.net ≠ 0 := fun he =>
      hs ⟨h.localTalk, congrArg Addr.net hsrc, Or.inr he⟩
    have hhops' : d.written.hops = d.hops := Ddp.written_hops (by rw [hhops]; decide)
    have hwritten : d.written = d.received p.range.1 := by
      unfold Ddp.received
      rw [if_neg hnet]
      unfold Ddp.written at hhops' ⊢
      dsimp only at hhops'
      rw [hhops', Nat.mod_eq_of_lt (by omega)]
    rw [hwritten]

/-- A LocalTalk port on network 10 that holds a node. -/
def onTen (n : UInt8) : Port :=
  { new .lowest 0 "l" .ltoudp (10, 10) [['A']] 0 with node := some n }

/-- An echo request from node 200 of network 10 to node 201 of this network. -/
def unnumbered : Ddp :=
  { hops := 0, length := 0, checksum := 0, dst := { net := 0, node := 201 }, dstSocket := 4
    src := { net := 10, node := 200 }, srcSocket := 250, typ := 4, data := [1, 2, 3] }

theorem heard_as_sent_unnumbered :
    ∃ l, (onTen 200).emit .lowest (.node 201) unnumbered = some (.toLlap 0 l) ∧
      ∃ l', Llap.parse l.toBytes = some l' ∧
        (onTen 201).inboundLlap .lowest l' 0 = (onTen 201, .ddp (unnumbered.received 10), []) :=
  heard_as_sent .lowest .lowest (p := onTen 200) (q := onTen 201) (n := 200) (m := 201)
    ⟨rfl, rfl, rfl, by decide, rfl⟩ rfl rfl rfl (by decide) (fun _ => rfl) 0

end Port

end AppleTalk
