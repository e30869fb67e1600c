import AppleTalk.Lib.Batches
import AppleTalk.Router.Calls
import AppleTalk.Router.Gathering
import AppleTalk.Router.Reach

/-!
# Whole zone lists

A reply that is no extended one is final: its receiver takes the names of a network in it for all
of them. Both responders batch whole lists, so what decides is which lists they let in: the ZIP
one asks that a list be complete, the AURP one only that it fit a packet.
-/

namespace AppleTalk

namespace Tables

/-- Each network named has a complete list, and is named with all of it. -/
def Whole (t : Tables) (zones : List (UInt16 × Str)) : Prop :=
  ∀ net name, (net, name) ∈ zones →
    ∃ z, t.zones net = some z ∧ z.complete ∧ ∀ n, (net, n) ∈ zones ↔ n ∈ z.names

end Tables

/-! ### The ZIP responder -/

/-- The zones of a Reply that is no extended one. -/
def Zip.plain : Zip → Option (List (UInt16 × Str))
  | .reply zones none => some zones
  | _ => none

theorem Zip.mem_plain {zs : List Zip} {zones : List (UInt16 × Str)} :
    zones ∈ zs.filterMap Zip.plain ↔ .reply zones none ∈ zs := by
  rw [List.mem_filterMap]
  constructor
  · rintro ⟨z, hz, he⟩
    unfold plain at he
    split at he
    · obtain rfl := Option.some.inj he
      exact hz
    · cases he
  · exact fun h => ⟨_, h, rfl⟩

/-- A network's own pages are extended replies. -/
theorem pages_plain (pairs : List (UInt16 × Str)) : (pages pairs).filterMap Zip.plain = [] := by
  rw [pages_packs, List.filterMap_eq_nil_iff]
  exact Packing.forall_mem_finish (P := fun z : Zip => z.plain = none) (fun _ => rfl) _

/-- The list of the network is complete and fits a Reply. -/
def Tables.replies (t : Tables) (net : UInt16) : Bool :=
  ((t.zones net).filter ZoneList.complete).any fun z =>
    decide (ZIP_HEAD + ((z.names.map fun n => (net, n)).map fun p => pairBytes p.2).sum ≤ DDP_MAX)

/-- **The ZIP responder batches complete lists.** -/
theorem queryReplies_batched (nets : List UInt16) (tables : Tables) :
    Batched tables.namesHeld (nets.filter tables.replies)
      ((queryReplies nets tables).filterMap Zip.plain) [] := by
  unfold queryReplies
  dsimp only
  generalize hr : List.foldl _ _ nets = r
  have hfold : Batched tables.namesHeld (nets.filter tables.replies)
      (r.1.filterMap Zip.plain) r.2.1 := by
    subst hr
    induction nets using List.reverseRecOn with
    | nil => exact .start
    | append_singleton nets net ih =>
      rw [List.foldl_append, List.foldl_cons, List.foldl_nil, List.filter_append]
      generalize List.foldl _ _ nets = r at ih ⊢
      cases hz : (tables.zones net).filter ZoneList.complete with
      | none =>
        have hnot : tables.replies net = false := by simp [Tables.replies, hz]
        simpa [hnot] using ih
      | some z =>
        obtain ⟨hzones, -⟩ := Option.filter_eq_some_iff.1 hz
        have hpairs : (z.names.map fun n => (net, n)) =
            (tables.namesHeld net).map fun n => (net, n) := by
          rw [Tables.namesHeld_of_zones hzones]
        have hflush : Batched tables.namesHeld (nets.filter tables.replies)
            ((r.1 ++ [Zip.reply r.2.1 none]).filterMap Zip.plain) [] := by
          rw [List.filterMap_append]
          exact ih.flush
        dsimp only
        rw [List.filter_singleton]
        by_cases halone : DDP_MAX <
            ZIP_HEAD + ((z.names.map fun n => (net, n)).map fun p => pairBytes p.2).sum
        · have hnot : tables.replies net = false := by
            rw [Tables.replies, hz, Option.any_some, decide_eq_false_iff_not]
            exact Nat.not_le.2 halone
          rw [if_pos halone, hnot, List.filterMap_append, pages_plain, List.append_nil]
          split_ifs
          · simpa using hflush
          · simpa using ih
        · have hin : tables.replies net = true := by
            rw [Tables.replies, hz, Option.any_some, decide_eq_true_iff]
            exact Nat.not_lt.1 halone
          rw [if_neg halone, hin, hpairs]
          split_ifs
          · exact hflush.join net
          · exact ih.join net
  split_ifs with h
  · rw [h] at hfold
    exact hfold
  · rw [List.filterMap_append]
    exact hfold.flush

/-- Every Reply that is no extended one has only whole lists. -/
theorem queryReplies_whole (nets : List UInt16) (tables : Tables) {zones : List (UInt16 × Str)}
    (h : .reply zones none ∈ queryReplies nets tables) : tables.Whole zones := by
  intro net name hname
  obtain ⟨hnet, hwhole⟩ :=
    (queryReplies_batched nets tables).whole (Or.inl (Zip.mem_plain.2 h)) hname
  obtain ⟨-, hbatches⟩ := List.mem_filter.1 hnet
  obtain ⟨z, hz, -⟩ := (Option.any_eq_true _ _).1 hbatches
  obtain ⟨hzones, hcomplete⟩ := Option.filter_eq_some_iff.1 hz
  refine ⟨z, hzones, hcomplete, fun n => ?_⟩
  rw [hwhole, Tables.namesHeld_of_zones hzones]

/-! ### The AURP responder -/

/-- The zones of a ZI-Rsp of subcode 1. -/
def Cmd.plain : Cmd → Option (List (UInt16 × Str))
  | .ziRsp none zones => some zones
  | _ => none

theorem Cmd.mem_plain {cmds : List Cmd} {zones : List (UInt16 × Str)} :
    zones ∈ cmds.filterMap Cmd.plain ↔ .ziRsp none zones ∈ cmds := by
  rw [List.mem_filterMap]
  constructor
  · rintro ⟨cmd, hcmd, he⟩
    unfold plain at he
    split at he
    · obtain rfl := Option.some.inj he
      exact hcmd
    · cases he
  · exact fun h => ⟨_, h, rfl⟩

theorem ziChunks_plain (net : UInt16) (names : List Str) :
    (ziChunks net names).filterMap Cmd.plain = [] := by
  rw [ziChunks_packs, List.filterMap_eq_nil_iff]
  exact Packing.forall_mem_finish (P := fun cmd : Cmd => cmd.plain = none) (fun _ => rfl) _

/-- The list has a name and fits a ZI-Rsp. -/
def ZoneList.paged (z : ZoneList) : Bool :=
  !z.names.isEmpty && decide ((z.names.map fun n => 3 + utf8Len n).sum ≤ MAX_BODY)

/-- **The AURP responder batches whatever lists it holds.** -/
theorem ziPages_batched (nets : List UInt16) (tables : Tables) :
    Batched tables.namesHeld (nets.filter fun net => (tables.zones net).any ZoneList.paged)
      ((ziPages nets tables).filterMap Cmd.plain) [] := by
  unfold ziPages
  dsimp only
  generalize hr : List.foldl _ _ nets = r
  have hfold : Batched tables.namesHeld
      (nets.filter fun net => (tables.zones net).any ZoneList.paged)
      (r.1.filterMap Cmd.plain) r.2.1 := by
    subst hr
    induction nets using List.reverseRecOn with
    | nil => exact .start
    | append_singleton nets net ih =>
      rw [List.foldl_append, List.foldl_cons, List.foldl_nil, List.filter_append,
        List.filter_singleton]
      generalize List.foldl _ _ nets = r at ih ⊢
      cases hz : tables.zones net with
      | none => simpa using ih
      | some z =>
        have hflush : Batched tables.namesHeld
            (nets.filter fun net => (tables.zones net).any ZoneList.paged)
            ((r.1 ++ [Cmd.ziRsp none r.2.1]).filterMap Cmd.plain) [] := by
          rw [List.filterMap_append]
          exact ih.flush
        rw [Option.any_some, ZoneList.paged]
        dsimp only
        by_cases hempty : z.names.isEmpty
        · rw [if_pos hempty, hempty]
          simpa using ih
        rw [if_neg hempty, Bool.eq_false_iff.2 hempty, Bool.not_false, Bool.true_and]
        by_cases hlong : MAX_BODY < (z.names.map fun n => 3 + utf8Len n).sum
        · rw [if_pos hlong, decide_eq_false (Nat.not_le.2 hlong)]
          rw [cond_false, List.append_nil]
          by_cases hpage : r.2.1 = []
          · rw [if_pos hpage, List.filterMap_append, ziChunks_plain, List.append_nil]
            exact ih
          · rw [if_neg hpage, List.filterMap_append, ziChunks_plain, List.append_nil]
            exact hflush
        · rw [if_neg hlong, decide_eq_true (Nat.not_lt.1 hlong),
            ← Tables.namesHeld_of_zones hz]
          rw [cond_true]
          split_ifs
          · exact hflush.join net
          · exact ih.join net
  split_ifs with h
  · rw [h] at hfold
    exact hfold
  · rw [List.filterMap_append]
    exact hfold.flush

/-- No list the AURP responder would page is a partial one. -/
def Tables.Settled (t : Tables) (net : UInt16) : Prop :=
  ∀ z, t.zones net = some z → z.paged → z.complete

/-- The ZI-Rsps of subcode 1 have only whole lists just when no network asked about has a partial
list that fits one. -/
theorem ziPages_whole_iff (nets : List UInt16) (tables : Tables) :
    (∀ zones, .ziRsp none zones ∈ ziPages nets tables → tables.Whole zones) ↔
      ∀ net ∈ nets, tables.Settled net := by
  have hbatched := ziPages_batched nets tables
  constructor
  · intro h net hnet z hz hpaged
    have hne : tables.namesHeld net ≠ [] := by
      rw [Tables.namesHeld_of_zones hz]
      rintro he
      simp [ZoneList.paged, he] at hpaged
    obtain ⟨zones, hzones | rfl, name, hname⟩ := hbatched.named
      (List.mem_filter.2 ⟨hnet, by rw [hz, Option.any_some, hpaged]⟩) hne
    · obtain ⟨z', hz', hcomplete, -⟩ := h zones (Cmd.mem_plain.1 hzones) net name hname
      obtain rfl := Option.some.inj (hz.symm.trans hz')
      exact hcomplete
    · cases hname
  · intro h zones hzones net name hname
    obtain ⟨hnet, hwhole⟩ := hbatched.whole (Or.inl (Cmd.mem_plain.2 hzones)) hname
    obtain ⟨hnet, hpaged⟩ := List.mem_filter.1 hnet
    obtain ⟨z, hz, hpaged⟩ := (Option.any_eq_true _ _).1 hpaged
    refine ⟨z, hz, h net hnet z hz hpaged, fun n => ?_⟩
    rw [hwhole, Tables.namesHeld_of_zones hz]

/-! ### What goes out -/

namespace Peer

/-- The networks a packet asks for the zones of: those a ZI-Req on the open connection names, or
those of the packet that an acknowledgement with SZI is for. -/
def zonesAsked (p : Peer) (conn seq : UInt16) (cmd : Cmd) : Option (List UInt16) :=
  match cmd with
  | .ziReq nets => if p.onSender conn then some nets else none
  | .riAck true =>
    if conn = p.connRemote then (p.outstanding.filter fun o => o.seq = seq).map Outstanding.nets
    else none
  | _ => none

/-- A packet that asks for zones is answered by their pages; an acknowledgement also lets out the
next page of an export. -/
theorem routing_zones {p : Peer} {conn seq : UInt16} {cmd : Cmd} {nets : List UInt16}
    (h : p.zonesAsked conn seq cmd = some nets) (tables : Tables) (now : Instant) :
    (p.routing conn seq cmd tables now).out.chs = [] ∧
      ∃ rest, (p.routing conn seq cmd tables now).out.acts =
          (ziPages nets tables).map (p.send conn 0) ++ rest ∧
        ∀ a ∈ rest, ∃ seq last tuples, a = p.send conn seq (.riRsp last tuples) := by
  unfold zonesAsked at h
  split at h
  · split_ifs at h with hopen
    obtain rfl := Option.some.inj h
    unfold routing
    dsimp only
    rw [if_pos hopen]
    exact ⟨rfl, [], (List.append_nil _).symm, by simp⟩
  · split_ifs at h with hconn
    obtain ⟨o, ho, rfl⟩ := Option.map_eq_some_iff.1 h
    obtain ⟨ho, hseq⟩ := Option.filter_eq_some_iff.1 ho
    subst hconn
    unfold routing
    dsimp only
    rw [if_pos rfl]
    have hack := p.riAck_acked seq true tables now
    generalize p.riAck seq true tables now = r at hack ⊢
    have hsame : ∀ o', p.outstanding = some o' → o' = o := fun o' ho' =>
      Option.some.inj (ho'.symm.trans ho)
    cases hack with
    | ignored hne => exact absurd (of_decide_eq_true hseq) (hne o ho)
    | paged ho' _ hs hp =>
      obtain rfl := hsame _ ho'
      obtain ⟨tuples, rest, hp⟩ := List.exists_cons_of_ne_nil hp
      unfold sendPage
      rw [hp]
      refine ⟨rfl, [_], rfl, ?_⟩
      exact List.forall_mem_singleton.2 ⟨_, _, _, rfl⟩
    | idle ho' | closed ho' | unawaited ho' =>
      obtain rfl := hsame _ ho'
      exact ⟨rfl, [], (List.append_nil _).symm, by simp⟩
  · cases h

end Peer

namespace Router

variable {host : Host}

/-- The datagram of a Reply, routed back to whoever asked. -/
def zipReply (host : Host) (r : Router) (port : Port) (ddp : Ddp) (z : Zip) : List Action :=
  match fromPort port ZIP_SOCKET ddp.src ddp.srcSocket DDP_ZIP z.toBytes with
  | some d => r.forward host .here d
  | none => []

/-- A ZIP Query is answered by the Replies of its networks. -/
theorem served_query (r : Router) (origin : Origin) (q : Port) {ddp : Ddp} (nets : List UInt16)
    (now : Instant) (h : ddp.dstSocket = ZIP_SOCKET) :
    r.served host origin q ddp (.zip (.query nets)) now =
      (r, (queryReplies nets r.tables).flatMap
        (r.zipReply host ((r.arrivedOn origin).getD q) ddp)) := by
  unfold served Local.handle
  dsimp only
  rw [if_pos h]
  generalize (r.arrivedOn origin).getD q = port
  show (r, [] ++ (queryReply port ddp nets r.tables).flatMap (r.emit host)) = _
  rw [List.nil_append, queryReply]
  generalize queryReplies nets r.tables = zs
  congr 1
  induction zs with
  | nil => rfl
  | cons z zs ih =>
    rw [List.filterMap_cons, List.flatMap_cons, zipReply, ← ih]
    cases fromPort port ZIP_SOCKET ddp.src ddp.srcSocket DDP_ZIP z.toBytes <;> rfl

theorem aurp_zones {r : Router} {ip : Ipv4Addr} {p : Peer} (hp : r.peers.entry ip = some p)
    {bytes : Bytes} {dh : DomainHeader} {conn seq : UInt16} {cmd : Cmd} {nets : List UInt16}
    (hpkt : Aurp.parse bytes = some (.routing dh conn seq cmd))
    (h : p.zonesAsked conn seq cmd = some nets) (now : Instant) :
    ∃ rest, (r.step host (.aurp ip bytes) now).2 =
        (ziPages nets r.tables).map ((p.named dh ip).send conn 0) ++ rest ∧
      ∀ a ∈ rest, (∃ line, a = .log line) ∨
        ∃ seq last tuples, a = (p.named dh ip).send conn seq (.riRsp last tuples) := by
  obtain ⟨hchs, rest, hacts, hrest⟩ := (p.named dh ip).routing_zones h r.tables now
  have hp' : r.peers.peers.get? ip = some p := hp
  have hpacket : r.peers.packet ip bytes r.tables now =
      r.peers.deliver p ip (.routing dh conn seq cmd) r.tables now := by
    unfold Peers.packet
    rw [hpkt]
    dsimp only
    rw [hp']
  unfold step
  dsimp only
  rw [hpacket]
  dsimp only [Peers.deliver]
  rw [show ({ p with di := namedBy dh.src ip } : Peer) = p.named dh ip from rfl]
  generalize (p.named dh ip).routing conn seq cmd r.tables now = g at hchs hacts ⊢
  dsimp only [Peer.report]
  rw [hchs, hacts]
  refine ⟨_, (by simp only [changed, List.isEmpty_nil, if_true, Option.bind_none, List.append_nil,
    List.append_assoc]; rfl), ?_⟩
  intro a ha
  rcases List.mem_append.1 ha with ha | ha
  · exact Or.inr (hrest a ha)
  · refine Or.inl ?_
    rcases List.mem_append.1 ha with ha | ha
    · split_ifs at ha
      · exact ⟨_, List.mem_singleton.1 ha⟩
      · cases ha
    · split_ifs at ha
      · exact ⟨_, List.mem_singleton.1 ha⟩
      · cases ha

/-- **When no partial zone list is passed off as whole.** The lists that answer a ZIP Query are
whole in every state; those that answer a ZI-Req or an acknowledgement with SZI are whole just when
no network asked about has a partial list that fits one ZI-Rsp. -/
theorem zone_lists_whole_iff (host : Host) (r : Router) :
    (∀ (origin : Origin) (q : Port) (ddp : Ddp) (nets : List UInt16) (now : Instant),
      ddp.dstSocket = ZIP_SOCKET →
      (r.served host origin q ddp (.zip (.query nets)) now).2 =
        (queryReplies nets r.tables).flatMap (r.zipReply host ((r.arrivedOn origin).getD q) ddp) ∧
      ∀ zones, .reply zones none ∈ queryReplies nets r.tables → r.tables.Whole zones) ∧
    ∀ (ip : Ipv4Addr) (p : Peer) (bytes : Bytes) (dh : DomainHeader) (conn seq : UInt16) (cmd : Cmd)
      (nets : List UInt16) (now : Instant), r.peers.entry ip = some p →
      Aurp.parse bytes = some (.routing dh conn seq cmd) → p.zonesAsked conn seq cmd = some nets →
      (∃ rest, (r.step host (.aurp ip bytes) now).2 =
          (ziPages nets r.tables).map ((p.named dh ip).send conn 0) ++ rest ∧
        ∀ a ∈ rest, (∃ line, a = .log line) ∨
          ∃ seq last tuples, a = (p.named dh ip).send conn seq (.riRsp last tuples)) ∧
      ((∀ zones, .ziRsp none zones ∈ ziPages nets r.tables → r.tables.Whole zones) ↔
        ∀ net ∈ nets, r.tables.Settled net) := by
  constructor
  · intro origin q ddp nets now h
    constructor
    · rw [served_query r origin q nets now h]
    · exact fun zones hz => queryReplies_whole nets r.tables hz
  · intro ip p bytes dh conn seq cmd nets now hp hpkt h
    exact ⟨aurp_zones hp hpkt h now, ziPages_whole_iff nets r.tables⟩

/-- A peer on connection 7 has exported network 20 to us and named one of its two zones. -/
def half : Router :=
  small.after .lowest
    [(.input (.aurp ⟨192, 0, 2, 1⟩ (peerPacket 7 0 (.openReq Cmd.ALL_SUI 1 []))), 0),
      (.input (.aurp ⟨192, 0, 2, 1⟩ (peerPacket 1 0 (.openRsp 0 1 []))), 0),
      (.input (.aurp ⟨192, 0, 2, 1⟩
        (peerPacket 1 1
          (.riRsp true [{ range := (20, 20), extended := false, distance := 0 }]))), 0),
      (.input (.aurp ⟨192, 0, 2, 1⟩ (peerPacket 1 0 (.ziRsp (some 2) [(20, ['A'])]))), 0)]

def halfPeer : Peer := (half.peers.entry ⟨192, 0, 2, 1⟩).get (by decide +kernel)

theorem entry_halfPeer : half.peers.entry ⟨192, 0, 2, 1⟩ = some halfPeer :=
  (Option.some_get _).symm

theorem zone_lists_whole_iff_half :
    (∀ zones, .ziRsp none zones ∈ ziPages [20] half.tables → half.tables.Whole zones) ↔
      ∀ net ∈ [20], half.tables.Settled net := by
  refine ((zone_lists_whole_iff .lowest half).2 ⟨192, 0, 2, 1⟩ halfPeer
    (peerPacket 7 0 (.ziReq [20])) ⟨.null, .null⟩ 7 0 (.ziReq [20]) [20] 0 entry_halfPeer ?_ ?_).2
  · decide +kernel
  · decide +kernel

/-- The half list goes out in a ZI-Rsp of subcode 1. -/
theorem half_list_sent :
    ¬∀ (r : Router) (ip : Ipv4Addr) (p : Peer) (conn seq : UInt16) (cmd : Cmd) (nets : List UInt16),
      Reachable .lowest r → r.peers.entry ip = some p → p.zonesAsked conn seq cmd = some nets →
      ∀ zones, .ziRsp none zones ∈ ziPages nets r.tables → r.tables.Whole zones := by
  intro h
  obtain ⟨z, hz, hcomplete, -⟩ := h half ⟨192, 0, 2, 1⟩ halfPeer 7 0 (.ziReq [20]) [20]
    ⟨small, _, small_built, rfl⟩ entry_halfPeer (by decide +kernel) [(20, ['A'])]
    (by decide +kernel) 20 ['A'] (by simp)
  have hpartial : (half.tables.zones 20).all fun z => !z.complete := by decide +kernel
  rw [hz, Option.all_some, hcomplete] at hpartial
  cases hpartial

end Router

end AppleTalk
