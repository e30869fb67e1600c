import AppleTalk.Properties.AurpTransfer
import AppleTalk.Properties.Reopenings
import AppleTalk.Router.Tunnels

/-!
# The bodies of routing packets

A routing packet is to stay under the path MTU, and RI-Rsps, ZI-Rsps and ZI-Reqs are split for it.
Two kinds can still be too long: the pending events go out in one RI-Upd however many they are, and
the split of ZI-Rsps leaves out the four octets before the names.
-/

namespace AppleTalk

open Octets

/-! ### Commands within the limit -/

/-- The octets of a routing packet whose body is within the limit. -/
def Aurp.Small (bytes : Bytes) : Prop :=
  ∃ dh conn seq cmd, bytes = (Aurp.routing dh conn seq cmd).toBytes ∧
    cmd.encodeBody.length ≤ MAX_BODY

/-- A routing packet's octets are its header and its body. -/
theorem Aurp.length_body {dh dh' : DomainHeader} {conn conn' seq seq' : UInt16} {cmd cmd' : Cmd}
    (h : (Aurp.routing dh conn seq cmd).toBytes = (Aurp.routing dh' conn' seq' cmd').toBytes) :
    cmd.encodeBody.length = cmd'.encodeBody.length := by
  simp only [toBytes, List.append_assoc] at h
  have hdst := congrArg parseDi h
  rw [parseDi_encodeDi, parseDi_encodeDi] at hdst
  obtain ⟨-, h⟩ := Prod.mk.inj (Option.some.inj hdst)
  have hsrc := congrArg parseDi h
  rw [parseDi_encodeDi, parseDi_encodeDi] at hsrc
  obtain ⟨-, h⟩ := Prod.mk.inj (Option.some.inj hsrc)
  have hlen := congrArg List.length h
  simp only [List.length_append, length_ofWord] at hlen
  omega

/-- A routing packet to a peer, with a body within the limit, or a log line. -/
def Action.Small : Action → Prop
  | .toPeer _ bytes => Aurp.Small bytes
  | .log _ => True
  | _ => False

@[simp] theorem Action.small_log (m : String) : (Action.log m).Small := trivial

theorem EventTuple.length_encodeEvent (e : EventTuple) :
    (encodeEvent e).length = if e.code = 0 then 1 else if e.tuple.extended then 6 else 4 := by
  unfold encodeEvent
  cases e.tuple.extended <;> split_ifs <;> simp_all

/-! ### The split of an export -/

/-- Every page of an export is within the limit. -/
theorem splitTuples_small (x : List NetworkTuple) :
    ∀ page ∈ splitTuples x, ∀ last, (Cmd.riRsp last page).encodeBody.length ≤ MAX_BODY := by
  have hbody : ∀ last page, (Cmd.riRsp last page).encodeBody.length =
      (page.map fun t => if t.extended then 6 else 3).sum := by
    intro last page
    simp [Cmd.encodeBody, List.length_flatMap, NetworkTuple.length_encodeWith]
  intro page hpage last
  rw [hbody]
  exact sum_splitTuples page hpage

/-! ### The split of zone lists -/

/-- The octets a list of names is counted for, each spelled out behind its network. -/
def countedFor (names : List Str) : ℕ := (names.map fun n => 3 + utf8Len n).sum

/-- The octets names take at most behind those of a packet so far: one that stands there already
takes four. -/
def takenBy : List Str → List Str → ℕ
  | _, [] => 0
  | page, n :: ns => (if page.contains n then 4 else 3 + utf8Len n) + takenBy (page ++ [n]) ns

/-- Whether a packet's names leave it room for its head. -/
def leavesHead (page : List Str) : Bool := 4 + takenBy [] page ≤ MAX_BODY

/-- Whether one list, packed name by name, leaves every packet room for its head. -/
def namesLeaveHead (page : List Str) : List Str → Bool
  | [] => leavesHead page
  | n :: ns =>
    if MAX_BODY < countedFor page + (3 + utf8Len n) then leavesHead page && namesLeaveHead [n] ns
    else namesLeaveHead (page ++ [n]) ns

/-- Whether lists, packed whole and by themselves where they overflow a packet, leave every packet
room for its head. -/
def listsLeaveHead (page : List Str) : List (List Str) → Bool
  | [] => leavesHead page
  | [] :: ls => listsLeaveHead page ls
  | l :: ls =>
    if MAX_BODY < countedFor l then
      leavesHead page && namesLeaveHead [] l && listsLeaveHead [] ls
    else if MAX_BODY < countedFor page + countedFor l then leavesHead page && listsLeaveHead l ls
    else listsLeaveHead (page ++ l) ls

theorem listsLeaveHead_cons (page : List Str) {l : List Str} (hl : l ≠ []) (ls : List (List Str)) :
    listsLeaveHead page (l :: ls) =
      if MAX_BODY < countedFor l then
        leavesHead page && namesLeaveHead [] l && listsLeaveHead [] ls
      else if MAX_BODY < countedFor page + countedFor l then leavesHead page && listsLeaveHead l ls
      else listsLeaveHead (page ++ l) ls := by
  obtain ⟨n, ns, rfl⟩ := List.exists_cons_of_ne_nil hl
  rfl

/-- **What a ZI-Rsp's names take**, each spelled out once. -/
theorem length_encodeZones_taken {seen : Str → Option UInt16} {page : List Str}
    (hseen : ∀ n, (seen n).isSome ↔ n ∈ page) (used : ℕ) (zones : List (UInt16 × Str)) :
    (encodeZones seen used zones).length ≤ takenBy page (zones.map Prod.snd) := by
  induction zones generalizing seen page used with
  | nil => simp [encodeZones]
  | cons z zones ih =>
    obtain ⟨net, name⟩ := z
    have hlen := length_le_utf8Len name
    rw [encodeZones, List.map_cons, takenBy]
    cases hname : seen name with
    | some off =>
      have hmem : name ∈ page := (hseen name).1 (by rw [hname]; rfl)
      have hsame : ∀ n, (seen n).isSome ↔ n ∈ page ++ [name] := fun n => by
        rw [hseen, List.mem_append, List.mem_singleton]
        exact ⟨Or.inl, fun h => h.elim id fun h => h ▸ hmem⟩
      have hrest := ih hsame (used + 4)
      rw [if_pos (List.contains_iff_mem.2 hmem)]
      simp only [List.length_append, length_ofWord]
      omega
    | none =>
      have hmem : name ∉ page := fun h => by
        rw [← hseen, hname] at h
        cases h
      have hupdate : ∀ n, (Function.update seen name (some (UInt16.ofNat used)) n).isSome ↔
          n ∈ page ++ [name] := fun n => by
        rw [List.mem_append, List.mem_singleton, Function.update_apply]
        split_ifs with hn
        · simp [hn]
        · rw [hseen]
          exact ⟨Or.inl, fun h => h.resolve_right hn⟩
      have hrest := ih hupdate (used + 2 + (putPstring name).length)
      rw [if_neg (by simpa using hmem)]
      simp only [List.length_append, length_ofWord, length_putPstring] at hrest ⊢
      omega

/-- A ZI-Rsp whose names leave room for its head is within the limit. -/
theorem ziRsp_small {zones : List (UInt16 × Str)}
    (h : leavesHead (zones.map Prod.snd)) (extended : Option UInt16) :
    (Cmd.ziRsp extended zones).encodeBody.length ≤ MAX_BODY := by
  have hnames : (encodeZones (fun _ => none) 0 zones).length ≤ takenBy [] (zones.map Prod.snd) :=
    length_encodeZones_taken (by simp) 0 zones
  have hroom := of_decide_eq_true h
  unfold Cmd.encodeBody encodeZiRsp
  cases extended <;> simp only [List.length_append, length_ofWord] <;> omega

/-- Packets that are closed and a packet that is open, with what it is counted for. -/
structure ZiPacked (r : List Cmd × List (UInt16 × Str) × ℕ) : Prop where
  closed : ∀ cmd ∈ r.1, cmd.encodeBody.length ≤ MAX_BODY
  used : r.2.2 = countedFor (r.2.1.map Prod.snd)

theorem ZiPacked.empty : ZiPacked ([], [], 0) := ⟨by simp, rfl⟩

theorem countedFor_append (a b : List Str) :
    countedFor (a ++ b) = countedFor a + countedFor b := by
  simp [countedFor]

/-- The open packet closes within the limit if it leaves room for its head. -/
theorem ZiPacked.close {r : List Cmd × List (UInt16 × Str) × ℕ} (h : ZiPacked r)
    (hroom : leavesHead (r.2.1.map Prod.snd)) (extended : Option UInt16) :
    ∀ cmd ∈ r.1 ++ [.ziRsp extended r.2.1], cmd.encodeBody.length ≤ MAX_BODY := by
  refine List.forall_mem_append.2 ⟨h.closed, List.forall_mem_singleton.2 ?_⟩
  exact ziRsp_small hroom extended

/-- The last packet goes out if it has any name. -/
theorem ZiPacked.last {r : List Cmd × List (UInt16 × Str) × ℕ} (h : ZiPacked r)
    (hroom : leavesHead (r.2.1.map Prod.snd)) (extended : Option UInt16) :
    ∀ cmd ∈ if r.2.1 = [] then r.1 else r.1 ++ [.ziRsp extended r.2.1],
      cmd.encodeBody.length ≤ MAX_BODY := by
  split_ifs
  · exact h.closed
  · exact h.close hroom extended

/-- What is still to be packed leaves every packet room for its head. -/
def ZiPacked.Leaves {α : Type} (room : List Str → List α → Bool)
    (r : List Cmd × List (UInt16 × Str) × ℕ) (rest : List α) : Prop :=
  ZiPacked r ∧ room (r.2.1.map Prod.snd) rest

theorem ziChunks_small (net : UInt16) {names : List Str} (h : namesLeaveHead [] names) :
    ∀ cmd ∈ ziChunks net names, cmd.encodeBody.length ≤ MAX_BODY := by
  unfold ziChunks
  dsimp only
  generalize UInt16.ofNat names.length = count
  generalize hr : List.foldl _ _ names = r
  have hleaves : ZiPacked.Leaves namesLeaveHead r [] := by
    rw [← hr]
    refine Packing.foldl_consumes (fun r n ns hr => ?_) ⟨.empty, h⟩
    obtain ⟨hpacked, hroom⟩ := hr
    unfold namesLeaveHead at hroom
    rw [← hpacked.used] at hroom
    by_cases hover : MAX_BODY < r.2.2 + (3 + utf8Len n)
    · rw [if_pos hover, Bool.and_eq_true] at hroom
      by_cases hpage : r.2.1 = []
      · -- A name too long for any packet is on its own.
        have hused : r.2.2 = 0 := by
          rw [hpacked.used, hpage]
          rfl
        rw [if_neg (fun h => h.2 hpage), hpage, hused, Nat.zero_add]
        exact ⟨⟨hpacked.closed, rfl⟩, hroom.2⟩
      · rw [if_pos ⟨hover, hpage⟩]
        exact ⟨⟨hpacked.close hroom.1 _, rfl⟩, hroom.2⟩
    · rw [if_neg hover] at hroom
      rw [if_neg (fun h => hover h.1)]
      refine ⟨⟨hpacked.closed, ?_⟩, ?_⟩
      · simp [hpacked.used, countedFor]
      · simpa using hroom
  exact hleaves.1.last hleaves.2 _

theorem ziPages_small {nets : List UInt16} {tables : Tables}
    (h : listsLeaveHead [] (nets.map tables.namesHeld)) :
    ∀ cmd ∈ ziPages nets tables, cmd.encodeBody.length ≤ MAX_BODY := by
  unfold ziPages
  dsimp only
  generalize hr : List.foldl _ _ nets = r
  have hleaves : ZiPacked.Leaves (fun page (nets : List UInt16) =>
      listsLeaveHead page (nets.map tables.namesHeld)) r [] := by
    rw [← hr]
    refine Packing.foldl_consumes (fun r net nets hr => ?_) ⟨.empty, h⟩
    obtain ⟨hpacked, hroom⟩ := hr
    dsimp only at hroom
    rw [List.map_cons] at hroom
    have hskip : tables.namesHeld net = [] → ZiPacked.Leaves (fun page nets =>
        listsLeaveHead page (nets.map tables.namesHeld)) r nets := by
      intro hnil
      rw [hnil, listsLeaveHead] at hroom
      exact ⟨hpacked, hroom⟩
    cases hz : tables.zones net with
    | none => exact hskip (by simp [Tables.namesHeld, hz])
    | some z =>
      rw [Tables.namesHeld_of_zones hz] at hroom hskip
      dsimp only
      by_cases hempty : z.names.isEmpty
      · rw [if_pos hempty]
        exact hskip (List.isEmpty_iff.1 hempty)
      rw [if_neg hempty]
      rw [listsLeaveHead_cons _ fun h => hempty (List.isEmpty_iff.2 h), ← hpacked.used] at hroom
      have htotal : (z.names.map fun n => 3 + utf8Len n).sum = countedFor z.names := rfl
      have hpairs : (z.names.map fun n => (net, n)).map Prod.snd = z.names := by simp
      rw [htotal]
      by_cases hlong : MAX_BODY < countedFor z.names
      · rw [if_pos hlong, Bool.and_eq_true, Bool.and_eq_true] at hroom
        rw [if_pos hlong]
        have hchunks := ziChunks_small net hroom.1.2
        by_cases hpage : r.2.1 = []
        · have hused : r.2.2 = 0 := by
            rw [hpacked.used, hpage]
            rfl
          rw [if_pos hpage, hpage, hused]
          exact ⟨⟨List.forall_mem_append.2 ⟨hpacked.closed, hchunks⟩, rfl⟩, hroom.2⟩
        · rw [if_neg hpage]
          exact ⟨⟨List.forall_mem_append.2 ⟨hpacked.close hroom.1.1 _, hchunks⟩, rfl⟩, hroom.2⟩
      · rw [if_neg hlong] at hroom ⊢
        by_cases hover : MAX_BODY < r.2.2 + countedFor z.names
        · rw [if_pos hover, Bool.and_eq_true] at hroom
          by_cases hpage : r.2.1 = []
          · rw [hpacked.used, hpage] at hover
            exact absurd (by simpa [countedFor] using hover) hlong
          · rw [if_pos ⟨hover, hpage⟩]
            exact ⟨⟨hpacked.close hroom.1 _, by rw [hpairs]⟩, by rw [hpairs]; exact hroom.2⟩
        · rw [if_neg hover] at hroom
          rw [if_neg (fun h => hover h.1)]
          refine ⟨⟨hpacked.closed, ?_⟩, ?_⟩
          · rw [List.map_append, hpairs, countedFor_append, hpacked.used]
          · rw [List.map_append, hpairs]
            exact hroom
  exact hleaves.1.last hleaves.2 _

namespace Peer

/-! ### What an entry sends -/

/-- All that is to be sent on the connection the peer opened, and again, is within the limit; the
pending events are not looked at. -/
structure Small (p : Peer) : Prop where
  pages : ∀ page ∈ p.pages, ∀ last, (Cmd.riRsp last page).encodeBody.length ≤ MAX_BODY
  outstanding : ∀ o ∈ p.outstanding, Aurp.Small o.bytes

theorem Small.same {p q : Peer} (h : p.Small) (hs : p.SameSender q) : q.Small := by
  have hpages : q.pages = p.pages := congrArg Sending.pages hs.1
  have ho : q.outstanding = p.outstanding := congrArg Sending.outstanding hs.1
  exact ⟨hpages ▸ h.pages, ho ▸ h.outstanding⟩

/-- Nothing waits to be sent. -/
theorem small_of_idle {p : Peer} (hp : p.pages = []) (ho : p.outstanding = none) : p.Small :=
  ⟨by simp [hp], by simp [ho]⟩

/-- The entry is fit to go on, and all it sends is within the limit. -/
def SendsSmall (q : Peer) (acts : List Action) : Prop := q.Small ∧ ∀ a ∈ acts, a.Small

theorem SendsSmall.nothing {q : Peer} (h : q.Small) : q.SendsSmall [] := ⟨h, by simp⟩

theorem send_small (p : Peer) (conn seq : UInt16) {cmd : Cmd}
    (h : cmd.encodeBody.length ≤ MAX_BODY) : (p.send conn seq cmd).Small :=
  ⟨_, conn, seq, cmd, rfl, h⟩

theorem sends_small (p : Peer) (conn seq : UInt16) {cmds : List Cmd}
    (h : ∀ cmd ∈ cmds, cmd.encodeBody.length ≤ MAX_BODY) :
    ∀ a ∈ cmds.map (p.send conn seq), a.Small := by
  intro a ha
  obtain ⟨cmd, hcmd, rfl⟩ := List.mem_map.1 ha
  exact p.send_small conn seq (h cmd hcmd)

theorem SendsSmall.send {q : Peer} (h : q.Small) (p : Peer) (conn seq : UInt16) {cmd : Cmd}
    (hcmd : cmd.encodeBody.length ≤ MAX_BODY) : q.SendsSmall [p.send conn seq cmd] :=
  ⟨h, List.forall_mem_singleton.2 (p.send_small conn seq hcmd)⟩

theorem sendSequenced_small {p : Peer} {cmd : Cmd} (nets : List UInt16) (now : Instant)
    (hpages : ∀ page ∈ p.pages, ∀ last, (Cmd.riRsp last page).encodeBody.length ≤ MAX_BODY)
    (hcmd : cmd.encodeBody.length ≤ MAX_BODY) :
    (p.sendSequenced cmd nets now).1.SendsSmall (p.sendSequenced cmd nets now).2.acts := by
  have hbytes : Aurp.Small (p.bytes p.connRemote (succ p.seqSend) cmd) := ⟨_, _, _, cmd, rfl, hcmd⟩
  refine ⟨⟨hpages, fun o ho => ?_⟩, List.forall_mem_singleton.2 hbytes⟩
  obtain rfl := Option.some.inj ho
  exact hbytes

theorem openRsp_small (p : Peer) (conn : UInt16) (code : Int16) : (p.openRsp conn code).Small :=
  p.send_small conn 0 (show 2 + 1 ≤ MAX_BODY by decide)

theorem open_small (p : Peer) (now : Instant) : ∀ a ∈ (p.open now).2.acts, a.Small :=
  List.forall_mem_singleton.2 (p.send_small p.connLocal 0 (show 2 + 1 ≤ MAX_BODY by decide))

theorem openReq_small {p : Peer} (h : p.Small) (conn version : UInt16)
    (options : List (UInt8 × Bytes)) (now : Instant) :
    (p.openReq conn version options now).1.SendsSmall
      (p.openReq conn version options now).2.acts := by
  unfold openReq
  dsimp only
  split_ifs
  · exact ⟨h, List.forall_mem_singleton.2 (p.openRsp_small conn _)⟩
  · exact ⟨h, List.forall_mem_singleton.2 (p.openRsp_small conn _)⟩
  · obtain ⟨hq, hacts⟩ := sendSequenced_small (p := { p with probing := true }) [] now h.pages
      (show nullUpd.encodeBody.length ≤ MAX_BODY by decide)
    exact ⟨⟨hq.pages, hq.outstanding⟩, hacts⟩
  · exact .nothing h
  · refine ⟨small_of_idle rfl rfl, List.forall_mem_append.2 ⟨?_, open_small _ now⟩⟩
    exact List.forall_mem_singleton.2 (openRsp_small _ conn 1)
  · exact ⟨small_of_idle rfl rfl, List.forall_mem_singleton.2 (openRsp_small _ conn 1)⟩

theorem sendPage_small {p : Peer} (h : p.Small) (now : Instant) :
    (p.sendPage now).1.SendsSmall (p.sendPage now).2.acts := by
  have hpages := h.pages
  unfold sendPage
  cases hp : p.pages with
  | nil => exact .nothing h
  | cons tuples rest =>
    rw [hp] at hpages
    obtain ⟨hfirst, hrest⟩ := List.forall_mem_cons.1 hpages
    obtain ⟨hq, hacts⟩ := sendSequenced_small (p := { p with pages := rest })
      (tuples.map fun t => t.range.1) now hrest (hfirst rest.isEmpty)
    exact ⟨⟨hq.pages, hq.outstanding⟩, hacts⟩

theorem riAck_small {p : Peer} (h : p.Small) (seq : UInt16) (szi : Bool) (tables : Tables)
    (now : Instant) (hroom : ∀ nets ∈ p.zonesAsked p.connRemote seq (.riAck szi),
      listsLeaveHead [] (nets.map tables.namesHeld)) :
    (p.riAck seq szi tables now).1.SendsSmall (p.riAck seq szi tables now).2.acts := by
  have hzones : ∀ o, p.outstanding = some o → o.seq = seq →
      ∀ a ∈ (p.zonesFor szi o.nets tables).acts, a.Small := by
    intro o ho hseq
    unfold zonesFor
    cases szi with
    | false => simp
    | true => exact p.sends_small p.connRemote 0 (ziPages_small (hroom o.nets (by
        simp [zonesAsked, ho, hseq])))
  have hack := p.riAck_acked seq szi tables now
  generalize p.riAck seq szi tables now = r at hack ⊢
  cases hack with
  | ignored => exact .nothing h
  | paged ho hseq =>
    obtain ⟨hsmall, hacts⟩ := sendPage_small (p := { p with outstanding := none })
      ⟨h.pages, by simp⟩ now
    exact ⟨hsmall, List.forall_mem_append.2 ⟨hzones _ ho hseq, hacts⟩⟩
  | closed ho hseq => exact ⟨small_of_idle rfl rfl, hzones _ ho hseq⟩
  | idle ho hseq => exact ⟨⟨h.pages, by simp⟩, hzones _ ho hseq⟩
  | unawaited ho hseq => exact ⟨⟨h.pages, by simp⟩, hzones _ ho hseq⟩

theorem riAck_reply_small (p : Peer) (conn seq : UInt16) (szi : Bool) :
    (p.send conn seq (.riAck szi)).Small :=
  p.send_small conn seq (Nat.zero_le _)

theorem sequenced_small {p : Peer} (h : p.Small) (conn seq : UInt16) (last : Bool) (tables : Tables)
    (now : Instant) (apply : Tables × List RouteChange) (szi : Bool) :
    (p.sequenced conn seq last tables now apply szi).peer.SendsSmall
      (p.sequenced conn seq last tables now apply szi).out.acts := by
  refine ⟨h.same (p.sequenced_sameSender conn seq last tables now apply szi), ?_⟩
  unfold sequenced
  dsimp only
  split
  · exact List.forall_mem_singleton.2 (riAck_reply_small _ conn seq szi)
  · exact List.forall_mem_singleton.2 (riAck_reply_small _ conn seq true)
  · simp
  · simp

/-- **A routing packet** is answered within the limit, if the zones it asks for are. -/
theorem routing_small {p : Peer} (h : p.Small) (conn seq : UInt16) (cmd : Cmd) (tables : Tables)
    (now : Instant) (hroom : ∀ nets ∈ p.zonesAsked conn seq cmd,
      listsLeaveHead [] (nets.map tables.namesHeld)) :
    (p.routing conn seq cmd tables now).peer.SendsSmall
      (p.routing conn seq cmd tables now).out.acts := by
  have hsame : ∀ q : Peer, p.SameSender q → q.SendsSmall [] := fun q hq => .nothing (h.same hq)
  unfold routing
  dsimp only
  cases cmd with
  | openReq sui version options => exact openReq_small h conn version options now
  | riReq sui =>
    dsimp only
    split_ifs
    · exact sendPage_small (p := { p with
        seqSend := 0, outstanding := none, pages := splitTuples tables.export })
        ⟨splitTuples_small _, by simp⟩ now
    · exact hsame p .rfl
  | riAck szi =>
    dsimp only
    split_ifs with hc
    · subst hc
      exact riAck_small h seq szi tables now hroom
    · exact hsame p .rfl
  | tickle =>
    dsimp only
    split_ifs
    · exact ⟨h, p.sends_small conn 0 (by simp [Cmd.encodeBody])⟩
    · exact hsame p .rfl
  | ziReq nets =>
    dsimp only
    split_ifs with hc
    · exact ⟨h, p.sends_small conn 0 (ziPages_small (hroom nets (if_pos hc)))⟩
    · exact hsame p .rfl
  | gznReq zone =>
    dsimp only
    split_ifs
    · refine ⟨h, p.sends_small conn 0 (List.forall_mem_singleton.2 ?_)⟩
      have hlen := length_putPstring zone
      have hmax : (1400 : ℕ) = MAX_BODY := rfl
      simp only [Cmd.encodeBody, List.length_append, length_ofWord]
      omega
    · exact hsame p .rfl
  | gdzlReq start =>
    dsimp only
    split_ifs
    · exact ⟨h, p.sends_small conn 0 (List.forall_mem_singleton.2 (by decide))⟩
    · exact hsame p .rfl
  | openRsp env rateOrErr options =>
    dsimp only
    split_ifs
    · exact hsame _ ⟨rfl, rfl⟩
    · refine ⟨h.same ⟨rfl, rfl⟩, List.forall_mem_singleton.2 ?_⟩
      exact send_small _ _ 0 (Nat.zero_le _)
    · exact hsame p .rfl
  | riRsp last tuples =>
    dsimp only
    split_ifs
    · exact sequenced_small h _ _ _ _ _ _ _
    · exact hsame p .rfl
  | riUpd events =>
    dsimp only
    split_ifs
    · exact sequenced_small h _ _ _ _ _ _ _
    · exact hsame p .rfl
  | rd code =>
    dsimp only
    split_ifs
    · refine ⟨small_of_idle rfl rfl, List.forall_mem_singleton.2 ?_⟩
      exact p.riAck_reply_small conn seq false
    · exact hsame p .rfl
  | ziRsp extended zones =>
    dsimp only
    split_ifs
    · exact hsame _ ⟨rfl, rfl⟩
    · exact hsame p .rfl
  | tickleAck =>
    dsimp only
    split_ifs
    · exact hsame _ ⟨rfl, rfl⟩
    · exact hsame p .rfl
  | gznRsp zone tuples => exact hsame p .rfl
  | gdzlRsp last start zones => exact hsame p .rfl

/-! ### Timers -/

/-- The timers are to send the pending events: the peer is connected and has acknowledged all it
was sent, its last RI-Upd is long enough ago, and it is not to be probed. -/
def updateDue (p : Peer) (now : Instant) : Bool :=
  p.sender = .connected ∧ p.outstanding = none ∧ UPDATE_INTERVAL ≤ since now p.lastUpdate ∧
    ¬(p.receiver = .waitTickleAck ∧ RETRY ≤ since now p.recvAt ∧ TICKLE_RETRIES ≤ p.recvTries)

/-- The octets of the pending events. -/
def pendingOctets (p : Peer) : ℕ :=
  (p.pending.map fun e => if e.code = 0 then 1 else if e.tuple.extended then 6 else 4).sum

theorem length_riUpd_pending (p : Peer) :
    (Cmd.riUpd p.pending).encodeBody.length = p.pendingOctets := by
  simp [Cmd.encodeBody, pendingOctets, List.length_flatMap, EventTuple.length_encodeEvent]

theorem senderTimers_small {p : Peer} (h : p.Small) (now : Instant)
    (hroom : p.sender = .connected → p.outstanding = none →
      UPDATE_INTERVAL ≤ since now p.lastUpdate → p.pendingOctets ≤ MAX_BODY) :
    (p.senderTimers now).1.SendsSmall (p.senderTimers now).2.acts := by
  have htimed := p.senderTimers_timed now
  generalize p.senderTimers now = r at htimed ⊢
  cases htimed with
  | waiting | idle => exact .nothing h
  | spent => exact .nothing (small_of_idle rfl rfl)
  | @again o ho =>
    have hsmall := h.outstanding o ho
    refine ⟨⟨h.pages, fun o' ho' => ?_⟩, List.forall_mem_singleton.2 hsmall⟩
    obtain rfl := Option.some.inj ho'
    exact hsmall
  | updated ho hs _ hdue hr =>
    have hbody := p.length_riUpd_pending.trans_le (hroom hs ho hdue)
    obtain ⟨hq, hacts⟩ := sendSequenced_small (p := { p with pending := [], lastUpdate := now })
      ((p.pending.filter fun e => e.code = NA).map fun e => e.tuple.range.1) now h.pages hbody
    rw [hr]
    exact ⟨⟨hq.pages, hq.outstanding⟩, hacts⟩

theorem receiverTimers_small {p : Peer} (h : p.Small) (tables : Tables) (now : Instant) :
    (p.receiverTimers tables now).peer.SendsSmall (p.receiverTimers tables now).out.acts := by
  have hretry : ∀ cmd, cmd.encodeBody.length ≤ MAX_BODY →
      (p.retry cmd now).1.SendsSmall (p.retry cmd now).2.acts := fun cmd hcmd =>
    ⟨h.same ⟨rfl, rfl⟩, List.forall_mem_singleton.2 (p.send_small p.connLocal 0 hcmd)⟩
  have hclose : p.closeReceiver.Small := h.same ⟨rfl, rfl⟩
  have htimed := p.receiverTimers_timed tables now
  generalize p.receiverTimers tables now = r at htimed ⊢
  cases htimed with
  | idle => exact .nothing h
  | unanswered | lost => exact .nothing hclose
  | reopened | asked | retested => exact hretry _ (by decide)
  | tested => exact ⟨h.same ⟨rfl, rfl⟩, List.forall_mem_singleton.2 (p.send_small _ 0 (by decide))⟩
  | probed =>
    obtain ⟨hq, hacts⟩ := sendSequenced_small (p := p.closeReceiver) [] now hclose.pages
      (show nullUpd.encodeBody.length ≤ MAX_BODY by decide)
    exact ⟨⟨hq.pages, hq.outstanding⟩, List.forall_mem_append.2 ⟨by simp, hacts⟩⟩

/-- If the update is due once the other timers have run, it was due before, with the same events:
the probe of a peer that answers no tickles puts it off. -/
theorem receiverTimers_due (p : Peer) (tables : Tables) (now : Instant)
    (hs : (p.receiverTimers tables now).peer.sender = .connected)
    (ho : (p.receiverTimers tables now).peer.outstanding = none)
    (hu : UPDATE_INTERVAL ≤ since now (p.receiverTimers tables now).peer.lastUpdate) :
    p.updateDue now ∧
      (p.receiverTimers tables now).peer.pendingOctets = p.pendingOctets := by
  have hdue : p.sender = .connected → p.outstanding = none →
      UPDATE_INTERVAL ≤ since now p.lastUpdate →
      ¬(p.receiver = .waitTickleAck ∧ RETRY ≤ since now p.recvAt ∧ TICKLE_RETRIES ≤ p.recvTries) →
      p.updateDue now := fun h1 h2 h3 h4 => decide_eq_true ⟨h1, h2, h3, h4⟩
  have htimed := p.receiverTimers_timed tables now
  generalize p.receiverTimers tables now = r at htimed hs ho hu ⊢
  cases htimed with
  | idle _ hwait =>
    refine ⟨hdue hs ho hu fun h => ?_, rfl⟩
    exact absurd h.2.1 (Nat.not_le.2 (hwait (by simp [h.1]) (by simp [h.1])))
  | unanswered hr =>
    refine ⟨hdue hs ho hu fun h => ?_, rfl⟩
    rcases hr with hr | hr <;> cases hr.symm.trans h.1
  | reopened hr | asked hr | tested hr =>
    exact ⟨hdue hs ho hu fun h => (by cases hr.symm.trans h.1), rfl⟩
  | retested _ _ htries => exact ⟨hdue hs ho hu fun h => absurd h.2.2 (Nat.not_le.2 htries), rfl⟩
  | lost _ _ _ hs' => exact absurd hs hs'
  | probed => cases hs

theorem ziRerequest_small (p : Peer) (tables : Tables) :
    ∀ a ∈ (p.ziRerequest tables).acts, a.Small := by
  unfold ziRerequest
  dsimp only
  split_ifs
  · simp
  · intro a ha
    obtain ⟨chunk, hchunk, rfl⟩ := List.mem_map.1 ha
    refine p.send_small p.connLocal 0 ?_
    -- Two octets a network, behind the subcode.
    have hlen := Packing.length_of_mem_toChunks (by decide) hchunk
    have hmax : (1400 : ℕ) = MAX_BODY := rfl
    simp only [Cmd.encodeBody, List.length_append, length_ofWord, List.length_flatMap,
      List.map_const', List.sum_replicate_nat]
    omega

/-- The scan leaves everything an update is due by alone. -/
theorem reconnect_small {p : Peer} (h : p.Small) (scan : Bool) (now : Instant) :
    (if scan then p.reconnect now else (p, .nil)).1.SendsSmall
        (if scan then p.reconnect now else (p, .nil)).2.acts ∧
      ((if scan then p.reconnect now else (p, .nil)).1.updateDue now → p.updateDue now) ∧
        (if scan then p.reconnect now else (p, .nil)).1.pendingOctets = p.pendingOctets := by
  rcases p.scan_cases scan now with hscan | ⟨-, hu, hscan⟩
  · rw [hscan]
    exact ⟨.nothing h, id, rfl⟩
  · rw [hscan]
    refine ⟨⟨h.same ⟨rfl, rfl⟩, open_small p now⟩, fun hdue => ?_, rfl⟩
    obtain ⟨hs, ho, hlast, -⟩ := of_decide_eq_true hdue
    exact decide_eq_true ⟨hs, ho, hlast, fun hwait => (by cases hu.symm.trans hwait.1)⟩

/-- **A peer's share of a tick** is within the limit, if the events that are due are. -/
theorem timers_small {p : Peer} (h : p.Small) (scan zi : Bool) (tables : Tables) (now : Instant)
    (hroom : p.updateDue now → p.pendingOctets ≤ MAX_BODY) :
    (p.timers scan zi tables now).peer.SendsSmall (p.timers scan zi tables now).out.acts := by
  obtain ⟨⟨ha, haacts⟩, hadue, hapending⟩ := reconnect_small h scan now
  unfold timers
  generalize (if scan then p.reconnect now else (p, .nil)) = a at *
  dsimp only
  obtain ⟨hb, hbacts⟩ := receiverTimers_small ha tables now
  obtain ⟨hc, hcacts⟩ := senderTimers_small hb now fun hs ho hu => by
    obtain ⟨hdue, hpending⟩ := receiverTimers_due a.1 tables now hs ho hu
    rw [hpending, hapending]
    exact hroom (hadue hdue)
  refine ⟨hc, ?_⟩
  unfold report
  dsimp only
  simp only [Out.append_acts, List.forall_mem_append]
  refine ⟨⟨⟨⟨⟨haacts, hbacts⟩, hcacts⟩, ?_⟩, ?_⟩, ?_⟩
  · split_ifs
    · exact ziRerequest_small _ _
    · simp
  · split_ifs <;> simp
  · split_ifs <;> simp

theorem shut_small {p : Peer} (h : p.Small) (now : Instant) : (p.shut now).Small := by
  unfold shut
  split_ifs
  · exact h
  · obtain ⟨hq, -⟩ := sendSequenced_small (p := { p with outstanding := none, pages := [] }) [] now
      (by simp) (show (Cmd.rd (-1)).encodeBody.length ≤ MAX_BODY by decide)
    exact ⟨hq.pages, hq.outstanding⟩

end Peer

namespace Peers

/-! ### What the peers send -/

/-- A call asks for nothing too long: the zones a packet asks for leave their ZI-Rsps room for the
head, and the events a tick is to send fit one RI-Upd. -/
def LeavesRoom (s : Peers) (c : Call × Instant) : Prop :=
  match c.1 with
  | .packet «from» bytes tables =>
    ∀ p dh conn seq cmd, s.entry «from» = some p →
      Aurp.parse bytes = some (.routing dh conn seq cmd) →
        ∀ nets ∈ p.zonesAsked conn seq cmd, listsLeaveHead [] (nets.map tables.namesHeld)
  | .tick _ => ∀ ip p, s.entry ip = some p → p.updateDue c.2 → p.pendingOctets ≤ MAX_BODY
  | _ => True

/-- Every entry is fit to go on. -/
def AllSmall (s : Peers) : Prop := ∀ ip p, s.entry ip = some p → p.Small

theorem deliver_small {s : Peers} {p : Peer} (h : p.Small) («from» : Ipv4Addr) (pkt : Aurp)
    (tables : Tables) (now : Instant)
    (hroom : ∀ dh conn seq cmd, pkt = .routing dh conn seq cmd →
      ∀ nets ∈ p.zonesAsked conn seq cmd, listsLeaveHead [] (nets.map tables.namesHeld)) :
    (p.received «from» pkt tables now).Small ∧
      ∀ a ∈ (s.deliver p «from» pkt tables now).acts, a.Small := by
  cases pkt with
  | data dh ddp => exact ⟨⟨h.pages, h.outstanding⟩, by simp [deliver]⟩
  | routing dh conn seq cmd =>
    have hn : (p.named dh «from»).Small := ⟨h.pages, h.outstanding⟩
    obtain ⟨hq, hacts⟩ := Peer.routing_small hn conn seq cmd tables now (hroom dh conn seq cmd rfl)
    refine ⟨hq, ?_⟩
    unfold deliver Peer.report
    dsimp only
    refine List.forall_mem_append.2 ⟨List.forall_mem_append.2 ⟨hacts, ?_⟩, ?_⟩
    · split_ifs <;> simp
    · split_ifs <;> simp

/-- A new entry is asked for nothing. -/
theorem new_zonesAsked (ip : Ipv4Addr) (configured : Option Str) (conn : UInt16) («local» : Di)
    (now : Instant) (c seq : UInt16) (cmd : Cmd) :
    (Peer.new ip configured conn «local» now).zonesAsked c seq cmd = none := by
  unfold Peer.zonesAsked
  split
  · have hnot : (Peer.new ip configured conn «local» now).onSender c = false := by
      simp [Peer.onSender, Peer.new]
    rw [hnot, if_neg Bool.false_ne_true]
  · split_ifs <;> rfl
  · rfl

theorem small_new (ip : Ipv4Addr) (configured : Option Str) (conn : UInt16) («local» : Di)
    (now : Instant) : (Peer.new ip configured conn «local» now).Small :=
  Peer.small_of_idle rfl rfl

theorem AllSmall.next {s : Peers} (h : s.AllSmall) {c : Call × Instant} (hroom : s.LeavesRoom c) :
    (s.next c).AllSmall := by
  intro ip q hq
  obtain ⟨p, hp, hchange⟩ := entry_next hq
  have hsmall : p.Small := by
    rcases hp with hp | ⟨-, configured, rfl⟩
    · exact h ip p hp
    · exact small_new _ _ _ _ _
  cases hchange with
  | kept => exact hsmall
  | named name => exact ⟨hsmall.pages, hsmall.outstanding⟩
  | taken => exact ⟨hsmall.pages, hsmall.outstanding⟩
  | received bytes tables pkt hc hpkt =>
    refine (deliver_small (s := s) hsmall ip pkt tables c.2 fun dh conn seq cmd hcmd => ?_).1
    rcases hp with hp | ⟨-, configured, rfl⟩
    · unfold LeavesRoom at hroom
      rw [hc] at hroom
      exact hroom p dh conn seq cmd hp (hcmd ▸ hpkt)
    · simp [new_zonesAsked]
  | timed scan tables hc =>
    rcases hp with hp | ⟨-, configured, rfl⟩
    · unfold LeavesRoom at hroom
      rw [hc] at hroom
      have := (Peer.timers_small hsmall scan false tables c.2 (hroom ip p hp)).1
      rwa [Peer.timers_peer] at this
    · have := (Peer.timers_small hsmall scan false tables c.2 fun _ => Nat.zero_le _).1
      rwa [Peer.timers_peer] at this
  | heard evs =>
    unfold Peer.hear
    split_ifs
    · exact hsmall
    · exact ⟨hsmall.pages, hsmall.outstanding⟩
  | pinged => exact hsmall.same (p.pinged_sameSender c.2)
  | shut _ => exact Peer.shut_small hsmall c.2

theorem turnAway_small (s : Peers) («from» : Ipv4Addr) (line : String) (tables : Tables)
    (now : Instant) : ∀ a ∈ (s.turnAway «from» line tables now).acts, a.Small := by
  unfold turnAway
  dsimp only
  split_ifs <;> simp

/-- **What a call sends** is within the limit, if it asks for nothing too long. -/
theorem call_small {s : Peers} (h : s.AllSmall) {c : Call × Instant} (hroom : s.LeavesRoom c) :
    ∀ a ∈ (s.call c).2, a.Small := by
  obtain ⟨c, now⟩ := c
  unfold LeavesRoom at hroom
  cases c with
  | packet «from» bytes tables =>
    dsimp only at hroom
    show ∀ a ∈ (s.packet «from» bytes tables now).acts, a.Small
    unfold packet
    cases hpkt : Aurp.parse bytes with
    | none => simp
    | some pkt =>
      dsimp only
      cases hp : s.peers.get? «from» with
      | some p =>
        exact (deliver_small (h «from» p hp) «from» pkt tables now fun dh conn seq cmd hcmd =>
          hroom p dh conn seq cmd hp (hcmd ▸ hpkt)).2
      | none =>
        dsimp only
        split_ifs
        · exact turnAway_small s «from» _ tables now
        · exact turnAway_small s «from» _ tables now
        · have hnew := deliver_small (s := s.create «from» none now)
            (small_new «from» none s.nextConn s.local now) «from» pkt tables now
            fun _ _ _ _ _ => by simp [new_zonesAsked]
          exact hnew.2
  | tick tables =>
    refine SortedMap.mapAccum_keeps (I := fun a : Tables × List Action × List RouteChange =>
      ∀ x ∈ a.2.1, x.Small) s.peers (by simp) fun a ip p hp hacts => ?_
    exact List.forall_mem_append.2
      ⟨hacts, (Peer.timers_small (h ip p hp) _ _ a.1 now (hroom ip p hp)).2⟩
  | ping =>
    refine SortedMap.mapAccum_keeps (I := fun acts : List Action => ∀ x ∈ acts, x.Small) s.peers
      (by simp) fun acts ip p _ hacts => ?_
    have hsend : ∀ x ∈ acts ++ [p.send p.connLocal 0 .tickle], x.Small :=
      List.forall_mem_append.2 ⟨hacts, List.forall_mem_singleton.2
        (p.send_small _ 0 (Nat.zero_le _))⟩
    cases p.receiver with
    | connected => exact hsend
    | waitTickleAck => exact hsend
    | _ => exact hacts
  | shutdown =>
    refine SortedMap.mapAccum_keeps (I := fun acts : List Action => ∀ x ∈ acts, x.Small) s.peers
      (by simp) fun acts ip p hp hacts => ?_
    dsimp only
    split_ifs
    · exact hacts
    · refine List.forall_mem_append.2 ⟨hacts, ?_⟩
      exact (Peer.sendSequenced_small (p := { p with outstanding := none, pages := [] }) [] now
        (by simp) (show (Cmd.rd (-1)).encodeBody.length ≤ MAX_BODY by decide)).2
  | routeChanged | resolved | pingReport => simp [call]

/-- The body of every routing packet among the actions is within the limit. -/
def NothingFragments (acts : List Action) : Prop :=
  ∀ ip dh conn seq cmd, .toPeer ip (Aurp.routing dh conn seq cmd).toBytes ∈ acts →
    cmd.encodeBody.length ≤ MAX_BODY

/-- **Nothing fragments** in a run of calls that ask for nothing too long. -/
theorem nothing_fragments («local» : Di) (openPeering : Bool) (configured : List Str)
    (nanos : UInt16) (start : Instant) (cs : List (Call × Instant)) (c : Call × Instant)
    (hcs : Machine.Guarded next LeavesRoom (new «local» openPeering configured nanos start)
      (cs ++ [c])) :
    NothingFragments (((new «local» openPeering configured nanos start).after cs).call c).2 := by
  obtain ⟨hrun, hlast, -⟩ := Machine.Guarded.append.1 hcs
  have hsmall := hrun.invariant (I := AllSmall) (fun s c h hc => h.next hc)
    (fun ip p hp => by cases hp)
  intro ip dh conn seq cmd hmem
  obtain ⟨dh', conn', seq', cmd', hbytes, hlen⟩ := call_small hsmall hlast _ hmem
  rwa [Aurp.length_body hbytes]

/-- Forty zones whose names are as long as can be. -/
def longNames : List Str :=
  (List.range 40).map fun i => Char.ofNat (48 + i) :: List.replicate 31 'z'

/-- A network of our own with those zones. -/
def zoned : Tables := Tables.new.addPort 0 (5, 5) true longNames 0

theorem zoned_names (net : UInt16) : ∀ n ∈ zoned.namesHeld net, n.length ≤ 32 := by
  have hlong : ∀ n ∈ longNames, n.length ≤ 32 := by decide
  unfold Tables.namesHeld Tables.zones zoned Tables.addPort
  dsimp only
  by_cases hnet : net = 5
  · subst hnet
    rw [Function.update_self]
    exact hlong
  · rw [Function.update_of_ne hnet]
    simp [Tables.new]

/-- The stranger asks for them. -/
def asksZones : Call × Instant :=
  (.packet ⟨192, 0, 2, 1⟩ (peerPacket 7 0 (.ziReq [5])) zoned, 0)

/-- One packet of all the forty names. -/
def allZones : Cmd := .ziRsp none (longNames.map fun n => (5, n))

/-- The forty names go out in one ZI-Rsp, whose body is 1404 octets. -/
theorem ziRsp_overshoots :
    ¬∀ (cs : List (Call × Instant)) (ip : Ipv4Addr) (bytes : Bytes) (tables : Tables)
        (now : Instant), (∀ net, ∀ n ∈ tables.namesHeld net, n.length ≤ 32) →
      NothingFragments ((welcoming.after cs).call (.packet ip bytes tables, now)).2 := by
  intro h
  have hacts : ((welcoming.after [opens 7]).call asksZones).2 =
      [.toPeer ⟨192, 0, 2, 1⟩ (Aurp.routing ⟨.ip ⟨192, 0, 2, 1⟩, .ip ⟨192, 0, 2, 9⟩⟩ 7 0
        allZones).toBytes] := by decide +kernel
  have hlong : ¬allZones.encodeBody.length ≤ MAX_BODY := by decide +kernel
  refine hlong (h [opens 7] ⟨192, 0, 2, 1⟩ (peerPacket 7 0 (.ziReq [5])) zoned 0 zoned_names
    ⟨192, 0, 2, 1⟩ ⟨.ip ⟨192, 0, 2, 1⟩, .ip ⟨192, 0, 2, 9⟩⟩ 7 0 allZones ?_)
  show _ ∈ ((welcoming.after [opens 7]).call asksZones).2
  rw [hacts]
  exact List.mem_singleton_self _

/-- Thirty-nine of the names leave room. -/
theorem nothing_fragments_some :
    NothingFragments ((welcoming.after [opens 7]).call
      (.packet ⟨192, 0, 2, 1⟩ (peerPacket 7 0 (.ziReq [5]))
        (Tables.new.addPort 0 (5, 5) true (longNames.take 39) 0), 0)).2 := by
  refine nothing_fragments (.ip ⟨192, 0, 2, 9⟩) true [] 0 0 [opens 7] _
    ⟨fun p dh conn seq cmd hp _ => ?_, fun p dh conn seq cmd hp hpkt nets hnets => ?_, trivial⟩
  · cases hp
  · have hparse : Aurp.parse (peerPacket 7 0 (.ziReq [5])) =
        some (.routing ⟨.null, .null⟩ 7 0 (.ziReq [5])) := by decide +kernel
    rw [hparse] at hpkt
    cases hpkt
    unfold Peer.zonesAsked at hnets
    dsimp only at hnets
    split_ifs at hnets
    · obtain rfl := Option.some.inj hnets
      decide +kernel
    · cases hnets

end Peers

end AppleTalk
