import AppleTalk.Lib.Packing
import AppleTalk.Properties.ServiceSizes
import AppleTalk.Properties.ZoneReplies

/-!
# AURP zone transfer

A ZI-Rsp of subcode 1 has whole lists, several to a packet, and a list that overflows a packet
goes out over ZI-Rsps of subcode 2 that announce its length. Any of the packets may be lost, and
what arrives may arrive in any order and again.
-/

namespace AppleTalk

open Octets

/-! ### On the wire -/

theorem utf8Len_le (s : Str) : utf8Len s ≤ 4 * s.length := by
  unfold utf8Len
  induction s with
  | nil => exact le_rfl
  | cons c s ih =>
    have := c.utf8Size_le_four
    rw [List.map_cons, List.sum_cons, List.length_cons]
    omega

/-- The octets counted for a zone, spelled out. -/
def zoneSize (z : UInt16 × Str) : ℕ := 3 + utf8Len z.2

/-- A name on the wire leaves room for others. -/
theorem zoneSize_le {z : UInt16 × Str} (h : NameOk z.2) : zoneSize z ≤ MAX_BODY := by
  have hlen := utf8Len_le z.2
  have hname := h.1
  unfold zoneSize MAX_BODY
  omega

/-- A name of a ZI-Rsp takes at most what it is counted for, or four octets where it stands for an
earlier one. -/
theorem length_encodeZones_le (seen : Str → Option UInt16) (used : ℕ)
    (zones : List (UInt16 × Str)) :
    (encodeZones seen used zones).length ≤ 2 * (zones.map zoneSize).sum := by
  induction zones generalizing seen used with
  | nil => exact Nat.zero_le _
  | cons z zones ih =>
    obtain ⟨net, name⟩ := z
    have hlen := length_le_utf8Len name
    rw [encodeZones, List.map_cons, List.sum_cons, zoneSize]
    cases seen name with
    | some off =>
      have hrest := ih seen (used + 4)
      simp only [List.length_append, length_ofWord]
      omega
    | none =>
      have hrest := ih (Function.update seen name (some (UInt16.ofNat used)))
        (used + 2 + (putPstring name).length)
      simp only [List.length_append, length_ofWord, length_putPstring] at hrest ⊢
      omega

namespace Cmd

/-- What a ZI-Rsp is to the tables. -/
def page : Cmd → Tables.Page
  | .ziRsp extended zones => (zones, extended.map UInt16.toNat)
  | _ => ([], none)

/-- A ZI-Rsp that was counted within a packet reads back. -/
theorem wireOk_ziRsp {extended : Option UInt16} {zones : List (UInt16 × Str)}
    (hz : ∀ z ∈ zones, NameOk z.2) (h : (zones.map zoneSize).sum ≤ MAX_BODY) :
    (ziRsp extended zones).WireOk := by
  have hzones := length_encodeZones_le (fun _ => none) 0 zones
  unfold MAX_BODY at h
  refine ⟨hz, ?_⟩
  unfold encodeZiRsp
  cases extended <;> simp only [List.length_append, length_ofWord] <;> omega

end Cmd

/-! ### The sender -/

/-- A list that overflows a packet goes out in pieces, in order, that announce its length. -/
theorem ziChunks_eq (net : UInt16) {names : List Str} (h : ∀ n ∈ names, NameOk n) :
    ∃ ps : List (List (UInt16 × Str)),
      ziChunks net names = ps.map (Cmd.ziRsp (some (UInt16.ofNat names.length))) ∧
      ps.flatten = (names.map fun n => (net, n)) ∧
      ∀ q ∈ ps, q ≠ [] ∧ (q.map zoneSize).sum ≤ MAX_BODY := by
  have hfit : ∀ z ∈ names.map fun n => (net, n), 0 + zoneSize z ≤ MAX_BODY := by
    intro z hz
    obtain ⟨n, hn, rfl⟩ := List.mem_map.1 hz
    rw [Nat.zero_add]
    exact zoneSize_le (h n hn)
  have hpacked := Packing.finish_foldl_take zoneSize
    (Cmd.ziRsp (some (UInt16.ofNat names.length))) (Nat.zero_le _) hfit
  simp only [Nat.zero_add] at hpacked
  rw [ziChunks_packs]
  exact hpacked

/-- What a responder sends is a ZI-Rsp, counted within a packet. -/
def Cmd.Fits (cmd : Cmd) : Prop :=
  ∃ extended zones, cmd = .ziRsp extended zones ∧ (zones.map zoneSize).sum ≤ MAX_BODY

namespace Tables

variable {t : Tables} {net : UInt16}

theorem ziPages_fit {nets : List UInt16} (h : ∀ net ∈ nets, ∀ n ∈ t.namesHeld net, NameOk n) :
    ∀ cmd ∈ ziPages nets t, cmd.Fits := by
  unfold ziPages
  dsimp only
  generalize hr : List.foldl _ _ nets = r
  have hfold : (∀ cmd ∈ r.1, cmd.Fits) ∧ r.2.2 = (r.2.1.map zoneSize).sum ∧ r.2.2 ≤ MAX_BODY := by
    rw [← hr]
    refine List.foldlRecOn (motive := fun r : List Cmd × List (UInt16 × Str) × ℕ =>
      (∀ cmd ∈ r.1, cmd.Fits) ∧ r.2.2 = (r.2.1.map zoneSize).sum ∧ r.2.2 ≤ MAX_BODY) nets _
      ⟨by simp, by simp, by decide⟩ fun r hr net hnet => ?_
    obtain ⟨hdone, hused, hfit⟩ := hr
    cases hz : t.zones net with
    | none => exact ⟨hdone, hused, hfit⟩
    | some z =>
      have hflush : ∀ cmd ∈ r.1 ++ [Cmd.ziRsp none r.2.1], cmd.Fits := by
        refine List.forall_mem_append.2 ⟨hdone, ?_⟩
        exact List.forall_mem_singleton.2 ⟨none, r.2.1, rfl, hused ▸ hfit⟩
      have hchunks : ∀ cmd ∈ ziChunks net z.names, cmd.Fits := by
        have hnames := h net hnet
        rw [namesHeld_of_zones hz] at hnames
        obtain ⟨ps, hps, -, hpieces⟩ := ziChunks_eq net hnames
        rw [hps]
        intro cmd hcmd
        obtain ⟨q, hq, rfl⟩ := List.mem_map.1 hcmd
        exact ⟨_, q, rfl, (hpieces q hq).2⟩
      have hsum : ((z.names.map fun n => (net, n)).map zoneSize).sum =
          (z.names.map fun n => 3 + utf8Len n).sum := by
        rw [List.map_map]
        rfl
      dsimp only
      split_ifs with hempty hlong hpage hfull
      · exact ⟨hdone, hused, hfit⟩
      · exact ⟨List.forall_mem_append.2 ⟨hdone, hchunks⟩, hused, hfit⟩
      · exact ⟨List.forall_mem_append.2 ⟨hflush, hchunks⟩, rfl, Nat.zero_le _⟩
      · exact ⟨hflush, hsum.symm, Nat.not_lt.1 hlong⟩
      · refine ⟨hdone, by rw [List.map_append, List.sum_append, hsum, hused], ?_⟩
        dsimp only
        by_cases hnil : r.2.1 = []
        · rw [hused, hnil]
          simpa using hlong
        · exact Nat.not_lt.1 fun hover => hfull ⟨hover, hnil⟩
  split_ifs
  · exact hfold.1
  · refine List.forall_mem_append.2 ⟨hfold.1, ?_⟩
    exact List.forall_mem_singleton.2 ⟨none, _, rfl, hfold.2.1 ▸ hfold.2.2⟩

/-- The ZI-Rsps of a network whose list fits no packet. -/
def ownChunks (t : Tables) (net : UInt16) : List Cmd :=
  match t.zones net with
  | some z => if z.paged then [] else ziChunks net z.names
  | none => []

/-- The ZI-Rsps of subcode 2 are those of the networks that have ZI-Rsps of their own. -/
theorem mem_ziPages_extended {nets : List UInt16} {zones : List (UInt16 × Str)} {count : UInt16} :
    .ziRsp (some count) zones ∈ ziPages nets t ↔
      ∃ net ∈ nets, .ziRsp (some count) zones ∈ t.ownChunks net := by
  unfold ziPages
  dsimp only
  generalize hr : List.foldl _ _ nets = r
  have hfold : .ziRsp (some count) zones ∈ r.1 ↔
      ∃ net ∈ nets, .ziRsp (some count) zones ∈ t.ownChunks net := by
    subst hr
    induction nets using List.reverseRecOn with
    | nil => simp
    | append_singleton nets net ih =>
      simp only [List.mem_append, List.mem_singleton, or_and_right, exists_or, exists_eq_left]
      rw [← ih, List.foldl_append, List.foldl_cons, List.foldl_nil]
      clear ih
      generalize List.foldl _ _ nets = r
      unfold ownChunks
      cases t.zones net with
      | none => simp
      | some z =>
        dsimp only
        by_cases hempty : z.names.isEmpty
        · have hnil : ziChunks net z.names = [] := by
            rw [List.isEmpty_iff.1 hempty]
            rfl
          rw [if_pos hempty, hnil]
          simp
        rw [if_neg hempty, ZoneList.paged, Bool.eq_false_iff.2 hempty, Bool.not_false,
          Bool.true_and]
        by_cases hlong : MAX_BODY < (z.names.map fun n => 3 + utf8Len n).sum
        · rw [if_pos hlong, decide_eq_false (Nat.not_le.2 hlong), if_neg Bool.false_ne_true]
          split_ifs <;> simp
        · rw [if_neg hlong, decide_eq_true (Nat.not_lt.1 hlong), if_pos rfl]
          split_ifs <;> simp
  split_ifs
  · exact hfold
  · rw [List.mem_append, hfold]
    simp

/-- The ZI-Rsps of a network hold its list, in order, and announce its length. -/
theorem ownChunks_eq (h : t.Tellable 65535 net)
    (hpaged : (t.zones net).any ZoneList.paged = false) :
    ∃ (ps : List (List (UInt16 × Str))) (count : UInt16),
      t.ownChunks net = ps.map (Cmd.ziRsp (some count)) ∧
        ps.flatten = ((t.namesHeld net).map fun n => (net, n)) ∧ (∀ q ∈ ps, q ≠ []) ∧
        count.toNat = (t.namesHeld net).length := by
  obtain ⟨z, hz, -, hlen, -, hok⟩ := h
  obtain ⟨ps, hps, hflat, hne⟩ := ziChunks_eq net hok
  rw [namesHeld_of_zones hz]
  refine ⟨ps, UInt16.ofNat z.names.length, ?_, hflat, fun q hq => (hne q hq).1, ?_⟩
  · rw [hz, Option.any_some] at hpaged
    unfold ownChunks
    rw [hz]
    dsimp only
    rw [hpaged, if_neg Bool.false_ne_true, hps]
  · rw [UInt16.toNat_ofNat', Nat.mod_eq_of_lt (by omega)]

theorem ownChunks_of_paged (h : (t.zones net).any ZoneList.paged = true) :
    t.ownChunks net = [] := by
  obtain ⟨z, hz, hpaged⟩ := (Option.any_eq_true _ _).1 h
  unfold ownChunks
  rw [hz]
  dsimp only
  rw [if_pos hpaged]

/-- The ZI-Rsps of a network name no other. -/
theorem ownChunks_names {net' : UInt16} (h : t.Tellable 65535 net') {zones : List (UInt16 × Str)}
    {extended : Option UInt16} (hc : .ziRsp extended zones ∈ t.ownChunks net') {name : Str}
    (hname : (net, name) ∈ zones) : net' = net ∧ (t.zones net').any ZoneList.paged = false := by
  have hpaged : (t.zones net').any ZoneList.paged = false := by
    by_contra hpaged
    rw [ownChunks_of_paged (by simpa using hpaged)] at hc
    cases hc
  obtain ⟨ps, count, hps, hflat, -⟩ := ownChunks_eq h hpaged
  rw [hps] at hc
  obtain ⟨q, hq, he⟩ := List.mem_map.1 hc
  obtain ⟨-, rfl⟩ := Cmd.ziRsp.inj he
  have hmem : (net, name) ∈ ps.flatten := List.mem_flatten.2 ⟨q, hq, hname⟩
  rw [hflat] at hmem
  obtain ⟨n, -, hpair⟩ := List.mem_map.1 hmem
  exact ⟨(Prod.mk.inj hpair).1, hpaged⟩

variable {nets : List UInt16}

/-- A ZI-Rsp names only networks asked about: whole in subcode 1, else over their own. -/
theorem ziRsp_cases (h : ∀ net ∈ nets, t.Tellable 65535 net) {zones : List (UInt16 × Str)}
    {extended : Option UInt16} (hc : .ziRsp extended zones ∈ ziPages nets t) {name : Str}
    (hname : (net, name) ∈ zones) :
    net ∈ nets ∧
      (extended = none ∧ (t.zones net).any ZoneList.paged = true ∧
          (∀ n, (net, n) ∈ zones ↔ n ∈ t.namesHeld net) ∨
        extended ≠ none ∧ (t.zones net).any ZoneList.paged = false ∧
          .ziRsp extended zones ∈ t.ownChunks net) := by
  cases extended with
  | none =>
    obtain ⟨hnet, hwhole⟩ := (ziPages_batched nets t).whole (Or.inl (Cmd.mem_plain.2 hc)) hname
    obtain ⟨hnet, hpaged⟩ := List.mem_filter.1 hnet
    exact ⟨hnet, Or.inl ⟨rfl, hpaged, hwhole⟩⟩
  | some count =>
    obtain ⟨net', hnet', hown⟩ := mem_ziPages_extended.1 hc
    obtain ⟨rfl, hpaged⟩ := ownChunks_names (h net' hnet') hown hname
    exact ⟨hnet', Or.inr ⟨nofun, hpaged, hown⟩⟩

/-- **The ZI-Rsps tell every list asked for.** -/
theorem tells_ziPages (h : ∀ net ∈ nets, t.Tellable 65535 net) (hnet : net ∈ nets) :
    Tells net (t.namesHeld net) ((ziPages nets t).map Cmd.page) := by
  have hfit := ziPages_fit fun net hnet => (h net hnet).nameOk
  have hpage : ∀ page ∈ (ziPages nets t).map Cmd.page, namesOf net page.1 ≠ [] →
      ∃ extended : Option UInt16, .ziRsp extended page.1 ∈ ziPages nets t ∧
        page.2 = extended.map UInt16.toNat ∧ ∃ name, (net, name) ∈ page.1 := by
    intro page hpage hne
    obtain ⟨c, hc, rfl⟩ := List.mem_map.1 hpage
    obtain ⟨extended, zones, rfl, -⟩ := hfit c hc
    obtain ⟨name, hname⟩ := List.exists_mem_of_ne_nil _ hne
    exact ⟨extended, hc, rfl, name, mem_namesOf.1 hname⟩
  cases hpaged : (t.zones net).any ZoneList.paged with
  | true =>
    refine .whole ?_ fun page hmem hne => ?_
    · obtain ⟨zones, hzones | rfl, first, hfirst⟩ := (ziPages_batched nets t).named
        (List.mem_filter.2 ⟨hnet, hpaged⟩) (h net hnet).names_ne_nil
      · exact ⟨_, List.mem_map.2 ⟨_, Cmd.mem_plain.1 hzones, rfl⟩,
          List.ne_nil_of_mem (mem_namesOf.2 hfirst)⟩
      · cases hfirst
    · obtain ⟨extended, hc, htotal, name, hname⟩ := hpage page hmem hne
      obtain ⟨-, ⟨rfl, -, hwhole⟩ | ⟨-, hown, -⟩⟩ := ziRsp_cases h hc hname
      · exact ⟨htotal, hwhole⟩
      · rw [hpaged] at hown
        cases hown
  | false =>
    obtain ⟨ps, count, hps, hflat, hne, hlen⟩ := ownChunks_eq (h net hnet) hpaged
    refine .pieces ps hflat hne (fun q hq => ?_) fun page hmem hn => ?_
    · have hown : .ziRsp (some count) q ∈ t.ownChunks net := by
        rw [hps]
        exact List.mem_map.2 ⟨q, hq, rfl⟩
      refine List.mem_map.2 ⟨_, mem_ziPages_extended.2 ⟨net, hnet, hown⟩, ?_⟩
      rw [Cmd.page, Option.map_some, hlen]
    · obtain ⟨extended, hc, htotal, name, hname⟩ := hpage page hmem hn
      obtain ⟨-, ⟨-, hwhole, -⟩ | ⟨-, -, hown⟩⟩ := ziRsp_cases h hc hname
      · rw [hpaged] at hwhole
        cases hwhole
      · rw [hps] at hown
        obtain ⟨q, hq, he⟩ := List.mem_map.1 hown
        obtain ⟨rfl, rfl⟩ := Cmd.ziRsp.inj he
        rw [htotal, Option.map_some, hlen]
        exact ⟨rfl, hq⟩

/-- A network asked about once is named whole in one ZI-Rsp only. -/
theorem ziRsp_unique (hnets : nets.Nodup) {zones zones' : List (UInt16 × Str)}
    (hc : .ziRsp none zones ∈ ziPages nets t) (hc' : .ziRsp none zones' ∈ ziPages nets t)
    {name name' : Str} (hname : (net, name) ∈ zones) (hname' : (net, name') ∈ zones') :
    zones = zones' :=
  (ziPages_batched nets t).unique (hnets.filter _) (Cmd.mem_plain.2 hc) (Cmd.mem_plain.2 hc')
    hname hname'

/-- Every ZI-Rsp is within the wire's limits. -/
theorem wireOk_ziPages (h : ∀ net ∈ nets, t.Tellable 65535 net) :
    ∀ c ∈ ziPages nets t, (∃ extended zones, c = .ziRsp extended zones) ∧ c.WireOk := by
  intro c hc
  obtain ⟨extended, zones, rfl, hfit⟩ := ziPages_fit (fun net hnet => (h net hnet).nameOk) c hc
  refine ⟨⟨extended, zones, rfl⟩, Cmd.wireOk_ziRsp (fun z hz => ?_) hfit⟩
  obtain ⟨net, name⟩ := z
  obtain ⟨hnet, -⟩ := ziRsp_cases h hc hz
  exact (h net hnet).nameOk name ((tells_ziPages h hnet).names_subset
    (List.mem_map.2 ⟨_, hc, rfl⟩) (mem_namesOf.2 hz))

/-! ### The receiver -/

/-- The best route for the network is over the tunnel to the peer. -/
def Via (ip : Ipv4Addr) (net : UInt16) (t : Tables) : Prop :=
  ∃ r, t.best net = some r ∧ r.target = .peer ip ∧ r.range.1 = net

theorem best_addZones (t : Tables) (start : UInt16) (names : List Str) (expected : Option ℕ)
    (net : UInt16) : (t.addZones start names expected).1.best net = t.best net := by
  unfold addZones
  split <;> rfl

theorem Via.addZones {ip : Ipv4Addr} (h : Via ip net t) (start : UInt16) (names : List Str)
    (expected : Option ℕ) : Via ip net (t.addZones start names expected).1 := by
  unfold Via
  rwa [best_addZones]

/-- Taking in one network of a ZI-Rsp. -/
theorem Via.entry {ip : Ipv4Addr} (h : Via ip net t) (g : UInt16 × List Str)
    (expected : Option ℕ) : Via ip net
      (if (t.best g.1).any fun r => r.target.isPort then (t, []) else
        t.addZones g.1 g.2 expected).1 := by
  split_ifs
  · exact h
  · exact h.addZones g.1 g.2 expected

theorem Via.ziRsp {ip : Ipv4Addr} (h : Via ip net t) (extended : Option UInt16)
    (zones : List (UInt16 × Str)) : Via ip net (Peer.ziRsp extended zones t).1 :=
  each_keeps (P := Via ip net) (fun _ g h => h.entry g _) h _

theorem zones_ziRsp {ip : Ipv4Addr} (h : Via ip net t) (extended : Option UInt16)
    (zones : List (UInt16 × Str)) : (Peer.ziRsp extended zones t).1.zones net =
      fill net (t.zones net) (zones, extended.map UInt16.toNat) := by
  refine zones_each (P := Via ip net) (fun _ g h => h.entry g _) (fun t g hne => ?_)
    (fun t names h => ?_) h zones
  · split_ifs
    · rfl
    · exact zones_addZones_of_ne t hne g.2 _
  · obtain ⟨r, hbest, htarget, hstart⟩ := h
    dsimp only
    rw [if_neg (by rw [hbest, Option.any_some, htarget]; exact Bool.false_ne_true)]
    exact zones_addZones ⟨r, (pick_eq_some hbest).1, hstart⟩ names _

/-- The octets of an AURP packet, to the tables: a ZI-Rsp fills in zones. -/
def zoned (t : Tables) (bytes : Bytes) : Tables :=
  match Aurp.parse bytes with
  | some (.routing _ _ _ (.ziRsp extended zones)) => (Peer.ziRsp extended zones t).1
  | _ => t

/-- **What ZI-Rsps make of a network's list.** -/
theorem zones_zoned {ip : Ipv4Addr} (h : Via ip net t) (p : Peer) (conn : UInt16) {cs : List Cmd}
    (hcs : ∀ c ∈ cs, (∃ extended zones, c = .ziRsp extended zones) ∧ c.WireOk) :
    ((cs.map (p.bytes conn 0)).foldl zoned t).zones net =
      (cs.map Cmd.page).foldl (fill net) (t.zones net) := by
  induction cs generalizing t with
  | nil => rfl
  | cons c cs ih =>
    obtain ⟨⟨⟨extended, zones, rfl⟩, hok⟩, htail⟩ := List.forall_mem_cons.1 hcs
    have hzoned : t.zoned (p.bytes conn 0 (.ziRsp extended zones)) =
        (Peer.ziRsp extended zones t).1 := by
      unfold zoned Peer.bytes
      rw [Aurp.reads_back (p := .routing _ conn 0 (.ziRsp extended zones)) hok]
    simp only [List.map_cons, List.foldl_cons]
    rw [hzoned, ih (h.ziRsp extended zones) htail, zones_ziRsp h]
    rfl

/-! ### The transfer -/

/-- **AURP zone transfer.** Networks with complete lists are asked about once each, and some of
the ZI-Rsps reach tables whose best route to each is over the tunnel and that have no zone of it.
However ordered and however often, the list of a network is complete just when every ZI-Rsp that
names it came, and then it is the sender's. -/
theorem aurp_zone_transfer {a b : Tables} {nets : List UInt16} (hnets : nets.Nodup)
    (ha : ∀ net ∈ nets, a.Tellable 65535 net) {ip : Ipv4Addr}
    (hb : ∀ net ∈ nets, Via ip net b ∧ b.zones net = none) (p : Peer) (conn : UInt16) :
    ∀ cs ⊆ ziPages nets a, ∀ net ∈ nets,
      ((((cs.map (p.bytes conn 0)).foldl zoned b).zones net).any ZoneList.complete = true ↔
        ∀ extended zones, .ziRsp extended zones ∈ ziPages nets a →
          (∃ name, (net, name) ∈ zones) → .ziRsp extended zones ∈ cs) ∧
      ((((cs.map (p.bytes conn 0)).foldl zoned b).zones net).any ZoneList.complete = true →
        ∀ name, name ∈ ((cs.map (p.bytes conn 0)).foldl zoned b).namesHeld net ↔
          name ∈ a.namesHeld net) := by
  intro cs hcs net hnet
  have hheard : ((cs.map (p.bytes conn 0)).foldl zoned b).zones net =
      (cs.map Cmd.page).foldl (fill net) none := by
    rw [zones_zoned (hb net hnet).1 p conn fun c hc => wireOk_ziPages ha c (hcs hc),
      (hb net hnet).2]
  have hpages : cs.map Cmd.page ⊆ (ziPages nets a).map Cmd.page := List.map_subset _ hcs
  have htells := tells_ziPages ha hnet
  have hdistinct := (ha net hnet).distinct
  have hne := (ha net hnet).names_ne_nil
  rw [namesHeld_eq, hheard]
  -- With everything that names the network.
  have hcomplete : (∀ extended zones, .ziRsp extended zones ∈ ziPages nets a →
      (∃ name, (net, name) ∈ zones) → .ziRsp extended zones ∈ cs) →
      ((cs.map Cmd.page).foldl (fill net) none).any ZoneList.complete = true ∧
        ∀ name, name ∈ (((cs.map Cmd.page).foldl (fill net) none).getD .empty).names ↔
          name ∈ a.namesHeld net := by
    intro hall
    refine htells.complete hdistinct hne hpages fun page hpage hn => ?_
    obtain ⟨c, hc, rfl⟩ := List.mem_map.1 hpage
    obtain ⟨⟨extended, zones, rfl⟩, -⟩ := wireOk_ziPages ha c hc
    obtain ⟨name, hname⟩ := List.exists_mem_of_ne_nil _ hn
    exact List.mem_map.2 ⟨_, hall extended zones hc ⟨name, mem_namesOf.1 hname⟩, rfl⟩
  have hall : ((cs.map Cmd.page).foldl (fill net) none).any ZoneList.complete = true →
      ∀ extended zones, .ziRsp extended zones ∈ ziPages nets a →
        (∃ name, (net, name) ∈ zones) → .ziRsp extended zones ∈ cs := by
    intro hwhole extended zones hc ⟨name, hname⟩
    obtain ⟨⟨page, hpage, hn⟩, hpieces⟩ := htells.of_complete hdistinct hne hpages hwhole
    cases extended with
    | some count =>
      obtain ⟨c, hc', he⟩ := List.mem_map.1 (hpieces _ (List.mem_map.2 ⟨_, hc, rfl⟩)
        (List.ne_nil_of_mem (mem_namesOf.2 hname)) nofun)
      obtain ⟨⟨extended', zones', rfl⟩, -⟩ := wireOk_ziPages ha c (hcs hc')
      obtain ⟨rfl, htotal⟩ := Prod.mk.inj he
      obtain ⟨u, rfl, hu⟩ := Option.map_eq_some_iff.1 htotal
      rwa [UInt16.toNat_inj.1 hu] at hc'
    | none =>
      obtain ⟨c, hc', rfl⟩ := List.mem_map.1 hpage
      obtain ⟨⟨extended', zones', rfl⟩, -⟩ := wireOk_ziPages ha c (hcs hc')
      obtain ⟨name', hname'⟩ := List.exists_mem_of_ne_nil _ hn
      rw [mem_namesOf] at hname'
      -- Both name the list whole, and it goes out once.
      obtain ⟨-, ⟨-, hpaged, -⟩ | ⟨hsome, -⟩⟩ := ziRsp_cases ha hc hname
      · obtain ⟨-, ⟨rfl, -⟩ | ⟨-, hlong, -⟩⟩ := ziRsp_cases ha (hcs hc') hname'
        · rwa [ziRsp_unique hnets hc (hcs hc') hname hname']
        · rw [hpaged] at hlong
          cases hlong
      · exact absurd rfl hsome
  exact ⟨⟨hall, fun h => (hcomplete h).1⟩, fun h => (hcomplete (hall h)).2⟩

/-- Zone names of 32 characters, more than a packet takes. -/
def manyNames : List Str :=
  (List.range 42).map fun i => Char.ofNat (48 + i) :: List.replicate 31 'z'

/-- A cable with one zone, and one whose list takes two packets. -/
def shortAndMany : Tables :=
  (Tables.new.addPort 0 (10, 10) false [['A']] 0).addPort 1 (20, 21) true manyNames 0

theorem tellable_shortAndMany : ∀ net ∈ [10, 20], shortAndMany.Tellable 65535 net := by
  have hshort : shortAndMany.Tellable 65535 10 := by
    refine ⟨{ names := [['A']], expected := none }, by decide +kernel, by decide, by decide, ?_, ?_⟩
    · unfold Gather.Distinct
      decide +kernel
    · decide +kernel
  have hmany : shortAndMany.Tellable 65535 20 := by
    refine ⟨{ names := manyNames, expected := none }, by decide +kernel, by decide +kernel,
      by decide +kernel, ?_, ?_⟩
    · unfold Gather.Distinct
      decide +kernel
    · decide +kernel
  simpa using ⟨hshort, hmany⟩

/-- The far end's routes to the two cables, over the tunnel. -/
def tunnelled : Tables :=
  let heard := fun range => { range := range, extended := true, distance := 0 : NetworkTuple }
  (((Tables.new.learn (heard (10, 10)) (.peer ⟨192, 0, 2, 1⟩) NO_NEXT 0).1).learn (heard (20, 21))
    (.peer ⟨192, 0, 2, 1⟩) NO_NEXT 0).1

theorem via_tunnelled : ∀ net ∈ [10, 20],
    Via ⟨192, 0, 2, 1⟩ net tunnelled ∧ tunnelled.zones net = none := by
  have hvia : ∀ {net : UInt16}, ((tunnelled.best net).any fun r =>
      decide (r.target = .peer ⟨192, 0, 2, 1⟩ ∧ r.range.1 = net)) = true →
      Via ⟨192, 0, 2, 1⟩ net tunnelled := by
    intro net h
    obtain ⟨r, hr, htarget⟩ := (Option.any_eq_true _ _).1 h
    exact ⟨r, hr, of_decide_eq_true htarget⟩
  have hshort : Via ⟨192, 0, 2, 1⟩ 10 tunnelled ∧ tunnelled.zones 10 = none :=
    ⟨hvia (by decide +kernel), by decide +kernel⟩
  have hmany : Via ⟨192, 0, 2, 1⟩ 20 tunnelled ∧ tunnelled.zones 20 = none :=
    ⟨hvia (by decide +kernel), by decide +kernel⟩
  simpa using ⟨hshort, hmany⟩

/-- The near end's record of the far one. -/
def farEnd : Peer := Peer.new ⟨192, 0, 2, 2⟩ none 7 (.ip ⟨192, 0, 2, 1⟩) 0

/-- The tables of the far end with every packet there. -/
def tunnelledTold : Tables :=
  ((ziPages [10, 20] shortAndMany).map (farEnd.bytes 7 0)).foldl zoned tunnelled

theorem aurp_zone_transfer_two :
    ((tunnelledTold.zones 20).any ZoneList.complete = true ↔
      ∀ extended zones, .ziRsp extended zones ∈ ziPages [10, 20] shortAndMany →
        (∃ name, (20, name) ∈ zones) →
          .ziRsp extended zones ∈ ziPages [10, 20] shortAndMany) ∧
      ((tunnelledTold.zones 20).any ZoneList.complete = true →
        ∀ name, name ∈ tunnelledTold.namesHeld 20 ↔ name ∈ shortAndMany.namesHeld 20) :=
  aurp_zone_transfer (by decide) tellable_shortAndMany via_tunnelled farEnd 7
    (ziPages [10, 20] shortAndMany) (List.Subset.refl _) 20 (by decide)

end Tables

end AppleTalk
