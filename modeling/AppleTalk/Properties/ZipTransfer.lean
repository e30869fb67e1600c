import AppleTalk.Properties.ServiceSizes
import AppleTalk.Properties.ZoneReplies
import AppleTalk.Router.Gathering
import AppleTalk.Wire.Stack

/-!
# ZIP zone transfer

A router answers a Query with Replies: networks whose lists fit go out whole, a longer list goes
out over Extended Replies that announce its length. Whoever asked gathers them in any order, and
believes a list only once it is whole.
-/

namespace AppleTalk

open Octets

/-! ### On the wire -/

namespace Zip

/-- A zone counts for three octets at least. -/
theorem length_le_counted (zones : List (UInt16 × Str)) (total : Option UInt8) :
    ZIP_HEAD + 3 * zones.length ≤ (reply zones total).counted := by
  dsimp only [counted]
  induction zones with
  | nil => exact le_rfl
  | cons z zones ih =>
    rw [List.map_cons, List.sum_cons, List.length_cons]
    unfold pairBytes at ih ⊢
    omega

/-- What a Reply is to the tables. -/
def page : Zip → Tables.Page
  | .reply zones total => (zones, total.map UInt8.toNat)
  | _ => ([], none)

end Zip

/-! ### The receiver -/

namespace Tables

variable {t : Tables} {net : UInt16}

/-- The octets of a ZIP packet, to the tables: a Reply fills in zones. -/
def heard (t : Tables) (bytes : Bytes) : Tables :=
  match Zip.parse bytes with
  | some (.reply zones total) => (learnZones zones total t).1
  | _ => t

/-- There is a route for the network. -/
def Routed (net : UInt16) (t : Tables) : Prop := ∃ r ∈ t.routes, r.range.1 = net

theorem Routed.addZones (h : Routed net t) (start : UInt16) (names : List Str)
    (expected : Option ℕ) : Routed net (t.addZones start names expected).1 := by
  unfold Routed
  rwa [routes_addZones]

theorem Routed.learnZones (h : Routed net t) (zones : List (UInt16 × Str))
    (total : Option UInt8) : Routed net (learnZones zones total t).1 :=
  each_keeps (P := Routed net) (fun _ g h => h.addZones g.1 g.2 _) h _

theorem zones_learnZones (h : Routed net t) (zones : List (UInt16 × Str))
    (total : Option UInt8) : (learnZones zones total t).1.zones net =
      fill net (t.zones net) (zones, total.map UInt8.toNat) :=
  zones_each (P := Routed net) (fun _ g h => h.addZones g.1 g.2 _)
    (fun t g h => zones_addZones_of_ne t h g.2 _)
    (fun _ names h => zones_addZones h names _) h zones

/-- **What Replies make of a network's list.** -/
theorem zones_heard (h : Routed net t) {rs : List Zip}
    (hrs : ∀ r ∈ rs, (∃ zones total, r = .reply zones total) ∧ Zip.parse r.toBytes = some r) :
    ((rs.map Zip.toBytes).foldl heard t).zones net =
      (rs.map Zip.page).foldl (fill net) (t.zones net) := by
  induction rs generalizing t with
  | nil => rfl
  | cons r rs ih =>
    obtain ⟨⟨⟨zones, total, rfl⟩, hparse⟩, htail⟩ := List.forall_mem_cons.1 hrs
    have hheard : t.heard (Zip.reply zones total).toBytes = (learnZones zones total t).1 := by
      unfold heard
      rw [hparse]
    simp only [List.map_cons, List.foldl_cons]
    rw [hheard, ih (h.learnZones zones total) htail, zones_learnZones h]
    rfl

end Tables

/-! ### The sender -/

/-- The Extended Replies of a network whose list fits no Reply. -/
def Tables.ownPages (t : Tables) (net : UInt16) : List Zip :=
  match (t.zones net).filter ZoneList.complete with
  | some z => if t.replies net then [] else pages (z.names.map fun n => (net, n))
  | none => []

/-- The Extended Replies are the pages of the networks that have pages of their own. -/
theorem mem_queryReplies_extended {nets : List UInt16} {tables : Tables}
    {zones : List (UInt16 × Str)} {total : UInt8} :
    .reply zones (some total) ∈ queryReplies nets tables ↔
      ∃ net ∈ nets, .reply zones (some total) ∈ tables.ownPages net := by
  unfold queryReplies
  dsimp only
  generalize hr : List.foldl _ _ nets = r
  have hfold : .reply zones (some total) ∈ r.1 ↔
      ∃ net ∈ nets, .reply zones (some total) ∈ tables.ownPages net := by
    subst hr
    induction nets using List.reverseRecOn with
    | nil => simp
    | append_singleton nets net ih =>
      simp only [List.mem_append, List.mem_singleton, or_and_right, exists_or, exists_eq_left]
      rw [← ih, List.foldl_append, List.foldl_cons, List.foldl_nil]
      clear ih
      generalize List.foldl _ _ nets = r
      unfold Tables.ownPages Tables.replies
      cases (tables.zones net).filter ZoneList.complete with
      | none => simp
      | some z =>
        dsimp only
        rw [Option.any_some]
        by_cases halone : DDP_MAX <
            ZIP_HEAD + ((z.names.map fun n => (net, n)).map fun p => pairBytes p.2).sum
        · rw [if_pos halone, decide_eq_false (Nat.not_le.2 halone), if_neg Bool.false_ne_true]
          split_ifs <;> simp
        · rw [if_neg halone, decide_eq_true (Nat.not_lt.1 halone), if_pos rfl]
          split_ifs <;> simp
  split_ifs
  · exact hfold
  · rw [List.mem_append, hfold]
    simp

namespace Tables

variable {t : Tables} {net : UInt16}

/-- The pages of a network hold its list, in order, and announce its length. -/
theorem ownPages_eq (h : t.Tellable 255 net) (hpages : t.replies net = false) :
    ∃ (ps : List (List (UInt16 × Str))) (total : UInt8),
      t.ownPages net = ps.map (Zip.reply · (some total)) ∧
        ps.flatten = ((t.namesHeld net).map fun n => (net, n)) ∧ (∀ q ∈ ps, q ≠ []) ∧
        total.toNat = (t.namesHeld net).length := by
  obtain ⟨z, hz, hcomplete, hlen, -⟩ := h
  obtain ⟨ps, hps, hflat, hne⟩ := pages_eq (z.names.map fun n => (net, n))
  refine ⟨ps, UInt8.ofNat (min (z.names.map fun n => (net, n)).length 255), ?_,
    by rw [hflat, namesHeld_of_zones hz], fun q hq => (hne q hq).1, ?_⟩
  · unfold ownPages
    rw [Option.filter_eq_some_iff.2 ⟨hz, hcomplete⟩, ← hps]
    dsimp only
    rw [hpages, if_neg Bool.false_ne_true]
  · rw [namesHeld_of_zones hz, List.length_map, Nat.min_eq_left hlen, UInt8.toNat_ofNat',
      Nat.mod_eq_of_lt (by omega)]

theorem ownPages_of_replies (h : t.replies net = true) : t.ownPages net = [] := by
  unfold ownPages
  split
  · rw [h, if_pos rfl]
  · rfl

/-- The pages of a network name no other. -/
theorem ownPages_names {net' : UInt16} (h : t.Tellable 255 net') {zones : List (UInt16 × Str)}
    {total : Option UInt8} (hr : .reply zones total ∈ t.ownPages net') {name : Str}
    (hname : (net, name) ∈ zones) : net' = net := by
  have hreplies : t.replies net' = false := by
    by_contra hreplies
    rw [ownPages_of_replies (by simpa using hreplies)] at hr
    cases hr
  obtain ⟨ps, total', hps, hflat, -⟩ := ownPages_eq h hreplies
  rw [hps] at hr
  obtain ⟨q, hq, he⟩ := List.mem_map.1 hr
  obtain ⟨rfl, -⟩ := Zip.reply.inj he
  have hmem : (net, name) ∈ ps.flatten := List.mem_flatten.2 ⟨q, hq, hname⟩
  rw [hflat] at hmem
  obtain ⟨n, -, hpair⟩ := List.mem_map.1 hmem
  exact (Prod.mk.inj hpair).1

variable {nets : List UInt16}

/-- A Reply names only networks asked about: whole when it is plain, else over their pages. -/
theorem reply_cases (h : ∀ net ∈ nets, t.Tellable 255 net) {zones : List (UInt16 × Str)}
    {total : Option UInt8} (hr : .reply zones total ∈ queryReplies nets t) {name : Str}
    (hname : (net, name) ∈ zones) :
    net ∈ nets ∧
      (total = none ∧ t.replies net = true ∧ (∀ n, (net, n) ∈ zones ↔ n ∈ t.namesHeld net) ∨
        t.replies net = false ∧ .reply zones total ∈ t.ownPages net) := by
  cases total with
  | none =>
    obtain ⟨hnet, hwhole⟩ :=
      (queryReplies_batched nets t).whole (Or.inl (Zip.mem_plain.2 hr)) hname
    obtain ⟨hnet, hreplies⟩ := List.mem_filter.1 hnet
    exact ⟨hnet, Or.inl ⟨rfl, hreplies, hwhole⟩⟩
  | some total =>
    obtain ⟨net', hnet', hown⟩ := mem_queryReplies_extended.1 hr
    obtain rfl := ownPages_names (h net' hnet') hown hname
    refine ⟨hnet', Or.inr ⟨?_, hown⟩⟩
    by_contra hreplies
    rw [ownPages_of_replies (by simpa using hreplies)] at hown
    cases hown

/-- **The Replies tell every list asked for.** -/
theorem tells_queryReplies (h : ∀ net ∈ nets, t.Tellable 255 net) (hnet : net ∈ nets) :
    Tells net (t.namesHeld net) ((queryReplies nets t).map Zip.page) := by
  have hpage : ∀ page ∈ (queryReplies nets t).map Zip.page, namesOf net page.1 ≠ [] →
      ∃ total : Option UInt8, .reply page.1 total ∈ queryReplies nets t ∧
        page.2 = total.map UInt8.toNat ∧ ∃ name, (net, name) ∈ page.1 := by
    intro page hpage hne
    obtain ⟨r, hr, rfl⟩ := List.mem_map.1 hpage
    obtain ⟨zones, total, rfl⟩ := queryReplies_reply r hr
    obtain ⟨name, hname⟩ := List.exists_mem_of_ne_nil _ hne
    exact ⟨total, hr, rfl, name, mem_namesOf.1 hname⟩
  cases hreplies : t.replies net with
  | true =>
    refine .whole ?_ fun page hmem hne => ?_
    · obtain ⟨zones, hzones | rfl, first, hfirst⟩ := (queryReplies_batched nets t).named
        (List.mem_filter.2 ⟨hnet, hreplies⟩) (h net hnet).names_ne_nil
      · exact ⟨_, List.mem_map.2 ⟨_, Zip.mem_plain.1 hzones, rfl⟩,
          List.ne_nil_of_mem (mem_namesOf.2 hfirst)⟩
      · cases hfirst
    · obtain ⟨total, hr, htotal, name, hname⟩ := hpage page hmem hne
      obtain ⟨-, ⟨rfl, -, hwhole⟩ | ⟨hpages, -⟩⟩ := reply_cases h hr hname
      · exact ⟨htotal, hwhole⟩
      · rw [hreplies] at hpages
        cases hpages
  | false =>
    obtain ⟨ps, total, hps, hflat, hne, hlen⟩ := ownPages_eq (h net hnet) hreplies
    refine .pieces ps hflat hne (fun q hq => ?_) fun page hmem hn => ?_
    · have hown : .reply q (some total) ∈ t.ownPages net := by
        rw [hps]
        exact List.mem_map.2 ⟨q, hq, rfl⟩
      refine List.mem_map.2 ⟨_, mem_queryReplies_extended.2 ⟨net, hnet, hown⟩, ?_⟩
      rw [Zip.page, Option.map_some, hlen]
    · obtain ⟨total', hr, htotal, name, hname⟩ := hpage page hmem hn
      obtain ⟨-, ⟨-, hwhole, -⟩ | ⟨-, hown⟩⟩ := reply_cases h hr hname
      · rw [hreplies] at hwhole
        cases hwhole
      · rw [hps] at hown
        obtain ⟨q, hq, he⟩ := List.mem_map.1 hown
        obtain ⟨rfl, rfl⟩ := Zip.reply.inj he
        rw [htotal, Option.map_some, hlen]
        exact ⟨rfl, hq⟩

/-- Every Reply reads back. -/
theorem parse_queryReplies (h : ∀ net ∈ nets, t.Tellable 255 net) :
    ∀ r ∈ queryReplies nets t,
      (∃ zones total, r = .reply zones total) ∧ Zip.parse r.toBytes = some r := by
  intro r hr
  obtain ⟨zones, total, rfl⟩ := queryReplies_reply r hr
  refine ⟨⟨zones, total, rfl⟩, Zip.parse_reply (fun z hz => ?_) fun _ => ?_⟩
  · obtain ⟨net, name⟩ := z
    obtain ⟨hnet, -⟩ := reply_cases h hr hz
    exact (h net hnet).nameOk name ((tells_queryReplies h hnet).names_subset
      (List.mem_map.2 ⟨_, hr, rfl⟩) (mem_namesOf.2 hz))
  · have hcounted := queryReplies_counted nets t _ hr
    have := Zip.length_le_counted zones total
    unfold DDP_MAX at hcounted
    omega

/-! ### The transfer -/

/-- **ZIP zone transfer.** Networks with complete lists are asked about, and the Replies reach
tables that have a route to each and no zone. Every Reply fits a datagram and a plain one has
whole lists; all of them, however ordered, make every list the sender's; and without a page of a
network its list is not complete. -/
theorem zip_zone_transfer {a b : Tables} {nets : List UInt16}
    (ha : ∀ net ∈ nets, a.Tellable 255 net)
    (hb : ∀ net ∈ nets, (∃ r ∈ b.routes, r.range.1 = net) ∧ b.zones net = none) :
    (∀ r ∈ queryReplies nets a, r.toBytes.length ≤ DDP_MAX) ∧
      (∀ zones, .reply zones none ∈ queryReplies nets a → a.Whole zones) ∧
      ∀ rs ⊆ queryReplies nets a,
        (queryReplies nets a ⊆ rs → ∀ net ∈ nets,
          (((rs.map Zip.toBytes).foldl heard b).zones net).any ZoneList.complete = true ∧
            ∀ name, name ∈ ((rs.map Zip.toBytes).foldl heard b).namesHeld net ↔
              name ∈ a.namesHeld net) ∧
        ∀ zones total, .reply zones (some total) ∈ queryReplies nets a →
          .reply zones (some total) ∉ rs → ∀ net name, (net, name) ∈ zones →
            (((rs.map Zip.toBytes).foldl heard b).zones net).any ZoneList.complete = false := by
  refine ⟨fun r hr => zipReply_fits hr, fun zones h => queryReplies_whole nets a h,
    fun rs hrs => ?_⟩
  have hheard : ∀ net ∈ nets, ((rs.map Zip.toBytes).foldl heard b).zones net =
      (rs.map Zip.page).foldl (fill net) none := by
    intro net hnet
    rw [zones_heard (hb net hnet).1 fun r hr => parse_queryReplies ha r (hrs hr), (hb net hnet).2]
  have hpages : rs.map Zip.page ⊆ (queryReplies nets a).map Zip.page := List.map_subset _ hrs
  refine ⟨fun hall net hnet => ?_, fun zones total hr hmissing net name hname => ?_⟩
  · rw [namesHeld_eq, hheard net hnet]
    exact (tells_queryReplies ha hnet).complete (ha net hnet).distinct (ha net hnet).names_ne_nil
      hpages fun page hpage _ => List.map_subset _ hall hpage
  · obtain ⟨hnet, -⟩ := reply_cases ha hr hname
    rw [hheard net hnet, ← Bool.not_eq_true]
    intro hcomplete
    obtain ⟨r, hr', hpage⟩ := List.mem_map.1 (((tells_queryReplies ha hnet).of_complete
      (ha net hnet).distinct (ha net hnet).names_ne_nil hpages hcomplete).2 _
      (List.mem_map.2 ⟨_, hr, rfl⟩) (List.ne_nil_of_mem (mem_namesOf.2 hname)) nofun)
    obtain ⟨zones', total', rfl⟩ := queryReplies_reply r (hrs hr')
    obtain ⟨rfl, htotal⟩ := Prod.mk.inj hpage
    obtain ⟨u, rfl, hu⟩ := Option.map_eq_some_iff.1 htotal
    rw [UInt8.toNat_inj.1 hu] at hr'
    exact hmissing hr'

/-- Twenty zone names of 32 characters. -/
def longNames : List Str :=
  (List.range 20).map fun i => Char.ofNat (65 + i) :: List.replicate 31 'z'

/-- A cable with one zone, and one whose list takes two pages. -/
def shortAndLong : Tables :=
  (Tables.new.addPort 0 (10, 10) false [['A']] 0).addPort 1 (20, 21) true longNames 0

theorem tellable_shortAndLong : ∀ net ∈ [10, 20], shortAndLong.Tellable 255 net := by
  have hshort : shortAndLong.Tellable 255 10 := by
    refine ⟨{ names := [['A']], expected := none }, by decide +kernel, by decide, by decide, ?_, ?_⟩
    · unfold Gather.Distinct
      decide +kernel
    · decide +kernel
  have hlong : shortAndLong.Tellable 255 20 := by
    refine ⟨{ names := longNames, expected := none }, by decide +kernel, by decide +kernel,
      by decide +kernel, ?_, ?_⟩
    · unfold Gather.Distinct
      decide +kernel
    · decide +kernel
  simpa using ⟨hshort, hlong⟩

/-- The neighbour's routes to the two cables. -/
def shortAndLongRoutes : Tables :=
  let heard := fun range => { range := range, extended := true, distance := 0 : NetworkTuple }
  (((Tables.new.learn (heard (10, 10)) (.port 0) ⟨5, 1⟩ 0).1).learn (heard (20, 21)) (.port 0)
    ⟨5, 1⟩ 0).1

theorem routed_shortAndLong : ∀ net ∈ [10, 20],
    (∃ r ∈ shortAndLongRoutes.routes, r.range.1 = net) ∧ shortAndLongRoutes.zones net = none := by
  have hshort : (∃ r ∈ shortAndLongRoutes.routes, r.range.1 = 10) ∧
      shortAndLongRoutes.zones 10 = none := by decide +kernel
  have hlong : (∃ r ∈ shortAndLongRoutes.routes, r.range.1 = 20) ∧
      shortAndLongRoutes.zones 20 = none := by decide +kernel
  simpa using ⟨hshort, hlong⟩

theorem zip_zone_transfer_two :
    (∀ r ∈ queryReplies [10, 20] shortAndLong, r.toBytes.length ≤ DDP_MAX) ∧
      (∀ zones, .reply zones none ∈ queryReplies [10, 20] shortAndLong →
        shortAndLong.Whole zones) ∧
      ∀ rs ⊆ queryReplies [10, 20] shortAndLong,
        (queryReplies [10, 20] shortAndLong ⊆ rs → ∀ net ∈ [10, 20],
          (((rs.map Zip.toBytes).foldl heard shortAndLongRoutes).zones net).any
              ZoneList.complete = true ∧
            ∀ name, name ∈ ((rs.map Zip.toBytes).foldl heard shortAndLongRoutes).namesHeld net ↔
              name ∈ shortAndLong.namesHeld net) ∧
        ∀ zones total, .reply zones (some total) ∈ queryReplies [10, 20] shortAndLong →
          .reply zones (some total) ∉ rs → ∀ net name, (net, name) ∈ zones →
            (((rs.map Zip.toBytes).foldl heard shortAndLongRoutes).zones net).any
              ZoneList.complete = false :=
  zip_zone_transfer tellable_shortAndLong routed_shortAndLong

end Tables

end AppleTalk
