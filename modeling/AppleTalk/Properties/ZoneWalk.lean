import AppleTalk.Node.ZoneList
import AppleTalk.Properties.ServiceSizes
import AppleTalk.Wire.RoundTrip

/-!
# Walking the zone list

The server cuts its list where a response is full and says whether that was the end; the client
counts the names it got and asks for the one after. Together they page through the list as it
stands, seventeen names and more to a page.
-/

namespace AppleTalk

open Octets

/-! ### One page -/

/-- A page holds the names the list starts with, and all of them or too many for one more. -/
theorem namesThatFit_spec (size : ℕ) (names : List Str) :
    namesThatFit size names <+: names ∧
      (namesThatFit size names = names ∨
        ATP_MAX < size + 33 * ((namesThatFit size names).length + 1)) := by
  induction names generalizing size with
  | nil => exact ⟨List.prefix_rfl, Or.inl rfl⟩
  | cons n rest ih =>
    unfold namesThatFit
    dsimp only
    split_ifs with hfull
    · refine ⟨List.nil_prefix, Or.inr ?_⟩
      have : min (utf8Len n) 32 ≤ 32 := min_le_right _ _
      simp only [List.length_nil]
      omega
    · obtain ⟨hinit, hrest⟩ := ih (size + 1 + min (utf8Len n) 32)
      refine ⟨(List.prefix_cons_inj n).2 hinit, ?_⟩
      rcases hrest with hrest | hrest
      · exact Or.inl (by rw [hrest])
      · refine Or.inr ?_
        have : min (utf8Len n) 32 ≤ 32 := min_le_right _ _
        simp only [List.length_cons]
        omega

/-- A page that is not the last has seventeen names. -/
theorem seventeen_le_page {names : List Str}
    (h : (namesThatFit 0 names).length ≠ names.length) : 17 ≤ (namesThatFit 0 names).length := by
  rcases (namesThatFit_spec 0 names).2 with hall | hmany
  · exact absurd (congrArg List.length hall) h
  · unfold ATP_MAX at hmany
    omega

/-- A page has at most as many names as octets. -/
theorem length_page_le (names : List Str) : (namesThatFit 0 names).length ≤ ATP_MAX := by
  have hbytes := length_namesThatFit 0 names (by decide)
  have hone : ∀ l : List Str, l.length ≤ (l.flatMap putPstring).length := by
    intro l
    induction l with
    | nil => simp
    | cons n l ih =>
      simp only [List.length_cons, List.flatMap_cons, List.length_append, putPstring]
      omega
  have := hone (namesThatFit 0 names)
  omega

/-- A page reads back. -/
theorem ZipAtp.parseReply_replyParts {last : Bool} {zones : List Str} (hn : zones.length < 65536)
    (hz : ∀ z ∈ zones, NameOk z) :
    parseReply (replyParts last zones).1 (replyParts last zones).2 = some (.reply last zones) := by
  have hread := times_flatMap (f := id) (fun z hmem rest => pstring_putPstring (hz z hmem) rest) []
  rw [List.append_nil, List.map_id] at hread
  have hcount : (UInt16.ofNat zones.length).toNat = zones.length := by
    rw [UInt16.toNat_ofNat']
    exact Nat.mod_eq_of_lt hn
  unfold parseReply replyParts
  simp only [be16_hi8_lo8, hcount, hread, Option.map_some]
  cases last <;> rfl

/-! ### The list -/

theorem Tables.allZones_nodup (t : Tables) : t.allZones.Nodup := by
  have hadd : ∀ (out : List Str) (n : Str), out.Nodup →
      (if out.any fun h => eqIgnoreAsciiCase h n then out else out ++ [n]).Nodup := by
    intro out n hout
    split_ifs with hany
    · exact hout
    · refine List.nodup_append.2 ⟨hout, List.nodup_singleton n, fun a ha b hb hab => hany ?_⟩
      obtain rfl := List.mem_singleton.1 hb
      exact List.any_eq_true.2 ⟨a, ha, by simp [hab]⟩
  unfold allZones
  refine List.foldlRecOn t.starts _ List.nodup_nil fun out hout start _ => ?_
  split
  · split_ifs
    · rename_i z _ _
      exact List.foldlRecOn z.names _ hout fun out hout n _ => hadd out n hout
    · exact hout
  · exact hout

/-! ### The server's side of a page -/

namespace Node

/-- The router's answer to a request, its tables as they stand. -/
def answer (port : Port) (tables : Tables) (d : Ddp) : Option Ddp :=
  match decodeDdpBody d with
  | .atp a => (AppleTalk.zoneList port d a tables).map Emit.ddp
  | _ => none

/-- The response for the names from an index on. -/
def pageFrom (all : List Str) (i : ℕ) (tid : UInt16) : Atp × ZipAtp :=
  let names := namesThatFit 0 (all.drop i)
  let last := decide (names.length = (all.drop i).length)
  (Atp.response tid 0 true false (ZipAtp.replyParts last names).1 (ZipAtp.replyParts last names).2,
    .reply last names)

theorem decodeDdpBody_atp {d : Ddp} {a : Atp} (ht : d.typ = DDP_ATP)
    (h : Atp.parse d.data = some a) : decodeDdpBody d = .atp a := by
  unfold decodeDdpBody
  rw [ht, h]
  rfl

/-- **One page through both encoders and both parsers.** -/
theorem zonePage_answer {port : Port} {tables : Tables} {n : Node} {router : Addr}
    {start : UInt16} (haddr : port.addr = some router) (hz : ∀ z ∈ tables.allZones, NameOk z) :
    n.zonePage (answer port tables) router start =
      some (pageFrom tables.allZones (start.toNat - 1) n.nextId) := by
  set page := pageFrom tables.allZones (start.toNat - 1) n.nextId with hpage
  have hrequest : decodeDdpBody (datagram n.addr OUR_SOCKET router 6 DDP_ATP
      (zoneListRequest n.nextId start).toBytes) = .atp (zoneListRequest n.nextId start) :=
    decodeDdpBody_atp rfl (Atp.parse_toBytes Atp.funcOf_request)
  have hanswer : answer port tables (datagram n.addr OUR_SOCKET router 6 DDP_ATP
      (zoneListRequest n.nextId start).toBytes) =
      some (datagram router ZIP_SOCKET n.addr OUR_SOCKET DDP_ATP page.1.toBytes) := by
    unfold answer
    rw [hrequest]
    simp [AppleTalk.zoneList, zoneListRequest, Atp.request, ZipAtp.parseRequest, fromPort, haddr,
      hpage, pageFrom, datagram]
  have hresponse : decodeDdpBody (datagram router ZIP_SOCKET n.addr OUR_SOCKET DDP_ATP
      page.1.toBytes) = .atp page.1 := decodeDdpBody_atp rfl (Atp.parse_toBytes Atp.funcOf_response)
  have hread : ZipAtp.parseReply page.1.userBytes page.1.data = some page.2 := by
    refine ZipAtp.parseReply_replyParts ?_ fun z hmem => hz z ?_
    · have := length_page_le (tables.allZones.drop (start.toNat - 1))
      unfold ATP_MAX at this
      omega
    · exact List.mem_of_mem_drop ((namesThatFit_spec 0 _).1.subset hmem)
  unfold zonePage
  rw [hanswer]
  simp only [Option.bind_some, hresponse, hread]
  rw [if_pos ⟨by simp [zoneReplyMatches, datagram, hpage, pageFrom, Atp.response], rfl⟩]
  rfl

/-! ### The walk -/

/-- The names of a reply. -/
def namesOf : ZipAtp → List Str
  | .reply _ zones => zones
  | _ => []

/-- The pages of a whole walk through the names that are left: every page fits a response, every
page but the last has names and says there is more, and the last one says it is. -/
structure Walked (left : List Str) (pages : List (Atp × ZipAtp)) (last : Atp × ZipAtp) : Prop where
  fits : ∀ page ∈ pages ++ [last], page.1.data.length ≤ ATP_MAX
  more : ∀ page ∈ pages, ∃ zones, page.2 = .reply false zones ∧ zones ≠ []
  ends : ∃ zones, last.2 = .reply true zones
  names : (pages ++ [last]).flatMap (fun page => namesOf page.2) = left

theorem length_pageFrom_le (all : List Str) (i : ℕ) (tid : UInt16) :
    (pageFrom all i tid).1.data.length ≤ ATP_MAX := by
  have := length_namesThatFit 0 (all.drop i) (by decide)
  rw [Nat.zero_add] at this
  exact this

/-- The next page starts behind the names of this one. -/
theorem nextStart_reply {start : UInt16} {names : List Str} {i : ℕ} (hstart : start.toNat = i + 1)
    (hne : names ≠ []) (hi : i + names.length < 65000) :
    ∃ next, nextStart start (.reply false names) = some next ∧
      next.toNat = i + names.length + 1 := by
  have hcount : (UInt16.ofNat names.length).toNat = names.length := by
    rw [UInt16.toNat_ofNat']
    omega
  refine ⟨start + UInt16.ofNat names.length, ?_, ?_⟩
  · unfold nextStart
    simp only [List.isEmpty_iff, hne, if_false, hcount, hstart]
    rw [if_pos (by omega)]
  · rw [UInt16.toNat_add, hcount, hstart]
    omega

/-- A page before the others. -/
theorem Walked.cons {names rest : List Str} {page last : Atp × ZipAtp}
    {pages : List (Atp × ZipAtp)} (h : Walked rest pages last)
    (hfit : page.1.data.length ≤ ATP_MAX) (hreply : page.2 = .reply false names)
    (hne : names ≠ []) : Walked (names ++ rest) (page :: pages) last := by
  refine ⟨?_, ?_, h.ends, ?_⟩
  · exact List.forall_mem_cons.2 ⟨hfit, h.fits⟩
  · exact List.forall_mem_cons.2 ⟨⟨_, hreply, hne⟩, h.more⟩
  · rw [List.cons_append, List.flatMap_cons, h.names, hreply]
    rfl

/-- **The walk from an index on**, given pages enough for seventeen names each. -/
theorem zonePages_answer {port : Port} {tables : Tables} {router : Addr}
    (haddr : port.addr = some router) (hz : ∀ z ∈ tables.allZones, NameOk z)
    (hall : tables.allZones.length < 65000) {pages : ℕ} {n : Node} {start : UInt16} {i : ℕ}
    (hi : i ≤ tables.allZones.length) (hstart : start.toNat = i + 1) (hpages : 0 < pages)
    (hleft : (tables.allZones.drop i).length ≤ 17 * pages) :
    ∃ ps last, zonePages (answer port tables) router pages n start = some (ps ++ [last]) ∧
      Walked (tables.allZones.drop i) ps last := by
  induction pages generalizing n start i with
  | zero => cases hpages
  | succ pages ih =>
    unfold zonePages
    dsimp only
    rw [zonePage_answer haddr hz, hstart, Nat.add_sub_cancel, Option.bind_some]
    set left := tables.allZones.drop i with hdrop
    set page := pageFrom tables.allZones i (n.nextId + 1) with hpage
    have hfit : page.1.data.length ≤ ATP_MAX := length_pageFrom_le _ _ _
    obtain ⟨rest, hrest⟩ : namesThatFit 0 left <+: left := (namesThatFit_spec 0 left).1
    have hreply : page.2 = .reply (decide ((namesThatFit 0 left).length = left.length))
      (namesThatFit 0 left) := rfl
    by_cases hlast : (namesThatFit 0 left).length = left.length
    · -- The list runs out on this page.
      rw [decide_eq_true hlast] at hreply
      have hend : namesThatFit 0 left = left := (namesThatFit_spec 0 left).1.eq_of_length hlast
      refine ⟨[], page, ?_, by simpa using hfit, by simp, ⟨_, hreply⟩, ?_⟩
      · rw [hreply]
        rfl
      · simp [hreply, namesOf, hend]
    · -- A full page: the next one starts behind it.
      rw [decide_eq_false hlast] at hreply
      have hseventeen := seventeen_le_page hlast
      have hrestlen : (namesThatFit 0 left).length + rest.length = left.length := by
        rw [← List.length_append, hrest]
      have hleftlen : i + left.length = tables.allZones.length := by
        rw [hdrop, List.length_drop]
        omega
      have hne : namesThatFit 0 left ≠ [] := fun h => by
        rw [h] at hseventeen
        simp at hseventeen
      have hdrop' : tables.allZones.drop (i + (namesThatFit 0 left).length) = rest := by
        rw [← List.drop_drop, ← hdrop]
        calc left.drop (namesThatFit 0 left).length
            = (namesThatFit 0 left ++ rest).drop (namesThatFit 0 left).length := by rw [hrest]
          _ = rest := List.drop_left
      obtain ⟨next, hnext, hnum⟩ := nextStart_reply hstart hne (by omega)
      obtain ⟨ps, last, hwalk, hw⟩ := ih (n := { n with nextId := n.nextId + 1 })
        (by omega) hnum (by omega) (by rw [hdrop']; omega)
      rw [hdrop'] at hw
      refine ⟨page :: ps, last, ?_, hrest ▸ hw.cons hfit hreply hne⟩
      rw [hreply, hnext]
      dsimp only
      rw [hwalk]
      rfl

/-- Names that are all new are added as they come. -/
theorem foldl_addNames {pages : List (Atp × ZipAtp)} {zones : List Str}
    (h : (zones ++ pages.flatMap fun page => namesOf page.2).Nodup) :
    pages.foldl (fun zones page => addNames zones page.2) zones =
      zones ++ pages.flatMap fun page => namesOf page.2 := by
  have hadd : ∀ (names zones : List Str), (zones ++ names).Nodup →
      names.foldl (fun zones n => if n ∈ zones then zones else zones ++ [n]) zones =
        zones ++ names := by
    intro names
    induction names with
    | nil => simp
    | cons n names ih =>
      intro zones hnodup
      have hn : n ∉ zones := fun hmem =>
        (List.nodup_append.1 hnodup).2.2 n hmem n List.mem_cons_self rfl
      rw [List.foldl_cons, if_neg hn, ih _ (by simpa using hnodup)]
      simp
  induction pages generalizing zones with
  | nil => simp
  | cons page pages ih =>
    rw [List.flatMap_cons, ← List.append_assoc] at h
    have hpage : addNames zones page.2 = zones ++ namesOf page.2 := by
      cases hp : page.2 with
      | reply last names =>
        rw [hp] at h
        exact hadd _ _ (List.nodup_append.1 h).1
      | _ => simp [addNames, namesOf]
    rw [List.foldl_cons, hpage, ih h, List.flatMap_cons, List.append_assoc]

/-- **Client and server agree on paging.** Walking a list of at most seventeen thousand names that
the wire can carry ends with exactly the list, in order; every response fits, every page but the
last has names, and the last-packet flag is on the last one alone. -/
theorem zone_list_paged {port : Port} {tables : Tables} {router : Addr} {n : Node}
    (haddr : port.addr = some router) (hlen : tables.allZones.length ≤ 17000)
    (hz : ∀ z ∈ tables.allZones, NameOk z) :
    n.zoneList (answer port tables) (some router) = some tables.allZones ∧
      ∃ pages last, zonePages (answer port tables) router MAX_ZONE_PAGES n 1 =
        some (pages ++ [last]) ∧ Walked tables.allZones pages last := by
  obtain ⟨pages, last, hwalk, hw⟩ := zonePages_answer (n := n) (i := 0) haddr hz (by omega)
    (Nat.zero_le _) (show (1 : UInt16).toNat = 0 + 1 from rfl) (show 0 < MAX_ZONE_PAGES by decide)
    (by unfold MAX_ZONE_PAGES; rw [List.drop_zero]; omega)
  rw [List.drop_zero] at hw
  refine ⟨?_, pages, last, hwalk, hw⟩
  unfold zoneList
  dsimp only
  rw [hwalk, Option.map_some, foldl_addNames, hw.names, List.nil_append]
  rw [hw.names, List.nil_append]
  exact tables.allZones_nodup

/-- Twenty zones, whose names of 32 characters do not fit one response. -/
def longZones : List Str :=
  (List.range 20).map fun k => Char.ofNat (65 + k) :: List.replicate 31 'z'

/-- A LocalTalk port in them that holds node 128 of network 10. -/
def longZonePort : Port :=
  { Port.new .lowest 0 "lt" .ltoudp (10, 10) longZones 0 with node := some 128 }

/-- The tables of a router with that port alone. -/
def longZoneTables : Tables := Tables.new.addPort 0 (10, 10) false longZones 0

theorem zone_list_paged_two :
    ({ addr := ⟨10, 7⟩, nextId := 0 } : Node).zoneList (answer longZonePort longZoneTables)
        (some ⟨10, 128⟩) = some longZoneTables.allZones ∧
      ∃ page last, zonePages (answer longZonePort longZoneTables) ⟨10, 128⟩ MAX_ZONE_PAGES
        { addr := ⟨10, 7⟩, nextId := 0 } 1 = some [page, last] ∧
          Walked longZoneTables.allZones [page] last := by
  obtain ⟨hlist, pages, last, hpages, hwalked⟩ :=
    @zone_list_paged longZonePort longZoneTables ⟨10, 128⟩ { addr := ⟨10, 7⟩, nextId := 0 }
      (by decide) (by decide +kernel) (by decide +kernel)
  have htwo : (zonePages (answer longZonePort longZoneTables) ⟨10, 128⟩ MAX_ZONE_PAGES
      { addr := ⟨10, 7⟩, nextId := 0 } 1).map List.length = some 2 := by decide +kernel
  rw [hpages, Option.map_some, List.length_append, Option.some.injEq] at htwo
  obtain ⟨page, rfl⟩ := List.length_eq_one_iff.1 (Nat.succ.inj htwo)
  exact ⟨hlist, page, last, hpages, hwalked⟩

end Node

end AppleTalk
