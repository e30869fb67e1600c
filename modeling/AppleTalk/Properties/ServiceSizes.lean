import AppleTalk.Properties.Addressed
import AppleTalk.Router.Pages
import Mathlib.Algebra.Order.BigOperators.Group.List

/-!
# The sizes of service datagrams

A datagram carries at most 586 octets. Every service packs to that but the NBP relay: it writes the
zone it resolved into every tuple of the lookup it passes on, so a lookup that fits can come out
too long.
-/

namespace AppleTalk

open Octets

/-! ### The sizes of packets -/

@[simp] theorem length_putPstring (s : Str) : (putPstring s).length = 1 + min s.length 32 := by
  simp [putPstring, Nat.add_comm, Nat.min_comm]

/-- A character takes at least one octet in UTF-8. -/
theorem length_le_utf8Len (s : Str) : s.length ≤ utf8Len s := by
  induction s with
  | nil => simp
  | cons c s ih =>
    have := c.utf8Size_pos
    simp only [utf8Len, List.map_cons, List.sum_cons, List.length_cons] at ih ⊢
    omega

theorem NetworkTuple.length_encodeWith (t : NetworkTuple) (trailer : UInt8) :
    (t.encodeWith trailer).length = if t.extended then 6 else 3 := by
  unfold encodeWith
  cases t.extended <;> simp

theorem Rtmp.length_data (sender : Addr) (range : Option (UInt16 × UInt16))
    (tuples : List NetworkTuple) :
    (Rtmp.data sender range tuples).toBytes.length =
      (4 + if range.isSome then 6 else 3) +
        (tuples.map fun t => if t.extended then 6 else 3).sum := by
  cases range with
  | none =>
    simp [toBytes, List.length_flatMap, NetworkTuple.length_encodeWith]
    omega
  | some range =>
    obtain ⟨first, last⟩ := range
    simp [toBytes, List.length_flatMap, NetworkTuple.length_encodeWith]
    omega

/-- A pair takes no more than it is counted for. -/
theorem length_pair_le (z : UInt16 × Str) :
    (ofWord z.1 ++ putPstring z.2).length ≤ pairBytes z.2 := by
  have := length_le_utf8Len z.2
  simp only [List.length_append, length_ofWord, length_putPstring, pairBytes]
  omega

theorem Zip.length_reply_le (zones : List (UInt16 × Str)) (total : Option UInt8) :
    (Zip.reply zones total).toBytes.length ≤
      ZIP_HEAD + (zones.map fun z => pairBytes z.2).sum := by
  have : (zones.map fun z => (ofWord z.1 ++ putPstring z.2).length).sum ≤
      (zones.map fun z => pairBytes z.2).sum :=
    List.sum_le_sum fun z _ => length_pair_le z
  simp only [toBytes, List.length_cons, List.length_flatMap, ZIP_HEAD]
  omega

theorem Nbp.length_toBytes (n : Nbp) :
    n.toBytes.length = 2 + (n.tuples.map fun t => 8 + min t.object.length 32 +
      min t.typ.length 32 + min t.zone.length 32).sum := by
  have htuple : ∀ t : NbpTuple, t.toBytes.length = 8 + min t.object.length 32 +
      min t.typ.length 32 + min t.zone.length 32 := by
    intro t
    simp only [NbpTuple.toBytes, List.length_append, length_ofWord, List.length_cons,
      List.length_nil, length_putPstring]
    omega
  simp only [toBytes, List.length_cons, List.length_flatMap, htuple]
  omega

theorem length_namesThatFit (size : ℕ) (names : List Str) (h : size ≤ ATP_MAX) :
    size + ((namesThatFit size names).flatMap putPstring).length ≤ ATP_MAX := by
  induction names generalizing size with
  | nil => simpa [namesThatFit] using h
  | cons n names ih =>
    unfold namesThatFit
    dsimp only
    split_ifs with hn
    · simpa using h
    · have h1 := ih (size + 1 + min (utf8Len n) 32) (by omega)
      have h2 := length_le_utf8Len n
      simp only [List.flatMap_cons, List.length_append, length_putPstring]
      omega

/-! ### What the packers make -/

/-- The pieces one network's zones go out in. -/
theorem pages_eq (pairs : List (UInt16 × Str)) :
    ∃ ps : List (List (UInt16 × Str)),
      pages pairs = ps.map (Zip.reply · (some (UInt8.ofNat (min pairs.length 255)))) ∧
      ps.flatten = pairs ∧
      ∀ q ∈ ps, q ≠ [] ∧ ZIP_HEAD + (q.map fun z => pairBytes z.2).sum ≤ DDP_MAX := by
  have hfit : ∀ z ∈ pairs, ZIP_HEAD + pairBytes z.2 ≤ DDP_MAX := by
    intro z _
    unfold DDP_MAX ZIP_HEAD pairBytes
    omega
  rw [pages_packs]
  exact Packing.finish_foldl_take _ _ (by decide) hfit

/-- The octets counted for the zones of a Reply. -/
def Zip.counted : Zip → ℕ
  | .reply zones _ => ZIP_HEAD + (zones.map fun z => pairBytes z.2).sum
  | _ => 0

theorem pages_counted (pairs : List (UInt16 × Str)) :
    ∀ z ∈ pages pairs, z.counted ≤ DDP_MAX := by
  obtain ⟨ps, hps, -, hfit⟩ := pages_eq pairs
  rw [hps]
  intro z hz
  obtain ⟨q, hq, rfl⟩ := List.mem_map.1 hz
  exact (hfit q hq).2

/-- The Replies to a ZIP Query are counted within a datagram. -/
theorem queryReplies_counted (nets : List UInt16) (tables : Tables) :
    ∀ z ∈ queryReplies nets tables, z.counted ≤ DDP_MAX := by
  unfold queryReplies
  dsimp only
  generalize hr : List.foldl _ _ nets = r
  have hfold : (∀ z ∈ r.1, z.counted ≤ DDP_MAX) ∧
      r.2.2 = ZIP_HEAD + (r.2.1.map fun z => pairBytes z.2).sum ∧ r.2.2 ≤ DDP_MAX := by
    rw [← hr]
    refine List.foldlRecOn (motive := fun r : List Zip × List (UInt16 × Str) × ℕ =>
      (∀ z ∈ r.1, z.counted ≤ DDP_MAX) ∧
        r.2.2 = ZIP_HEAD + (r.2.1.map fun z => pairBytes z.2).sum ∧ r.2.2 ≤ DDP_MAX) nets _
      ⟨by simp, by simp, by decide⟩ fun r hr net _ => ?_
    obtain ⟨hdone, hused, hfit⟩ := hr
    cases (tables.zones net).filter ZoneList.complete with
    | none => exact ⟨hdone, hused, hfit⟩
    | some z =>
      have hflush : ∀ z ∈ r.1 ++ [Zip.reply r.2.1 none], z.counted ≤ DDP_MAX :=
        List.forall_mem_append.2 ⟨hdone, by simpa [Zip.counted] using hused ▸ hfit⟩
      dsimp only
      generalize (z.names.map fun n => (net, n)) = pairs
      by_cases halone : DDP_MAX < ZIP_HEAD + (pairs.map fun p => pairBytes p.2).sum
      · -- The list goes out over pages of its own.
        rw [if_pos halone]
        split_ifs
        · exact ⟨List.forall_mem_append.2 ⟨hflush, pages_counted pairs⟩, rfl,
            show ZIP_HEAD ≤ DDP_MAX by decide⟩
        · exact ⟨List.forall_mem_append.2 ⟨hdone, pages_counted pairs⟩, hused, hfit⟩
      · rw [if_neg halone]
        split_ifs with hflushes
        · exact ⟨hflush, by simp, Nat.not_lt.1 halone⟩
        · refine ⟨hdone, by simp [hused, Nat.add_assoc], ?_⟩
          dsimp only
          by_cases hnil : r.2.1 = []
          · rw [hused, hnil]
            simpa using halone
          · exact Nat.not_lt.1 fun h => hflushes ⟨hnil, Or.inr h⟩
  split_ifs
  · exact hfold.1
  · exact List.forall_mem_append.2
      ⟨hfold.1, by simpa [Zip.counted] using hfold.2.1 ▸ hfold.2.2⟩

/-! ### What the services send -/

/-- The datagram carries at most 586 octets, and its encoding reads back with the right length. -/
def Ddp.Fits (d : Ddp) : Prop :=
  d.data.length ≤ DDP_MAX ∧
    ∃ d', Ddp.parse d.toBytes = some d' ∧ d'.data = d.data ∧
      d'.length.toNat = 13 + d'.data.length

theorem Ddp.fits_iff {d : Ddp} : d.Fits ↔ d.data.length ≤ DDP_MAX := by
  refine ⟨And.left, fun h => ⟨h, _, parse_toBytes_eq d, rfl, ?_⟩⟩
  -- Ten bits hold the length of every datagram that fits.
  unfold DDP_MAX at h
  simp only [written, UInt16.toNat_ofNat']
  omega

variable {port : Port} {d : Ddp} {tables : Tables} {e : Emit}

theorem fromPort_fits {srcSocket : UInt8} {dst : Addr} {dstSocket typ : UInt8} {body : Bytes}
    {d : Ddp} (h : fromPort port srcSocket dst dstSocket typ body = some d) :
    d.Fits ↔ body.length ≤ DDP_MAX := by
  rw [Ddp.fits_iff, (fromPort_eq h).2]

/-- RTMP's packets fit. -/
theorem rtmpData_fits {dest : Dest} {dst : Addr} {dstSocket : UInt8}
    {tuples : List NetworkTuple} :
    ∀ e ∈ rtmpData port dest dst dstSocket tuples, e.ddp.Fits := by
  intro e he
  unfold rtmpData at he
  split at he
  · cases he
  · rename_i sender _
    obtain ⟨r, hr, rfl⟩ := List.mem_map.1 he
    obtain ⟨ps, p, hchunk, hp⟩ := chunk_eq sender (if port.extended then some port.range else none)
      tuples
    rw [hchunk] at hr
    obtain ⟨q, hq, rfl⟩ := List.mem_map.1 hr
    rw [Ddp.fits_iff]
    show (Rtmp.data _ _ _).toBytes.length ≤ _
    rw [Rtmp.length_data]
    rcases List.mem_append.1 hq with hq | hq
    · exact (hp.closed q hq).2
    · rw [List.mem_singleton.1 hq]
      exact hp.fits

/-- A ZIP Reply fits. -/
theorem zipReply_fits {nets : List UInt16} {z : Zip} (hz : z ∈ queryReplies nets tables) :
    z.toBytes.length ≤ DDP_MAX := by
  obtain ⟨zones, total, rfl⟩ := queryReplies_reply z hz
  exact (Zip.length_reply_le zones total).trans (queryReplies_counted nets tables _ hz)

/-- A NetInfoReply has at most three names. -/
theorem netInfo_fits {zone : Str} (h : netInfo port d zone = some e) : e.ddp.Fits := by
  obtain ⟨d', hd, rfl⟩ := Option.map_eq_some_iff.1 h
  rw [Emit.ddp_on, fromPort_fits hd]
  unfold DDP_MAX
  split_ifs <;>
    simp only [Zip.toBytes, List.length_append, List.length_cons, List.length_nil, length_ofWord,
      length_putPstring, macBytes] <;> omega

/-- A response to a ZIP call over ATP fits. -/
theorem zoneList_fits {a : Atp} (h : zoneList port d a tables = some e) : e.ddp.Fits := by
  obtain ⟨-, last, zones, d', rfl, hd⟩ := zoneList_eq h
  have hnames := length_namesThatFit 0 zones (by decide)
  rw [Emit.ddp_route, fromPort_fits hd]
  unfold ATP_MAX at hnames
  unfold DDP_MAX
  simp only [Atp.toBytes, Atp.response, ZipAtp.replyParts, List.length_cons, List.length_append,
    List.length_nil, length_ofWord]
  omega

/-- Our own LkUp-Reply fits. -/
theorem Local.reply_fits {s : Local} {n : Nbp} {t : NbpTuple} (h : s.reply port n t = some e) :
    e.ddp.Fits := by
  obtain ⟨addr, d', -, rfl, hd⟩ := Local.reply_eq h
  rw [Emit.ddp_route, fromPort_fits hd, Nbp.length_toBytes]
  unfold DDP_MAX
  simp only [List.map_cons, List.map_nil, List.sum_singleton]
  omega

/-- An echo is as long as what it answers. -/
theorem echo_fits {a : Aep} (hd : d.data.length ≤ DDP_MAX) (ha : Aep.parse d.data = some a)
    (h : echo port d a = some e) : e.ddp.Fits := by
  unfold echo at h
  split_ifs at h
  obtain ⟨d', hd', rfl⟩ := Option.map_eq_some_iff.1 h
  rw [Emit.ddp_route, fromPort_fits hd']
  have hlen : d.data.length = 1 + a.data.length := by
    unfold Aep.parse at ha
    split at ha
    · cases ha
    · rename_i b data hdata
      rw [hdata, List.length_cons, Nat.add_comm]
      split at ha <;> cases ha <;> rfl
  simp only [Aep.toBytes, List.length_cons]
  omega

/-- A ZIP Query names at most 255 networks. -/
theorem zipQueries_fits {ports : List Port} :
    ∀ e ∈ zipQueries ports tables, e.ddp.Fits := by
  intro e he
  obtain ⟨g, -, he⟩ := List.mem_flatMap.1 he
  split at he
  · cases he
  · obtain ⟨batch, hbatch, he⟩ := List.mem_filterMap.1 he
    obtain ⟨d', hd, rfl⟩ := Option.map_eq_some_iff.1 he
    rw [Emit.ddp_on, fromPort_fits hd]
    have := Packing.length_of_mem_toChunks (by decide) hbatch
    unfold DDP_MAX
    simp [Zip.toBytes, List.length_flatMap]
    omega

/-! ### The NBP relay -/

/-- The octets a lookup takes with the zone in every tuple. -/
def relaySize (n : Nbp) (zone : Str) : ℕ :=
  2 + (n.tuples.map fun t => 8 + min t.object.length 32 + min t.typ.length 32 +
    min zone.length 32).sum

theorem length_retarget (n : Nbp) (func : NbpFunc) (zone : Str) :
    (retarget n func zone).toBytes.length = relaySize n zone := by
  rw [Nbp.length_toBytes, relaySize, retarget, List.map_map]
  rfl

theorem lkup_fits {n : Nbp} {zone : Str} (h : lkup port n zone = some e) :
    e.ddp.Fits ↔ relaySize n zone ≤ DDP_MAX := by
  obtain ⟨d', hd, rfl⟩ := Option.map_eq_some_iff.1 h
  rw [Emit.ddp_on, fromPort_fits hd, length_retarget]

theorem fwdReq_fits {n : Nbp} {start : UInt16} {zone : Str} :
    (fwdReq d n start zone).ddp.Fits ↔ relaySize n zone ≤ DDP_MAX := by
  rw [fwdReq, Emit.ddp_route, Ddp.fits_iff]
  show (retarget n .fwdReq zone).toBytes.length ≤ _ ↔ _
  rw [length_retarget]

namespace Local

/-- The services pass the lookup on: to a cable of ours on whose port we hold an address, or to
another router's network. -/
def PassesOn (ports : List Port) (tables : Tables) (n : Nbp) (zone : Str) : Prop :=
  (∃ q ∈ cables ports tables n zone, q.node.isSome) ∨ others ports tables n zone ≠ []

/-- A lookup that is passed on still fits with its zone resolved. -/
def RelayFits (here : Port) (ports : List Port) (d : Ddp) (tables : Tables) : Prop :=
  ∀ n t, decodeDdpBody d = .nbp n → d.dstSocket = NBP_SOCKET → n.tuples.head? = some t →
    PassesOn ports tables n (lookupZone here t) → relaySize n (lookupZone here t) ≤ DDP_MAX

variable {s : Local} {arrivedOn : Option Port} {q : Port} {ports : List Port} {now : Instant}

/-- A lookup that is passed on leaves as one emission at least. -/
theorem exists_relay {here : Port} {n : Nbp} {t : NbpTuple} (ht : n.tuples.head? = some t)
    (h : PassesOn ports tables n (lookupZone here t)) :
    ∃ e ∈ s.nbp here ports d n tables,
      (e.ddp.Fits ↔ relaySize n (lookupZone here t) ≤ DDP_MAX) := by
  rcases h with ⟨q, hq, hnode⟩ | hne
  · obtain ⟨e, he⟩ := Option.isSome_iff_exists.1
      ((lkup_isSome q n (lookupZone here t)).trans hnode)
    exact ⟨e, (mem_nbp ht).2 (Or.inl ⟨q, hq, he⟩), lkup_fits he⟩
  · obtain ⟨start, hs⟩ := List.exists_mem_of_ne_nil _ hne
    exact ⟨_, (mem_nbp ht).2 (Or.inr (Or.inl ⟨start, hs, rfl⟩)), fwdReq_fits⟩

/-- Every answer but a relayed lookup fits. -/
theorem Sends.fits_iff {here : Port} {body : DdpBody} (hd : d.data.length ≤ DDP_MAX)
    (hbody : body.ReadFrom d) (h : s.Sends here q ports d tables body e) :
    e.ddp.Fits ∨ ∃ n t, body = .nbp n ∧ n.tuples.head? = some t ∧
      PassesOn ports tables n (lookupZone here t) ∧
      (e.ddp.Fits ↔ relaySize n (lookupZone here t) ≤ DDP_MAX) := by
  cases h with
  | data _ he => exact Or.inl (rtmpData_fits e he)
  | zones hz hd' => exact Or.inl ((fromPort_fits hd').2 (zipReply_fits hz))
  | netInfo he => exact Or.inl (netInfo_fits he)
  | zoneList he => exact Or.inl (zoneList_fits he)
  | lkUp ht hq he =>
    exact Or.inr ⟨_, _, rfl, ht, Or.inl ⟨_, hq, lkup_claimed he⟩, lkup_fits he⟩
  | fwdReq ht hs =>
    exact Or.inr ⟨_, _, rfl, ht, Or.inr (List.ne_nil_of_mem hs), fwdReq_fits⟩
  | reply _ he => exact Or.inl (Local.reply_fits he)
  | echo he => exact Or.inl (echo_fits hd hbody he)

/-- Every answer but an echo and what becomes of a lookup fits, whatever arrived. -/
theorem Sends.fits {here : Port} {body : DdpBody} (h : s.Sends here q ports d tables body e)
    (hn : ∀ n, body ≠ .nbp n) (ha : ∀ a, body ≠ .aep a) : e.ddp.Fits := by
  cases h with
  | data _ he => exact rtmpData_fits e he
  | zones hz hd => exact (fromPort_fits hd).2 (zipReply_fits hz)
  | netInfo he => exact netInfo_fits he
  | zoneList he => exact zoneList_fits he
  | echo he => exact absurd rfl (ha _)
  | _ => exact absurd rfl (hn _)

/-- What a tick sends fits. -/
theorem tick_fits (s : Local) (h : e ∈ (s.tick ports tables now).2) : e.ddp.Fits := by
  rcases List.mem_append.1 h with h | h
  · split_ifs at h
    · obtain ⟨p, -, h⟩ := List.mem_flatMap.1 h
      exact rtmpData_fits e h
    · cases h
  · split_ifs at h
    · exact zipQueries_fits e h
    · cases h

/-- **When service datagrams fit.** What a tick sends always fits; the answers to a datagram that
fits do too, just when a lookup among them that is passed on still fits with its zone resolved. -/
theorem services_fit_iff (s : Local) (arrivedOn : Option Port) (q : Port) (ports : List Port)
    (d : Ddp) (tables : Tables) (now : Instant) (hd : d.data.length ≤ DDP_MAX) :
    ((∀ e ∈ (s.handle arrivedOn q ports d (decodeDdpBody d) tables now).emits, e.ddp.Fits) ∧
      ∀ e ∈ (s.tick ports tables now).2, e.ddp.Fits) ↔
      RelayFits (arrivedOn.getD q) ports d tables := by
  constructor
  · rintro ⟨h, -⟩ n t hbody hsocket ht hp
    obtain ⟨e, he, hfits⟩ := exists_relay (s := s) (d := d) ht hp
    refine hfits.1 (h e ?_)
    unfold handle
    rw [hbody]
    dsimp only
    rw [if_pos hsocket]
    exact he
  · intro h
    refine ⟨fun e he => ?_, fun e he => ?_⟩
    · rcases (sends_of_mem he).fits_iff hd (decodeDdpBody_readFrom d) with
        hfits | ⟨n, t, hbody, ht, hp, hfits⟩
      · exact hfits
      · refine hfits.2 (h n t hbody ?_ ht hp)
        by_contra hsocket
        unfold handle at he
        rw [hbody] at he
        dsimp only at he
        rw [if_neg hsocket] at he
        cases he
    · exact s.tick_fits he

/-- Fifteen names of fifteen characters, in no zone. -/
def longLookup : Nbp :=
  { func := .fwdReq, id := 1
    tuples := List.replicate 15
      { addr := { net := 20, node := 7 }, socket := 253, enumerator := 0
        object := List.replicate 15 'o', typ := List.replicate 15 't', zone := [] } }

/-- The lookup, from network 20 to the router's first network. -/
def longDatagram : Ddp :=
  datagram { net := 20, node := 7 } 253 { net := 10, node := 0 } NBP_SOCKET DDP_NBP
    longLookup.toBytes

theorem decode_longDatagram : decodeDdpBody longDatagram = .nbp longLookup := by decide +kernel

theorem length_longDatagram : longDatagram.data.length ≤ DDP_MAX := by decide +kernel

/-- One name less. -/
def shortLookup : Nbp := { longLookup with tuples := longLookup.tuples.take 14 }

def shortDatagram : Ddp :=
  datagram { net := 20, node := 7 } 253 { net := 10, node := 0 } NBP_SOCKET DDP_NBP
    shortLookup.toBytes

theorem decode_shortDatagram : decodeDdpBody shortDatagram = .nbp shortLookup := by decide +kernel

/-- A LocalTalk port that holds node 128 of network 10, in zone `A`. -/
def cable : Port :=
  { Port.new .lowest 0 "ltoudp" .ltoudp (10, 10) [['A']] 0 with node := some 128 }

/-- Both lookups are passed on to the cable. The shorter one fits with its zone filled in, and the
longer one does not. -/
theorem services_fit_iff_cable :
    (((Local.new ['R']).handle (some cable) cable [cable] shortDatagram
          (decodeDdpBody shortDatagram) Tables.new 0).emits.length = 1 ∧
        ∀ e ∈ ((Local.new ['R']).handle (some cable) cable [cable] shortDatagram
          (decodeDdpBody shortDatagram) Tables.new 0).emits, e.ddp.Fits) ∧
      ¬((∀ e ∈ ((Local.new ['R']).handle (some cable) cable [cable] longDatagram
          (decodeDdpBody longDatagram) Tables.new 0).emits, e.ddp.Fits) ∧
        ∀ e ∈ ((Local.new ['R']).tick [cable] Tables.new 0).2, e.ddp.Fits) := by
  -- Both resolve the zone to the port's own.
  have hzone : ∀ t : NbpTuple, t.zone = [] → lookupZone cable t = ['A'] := fun t ht => by
    rw [lookupZone, ht]
    rfl
  have hshort : RelayFits cable [cable] shortDatagram Tables.new := by
    intro n t hn _ ht _
    obtain rfl := DdpBody.nbp.inj (decode_shortDatagram.symm.trans hn)
    have hempty : shortLookup.tuples.head?.map NbpTuple.zone = some [] := by decide
    rw [ht] at hempty
    rw [hzone t (Option.some.inj hempty)]
    decide
  have hlong : ¬RelayFits cable [cable] longDatagram Tables.new := by
    intro h
    obtain ⟨t, ht, hempty⟩ : ∃ t, longLookup.tuples.head? = some t ∧ t.zone = [] := ⟨_, rfl, rfl⟩
    have hsize := h longLookup t decode_longDatagram rfl ht
    rw [hzone t hempty] at hsize
    exact absurd (hsize (Or.inl ⟨cable, by decide, rfl⟩)) (by decide)
  exact ⟨⟨by decide +kernel, ((services_fit_iff (Local.new ['R']) (some cable) cable [cable]
    shortDatagram Tables.new 0 (by decide +kernel)).2 hshort).1⟩,
    mt (services_fit_iff (Local.new ['R']) (some cable) cable [cable] longDatagram Tables.new 0
      length_longDatagram).1 hlong⟩

end Local

namespace Router

/-- A FwdReq of 572 octets goes out as a LkUp of 587. -/
theorem long_lookup_sent :
    ¬∀ (r : Router) (id : PortId) (p : Port) (d : Ddp) (now : Instant), Reachable .lowest r →
      r.port id = some p → d.data.length ≤ DDP_MAX →
      ∀ e ∈ (r.local.handle (some p) p r.ports d (decodeDdpBody d) r.tables now).emits,
        e.ddp.Fits := by
  intro h
  have hport : (pair.port 0).map (fun p => (p.zones, p.node)) = some ([['A']], some 128) := by
    decide +kernel
  obtain ⟨p, hp, hface⟩ := Option.map_eq_some_iff.1 hport
  obtain ⟨hzones, hnode⟩ := Prod.mk.inj hface
  obtain ⟨t, ht, hzone⟩ : ∃ t, Local.longLookup.tuples.head? = some t ∧ t.zone = [] :=
    ⟨_, rfl, rfl⟩
  have hlookup : Local.lookupZone p t = ['A'] := by
    simp [Local.lookupZone, hzone, Port.defaultZone, hzones]
  have hpasses : Local.PassesOn pair.ports pair.tables Local.longLookup (Local.lookupZone p t) := by
    have hhas : p.hasZone (Local.lookupZone p t) := by
      rw [hlookup, Port.hasZone, hzones]
      decide
    exact Or.inl ⟨p, List.mem_filter.2 ⟨(mem_of_port hp).1, hhas⟩, by simp [hnode]⟩
  obtain ⟨e, he, hfits⟩ := Local.exists_relay (s := pair.local) (d := Local.longDatagram) ht hpasses
  have hlong : ¬relaySize Local.longLookup (Local.lookupZone p t) ≤ DDP_MAX := by
    rw [hlookup]
    decide
  refine hlong (hfits.1 (h pair 0 p Local.longDatagram 0 pair_reachable hp
    Local.length_longDatagram e ?_))
  unfold Local.handle
  rw [Local.decode_longDatagram]
  exact he

end Router

end AppleTalk
