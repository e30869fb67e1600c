import AppleTalk.Properties.Fragments
import AppleTalk.Wire.Stack

/-!
# Paged route listings arrive whole

A listing of routes goes out in as many RTMP Data packets, or RI-Rsps, as it takes. What is read
back of them is the listing, in order, and none of them is too long.
-/

namespace AppleTalk

/-- RTMP Data packets bring a listing: each reads back, from the same sender and for the same range,
and what they hold is the listing. -/
structure Rtmp.Brings (sender : Addr) (range : Option (UInt16 × UInt16))
    (tuples : List NetworkTuple) (packets : List Rtmp) : Prop where
  read : ∃ pages : List (List NetworkTuple), pages.flatten = tuples ∧
    packets.map (fun r => parse r.ddpType r.toBytes) =
      pages.map fun page => some (.data sender range page)
  short : ∀ r ∈ packets, r.toBytes.length ≤ 586
  nonempty : packets ≠ []

/-- RI-Rsp pages bring a listing: they hold it, and only the page of an empty listing is empty. -/
structure Cmd.PagesBring (tuples : List NetworkTuple) (pages : List (List NetworkTuple)) :
    Prop where
  all : pages.flatten = tuples
  short : ∀ page ∈ pages, ∀ last, (Cmd.riRsp last page).encodeBody.length ≤ MAX_BODY
  full : ∀ page ∈ pages, page = [] → tuples = []
  nonempty : pages ≠ []

theorem chunk_brings (sender : Addr) (range : Option (UInt16 × UInt16))
    {tuples : List NetworkTuple} (h : ∀ t ∈ tuples, t.WireOk) :
    Rtmp.Brings sender range tuples (chunk sender range tuples) := by
  obtain ⟨ps, p, hchunk, hp⟩ := chunk_eq sender range tuples
  have hall : (ps ++ [p]).flatten = tuples := by
    rw [List.flatten_append, List.flatten_singleton, hp.all]
  rw [hchunk]
  refine ⟨⟨ps ++ [p], hall, ?_⟩, ?_, by simp⟩
  · rw [List.map_map]
    refine List.map_congr_left fun page hpage => Rtmp.parse_toBytes fun t ht => h t ?_
    rw [← hall]
    exact List.mem_flatten_of_mem hpage ht
  · intro r hr
    obtain ⟨page, hpage, rfl⟩ := List.mem_map.1 hr
    rw [Rtmp.length_data]
    rcases List.mem_append.1 hpage with hpage | hpage
    · exact (hp.closed page hpage).2
    · rw [List.mem_singleton.1 hpage]
      exact hp.fits

theorem splitTuples_bring (tuples : List NetworkTuple) :
    Cmd.PagesBring tuples (splitTuples tuples) := by
  refine ⟨flatten_splitTuples tuples, splitTuples_small tuples, ?_, ?_⟩
  · obtain ⟨ps, p, hsplit, hp⟩ := splitTuples_eq tuples
    rw [hsplit]
    intro page hpage hempty
    rcases List.mem_append.1 hpage with hpage | hpage
    · exact absurd hempty (hp.closed page hpage).1
    · by_contra hne
      exact hp.opened hne ((List.mem_singleton.1 hpage).symm.trans hempty)
  · obtain ⟨page, rest, hsplit⟩ := Peer.exists_splitTuples tuples
    rw [hsplit]
    exact List.cons_ne_nil page rest

/-- **Paged route listings arrive whole**, over RTMP and over a tunnel. -/
theorem listings_arrive (sender : Addr) (range : Option (UInt16 × UInt16))
    {tuples : List NetworkTuple} (h : ∀ t ∈ tuples, t.WireOk) :
    Rtmp.Brings sender range tuples (chunk sender range tuples) ∧
      Cmd.PagesBring tuples (splitTuples tuples) :=
  ⟨chunk_brings sender range h, splitTuples_bring tuples⟩

/-- A nonextended network and an extended one. -/
theorem listings_arrive_two :
    let tuples : List NetworkTuple :=
      [{ range := (10, 10), extended := false, distance := 1 },
        { range := (20, 29), extended := true, distance := 127 }]
    Rtmp.Brings { net := 1, node := 2 } (some (1, 5)) tuples
        (chunk { net := 1, node := 2 } (some (1, 5)) tuples) ∧
      Cmd.PagesBring tuples (splitTuples tuples) :=
  listings_arrive { net := 1, node := 2 } (some (1, 5)) (by
    simp only [List.forall_mem_cons]
    exact ⟨⟨by decide, fun _ => rfl⟩, ⟨by decide, by decide⟩, by simp⟩)

end AppleTalk
