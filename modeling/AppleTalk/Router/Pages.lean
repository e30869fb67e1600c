import AppleTalk.Lib.Packing
import AppleTalk.Router.Aurp
import AppleTalk.Router.Local

/-!
# The pages a listing goes out in

RTMP Data packets and RI-Rsps are packed tuple by tuple, the zones of one network name by name, all
by loops of the same kind. Whatever is known of the pages of any of them is read off what a packer
makes of its items.
-/

namespace AppleTalk

/-- The pieces RTMP tuples go out in. -/
theorem chunk_eq (sender : Addr) (range : Option (UInt16 × UInt16)) (tuples : List NetworkTuple) :
    ∃ ps p, chunk sender range tuples = (ps ++ [p]).map (Rtmp.data sender range) ∧
      Packing.Packed DDP_MAX (4 + if range.isSome then 6 else 3)
        (fun t => if t.extended then 6 else 3) tuples ps p := by
  have hhead : 4 + (if range.isSome then 6 else 3) ≤ DDP_MAX := by
    unfold DDP_MAX
    split_ifs <;> omega
  have hfit : ∀ t ∈ tuples, 4 + (if range.isSome then 6 else 3) + (if t.extended then 6 else 3) ≤
      DDP_MAX := by
    intro t _
    unfold DDP_MAX
    split_ifs <;> omega
  obtain ⟨ps, p, hfold, hp⟩ := Packing.foldl_take
    (fun t : NetworkTuple => if t.extended then 6 else 3) (Rtmp.data sender range) hhead hfit
  refine ⟨ps, p, ?_, hp⟩
  have hchunk : chunk sender range tuples =
      (tuples.foldl (Packing.take DDP_MAX _ _ (Rtmp.data sender range)) ([], [], _)).1 ++
        [Rtmp.data sender range
          (tuples.foldl (Packing.take DDP_MAX _ _ (Rtmp.data sender range)) ([], [], _)).2.1] := rfl
  rw [hchunk, hfold]
  simp

/-- The pages an export goes out in. -/
theorem splitTuples_eq (tuples : List NetworkTuple) :
    ∃ ps p, splitTuples tuples = ps ++ [p] ∧
      Packing.Packed MAX_BODY 0 (fun t => if t.extended then 6 else 3) tuples ps p := by
  have hfit : ∀ t ∈ tuples, 0 + (if t.extended then 6 else 3) ≤ MAX_BODY := by
    intro t _
    unfold MAX_BODY
    split_ifs <;> omega
  obtain ⟨ps, p, hfold, hp⟩ := Packing.foldl_take
    (fun t : NetworkTuple => if t.extended then 6 else 3) id (Nat.zero_le _) hfit
  refine ⟨ps, p, ?_, hp⟩
  have hsplit : splitTuples tuples =
      let r := tuples.foldl (Packing.takeAny MAX_BODY 0
        (fun t : NetworkTuple => if t.extended then 6 else 3) id) ([], [], 0)
      r.1 ++ [r.2.1] := by
    unfold splitTuples Packing.takeAny
    simp only [Nat.zero_add, id]
  rw [hsplit, Packing.foldl_takeAny _ _ (Nat.zero_le _) hfit, hfold]
  simp

/-- The pages of an export are the whole of it. -/
theorem flatten_splitTuples (tuples : List NetworkTuple) :
    (splitTuples tuples).flatten = tuples := by
  obtain ⟨ps, p, hsplit, hp⟩ := splitTuples_eq tuples
  rw [hsplit, List.flatten_append, List.flatten_singleton, hp.all]

/-- The pages of an export hold its tuples. -/
theorem mem_splitTuples {x : List NetworkTuple} :
    ∀ page ∈ splitTuples x, ∀ t ∈ page, t ∈ x := by
  intro page hpage t ht
  rw [← flatten_splitTuples x]
  exact List.mem_flatten_of_mem hpage ht

/-- What a page takes is within the limit. -/
theorem sum_splitTuples {x : List NetworkTuple} :
    ∀ page ∈ splitTuples x, (page.map fun t => if t.extended then 6 else 3).sum ≤ MAX_BODY := by
  obtain ⟨ps, p, hsplit, hp⟩ := splitTuples_eq x
  have hps := fun q hq => (hp.closed q hq).2
  have hp := hp.fits
  simp only [Nat.zero_add] at hps hp
  rw [hsplit]
  exact List.forall_mem_append.2 ⟨hps, List.forall_mem_singleton.2 hp⟩

/-! ### The zones of one network -/

/-- The Replies with one network's zones are a packer's. -/
theorem pages_packs (pairs : List (UInt16 × Str)) :
    pages pairs = Packing.finish (Zip.reply · (some (UInt8.ofNat (min pairs.length 255))))
      (pairs.foldl (Packing.take DDP_MAX ZIP_HEAD (fun z => pairBytes z.2)
        (Zip.reply · (some (UInt8.ofNat (min pairs.length 255))))) ([], [], ZIP_HEAD)) := rfl

/-- The ZI-Rsps with one network's zones are a packer's. -/
theorem ziChunks_packs (net : UInt16) (names : List Str) :
    ziChunks net names = Packing.finish (Cmd.ziRsp (some (UInt16.ofNat names.length)))
      ((names.map fun n => (net, n)).foldl (Packing.take MAX_BODY 0 (fun z => 3 + utf8Len z.2)
        (Cmd.ziRsp (some (UInt16.ofNat names.length)))) ([], [], 0)) := by
  rw [List.foldl_map]
  unfold ziChunks Packing.take
  simp only [Nat.zero_add]
  rfl

end AppleTalk
