import AppleTalk.Lib.Crc
import AppleTalk.Tashtalk.Decoder

/-!
# What the frame check sequence detects

The register of `fcs` is a reflected CRC of sixteen bits, and so has room for two bytes side by
side: exactly one pair of bytes behind a frame leaves the residue, and no change within two adjacent
bytes leaves the same register.
-/

namespace AppleTalk

/-- The generator. -/
def crcPoly : BitVec 16 := 0x8408#16

theorem crcPoly_msb : crcPoly.msb = true := by decide

/-! ### The register is a reflected CRC -/

theorem toBitVec_crcShift (crc : UInt16) :
    (crcShift crc).toBitVec = Crc.shift crcPoly crc.toBitVec := by
  have hlow : crc &&& 1 ≠ 0 ↔ crc.toBitVec.getLsbD 0 = true := by
    rw [ne_eq, ← UInt16.toBitVec_inj, UInt16.toBitVec_and]
    show ¬(crc.toBitVec &&& 1#16) = 0#16 ↔ _
    rw [BitVec.and_one_eq_setWidth_ofBool_getLsbD]
    cases crc.toBitVec.getLsbD 0 <;> decide
  unfold crcShift Crc.shift
  by_cases h : crc.toBitVec.getLsbD 0 = true
  · rw [if_pos (hlow.2 h), if_pos h]
    rfl
  · rw [if_neg fun hc => h (hlow.1 hc), if_neg h]
    rfl

theorem toBitVec_crcUpdate (crc : UInt16) (byte : UInt8) :
    (crcUpdate crc byte).toBitVec = Crc.feed crcPoly crc.toBitVec byte.toBitVec := by
  have hshift : ∀ n r, (crcShift^[n] r).toBitVec = (Crc.shift crcPoly)^[n] r.toBitVec :=
    fun n => (Function.Semiconj.iterate_right toBitVec_crcShift n : _)
  exact hshift 8 _

theorem toBitVec_crcOver (bytes : Bytes) :
    (crcOver bytes).toBitVec =
      Crc.feedAll crcPoly 0xffff#16 (bytes.map UInt8.toBitVec) := by
  unfold crcOver Crc.feedAll
  rw [List.foldl_map]
  exact (List.foldl_hom UInt16.toBitVec fun r b => (toBitVec_crcUpdate r b).symm).symm

/-! ### Two bytes at a time -/

theorem toBitVec_injective : Function.Injective UInt8.toBitVec := fun _ _ => UInt8.toBitVec_inj.1

/-- Two bytes fit side by side. -/
theorem fits_two {bs : Bytes} (h : bs.length ≤ 2) : 8 * (bs.map UInt8.toBitVec).length ≤ 16 := by
  rw [List.length_map]
  omega

/-- The FCS is the complement of the register. -/
theorem xor_pack_fcs (frame : Bytes) :
    (crcOver frame).toBitVec ^^^ Crc.pack 16 ((fcs frame).map UInt8.toBitVec) = 0xffff#16 := by
  unfold fcs
  generalize crcOver frame = crc
  have hbyte : ∀ (j : ℕ) (h : j < 8), (255#8)[j] = true := by decide
  have hword : ∀ j < 16, (65535#16).getLsbD j = true := by decide
  refine BitVec.eq_of_getLsbD_eq fun i hi => ?_
  rw [BitVec.getLsbD_xor, List.map_cons, Crc.getLsbD_pack_cons _ _ hi, hword i hi]
  split_ifs with hlow
  · simp [hlow, hbyte]
  · have hhigh : i - 8 < 8 := by omega
    rw [List.map_cons, Crc.getLsbD_pack_cons _ _ (by omega), if_pos hhigh]
    simp [hhigh, hbyte, Nat.add_sub_cancel' (not_lt.1 hlow)]

/-- The FCS is the one pair of bytes that leaves the residue. -/
theorem fcsResidueOk_append_iff {frame g : Bytes} (hg : g.length = 2) :
    fcsResidueOk (frame ++ g) ↔ g = fcs frame := by
  have hresidue : (0xf0b8 : UInt16).toBitVec = (Crc.shift crcPoly)^[16] 0xffff#16 := by
    decide +kernel
  have hlen : 8 * (g.map UInt8.toBitVec).length = 16 := by rw [List.length_map, hg]
  have hover : fcsResidueOk (frame ++ g) ↔
      (crcOver frame).toBitVec ^^^ Crc.pack 16 (g.map UInt8.toBitVec) = 0xffff#16 := by
    unfold fcsResidueOk
    rw [decide_eq_true_eq, ← UInt16.toBitVec_inj, toBitVec_crcOver, List.map_append,
      Crc.feedAll_append, ← toBitVec_crcOver, hresidue]
    have hiff := Crc.feedAll_eq_iff crcPoly_msb (crcOver frame).toBitVec 0xffff#16 hlen.le
    rwa [hlen] at hiff
  rw [hover, ← xor_pack_fcs frame, BitVec.xor_right_inj]
  constructor
  · intro h
    exact toBitVec_injective.list_map (Crc.pack_injective (by simp [hg]) hlen.le h)
  · rintro rfl
    rfl

/-! ### Bursts -/

/-- A change within two adjacent bytes. -/
inductive Burst : Bytes → Bytes → Prop
  | mk (before behind : Bytes) {u v : Bytes} (hlen : u.length = v.length) (htwo : u.length ≤ 2)
    (hne : u ≠ v) : Burst (before ++ u ++ behind) (before ++ v ++ behind)

/-- A burst leaves another register. -/
theorem Burst.crcOver_ne {s s' : Bytes} (h : Burst s s') : crcOver s' ≠ crcOver s := by
  cases h with
  | mk before behind hlen htwo hne =>
    intro he
    rw [← UInt16.toBitVec_inj, toBitVec_crcOver, toBitVec_crcOver] at he
    simp only [List.map_append] at he
    rw [eq_comm, Crc.feedAll_burst crcPoly_msb _ (by simpa using hlen) (fits_two htwo)] at he
    exact hne (toBitVec_injective.list_map he)

/-- **The FCS detects short bursts.** A frame with its FCS checks out, no other two bytes behind it
do, and no change within two adjacent bytes of a string that checks out is missed. -/
theorem fcs_detects :
    (∀ f, fcsResidueOk (f ++ fcs f)) ∧
      (∀ f g, g.length = 2 → fcsResidueOk (f ++ g) → g = fcs f) ∧
      ∀ s s', fcsResidueOk s → Burst s s' → ¬fcsResidueOk s' := by
  refine ⟨fun f => (fcsResidueOk_append_iff (length_fcs f)).2 rfl,
    fun f g hg h => (fcsResidueOk_append_iff hg).1 h, fun s s' h hb h' => hb.crcOver_ne ?_⟩
  unfold fcsResidueOk at h h'
  rw [of_decide_eq_true h, of_decide_eq_true h']

end AppleTalk
