import Mathlib.Data.Nat.Basic
import Mathlib.Logic.Function.Iterate
import Mathlib.Order.Basic

/-!
# Reflected cyclic redundancy checks

A register of `w` bits moves down a place at a time, and takes in its generator whenever a one
falls out at the bottom. The move is linear in exclusive or, and injective when the generator has
its top bit. A register that takes in symbols of `k` bits one after the other ends as if it had
taken them in side by side and moved past all of them at once, as long as they fit side by side: so
it tells apart whatever differs within its own width, and whatever follows cannot undo that.
-/

namespace Crc

variable {w k : ℕ}

/-- One place down, and the generator where a one falls out. -/
def shift (poly r : BitVec w) : BitVec w :=
  if r.getLsbD 0 then (r >>> 1) ^^^ poly else r >>> 1

/-- Take in a symbol. -/
def feed (poly r : BitVec w) (b : BitVec k) : BitVec w := (shift poly)^[k] (r ^^^ b.setWidth w)

/-- Take in symbols one after the other. -/
def feedAll (poly r : BitVec w) (bs : List (BitVec k)) : BitVec w := bs.foldl (feed poly) r

/-- Symbols side by side, the first one lowest. -/
def pack (w : ℕ) : List (BitVec k) → BitVec w
  | [] => 0#w
  | b :: bs => b.setWidth w ^^^ (pack w bs <<< k)

variable {poly : BitVec w}

/-! ### The move -/

theorem shift_xor (poly r s : BitVec w) : shift poly (r ^^^ s) = shift poly r ^^^ shift poly s := by
  unfold shift
  rw [BitVec.getLsbD_xor, BitVec.ushiftRight_xor_distrib]
  cases r.getLsbD 0 <;> cases s.getLsbD 0
  · rfl
  · exact BitVec.xor_assoc ..
  · show r >>> 1 ^^^ s >>> 1 ^^^ poly = r >>> 1 ^^^ poly ^^^ s >>> 1
    rw [BitVec.xor_assoc, BitVec.xor_comm (s >>> 1), BitVec.xor_assoc]
  · show r >>> 1 ^^^ s >>> 1 = r >>> 1 ^^^ poly ^^^ (s >>> 1 ^^^ poly)
    rw [BitVec.xor_comm (s >>> 1) poly, BitVec.xor_assoc, ← BitVec.xor_assoc poly poly,
      BitVec.xor_self, BitVec.zero_xor]

theorem iterate_shift_xor (poly r s : BitVec w) (n : ℕ) :
    (shift poly)^[n] (r ^^^ s) = (shift poly)^[n] r ^^^ (shift poly)^[n] s := by
  induction n generalizing r s with
  | zero => rfl
  | succ n ih => rw [Function.iterate_succ_apply, shift_xor, ih]; rfl

/-- Only zero moves to zero. -/
theorem eq_zero_of_shift (hpoly : poly.msb = true) {r : BitVec w} (h : shift poly r = 0#w) :
    r = 0#w := by
  have hw : 0 < w := by
    by_contra hw
    obtain rfl : w = 0 := by omega
    simp [BitVec.msb_eq_getLsbD_last] at hpoly
  unfold shift at h
  split_ifs at h with hlow
  · -- The generator's top bit is in the register now, and nothing clears it.
    have htop := congrArg BitVec.msb h
    rw [BitVec.msb_xor, hpoly, BitVec.msb_ushiftRight] at htop
    simp at htop
  · refine BitVec.eq_of_getLsbD_eq fun i hi => ?_
    cases i with
    | zero => simpa using hlow
    | succ i =>
      have hbit := congrArg (BitVec.getLsbD · i) h
      simpa [Nat.add_comm] using hbit

theorem shift_injective (hpoly : poly.msb = true) : Function.Injective (shift poly) := by
  intro r s h
  have hzero : shift poly (r ^^^ s) = 0#w := by rw [shift_xor, h, BitVec.xor_self]
  exact BitVec.xor_eq_zero_iff.1 (eq_zero_of_shift hpoly hzero)

/-- Nothing falls out while the low places are empty. -/
theorem iterate_shift_shiftLeft (n : ℕ) {r : BitVec w}
    (h : ∀ i, w ≤ i + n → r.getLsbD i = false) : (shift poly)^[n] (r <<< n) = r := by
  induction n with
  | zero => exact BitVec.shiftLeft_zero r
  | succ n ih =>
    have hone : shift poly (r <<< (n + 1)) = r <<< n := by
      unfold shift
      rw [if_neg (by simp)]
      refine BitVec.eq_of_getLsbD_eq fun i hi => ?_
      rw [BitVec.getLsbD_ushiftRight, BitVec.getLsbD_shiftLeft, BitVec.getLsbD_shiftLeft,
        show 1 + i - (n + 1) = i - n by omega]
      by_cases hlast : 1 + i < w
      · have hlow : 1 + i < n + 1 ↔ i < n := by omega
        simp [hlast, hi, hlow]
      · rw [h (i - n) (by omega), Bool.and_false, Bool.and_false]
    rw [Function.iterate_succ_apply, hone, ih fun i hi => h i (by omega)]

/-! ### Symbols side by side -/

theorem getLsbD_pack_cons (b : BitVec k) (bs : List (BitVec k)) {i : ℕ} (hi : i < w) :
    (pack w (b :: bs)).getLsbD i = if i < k then b.getLsbD i else (pack w bs).getLsbD (i - k) := by
  rw [pack, BitVec.getLsbD_xor, BitVec.getLsbD_setWidth, BitVec.getLsbD_shiftLeft]
  split_ifs with hk
  · simp [hi, hk]
  · simp [hi, hk, BitVec.getLsbD_of_ge b i (not_lt.1 hk)]

/-- Beyond the symbols there is nothing. -/
theorem getLsbD_pack_of_ge {bs : List (BitVec k)} {i : ℕ} (h : k * bs.length ≤ i) :
    (pack w bs).getLsbD i = false := by
  induction bs generalizing i with
  | nil => exact BitVec.getLsbD_zero
  | cons b bs ih =>
    rw [List.length_cons, Nat.mul_succ] at h
    by_cases hi : i < w
    · rw [getLsbD_pack_cons b bs hi, if_neg (by omega), ih (by omega)]
    · exact BitVec.getLsbD_of_ge _ _ (not_lt.1 hi)

/-- Symbols that fit side by side can be told apart there. -/
theorem pack_injective {bs cs : List (BitVec k)} (hlen : bs.length = cs.length)
    (hfit : k * bs.length ≤ w) (h : pack w bs = pack w cs) : bs = cs := by
  induction bs generalizing cs with
  | nil => exact (List.length_eq_zero_iff.1 hlen.symm).symm
  | cons b bs ih =>
    obtain ⟨c, cs, rfl⟩ := List.exists_cons_of_length_eq_add_one hlen.symm
    have hshort : bs.length = cs.length := Nat.succ.inj hlen
    rw [List.length_cons, Nat.mul_succ] at hfit
    have hbit : ∀ i < w, (if i < k then b.getLsbD i else (pack w bs).getLsbD (i - k)) =
        if i < k then c.getLsbD i else (pack w cs).getLsbD (i - k) := by
      intro i hi
      rw [← getLsbD_pack_cons b bs hi, ← getLsbD_pack_cons c cs hi, h]
    have hhead : b = c := by
      refine BitVec.eq_of_getLsbD_eq fun i hi => ?_
      have := hbit i (by omega)
      rwa [if_pos hi, if_pos hi] at this
    have htail : pack w bs = pack w cs := by
      refine BitVec.eq_of_getLsbD_eq fun i hi => ?_
      by_cases hin : i + k < w
      · have := hbit (i + k) hin
        rwa [if_neg (by omega), if_neg (by omega), Nat.add_sub_cancel] at this
      · rw [getLsbD_pack_of_ge (by omega), getLsbD_pack_of_ge (by rw [← hshort]; omega)]
    rw [hhead, ih hshort (by omega) htail]

/-! ### Strings -/

theorem feedAll_append (poly r : BitVec w) (bs cs : List (BitVec k)) :
    feedAll poly r (bs ++ cs) = feedAll poly (feedAll poly r bs) cs := List.foldl_append

/-- **Symbols taken in one after the other** are taken in side by side. -/
theorem feedAll_eq (poly r : BitVec w) {bs : List (BitVec k)} (hfit : k * bs.length ≤ w) :
    feedAll poly r bs = (shift poly)^[k * bs.length] (r ^^^ pack w bs) := by
  induction bs generalizing r with
  | nil => exact (BitVec.xor_zero).symm
  | cons b bs ih =>
    rw [List.length_cons, Nat.mul_succ] at hfit ⊢
    have hrest : (shift poly)^[k] (pack w bs <<< k) = pack w bs :=
      iterate_shift_shiftLeft k fun i hi => getLsbD_pack_of_ge (by omega)
    calc feedAll poly r (b :: bs)
        = feedAll poly (feed poly r b) bs := rfl
      _ = (shift poly)^[k * bs.length] (feed poly r b ^^^ pack w bs) := ih _ (by omega)
      _ = (shift poly)^[k * bs.length] ((shift poly)^[k] (r ^^^ pack w (b :: bs))) := by
        rw [pack, ← BitVec.xor_assoc, iterate_shift_xor _ _ _ k, hrest, feed]
      _ = _ := by rw [← Function.iterate_add_apply]

/-- What was in the register before is not lost. -/
theorem feedAll_injective (hpoly : poly.msb = true) (bs : List (BitVec k)) :
    Function.Injective (feedAll poly · bs) := by
  induction bs with
  | nil => exact Function.injective_id
  | cons b bs ih =>
    intro r s h
    have hfeed : feed poly r b = feed poly s b := ih h
    exact (BitVec.xor_left_inj _).1 ((shift_injective hpoly).iterate k hfeed)

/-- **Which symbols leave a residue.** -/
theorem feedAll_eq_iff (hpoly : poly.msb = true) (r x : BitVec w) {bs : List (BitVec k)}
    (hfit : k * bs.length ≤ w) :
    feedAll poly r bs = (shift poly)^[k * bs.length] x ↔ r ^^^ pack w bs = x := by
  rw [feedAll_eq poly r hfit]
  exact ((shift_injective hpoly).iterate _).eq_iff

/-- **Bursts.** Two strings that differ only in as many places as fit side by side leave different
registers. -/
theorem feedAll_burst (hpoly : poly.msb = true) (r : BitVec w) {bs cs : List (BitVec k)}
    (hlen : bs.length = cs.length) (hfit : k * bs.length ≤ w) (before behind : List (BitVec k)) :
    feedAll poly r (before ++ bs ++ behind) = feedAll poly r (before ++ cs ++ behind) ↔
      bs = cs := by
  refine ⟨fun h => ?_, fun h => by rw [h]⟩
  simp only [feedAll_append] at h
  have hfit' : k * cs.length ≤ w := hlen ▸ hfit
  have hburst := feedAll_injective hpoly behind h
  rw [feedAll_eq _ _ hfit, feedAll_eq _ _ hfit', ← hlen] at hburst
  have hpack := (shift_injective hpoly).iterate _ hburst
  exact pack_injective hlen hfit ((BitVec.xor_right_inj _).1 hpack)

end Crc
