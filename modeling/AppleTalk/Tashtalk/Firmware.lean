import AppleTalk.Lib.Commands
import AppleTalk.Tashtalk.Decoder

/-!
# What the firmware takes from the host

The firmware is no part of the program. What the program relies on is told in `tashtalk.rs`: a byte
names the command, and behind it come a frame to transmit, the bitmap of the nodes to answer for, or
the feature bits. A frame needs no end mark, and no-ops end whatever came before them.

* `Firmware` is any receiver of bytes that answers for some nodes, and `Firmware.Documented` says
  that it keeps to that protocol;
* `Firmware.plain` is one that does.
-/

namespace AppleTalk

open Octets Commands

/-- A command to the firmware. -/
inductive Firmware.Command
  | noop
  /-- A frame with its FCS, for the cable. -/
  | transmit (frame : Bytes)
  /-- The bitmap of the nodes to answer ENQ and RTS for. -/
  | nodes (map : Bytes)
  | features (bits : UInt8)
  deriving DecidableEq, Repr

/-- Whether a bitmap holds a node: bit `n` is in byte `n / 8`, and there the bit for `n % 8`
counting up from the least significant. -/
def Firmware.inMap (map : Bytes) (n : UInt8) : Bool :=
  (map.getD (n.toNat / 8) 0 >>> (n % 8)) &&& 1 = 1

/-- Whether the node is answered for behind the command: only a bitmap changes that. -/
def Firmware.Command.answers (c : Command) (n : UInt8) (before : Bool) : Bool :=
  match c with
  | .nodes map => Firmware.inMap map n
  | _ => before

/-- A firmware: what it does with one byte of the serial line, where it awaits a command byte, and
the nodes it answers for. -/
structure Firmware where
  State : Type
  /-- Take a byte, and the command that it completes. -/
  take : State → UInt8 → State × Option Firmware.Command
  awaits : State → Prop
  answers : State → UInt8 → Bool

namespace Firmware

/-- The state some bytes leave it in. -/
def after (f : Firmware) (s : f.State) (bytes : Bytes) : f.State := rest f.take s bytes

/-- The commands it reads some bytes as. -/
def reads (f : Firmware) (s : f.State) (bytes : Bytes) : List Command := read f.take s bytes

/-- It reads the bytes as just this command, does what it says, and awaits the next. -/
structure Takes (f : Firmware) (s : f.State) (bytes : Bytes) (c : Command) : Prop where
  reads : f.reads s bytes = [c]
  awaits : f.awaits (f.after s bytes)
  answers : ∀ n, f.answers (f.after s bytes) n = c.answers n (f.answers s n)

/-- The firmware keeps to the protocol. -/
structure Documented (f : Firmware) : Prop where
  /-- 1024 no-ops return its receiver to where it awaits a command byte, whatever it was in the
  middle of. -/
  resync : ∀ s, f.awaits (f.after s (List.replicate 1024 0))
  /-- It infers the length of a frame from the frame itself, and needs no terminator. -/
  transmit : ∀ s, f.awaits s → ∀ frame check, (Llap.parse frame).isSome → check.length = 2 →
    f.Takes s (0x01 :: (frame ++ check)) (.transmit (frame ++ check))
  nodes : ∀ s, f.awaits s → ∀ map, map.length = 32 → f.Takes s (0x02 :: map) (.nodes map)
  features : ∀ s, f.awaits s → ∀ bits, f.Takes s [0x03, bits] (.features bits)

variable {f : Firmware} {s : f.State}

theorem after_append (xs ys : Bytes) : f.after s (xs ++ ys) = f.after (f.after s xs) ys :=
  rest_append xs ys

theorem reads_append (xs ys : Bytes) :
    f.reads s (xs ++ ys) = f.reads s xs ++ f.reads (f.after s xs) ys := read_append xs ys

theorem length_nodeMap (node : Option UInt8) : (nodeMap node).length = 32 := by
  cases node <;> simp [nodeMap]

/-- A transmit command of a frame that reads back. -/
theorem Documented.frameCommand (hf : f.Documented) (hs : f.awaits s) {l : Llap}
    (h : Llap.parse l.toBytes = some l) :
    f.Takes s (frameCommand l) (.transmit (l.toBytes ++ fcs l.toBytes)) :=
  hf.transmit s hs _ _ (by rw [h]; rfl) (length_fcs _)

theorem Documented.nodeCommand (hf : f.Documented) (hs : f.awaits s) (node : Option UInt8) :
    f.Takes s (nodeCommand node) (.nodes (nodeMap node)) :=
  hf.nodes s hs _ (length_nodeMap node)

/-- **A bitmap holds its node** and no other. -/
theorem inMap_nodeMap (node : Option UInt8) (m : UInt8) :
    inMap (nodeMap node) m = true ↔ node = some m := by
  have hbit : ∀ a < 8, ∀ b < 8,
      ((1 : UInt8) <<< UInt8.ofNat a >>> UInt8.ofNat b) &&& 1 = 1 ↔ a = b := by decide
  have hmod : ∀ x : UInt8, x % 8 = UInt8.ofNat (x.toNat % 8) := fun x => by
    apply UInt8.toNat_inj.1
    have hlt := Nat.mod_lt x.toNat (show 0 < 8 by decide)
    rw [UInt8.toNat_mod, UInt8.toNat_ofNat', show (8 : UInt8).toNat = 8 from rfl,
      Nat.mod_eq_of_lt (by omega : x.toNat % 8 < 2 ^ 8)]
  have hm := m.toNat_lt
  unfold inMap
  rw [decide_eq_true_iff]
  cases node with
  | none =>
    simp only [nodeMap, reduceCtorEq, iff_false]
    rw [List.getD_eq_getElem?_getD, List.getElem?_replicate, if_pos (by omega), Option.getD_some,
      ← UInt8.toNat_inj]
    simp
  | some n =>
    have hn := n.toNat_lt
    simp only [nodeMap, Option.some.injEq]
    rw [List.getD_eq_getElem?_getD, List.getElem?_set]
    simp only [List.length_replicate]
    by_cases hbyte : n.toNat / 8 = m.toNat / 8
    · rw [if_pos hbyte, if_pos (by omega), Option.getD_some, hmod n, hmod m,
        hbit _ (Nat.mod_lt _ (by decide)) _ (Nat.mod_lt _ (by decide)), ← UInt8.toNat_inj]
      omega
    · rw [if_neg hbyte, List.getElem?_replicate, if_pos (by omega), Option.getD_some,
        ← UInt8.toNat_inj]
      constructor
      · intro h
        simp at h
      · intro h
        exact absurd (by rw [h]) hbyte

/-! ### A firmware that keeps to the protocol -/

/-- A whole command, if some bytes are one: a frame is whole when it parses with two more bytes
behind it, and given up when it is as long as a frame can be. -/
def whole : Bytes → Option Command
  | 0x01 :: frame =>
    if (Llap.parse (frame.take (frame.length - 2))).isSome then some (.transmit frame)
    else if MAX_FRAME ≤ frame.length then some .noop
    else none
  | 0x02 :: map => if 32 ≤ map.length then some (.nodes map) else none
  | [0x03] => none
  | 0x03 :: bits :: _ => some (.features bits)
  | _ => some .noop

/-- The bitmap behind a command. -/
def keep (map : Bytes) : Command → Bytes
  | .nodes map' => map'
  | _ => map

/-- It collects the bytes of a command until it is whole, and keeps the last bitmap. -/
def plain : Firmware where
  State := Bytes × Bytes
  take := collect whole keep
  awaits s := s.1 = []
  answers s n := inMap s.2 n

theorem whole_frame (frame : Bytes) :
    whole (0x01 :: frame) =
      if (Llap.parse (frame.take (frame.length - 2))).isSome then some (.transmit frame)
      else if MAX_FRAME ≤ frame.length then some .noop
      else none := rfl

theorem whole_nodes (map : Bytes) :
    whole (0x02 :: map) = if 32 ≤ map.length then some (.nodes map) else none := rfl

theorem plain_takes {w : Bytes} {c : Command} (h : Spells whole w c) {s : plain.State}
    (hs : plain.awaits s) : plain.Takes s w c := by
  obtain ⟨got, map⟩ := s
  obtain rfl : got = [] := hs
  have htaken : (plain.after ([], map) w).1 = [] ∧ plain.reads ([], map) w = [c] :=
    h.read_rest h.ne (List.nil_append _)
  have hmap : (plain.after ([], map) w).2 = (plain.reads ([], map) w).foldl keep map :=
    rest_snd ([], map) w
  refine ⟨htaken.2, htaken.1, fun n => ?_⟩
  show inMap (plain.after ([], map) w).2 n = _
  rw [hmap, htaken.2]
  cases c <;> rfl

/-- No frame begins another. -/
theorem eq_of_begins {p q : Bytes} (hp : (Llap.parse p).isSome) (hq : (Llap.parse q).isSome)
    (h : q <+: p) : q = p := by
  obtain ⟨l, hl⟩ := Option.isSome_iff_exists.1 hp
  obtain ⟨l', hl'⟩ := Option.isSome_iff_exists.1 hq
  obtain ⟨dst, src, typ, data⟩ := l
  obtain ⟨dst', src', typ', data'⟩ := l'
  obtain rfl := (Llap.of_parse hl).1
  obtain rfl := (Llap.of_parse hl').1
  simp only [Llap.toBytes, List.cons_prefix_cons] at h
  obtain ⟨rfl, rfl, rfl, hdata⟩ := h
  suffices data'.length = data.length by rw [hdata.eq_of_length this]
  unfold Llap.parse Llap.toBytes at hl hl'
  dsimp only at hl hl'
  split_ifs at hl hl' with hc he he' hres hlong hlong'
  · rw [List.isEmpty_iff.1 he, List.isEmpty_iff.1 he']
  · rcases data with _ | ⟨l0, _ | ⟨l1, more⟩⟩
    · cases hl
    · cases hl
    · rcases data' with _ | ⟨l0', _ | ⟨l1', more'⟩⟩
      · cases hl'
      · cases hl'
      · obtain ⟨rfl, hmore⟩ := List.cons_prefix_cons.1 hdata
        obtain ⟨rfl, -⟩ := List.cons_prefix_cons.1 hmore
        dsimp only at hl hl'
        split_ifs at hl hl' with hlen hlen'
        rw [← not_not.1 hlen, ← not_not.1 hlen']

theorem spells_frame {frame check : Bytes} (hf : (Llap.parse frame).isSome)
    (hc : check.length = 2) :
    Spells whole (0x01 :: (frame ++ check)) (.transmit (frame ++ check)) where
  last := by
    rw [whole_frame, List.length_append, hc, Nat.add_sub_cancel, List.take_left' rfl,
      if_pos hf]
  early := by
    intro u hu hne hlt
    obtain ⟨x, v, rfl⟩ := List.exists_cons_of_ne_nil hne
    obtain ⟨rfl, hv⟩ := List.cons_prefix_cons.1 hu
    have hlen : v.length < frame.length + 2 := by
      refine lt_of_le_of_ne (by simpa [hc] using hv.length_le) fun heq => hlt ?_
      rw [hv.eq_of_length (by simpa [hc] using heq)]
    have hmax : frame.length ≤ LLAP_MAX_DATA + 3 := by
      obtain ⟨l, hl⟩ := Option.isSome_iff_exists.1 hf
      obtain ⟨rfl, hdata⟩ := Llap.of_parse hl
      simpa [Llap.toBytes] using hdata
    have hpre : v.take (v.length - 2) <+: frame := by
      refine List.prefix_of_prefix_length_le ((List.take_prefix _ _).trans hv)
        (List.prefix_append _ _) ?_
      rw [List.length_take]
      omega
    rw [whole_frame, if_neg, if_neg]
    · unfold LLAP_MAX_DATA at hmax
      unfold MAX_FRAME
      omega
    · intro hpart
      have hlong := congrArg List.length (eq_of_begins hf hpart hpre)
      rw [List.length_take] at hlong
      rcases v with _ | ⟨a, _ | ⟨b, v⟩⟩
      · cases hpart
      · cases hpart
      · simp only [List.length_cons] at hlong hlen
        omega
  ne := List.cons_ne_nil _ _

theorem spells_nodes {map : Bytes} (h : map.length = 32) :
    Spells whole (0x02 :: map) (.nodes map) where
  last := by rw [whole_nodes, if_pos h.ge]
  early := by
    intro u hu hne hlt
    obtain ⟨x, v, rfl⟩ := List.exists_cons_of_ne_nil hne
    obtain ⟨rfl, hv⟩ := List.cons_prefix_cons.1 hu
    refine if_neg fun hlen => hlt ?_
    rw [hv.eq_of_length_le (h.trans_le hlen)]
  ne := List.cons_ne_nil _ _

theorem spells_features (bits : UInt8) : Spells whole [0x03, bits] (.features bits) where
  last := rfl
  early := by
    intro u hu hne hlt
    obtain ⟨x, v, rfl⟩ := List.exists_cons_of_ne_nil hne
    obtain ⟨rfl, hv⟩ := List.cons_prefix_cons.1 hu
    -- Less than both octets is the first.
    rcases List.eq_nil_or_concat v with rfl | ⟨w, y, rfl⟩
    · rfl
    · refine absurd (congrArg _ (hv.eq_of_length_le ?_)) hlt
      simp
  ne := by simp

/-- Nothing as long as a frame and its command byte is part of a command. -/
theorem whole_ne_none {got : Bytes} (h : MAX_FRAME + 1 ≤ got.length) : whole got ≠ none := by
  unfold MAX_FRAME at h
  unfold whole
  split
  · rename_i frame
    simp only [List.length_cons] at h
    split_ifs with hf hlong
    · simp
    · simp
    · unfold MAX_FRAME at hlong
      omega
  · rename_i map
    simp only [List.length_cons] at h
    rw [if_pos (by omega)]
    simp
  · simp at h
  · simp
  · simp

/-- **There is a firmware that keeps to the protocol.** -/
theorem plain_documented : plain.Documented where
  resync s := by
    have hpad : whole [0] = some .noop := rfl
    have hlong : MAX_FRAME + 1 ≤ s.1.length + 1024 := by
      unfold MAX_FRAME
      omega
    exact rest_padding hpad (fun _ => whole_ne_none) (Nat.succ_pos 1023) hlong
  transmit _ hs _ _ hf hc := plain_takes (spells_frame hf hc) hs
  nodes _ hs _ h := plain_takes (spells_nodes h) hs
  features _ hs bits := plain_takes (spells_features bits) hs

end Firmware

end AppleTalk
