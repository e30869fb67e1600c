import AppleTalk.Properties.BridgeFrames
import AppleTalk.Properties.Quarantine

/-!
# Datagrams for the bridge itself

From Ethernet a datagram for the bridge goes no further. From LocalTalk nothing asks whom it is
for: the bridge has no entry for its own node, so its own datagrams are broadcast like those of any
unknown destination, unless their sender is in doubt.
-/

namespace AppleTalk

namespace Bridge

/-- Where the datagram of a frame is addressed to, and its octets with the extended header. -/
def datagram (b : Bridge) : In → Option (Addr × Bytes)
  | .ether p =>
    match p.body with
    | .ddp d _ => some (d.dst, p.frame.payload)
    | _ => none
  | In.local l =>
    if l.typ = LLAP_SHORT_DDP ∨ l.typ = LLAP_LONG_DDP then b.extendedOf l else none
  | .tick => none

/-- The datagram of what arrived goes out on the other link. -/
def Action.Repeats (b : Bridge) (bytes : Bytes) : In → Action → Prop
  | .ether _, toLocal l => ∃ dst, b.datagram (In.local l) = some (dst, bytes)
  | In.local _, toEther f => f.proto = DDP ∧ f.payload = bytes
  | _, _ => False

theorem Action.Control.not_repeats {a : Action} (h : a.Control) (b : Bridge) (bytes : Bytes)
    (i : In) : ¬a.Repeats b bytes i := by
  intro hrep
  cases i with
  | tick => cases a <;> exact hrep
  | ether p =>
    cases a with
    | toLocal l =>
      obtain ⟨dst, hrep⟩ := hrep
      obtain ⟨n, rfl | rfl⟩ := h <;> cases hrep
    | _ => exact hrep
  | «local» l =>
    cases a with
    | toEther f =>
      have hproto := hrep.1
      rw [show f.proto = AARP from h] at hproto
      exact absurd hproto (by decide)
    | _ => exact hrep

/-! ### From Ethernet -/

theorem ether_not_repeated {b : Bridge} {p : Packet} {bytes : Bytes}
    (h : b.datagram (.ether p) = some (b.addr, bytes)) {now : Instant} :
    ∀ a ∈ (b.step (.ether p) now).2, ¬a.Repeats b bytes (.ether p) := by
  intro a ha
  cases step_sent b now (.ether p) a ha with
  | control hc => exact hc.not_repeats b bytes _
  | crossed hb hown hcross =>
    simp only [datagram, hb, Option.some.injEq, Prod.mk.injEq] at h
    exact absurd h.1 hown

/-! ### From LocalTalk -/

/-- There is an entry, and it does not put the node on LocalTalk. -/
def Slot.Contested (s : Slot) : Prop := s.entry.isSome ∧ s.live ≠ some Side.local

theorem Slot.contested_of_entry {s : Slot} {e : Entry} (h : s.entry = some e) :
    s.Contested ↔ e.doubted = true ∨ e.side ≠ Side.local := by
  unfold Contested live
  rw [h]
  dsimp only
  split_ifs with hd <;> simp [hd]

theorem Slot.sighted_local {s : Slot} {e : Entry} (h : s.entry = some e) (now : Instant) :
    ∃ e', (s.sighted Side.local now).entry = some e' ∧
      (e'.doubted = true ↔ e.doubted = true ∨ e.side ≠ Side.local) := by
  unfold sighted
  rw [h]
  dsimp only
  cases hside : e.side with
  | ether m =>
    have hother : (!(Side.ether m).sameAs Side.local) = true := rfl
    rw [if_pos hother]
    split_ifs with hd
    · exact ⟨e, h, by simp [hd]⟩
    · exact ⟨_, rfl, by simp⟩
  | «local» =>
    have hsame : ¬(!Side.local.sameAs Side.local) = true := by decide
    rw [if_neg hsame]
    split_ifs with hmoved hd
    · exact ⟨e, rfl, by simp⟩
    · exact ⟨e, h, by simp⟩
    · exact ⟨_, rfl, by simp [hd]⟩

/-- A sighting on LocalTalk leaves such a node in doubt, and no other. -/
theorem Slot.contested_iff (s : Slot) (now : Instant) :
    s.Contested ↔
      (s.sighted Side.local now).live = none ∧ (s.sighted Side.local now).entry.isSome := by
  cases h : s.entry with
  | none => simp [Contested, sighted, live, h]
  | some e =>
    obtain ⟨e', he', hd⟩ := sighted_local h now
    rw [contested_of_entry h, ← hd]
    simp [live, he']

theorem doubts_iff {b : Bridge} {n : UInt8} :
    b.doubts n ↔ (b.slot n).live = none ∧ (b.slot n).entry.isSome := by
  unfold doubts
  rw [decide_eq_true_iff, Option.isNone_iff_eq_none]
  rfl

variable {b : Bridge} {l : Llap} {now : Instant}

theorem sighting_local (b : Bridge) (hl : l.typ = LLAP_SHORT_DDP ∨ l.typ = LLAP_LONG_DDP) :
    b.sighting (In.local l) = some (l.src, Side.local) :=
  if_pos (hl.elim Or.inl fun h => Or.inr (Or.inl h))

theorem recorded_local (hl : l.typ = LLAP_SHORT_DDP ∨ l.typ = LLAP_LONG_DDP) :
    b.recorded (In.local l) now = ((b.expire now).1.confirm l.src Side.local now).1 := by
  unfold recorded record
  rw [sighting_local _ hl]

variable (now) in
/-- What a datagram from LocalTalk has a step send, once its sender is recorded. -/
theorem step_local (hl : l.typ = LLAP_SHORT_DDP ∨ l.typ = LLAP_LONG_DDP) {dst : Addr}
    {bytes : Bytes} (h : b.extendedOf l = some (dst, bytes)) :
    ∃ pre : List Action, (∀ a ∈ pre, a.Control) ∧
      (b.step (In.local l) now).2 = pre ++
        if (b.recorded (In.local l) now).doubts l.src then []
        else (((b.recorded (In.local l) now).localDst l dst).map fun m =>
          Action.toEther (frame b.mac m DDP bytes)).toList := by
  have hexpire := expire_control b now
  have hconfirm := confirm_control (b.expire now).1 l.src now Side.local
  obtain ⟨ha, hm⟩ := expire_fixed b now
  obtain ⟨ha', hm'⟩ := confirm_fixed (b.expire now).1 l.src now Side.local
  have hext := extendedOf_congr (ha'.trans ha) l
  refine ⟨_, List.forall_mem_append.2 ⟨hexpire, hconfirm⟩, ?_⟩
  rw [recorded_local hl]
  unfold step onLocal localDdp
  dsimp only
  rw [if_pos hl]
  generalize (b.expire now).1.confirm l.src Side.local now = r at hext hm' ⊢
  rw [hext, h, hm', hm]
  dsimp only
  split_ifs <;> simp

/-- The bridge broadcasts a datagram for its own node, of which it has no entry. -/
theorem localDst_own {own : Addr} (ha : b.addr = own) (h : b.nodes.get? own.node = none)
    (l : Llap) : b.localDst l own = some BROADCAST_MAC := by
  have hlive : b.live own.node = none := by simp [live, h]
  unfold localDst
  rw [if_pos (congrArg Addr.net ha).symm, hlive]
  split_ifs <;> rfl

namespace Run

/-- The sender of a datagram from LocalTalk is in doubt when the table spoke against it. -/
theorem doubts_sender_iff (r : Run) {k : ℕ} (hk : r.input k = In.local l)
    (hl : l.typ = LLAP_SHORT_DDP ∨ l.typ = LLAP_LONG_DDP) :
    ((r.state k).recorded (In.local l) (r.time k)).doubts l.src ↔
      (((r.state k).slot l.src).expired (r.time k)).Contested := by
  have hrecorded := slot_recorded (r.state k) l.src (r.time k) (In.local l)
  rw [doubts_iff]
  cases hh : (r.state k).heard (In.local l) l.src with
  | some side =>
    have hsight := (heard_eq_some_iff.1 hh).1
    rw [sighting_local _ hl] at hsight
    obtain rfl := (Prod.mk.inj (Option.some.inj hsight)).2
    rw [hrecorded, hh]
    exact (Slot.contested_iff _ _).symm
  | none =>
    -- The sender is no node, so it has no entry.
    have hentry : (((r.state k).slot l.src).expired (r.time k)).entry = none := by
      rw [hh] at hrecorded
      cases he : (((r.state k).slot l.src).expired (r.time k)).entry with
      | none => rfl
      | some e =>
        have hseen : (r.seen k l.src).entry = some e := by rw [seen, hk, hrecorded, he]
        have hreal := (r.real_state k l.src).2 (seen_real (r.entry_real k) hseen)
        rw [heard_eq_some_iff.2 ⟨sighting_local _ hl, hreal⟩] at hh
        cases hh
    rw [hrecorded, hh, Slot.Contested]
    simp [hentry]

/-- The bridge has no entry for its own node. -/
theorem seen_own (r : Run) (k : ℕ) :
    ((r.state k).recorded (r.input k) (r.time k)).nodes.get? r.addr.node = none := by
  cases he : ((r.state k).recorded (r.input k) (r.time k)).nodes.get? r.addr.node with
  | none => rfl
  | some e => exact absurd rfl (seen_real (r.entry_real k) he).2.2

/-- **Datagrams for the bridge itself go no further** just when they come from Ethernet, or from a
LocalTalk node that the table, once time has acted on it, does not have there. -/
theorem own_not_repeated_iff (r : Run) {k : ℕ} {bytes : Bytes}
    (h : (r.state k).datagram (r.input k) = some (r.addr, bytes)) :
    (∀ a ∈ r.sent k, ¬a.Repeats (r.state k) bytes (r.input k)) ↔
      (∃ p, r.input k = .ether p) ∨
        ∃ l, r.input k = In.local l ∧
          (((r.state k).slot l.src).expired (r.time k)).Contested := by
  have hsent : r.sent k = ((r.state k).step (r.input k) (r.time k)).2 := rfl
  have hown := r.seen_own k
  rw [hsent]
  cases hk : r.input k with
  | tick =>
    rw [hk] at h
    cases h
  | ether p =>
    rw [hk, ← r.addr_state k] at h
    exact iff_of_true (ether_not_repeated h) (Or.inl ⟨p, rfl⟩)
  | «local» l =>
    rw [hk] at h hown
    unfold datagram at h
    obtain ⟨hl, hext⟩ : (l.typ = LLAP_SHORT_DDP ∨ l.typ = LLAP_LONG_DDP) ∧
        (r.state k).extendedOf l = some (r.addr, bytes) := by
      dsimp only at h
      split_ifs at h with hl
      exact ⟨hl, h⟩
    have haddr : ((r.state k).recorded (In.local l) (r.time k)).addr = r.addr := by
      rw [recorded, (record_fixed _ _ _).1, (expire_fixed _ _).1, r.addr_state k]
    obtain ⟨pre, hpre, hacts⟩ := step_local (r.time k) hl hext
    have hpre : ∀ a ∈ pre, ¬a.Repeats (r.state k) bytes (In.local l) :=
      fun a ha => (hpre a ha).not_repeats _ _ _
    rw [hacts, localDst_own haddr hown l]
    by_cases hd : ((r.state k).recorded (In.local l) (r.time k)).doubts l.src
    · rw [if_pos hd, List.append_nil]
      exact iff_of_true hpre (Or.inr ⟨l, rfl, (r.doubts_sender_iff hk hl).1 hd⟩)
    · rw [if_neg hd]
      refine iff_of_false (fun hno => ?_) ?_
      · exact hno _ (List.mem_append_right _ (List.mem_singleton.2 rfl)) ⟨rfl, rfl⟩
      · rintro (⟨p, hp⟩ | ⟨l', hl', hc⟩)
        · cases hp
        · obtain rfl := In.local.inj hl'
          exact hd ((r.doubts_sender_iff hk hl).2 hc)

/-- A datagram for the bridge from node 8 of LocalTalk, which is not known yet. -/
def forBridge : Llap := ⟨1, 8, LLAP_LONG_DDP, [0, 13, 0, 0, 0, 10, 0, 10, 1, 8, 4, 4, 10]⟩

theorem own_not_repeated_iff_stray :
    (∀ a ∈ (strayRun (In.local forBridge)).sent 1,
        ¬a.Repeats ((strayRun (In.local forBridge)).state 1) forBridge.data (In.local forBridge)) ↔
      (∃ p, In.local forBridge = .ether p) ∨
        ∃ l, In.local forBridge = In.local l ∧
          ((((strayRun (In.local forBridge)).state 1).slot l.src).expired
            ((strayRun (In.local forBridge)).time 1)).Contested :=
  own_not_repeated_iff (strayRun (In.local forBridge)) (k := 1) (by decide +kernel)

/-- From LocalTalk the bridge's own datagrams are broadcast to Ethernet. -/
theorem own_repeated :
    ¬∀ (r : Run) (k : ℕ) (bytes : Bytes), (r.input k).OffTheWire →
      (r.state k).datagram (r.input k) = some (r.addr, bytes) →
      ∀ a ∈ r.sent k, ¬a.Repeats (r.state k) bytes (r.input k) := by
  intro h
  have hno := h (strayRun (In.local forBridge)) 1 forBridge.data ⟨forBridge.toBytes, by decide⟩
    (by decide +kernel)
  exact hno (.toEther (frame ⟨2, 0, 0, 0, 0, 1⟩ BROADCAST_MAC DDP forBridge.data))
    (by decide +kernel) ⟨rfl, rfl⟩

end Run

end Bridge

end AppleTalk
