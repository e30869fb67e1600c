import AppleTalk.Properties.SideChange

/-!
# Doubted nodes are quarantined

While a node is in doubt nothing it sends is repeated, nothing is sent to it from Ethernet, and
nobody is told that it answers here. The sighting is recorded before the checks, so a frame that
casts the doubt is the first to be held back.
-/

namespace AppleTalk

namespace Bridge

/-! ### What is held back -/

/-- No datagram is repeated. -/
def Held (acts : List Action) : Prop := ∀ a ∈ acts, ¬a.Datagram

theorem held_of_asking {acts : List Action} (h : ∀ a ∈ acts, a.Asking) : Held acts :=
  fun a ha => (h a ha).not_datagram

theorem Held.append {as bs : List Action} (ha : Held as) (hb : Held bs) : Held (as ++ bs) :=
  List.forall_mem_append.2 ⟨ha, hb⟩

namespace In

/-- A datagram whose source is the address: on Ethernet the datagram names it, on LocalTalk the
frame does. -/
def DatagramFrom (x : Addr) : In → Prop
  | ether p => ∃ d body, p.body = .ddp d body ∧ d.src = x
  | In.local l => (l.typ = LLAP_SHORT_DDP ∨ l.typ = LLAP_LONG_DDP) ∧ l.src = x.node
  | tick => False

/-- A datagram from Ethernet for the address. -/
def DatagramFor (x : Addr) : In → Prop
  | ether p => ∃ d body, p.body = .ddp d body ∧ d.dst = x
  | _ => False

/-- A datagram that names the address as its source in either of its headers. -/
def DatagramNaming (x : Addr) (i : In) : Prop :=
  i.DatagramFrom x ∨ ∃ l d, i = In.local l ∧ l.typ = LLAP_LONG_DDP ∧ Ddp.parse l.data = some d ∧
    d.src = x

end In

variable {b : Bridge} {n : UInt8} {now : Instant}

theorem doubts_of_entry {e : Entry} (he : b.nodes.get? n = some e) (hd : e.doubted = true) :
    b.doubts n := by
  simp [doubts, live, he, hd]

theorem etherDst_held (hd : b.doubts n) (hn : n ≠ 255) (p : Packet) {d : Ddp}
    (hdst : d.dst = ⟨b.addr.net, n⟩) : b.etherDst p d now = (b, []) := by
  unfold doubts at hd
  obtain ⟨hl, hsome⟩ := of_decide_eq_true hd
  unfold etherDst
  rw [hdst]
  dsimp only
  by_cases hown : n = b.addr.node
  · rw [if_pos ⟨rfl, hown⟩]
  · rw [if_neg (fun h => hown h.2), if_neg (fun h => h.1 rfl), if_neg hn,
      Option.isNone_iff_eq_none.1 hl]
    dsimp only
    rw [if_pos hsome]

theorem ether_held {p : Packet} {d : Ddp} {body : DdpBody} (hb : p.body = .ddp d body)
    (hd : (b.recorded (.ether p) now).doubts n) (hn : n ≠ 255)
    (h : d.src = ⟨b.addr.net, n⟩ ∨ d.dst = ⟨b.addr.net, n⟩) :
    Held (b.step (.ether p) now).2 := by
  have hexp := held_of_asking (expire_asking b now)
  obtain ⟨ha, -⟩ := expire_fixed b now
  unfold recorded record sighting at hd
  unfold step
  generalize b.expire now = r at hexp ha hd ⊢
  refine hexp.append ?_
  rw [← ha] at h
  dsimp only at hd ⊢
  unfold onEther
  by_cases hsrc : p.frame.src = r.1.mac
  · rw [if_pos hsrc]
    exact held_of_asking (List.forall_mem_nil _)
  by_cases hsnap : p.frame.snap = false
  · rw [if_neg hsrc, if_pos (by simp [hsnap])]
    exact held_of_asking (List.forall_mem_nil _)
  rw [if_neg (not_or.2 ⟨hsrc, hsnap⟩), hb] at hd
  rw [if_neg hsrc, if_neg (by simpa using hsnap), hb]
  dsimp only at hd ⊢
  unfold etherDdp
  by_cases hnet : d.src.net = r.1.addr.net
  · rw [if_pos hnet] at hd ⊢
    dsimp only at hd ⊢
    have hasking := held_of_asking (confirm_asking r.1 d.src.node now (.ether p.frame.src))
    have haddr := (confirm_fixed r.1 d.src.node now (.ether p.frame.src)).1
    generalize r.1.confirm d.src.node (.ether p.frame.src) now = c at hd hasking haddr ⊢
    by_cases hs : c.1.doubts d.src.node
    · rw [if_pos hs]
      exact hasking
    · rw [if_neg hs]
      rcases h with h | h
      · exact absurd (by rw [h]; exact hd) hs
      · rw [etherDst_held hd hn p (by rw [h, haddr])]
        exact hasking.append (held_of_asking (List.forall_mem_nil _))
  · rw [if_neg hnet] at hd ⊢
    rcases h with h | h
    · exact absurd (by rw [h]) hnet
    · rw [etherDst_held (b := { r.1 with amt := amtInsert r.1.amt d.src p.frame.src }) hd hn p h]
      exact held_of_asking (List.forall_mem_nil _)

theorem local_held {l : Llap} (hl : l.typ = LLAP_SHORT_DDP ∨ l.typ = LLAP_LONG_DDP)
    (hd : (b.recorded (In.local l) now).doubts l.src) : Held (b.step (In.local l) now).2 := by
  have hexp := held_of_asking (expire_asking b now)
  unfold recorded record sighting at hd
  unfold step
  generalize b.expire now = r at hexp hd ⊢
  refine hexp.append ?_
  dsimp only at hd ⊢
  rw [if_pos (by tauto)] at hd
  unfold onLocal
  rw [if_pos hl]
  unfold localDdp
  dsimp only at hd ⊢
  rw [if_pos hd]
  exact held_of_asking (confirm_asking r.1 l.src now Side.local)

/-! ### Entries are about nodes -/

theorem new_real {addr : Addr} {mac : MacAddr} {amt : List (Addr × MacAddr)} {start : Instant}
    {e : Entry} (h : (new addr mac amt start).nodes.get? n = some e) :
    n ≠ 0 ∧ n ≠ 255 ∧ n ≠ addr.node := by
  suffices ∀ (l : List (Addr × MacAddr)) (nodes : SortedMap UInt8 Entry),
      (∀ x ∈ l, x.1.node ≠ 0 ∧ x.1.node ≠ 255 ∧ x.1.node ≠ addr.node) →
      (∀ n e, nodes.get? n = some e → n ≠ 0 ∧ n ≠ 255 ∧ n ≠ addr.node) →
      ∀ n e, (l.foldl (fun nodes x => nodes.insert x.1.node
        { side := .ether x.2, confirmed := start, doubted := false }) nodes).get? n = some e →
        n ≠ 0 ∧ n ≠ 255 ∧ n ≠ addr.node by
    refine this _ _ (fun x hx => ?_) (fun n e hn => ?_) n e h
    · have hx := of_decide_eq_true (List.mem_filter.1 hx).2
      exact ⟨hx.2.2.1, hx.2.2.2, hx.2.1⟩
    · cases hn
  intro l
  induction l with
  | nil => exact fun nodes _ h => h
  | cons x l ih =>
    intro nodes hl h
    obtain ⟨hx, hl⟩ := List.forall_mem_cons.1 hl
    refine ih _ hl fun n e hn => ?_
    rw [SortedMap.get?_insert] at hn
    split_ifs at hn with hxn
    · exact hxn ▸ hx
    · exact h n e hn

namespace Run

/-- Once a sighting is recorded, only nodes of this cable have entries. -/
theorem seen_real {r : Run} {k : ℕ} {n : UInt8}
    (h : ∀ e, ((r.state k).slot n).entry = some e → n ≠ 0 ∧ n ≠ 255 ∧ n ≠ r.addr.node) {e : Entry}
    (he : (r.seen k n).entry = some e) : n ≠ 0 ∧ n ≠ 255 ∧ n ≠ r.addr.node := by
  by_cases hreal : n ≠ 0 ∧ n ≠ 255 ∧ n ≠ r.addr.node
  · exact hreal
  have hnone : ((r.state k).slot n).entry = none := by
    cases hs : ((r.state k).slot n).entry with
    | none => rfl
    | some e => exact absurd (h e hs) hreal
  have hunheard : (r.state k).heard (r.input k) n = none := by
    cases hh : (r.state k).heard (r.input k) n with
    | none => rfl
    | some side => exact absurd ((r.real_state k n).1 (heard_eq_some_iff.1 hh).2) hreal
  rw [seen, slot_recorded, hunheard] at he
  -- a move-check is about an entry that is there
  have hmoved : ∀ q side, ((r.state k).slot n).pending = some q → q.movedTo ≠ some side := by
    intro q side hq hm
    obtain ⟨e, he, -⟩ := r.checked k n q side hq hm
    rw [hnone] at he
    cases he
  generalize (r.state k).slot n = s at he hnone hmoved
  have hfresh : (s.fresh (r.time k)).entry = none := by simp [Slot.fresh, hnone]
  unfold Slot.expired at he
  split_ifs at he
  · unfold Slot.resolved at he
    rw [show (s.fresh (r.time k)).pending = s.pending from rfl] at he
    cases hq : s.pending with
    | none =>
      rw [hq] at he
      rw [hfresh] at he
      cases he
    | some q =>
      rw [hq] at he
      dsimp only at he
      cases hm : q.movedTo with
      | some side => exact absurd hm (hmoved q side hq)
      | none =>
        rw [hm] at he
        rw [hfresh] at he
        cases he
  · rw [hfresh] at he
    cases he

theorem entry_real (r : Run) {n : UInt8} (k : ℕ) :
    ∀ e, ((r.state k).slot n).entry = some e → n ≠ 0 ∧ n ≠ 255 ∧ n ≠ r.addr.node := by
  induction k with
  | zero => exact fun e he => new_real he
  | succ k ih =>
    intro e he
    rw [(r.outcome k n).entry_eq] at he
    exact seen_real ih he

/-- **Doubted nodes are quarantined.** -/
theorem quarantined (r : Run) {k : ℕ} {n : UInt8} {e : Entry}
    (he : ((r.state k).recorded (r.input k) (r.time k)).nodes.get? n = some e)
    (hd : e.doubted = true) :
    ((r.input k).DatagramFrom ⟨r.addr.net, n⟩ → Held (r.sent k)) ∧
      ((r.input k).DatagramFor ⟨r.addr.net, n⟩ → Held (r.sent k)) ∧
      ∀ a ∈ r.sent k, ¬a.Names ⟨r.addr.net, n⟩ := by
  obtain ⟨-, h255, hown⟩ := seen_real (r.entry_real k) he
  have hdoubts := doubts_of_entry he hd
  have hstep : r.sent k = ((r.state k).step (r.input k) (r.time k)).2 := rfl
  rw [← r.addr_state k]
  refine ⟨fun hi => ?_, fun hi => ?_, fun a ha hnames => ?_⟩
  · rw [hstep]
    cases hk : r.input k with
    | ether p =>
      rw [hk] at hi hdoubts
      obtain ⟨d, body, hb, hsrc⟩ := hi
      exact ether_held hb hdoubts h255 (Or.inl hsrc)
    | «local» l =>
      rw [hk] at hi hdoubts
      obtain ⟨hl, hsrc⟩ := hi
      exact local_held hl (by rw [hsrc]; exact hdoubts)
    | tick =>
      rw [hk] at hi
      cases hi
  · rw [hstep]
    cases hk : r.input k with
    | ether p =>
      rw [hk] at hi hdoubts
      obtain ⟨d, body, hb, hdst⟩ := hi
      exact ether_held hb hdoubts h255 (Or.inr hdst)
    | _ =>
      rw [hk] at hi
      cases hi
  · rw [addr_state] at hnames
    have hx : (⟨r.addr.net, n⟩ : Addr) ≠ r.addr := fun he => hown (congrArg Addr.node he)
    have hentry : (r.seen k n).entry = some e := he
    have hlive : (r.seen k n).live = none := by simp [Slot.live, hentry, hd]
    rcases (r.outcome k n).of_names hx ha hnames with ⟨-, hl⟩ | ⟨-, hl | hl, -⟩
    · rw [hlive] at hl
      cases hl
    · rw [hentry] at hl
      cases hl
    · rw [hlive] at hl
      cases hl

theorem quarantined_stray : Held ((strayRun .tick).sent 0) :=
  (quarantined (strayRun .tick) (k := 0) (n := 7)
    (e := ⟨.ether ⟨2, 0, 0, 0, 0, 7⟩, 0, true⟩) (by decide +kernel) rfl).1 ⟨Or.inr rfl, rfl⟩

/-- A LocalTalk frame's own source decides, not the source of the datagram inside it. -/
theorem repeated_despite_inner_source :
    ¬∀ (r : Run) (k : ℕ) (n : UInt8) (e : Entry),
      ((r.state k).recorded (r.input k) (r.time k)).nodes.get? n = some e → e.doubted = true →
      (r.input k).DatagramNaming ⟨r.addr.net, n⟩ → Held (r.sent k) := by
  intro h
  let data : Bytes := [0, 13, 0, 0, 0, 10, 0, 10, 9, 7, 4, 4, 10]
  let r := strayRun (In.local ⟨9, 8, LLAP_LONG_DDP, data⟩)
  have hheld := h r 1 7 ⟨.ether ⟨2, 0, 0, 0, 0, 7⟩, 0, true⟩ (by decide +kernel) rfl
    (Or.inr ⟨_, _, rfl, rfl, rfl, rfl⟩)
  exact hheld (.toEther (frame ⟨2, 0, 0, 0, 0, 1⟩ BROADCAST_MAC DDP data)) (by decide +kernel) rfl

end Run

end Bridge

end AppleTalk
