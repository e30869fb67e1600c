import AppleTalk.Properties.OwnDatagrams

/-!
# What the bridge repeats

A datagram that crosses the bridge reads on the other link as it read on the first, and crosses
once. The Ethernet address it goes to is broadcast or one that its destination has used. Stations
that are only ever heard on their own side always reach each other, each datagram by one frame.
-/

namespace AppleTalk

namespace Bridge

/-! ### What a step repeats -/

instance (a : Action) : Decidable a.Datagram :=
  match a with
  | .toEther f => inferInstanceAs (Decidable (f.proto = DDP))
  | .toLocal l => inferInstanceAs (Decidable (l.typ = LLAP_SHORT_DDP ∨ l.typ = LLAP_LONG_DDP))
  | .report _ => inferInstanceAs (Decidable False)

/-- The datagrams among some actions. -/
def repeated (acts : List Action) : List Action := acts.filter fun a => a.Datagram

theorem repeated_append (as bs : List Action) :
    repeated (as ++ bs) = repeated as ++ repeated bs := List.filter_append ..

theorem Action.Control.not_datagram {a : Action} (h : a.Control) : ¬a.Datagram := by
  cases a with
  | toEther f =>
    intro hd
    have hproto : f.proto = DDP := hd
    rw [show f.proto = AARP from h] at hproto
    exact absurd hproto (by decide)
  | toLocal l =>
    have hnone : ¬((LLAP_ENQ = LLAP_SHORT_DDP ∨ LLAP_ENQ = LLAP_LONG_DDP) ∨
        (LLAP_ACK = LLAP_SHORT_DDP ∨ LLAP_ACK = LLAP_LONG_DDP)) := by decide
    obtain ⟨n, rfl | rfl⟩ := h
    · exact fun hd => hnone (Or.inl hd)
    · exact fun hd => hnone (Or.inr hd)
  | report m => exact id

theorem repeated_control {acts : List Action} (h : ∀ a ∈ acts, a.Control) : repeated acts = [] :=
  List.filter_eq_nil_iff.2 fun a ha => by simpa using (h a ha).not_datagram

theorem repeated_cross (payload : Bytes) (d : Ddp) :
    repeated (cross payload d) = cross payload d := by
  unfold cross
  split_ifs <;> rfl

theorem length_cross (payload : Bytes) (d : Ddp) : (cross payload d).length ≤ 1 := by
  unfold cross
  split_ifs <;> simp

/-- The datagram crosses to LocalTalk: it is for everyone, or for a node of the cable that may be
there. -/
def Crosses (b : Bridge) (d : Ddp) : Prop :=
  d.dst ≠ b.addr ∧ (d.dst.node = 255 ∨ d.dst.net = b.addr.net ∧
    (b.live d.dst.node = some Side.local ∨ b.nodes.get? d.dst.node = none))

variable {b : Bridge} {now : Instant}

theorem repeated_etherDst (b : Bridge) (p : Packet) (d : Ddp) (now : Instant) :
    (b.Crosses d → repeated (b.etherDst p d now).2 = cross p.frame.payload d) ∧
      (¬b.Crosses d → repeated (b.etherDst p d now).2 = []) := by
  have hiff : d.dst = b.addr ↔ d.dst.net = b.addr.net ∧ d.dst.node = b.addr.node := by
    cases d.dst
    cases b.addr
    exact Addr.mk.injEq .. ▸ Iff.rfl
  unfold Crosses etherDst
  rw [Ne, hiff]
  by_cases hown : d.dst.net = b.addr.net ∧ d.dst.node = b.addr.node
  · rw [if_pos hown]
    exact ⟨fun h => absurd hown h.1, fun _ => rfl⟩
  rw [if_neg hown]
  by_cases hoff : d.dst.net ≠ b.addr.net ∧ d.dst.node ≠ 255
  · rw [if_pos hoff]
    exact ⟨fun h => absurd h.2 (by tauto), fun _ => rfl⟩
  rw [if_neg hoff]
  by_cases hall : d.dst.node = 255
  · rw [if_pos hall]
    exact ⟨fun _ => repeated_cross _ _, fun h => absurd ⟨hown, Or.inl hall⟩ h⟩
  have hnet : d.dst.net = b.addr.net := by tauto
  rw [if_neg hall]
  unfold live
  cases hentry : b.nodes.get? d.dst.node with
  | none =>
    dsimp only
    have hask : repeated (b.askBoth d.dst.node now).2 = [] :=
      repeated_control (ask_control b d.dst.node now .both .nothing none)
    rw [if_neg (by simp), repeated_append, repeated_cross, hask, List.append_nil]
    exact ⟨fun _ => rfl, fun h => absurd ⟨hown, Or.inr ⟨hnet, Or.inr rfl⟩⟩ h⟩
  | some e =>
    dsimp only
    by_cases hd : e.doubted
    · rw [if_pos hd]
      dsimp only
      rw [if_pos (by simp)]
      exact ⟨fun h => absurd h.2 (by simp [hall]), fun _ => rfl⟩
    · rw [if_neg hd]
      cases e.side with
      | ether m => exact ⟨fun h => absurd h.2 (by simp [hall]), fun _ => rfl⟩
      | «local» =>
        exact ⟨fun _ => repeated_cross _ _,
          fun h => absurd ⟨hown, Or.inr ⟨hnet, Or.inl rfl⟩⟩ h⟩

theorem crosses_congr {c : Bridge} (ha : c.addr = b.addr) (hn : c.nodes = b.nodes) (d : Ddp) :
    c.Crosses d ↔ b.Crosses d := by
  unfold Crosses live
  rw [ha, hn]

/-- What a datagram from Ethernet has a step repeat, once its sender is recorded. -/
theorem repeated_ether {p : Packet} {d : Ddp} {body : DdpBody} (hb : p.body = .ddp d body)
    (hsnap : p.frame.snap = true) (hours : p.frame.src ≠ b.mac) (now : Instant) :
    ((b.recorded (.ether p) now).Crosses d ∧
        (d.src.net = b.addr.net → ¬(b.recorded (.ether p) now).doubts d.src.node) →
      repeated (b.step (.ether p) now).2 = cross p.frame.payload d) ∧
    (¬((b.recorded (.ether p) now).Crosses d ∧
        (d.src.net = b.addr.net → ¬(b.recorded (.ether p) now).doubts d.src.node)) →
      repeated (b.step (.ether p) now).2 = []) := by
  obtain ⟨ha, hm⟩ := expire_fixed b now
  have hexpire := repeated_control (expire_control b now)
  have hsight : (b.expire now).1.sighting (.ether p) =
      if d.src.net = b.addr.net then some (d.src.node, .ether p.frame.src) else none := by
    unfold sighting
    dsimp only
    rw [hm, ha, if_neg (by simp [hours, hsnap]), hb]
  unfold recorded step onEther etherDdp record
  dsimp only
  rw [hsight]
  generalize b.expire now = r at ha hm hexpire ⊢
  rw [repeated_append, hexpire, List.nil_append, hb, ← ha]
  rw [← hm] at hours
  dsimp only
  rw [if_neg hours, if_neg (show ¬(!p.frame.snap) = true by simp [hsnap])]
  by_cases hnet : d.src.net = r.1.addr.net
  · have hconfirm := repeated_control (confirm_control r.1 d.src.node now (.ether p.frame.src))
    rw [if_pos hnet, if_pos hnet]
    dsimp only
    generalize r.1.confirm d.src.node (.ether p.frame.src) now = c at hconfirm ⊢
    by_cases hd : c.1.doubts d.src.node
    · rw [if_pos hd]
      exact ⟨fun h => absurd hd (h.2 hnet), fun _ => hconfirm⟩
    · rw [if_neg hd, repeated_append, hconfirm, List.nil_append]
      obtain ⟨hyes, hno⟩ := repeated_etherDst c.1 p d now
      exact ⟨fun h => hyes h.1, fun h => hno fun hc => h ⟨hc, fun _ => hd⟩⟩
  · rw [if_neg hnet, if_neg hnet]
    dsimp only
    obtain ⟨hyes, hno⟩ :=
      repeated_etherDst { r.1 with amt := amtInsert r.1.amt d.src p.frame.src } p d now
    have hsame := crosses_congr (b := r.1)
      (c := { r.1 with amt := amtInsert r.1.amt d.src p.frame.src }) rfl rfl d
    exact ⟨fun h => hyes (hsame.2 h.1),
      fun h => hno fun hc => h ⟨hsame.1 hc, fun h => absurd h hnet⟩⟩

/-- **A step repeats one datagram at most.** -/
theorem length_repeated (b : Bridge) (i : In) (now : Instant) :
    (repeated (b.step i now).2).length ≤ 1 := by
  have hsent := step_sent b now i
  have hnone : (∀ a ∈ (b.step i now).2, a.Control) → (repeated (b.step i now).2).length ≤ 1 := by
    intro h
    rw [repeated_control h]
    exact Nat.zero_le 1
  cases i with
  | tick =>
    refine hnone fun a ha => ?_
    cases hsent a ha with
    | control h => exact h
  | «local» l =>
    cases hdatagram : b.datagram (In.local l) with
    | none =>
      refine hnone fun a ha => ?_
      cases hsent a ha with
      | control h => exact h
      | extended m hl hext =>
        unfold datagram at hdatagram
        dsimp only at hdatagram
        rw [if_pos hl, hext] at hdatagram
        cases hdatagram
    | some x =>
      obtain ⟨dst, bytes⟩ := x
      unfold datagram at hdatagram
      dsimp only at hdatagram
      obtain ⟨hl, hext⟩ := Option.ite_none_right_eq_some.1 hdatagram
      obtain ⟨pre, hpre, hacts⟩ := step_local now hl hext
      rw [hacts, repeated_append, repeated_control hpre, List.nil_append]
      refine (List.length_filter_le _ _).trans ?_
      split_ifs
      · exact Nat.zero_le 1
      · cases ((b.recorded (In.local l) now).localDst l dst) <;> simp
  | ether p =>
    by_cases hquiet : p.frame.src = b.mac ∨ p.frame.snap = false
    · refine hnone fun a ha => ?_
      obtain ⟨ha', hm'⟩ := expire_fixed b now
      unfold step onEther at ha
      dsimp only at ha
      rw [hm'] at ha
      rcases List.mem_append.1 ha with ha | ha
      · exact expire_control b now a ha
      · rcases hquiet with h | h
        · rw [if_pos h] at ha
          cases ha
        · split_ifs at ha with h1 h2
          · cases ha
          · cases ha
          · simp [h] at h2
    obtain ⟨hours, hsnap⟩ := not_or.1 hquiet
    cases hb : p.body with
    | ddp d body =>
      obtain ⟨hyes, hno⟩ := repeated_ether hb (by simpa using hsnap) hours now
      by_cases h : (b.recorded (.ether p) now).Crosses d ∧
          (d.src.net = b.addr.net → ¬(b.recorded (.ether p) now).doubts d.src.node)
      · rw [hyes h]
        exact length_cross _ _
      · rw [hno h]
        exact Nat.zero_le 1
    | aarp | unknown =>
      refine hnone fun a ha => ?_
      cases hsent a ha with
      | control h => exact h
      | crossed hb' =>
        rw [hb] at hb'
        cases hb'

/-! ### Where the MACs come from -/

/-- The table of a new bridge has the last of a node's addresses. -/
theorem get?_foldl_insert {f : Addr × MacAddr → Entry} (l : List (Addr × MacAddr))
    (nodes : SortedMap UInt8 Entry) (n : UInt8) :
    (l.foldl (fun nodes e => nodes.insert e.1.node (f e)) nodes).get? n =
      ((l.reverse.find? fun e => e.1.node = n).map f).or (nodes.get? n) := by
  induction l generalizing nodes with
  | nil => rfl
  | cons e l ih =>
    rw [List.foldl_cons, ih, List.reverse_cons, List.find?_append, SortedMap.get?_insert]
    cases l.reverse.find? fun e => e.1.node = n with
    | some e' => rfl
    | none => by_cases he : e.1.node = n <;> simp [he]

/-- The frame shows the address at the MAC: a datagram from there, or an AARP Response. -/
def In.Shows (a : Addr) (m : MacAddr) : In → Prop
  | .ether p =>
    match p.body with
    | .ddp d _ => d.src = a ∧ p.frame.src = m
    | .aarp x => x.op = 2 ∧ x.src = a ∧ x.srcHw = m
    | .unknown => False
  | _ => False

theorem shows_of_sighting {i : In} {n : UInt8} {m : MacAddr}
    (h : b.sighting i = some (n, .ether m)) : i.Shows ⟨b.addr.net, n⟩ m := by
  unfold sighting at h
  cases i with
  | tick => cases h
  | «local» l =>
    dsimp only at h
    split_ifs at h
    cases h
  | ether p =>
    dsimp only at h
    split_ifs at h
    unfold In.Shows
    cases hb : p.body with
    | unknown =>
      rw [hb] at h
      cases h
    | ddp d body =>
      rw [hb] at h
      obtain ⟨hnet, h⟩ := Option.ite_none_right_eq_some.1 h
      cases h
      dsimp only
      rw [hb]
      exact ⟨by rw [← hnet], rfl⟩
    | aarp x =>
      rw [hb] at h
      obtain ⟨⟨hop, hnet⟩, h⟩ := Option.ite_none_right_eq_some.1 h
      cases h
      dsimp only
      rw [hb]
      exact ⟨hop, by rw [← hnet], rfl⟩

namespace Slot

/-- The MACs of the slot all satisfy the predicate. -/
def Knows (P : MacAddr → Prop) (s : Slot) : Prop :=
  (∀ e m, s.entry = some e → e.side = .ether m → P m) ∧
    ∀ q m, s.pending = some q → q.movedTo = some (.ether m) → P m

variable {P : MacAddr → Prop} {s : Slot}

theorem Knows.expired (h : s.Knows P) (now : Instant) : (s.expired now).Knows P := by
  refine ⟨fun e m he hside => ?_, fun q m hq => h.2 q m (expired_pending hq).1⟩
  have hfresh : (s.fresh now).entry = some e → P m :=
    fun he => h.1 e m (Option.filter_eq_some_iff.1 he).1 hside
  unfold Slot.expired at he
  split_ifs at he
  · unfold resolved at he
    rw [show (s.fresh now).pending = s.pending from rfl] at he
    cases hq : s.pending with
    | none =>
      rw [hq] at he
      exact hfresh he
    | some q =>
      rw [hq] at he
      dsimp only at he
      cases hm : q.movedTo with
      | none =>
        rw [hm] at he
        exact hfresh he
      | some side =>
        rw [hm] at he
        obtain rfl := Option.some.inj he
        exact h.2 q m hq (hm.trans (congrArg some hside))
  · exact hfresh he

theorem Knows.sighted (h : s.Knows P) {side : Side} (hside : ∀ m, side = .ether m → P m)
    (now : Instant) : (s.sighted side now).Knows P := by
  refine ⟨fun e m he hm => ?_, fun q m hq hm => ?_⟩
  · unfold Slot.sighted at he
    cases hs : s.entry with
    | none =>
      rw [hs] at he
      obtain rfl := Option.some.inj he
      exact hside m hm
    | some e₀ =>
      rw [hs] at he
      dsimp only at he
      split_ifs at he
      · exact h.1 e m he hm
      · obtain rfl := Option.some.inj he
        exact h.1 e₀ m hs hm
      · obtain rfl := Option.some.inj he
        exact h.1 e₀ m hs hm
      · exact h.1 e m he hm
      · obtain rfl := Option.some.inj he
        exact hside m hm
  · rcases sighted_pending hq with hq | rfl
    · exact h.2 q m hq hm
    · exact hside m (Option.some.inj hm)

theorem Knows.outcome {ours x : Addr} {i : In} {now : Instant} {s' : Slot} {acts : List Action}
    (h : s.Knows P) (hout : Outcome ours x i now s s' acts) : s'.Knows P :=
  ⟨fun e m he => h.1 e m (hout.entry_eq ▸ he), fun q m hq hm => h.2 q m (hout.moved hq hm) hm⟩

theorem Knows.mono {Q : MacAddr → Prop} (h : s.Knows P) (hPQ : ∀ m, P m → Q m) : s.Knows Q :=
  ⟨fun e m he hm => hPQ m (h.1 e m he hm), fun q m hq hm => hPQ m (h.2 q m hq hm)⟩

end Slot

/-! #### Addresses of other networks -/

theorem ask_amt (b : Bridge) (n : UInt8) (link : Ask) (owed : Owed) (movedTo : Option Side)
    (now : Instant) : (b.ask n link owed movedTo now).1.amt = b.amt := by
  unfold ask
  split_ifs <;> rfl

theorem confirm_amt (b : Bridge) (n : UInt8) (side : Side) (now : Instant) :
    (b.confirm n side now).1.amt = b.amt := by
  unfold confirm
  by_cases hn : n = 0 ∨ n = 255 ∨ n = b.addr.node
  · rw [if_pos hn]
  rw [if_neg hn]
  cases b.nodes.get? n with
  | none => rfl
  | some e =>
    dsimp only
    split_ifs
    · rfl
    · exact ask_amt ..
    · rfl
    · rfl
    · rfl

theorem settle_amt (b : Bridge) (n : UInt8) (side : Side) : (b.settle n side).1.amt = b.amt := by
  unfold settle
  cases b.pending.get? n with
  | none => rfl
  | some q =>
    dsimp only
    by_cases hq : q.movedTo.isSome
    · rw [if_pos hq]
    · rw [if_neg hq]
      cases q.owed <;> cases side <;> rfl

theorem expire_amt (b : Bridge) (now : Instant) : (b.expire now).1.amt = b.amt := by
  have hresolve : ∀ (r : Bridge × List Action) (n : UInt8), (resolve now r n).1.amt = r.1.amt := by
    intro r n
    unfold resolve
    cases r.1.pending.get? n with
    | none => rfl
    | some q =>
      dsimp only
      cases q.movedTo <;> rfl
  have hfold : ∀ (ns : List UInt8) (r : Bridge × List Action),
      (ns.foldl (resolve now) r).1.amt = r.1.amt := by
    intro ns
    induction ns with
    | nil => exact fun r => rfl
    | cons n ns ih => exact fun r => (ih _).trans (hresolve r n)
  exact hfold _ _

theorem etherDst_amt (b : Bridge) (p : Packet) (d : Ddp) (now : Instant) :
    (b.etherDst p d now).1.amt = b.amt := by
  unfold etherDst
  split_ifs
  · rfl
  · rfl
  · rfl
  · cases b.live d.dst.node with
    | some side => cases side <;> rfl
    | none => rfl
  · cases b.live d.dst.node with
    | some side => cases side <;> rfl
    | none => exact ask_amt ..

theorem etherDdp_amt (b : Bridge) (p : Packet) (d : Ddp) (now : Instant) :
    (b.etherDdp p d now).1.amt = b.amt ∨
      (b.etherDdp p d now).1.amt = amtInsert b.amt d.src p.frame.src := by
  unfold etherDdp
  by_cases hnet : d.src.net = b.addr.net
  · rw [if_pos hnet]
    left
    dsimp only
    split_ifs
    · exact confirm_amt ..
    · exact (etherDst_amt ..).trans (confirm_amt ..)
  · rw [if_neg hnet]
    exact Or.inr (etherDst_amt ..)

theorem etherAarp_amt (b : Bridge) (x : Aarp) (now : Instant) :
    (b.etherAarp x now).1.amt = b.amt ∨
      x.op = 2 ∧ (b.etherAarp x now).1.amt = amtInsert b.amt x.src x.srcHw := by
  unfold etherAarp
  cases aarpAction x b.addr b.mac false with
  | answerTo dst => exact Or.inl rfl
  | conflict | ignore =>
    dsimp only
    by_cases hop : x.op = 2
    · rw [if_pos hop]
      by_cases hnet : x.src.net ≠ b.addr.net
      · rw [if_pos hnet]
        exact Or.inr ⟨hop, rfl⟩
      · rw [if_neg hnet]
        exact Or.inl ((settle_amt ..).trans (confirm_amt ..))
    rw [if_neg hop]
    left
    by_cases hasks : (x.op = 1 ∨ x.op = 3) ∧ x.dst.net = b.addr.net ∧ x.dst.node ≠ b.addr.node
    · rw [if_pos hasks]
      cases b.live x.dst.node with
      | none => exact ask_amt ..
      | some side =>
        cases side with
        | ether m => rfl
        | «local» =>
          dsimp only
          split_ifs
          · rfl
          · exact ask_amt ..
    · rw [if_neg hasks]

theorem onEther_amt (b : Bridge) (p : Packet) (now : Instant) {e : Addr × MacAddr}
    (he : e ∈ (b.onEther p now).1.amt) : e ∈ b.amt ∨ (In.ether p).Shows e.1 e.2 := by
  have hinsert : ∀ a m, e ∈ amtInsert b.amt a m → e ∈ b.amt ∨ e = (a, m) := by
    intro a m h
    rcases List.mem_cons.1 h with h | h
    · exact Or.inr h
    · exact Or.inl (List.mem_of_mem_filter h)
  unfold onEther at he
  split_ifs at he
  · exact Or.inl he
  · exact Or.inl he
  cases hb : p.body with
  | unknown =>
    rw [hb] at he
    exact Or.inl he
  | ddp d body =>
    rw [hb] at he
    rcases etherDdp_amt b p d now with h | h
    · exact Or.inl (h ▸ he)
    · refine (hinsert d.src p.frame.src (h ▸ he)).imp_right ?_
      rintro rfl
      unfold In.Shows
      dsimp only
      rw [hb]
      exact ⟨rfl, rfl⟩
  | aarp x =>
    rw [hb] at he
    rcases etherAarp_amt b x now with h | ⟨hop, h⟩
    · exact Or.inl (h ▸ he)
    · refine (hinsert x.src x.srcHw (h ▸ he)).imp_right ?_
      rintro rfl
      unfold In.Shows
      dsimp only
      rw [hb]
      exact ⟨hop, rfl, rfl⟩

theorem onLocal_amt (b : Bridge) (l : Llap) (now : Instant) :
    (b.onLocal l now).1.amt = b.amt := by
  unfold onLocal localDdp
  split_ifs
  · dsimp only
    split_ifs
    · exact confirm_amt ..
    · cases (b.confirm l.src Side.local now).1.extendedOf l <;> exact confirm_amt ..
  · rfl
  · exact ask_amt ..
  · exact (settle_amt ..).trans (confirm_amt ..)
  · rfl

theorem step_amt (b : Bridge) (i : In) (now : Instant) {e : Addr × MacAddr}
    (he : e ∈ (b.step i now).1.amt) : e ∈ b.amt ∨ i.Shows e.1 e.2 := by
  have hexpire := expire_amt b now
  unfold step at he
  dsimp only at he
  cases i with
  | tick => exact Or.inl (hexpire ▸ he)
  | ether p => exact hexpire ▸ onEther_amt _ p now he
  | «local» l => exact Or.inl (hexpire ▸ onLocal_amt _ l now ▸ he)

namespace Run

variable (r : Run)

/-- The MAC with which the bridge starts out for the node. -/
def gleaned (n : UInt8) : Option MacAddr :=
  (r.amt.reverse.find? fun e => e.1 = ⟨r.addr.net, n⟩).map Prod.snd

/-- By the time of the step a frame has shown the address at the MAC, if the bridge did not start
out with it. -/
def Told (a : Addr) (m : MacAddr) (k : ℕ) : Prop :=
  (a, m) ∈ r.amt ∨ ∃ j < k, (r.input j).Shows a m

variable {r}

theorem entry_start {n : UInt8} (hn : n ≠ 0 ∧ n ≠ 255 ∧ n ≠ r.addr.node) :
    ((r.state 0).slot n).entry = (r.gleaned n).map fun m => ⟨.ether m, r.start, false⟩ := by
  have hempty : (SortedMap.empty : SortedMap UInt8 Entry).get? n = none := rfl
  show (List.foldl _ SortedMap.empty _).get? n = _
  rw [get?_foldl_insert, hempty, Option.or_none, ← List.filter_reverse, List.find?_filter]
  unfold gleaned
  rw [Option.map_map]
  congr 1
  congr 1
  funext e
  obtain ⟨⟨net, node⟩, mac⟩ := e
  simp only [Addr.mk.injEq, decide_eq_true_eq]
  congr 1
  refine propext ⟨fun h => ⟨h.1.1, h.2⟩, ?_⟩
  rintro ⟨rfl, rfl⟩
  exact ⟨⟨rfl, hn.2.2, hn.1, hn.2.1⟩, rfl⟩

theorem Told.succ {a : Addr} {m : MacAddr} {k : ℕ} (h : r.Told a m k) : r.Told a m (k + 1) :=
  h.imp_right fun ⟨j, hj, hs⟩ => ⟨j, Nat.lt_succ_of_lt hj, hs⟩

/-- Every MAC for another network has been told. -/
theorem told_of_mem_amt {k : ℕ} {e : Addr × MacAddr} (he : e ∈ (r.state k).amt) :
    r.Told e.1 e.2 k := by
  induction k with
  | zero => exact Or.inl (List.mem_of_mem_filter he)
  | succ k ih =>
    rcases step_amt _ _ _ he with he | hs
    · exact (ih he).succ
    · exact Or.inr ⟨k, Nat.lt_succ_self k, hs⟩

theorem seen_knows {n : UInt8} {k : ℕ}
    (h : ((r.state k).slot n).Knows fun m => r.Told ⟨r.addr.net, n⟩ m k) :
    (r.seen k n).Knows fun m => r.Told ⟨r.addr.net, n⟩ m (k + 1) := by
  have hlater := h.mono fun m (hm : r.Told ⟨r.addr.net, n⟩ m k) => hm.succ
  unfold seen
  rw [slot_recorded]
  cases hh : (r.state k).heard (r.input k) n with
  | none => exact hlater.expired _
  | some side =>
    refine (hlater.expired _).sighted (fun m hm => ?_) _
    subst hm
    have hshows := shows_of_sighting (heard_eq_some_iff.1 hh).1
    rw [r.addr_state] at hshows
    exact Or.inr ⟨k, Nat.lt_succ_self k, hshows⟩

/-- **Every MAC of the table has been told.** -/
theorem state_knows (r : Run) (n : UInt8) (k : ℕ) :
    ((r.state k).slot n).Knows fun m => r.Told ⟨r.addr.net, n⟩ m k := by
  induction k with
  | zero =>
    refine ⟨fun e m he hm => ?_, fun q m hq => by cases hq⟩
    rw [entry_start (new_real he)] at he
    obtain ⟨m', hgleaned, rfl⟩ := Option.map_eq_some_iff.1 he
    obtain rfl := Side.ether.inj hm
    obtain ⟨x, hx, rfl⟩ := Option.map_eq_some_iff.1 hgleaned
    have haddr : x.1 = ⟨r.addr.net, n⟩ := by simpa using List.find?_some hx
    have hmem := List.mem_reverse.1 (List.mem_of_find?_eq_some hx)
    exact Or.inl (haddr ▸ hmem)
  | succ k ih => exact (seen_knows ih).outcome (r.outcome k n)

end Run

/-! ### A station and its slot -/

namespace Slot

variable {s : Slot} {side : Side}

/-- Nothing speaks against the node's being on the side. -/
def Steady (side : Side) (s : Slot) : Prop :=
  (∀ e, s.entry = some e → e.side.sameAs side ∧ e.doubted = false) ∧
    ∀ q, s.pending = some q → q.movedTo = none

/-- Of a steady slot time takes no more than a stale entry. -/
theorem Steady.expired_entry (h : s.Steady side) (now : Instant) :
    (s.expired now).entry = s.entry.filter fun e => since now e.confirmed < ENTRY_TTL := by
  unfold expired
  split_ifs
  · unfold resolved
    rw [show (s.fresh now).pending = s.pending from rfl]
    cases hq : s.pending with
    | none => rfl
    | some q =>
      dsimp only
      rw [h.2 q hq]
      rfl
  · rfl

theorem Steady.expired (h : s.Steady side) (now : Instant) : (s.expired now).Steady side := by
  refine ⟨fun e he => ?_, fun q hq => h.2 q (expired_pending hq).1⟩
  rw [h.expired_entry] at he
  exact h.1 e (Option.filter_eq_some_iff.1 he).1

/-- Heard again on its side, the node is confirmed there. -/
theorem Steady.sighted_eq (h : s.Steady side) {side' : Side} (hside : side'.sameAs side)
    (now : Instant) : s.sighted side' now = { s with entry := some ⟨side', now, false⟩ } := by
  unfold sighted
  cases he : s.entry with
  | none => rfl
  | some e =>
    obtain ⟨hsame, hd⟩ := h.1 e he
    have hsame' := Side.sameAs_trans hsame (Side.sameAs_symm hside)
    have hmoved : ¬(s.pending.any fun q => q.movedTo.isSome) = true := by
      cases hq : s.pending with
      | none => simp
      | some q => simp [h.2 q hq]
    dsimp only
    rw [if_neg (by simp [hsame']), if_neg hmoved, if_neg (by simp [hd])]

theorem Steady.sighted (h : s.Steady side) {side' : Side} (hside : side'.sameAs side)
    (now : Instant) : (s.sighted side' now).Steady side := by
  rw [h.sighted_eq hside]
  refine ⟨fun e he => ?_, h.2⟩
  obtain rfl := Option.some.inj he
  exact ⟨hside, rfl⟩

theorem Steady.outcome {ours x : Addr} {i : In} {now : Instant} {s' : Slot} {acts : List Action}
    (h : s.Steady side) (hout : Outcome ours x i now s s' acts) : s'.Steady side := by
  refine ⟨fun e he => h.1 e (hout.entry_eq ▸ he), fun q hq => ?_⟩
  cases hm : q.movedTo with
  | none => rfl
  | some to' => rw [← hm, h.2 q (hout.moved hq hm)]

theorem Steady.live (h : s.Steady side) : s.live = s.entry.map Entry.side := by
  unfold Slot.live
  cases he : s.entry with
  | none => rfl
  | some e => simp [(h.1 e he).2]

end Slot

theorem not_doubts_of_steady {b : Bridge} {n : UInt8} {side : Side}
    (h : (b.slot n).Steady side) : ¬b.doubts n := by
  rw [doubts_iff, h.live]
  rintro ⟨hnone, hsome⟩
  rw [Option.map_eq_none_iff] at hnone
  rw [hnone] at hsome
  cases hsome

namespace Run

variable (r : Run) {n m : UInt8} {k : ℕ}

/-- The MAC the node was last heard from, and when. -/
def lastHeard (n : UInt8) : ℕ → Option (MacAddr × Instant)
  | 0 => (r.gleaned n).map fun m => (m, r.start)
  | k + 1 =>
    match (r.state k).heard (r.input k) n with
    | some (.ether m) => some (m, r.time k)
    | _ => lastHeard n k

/-- The node is a station that is only ever heard on its side. -/
structure Stays (n : UInt8) (side : Side) : Prop where
  heard : ∀ k s, (r.state k).heard (r.input k) n = some s → s.sameAs side
  gleaned : side = Side.local → r.gleaned n = none

variable {r}

/-- A sighting on the station's side leaves its slot steady. -/
theorem Stays.seen {side : Side} (h : r.Stays n side) (hs : ((r.state k).slot n).Steady side) :
    (r.seen k n).Steady side := by
  unfold Run.seen
  rw [slot_recorded]
  cases hheard : (r.state k).heard (r.input k) n with
  | none => exact hs.expired _
  | some side' => exact (hs.expired _).sighted (h.heard k side' hheard) _

/-- **A station's slot is steady** all along. -/
theorem Stays.steady {side : Side} (h : r.Stays n side)
    (hn : n ≠ 0 ∧ n ≠ 255 ∧ n ≠ r.addr.node) (k : ℕ) : ((r.state k).slot n).Steady side := by
  induction k with
  | zero =>
    refine ⟨fun e he => ?_, fun q hq => by cases hq⟩
    rw [entry_start hn] at he
    obtain ⟨m, hm, rfl⟩ := Option.map_eq_some_iff.1 he
    cases side with
    | ether => exact ⟨rfl, rfl⟩
    | «local» =>
      rw [h.gleaned rfl] at hm
      cases hm
  | succ k ih => exact (h.seen ih).outcome (r.outcome k n)

/-- No sender that stays on its side is in doubt. -/
theorem Stays.not_doubts {side : Side} (h : r.Stays n side) (k : ℕ) :
    ¬((r.state k).recorded (r.input k) (r.time k)).doubts n := by
  by_cases hn : n ≠ 0 ∧ n ≠ 255 ∧ n ≠ r.addr.node
  · exact not_doubts_of_steady (h.seen (h.steady hn k))
  · -- What is no node has no entry.
    rw [doubts_iff]
    rintro ⟨-, hsome⟩
    obtain ⟨e, he⟩ := Option.isSome_iff_exists.1 hsome
    exact hn (seen_real (r.entry_real k) he)

/-- Where a station of Ethernet was last heard, unless that is stale. -/
def entryAt (r : Run) (n : UInt8) (k : ℕ) (now : Instant) : Option Entry :=
  ((r.lastHeard n k).filter fun x => since now x.2 < ENTRY_TTL).map
    fun x => ⟨.ether x.1, x.2, false⟩

theorem Stays.seen_of_kept {m₀ : MacAddr} (h : r.Stays n (.ether m₀))
    (hs : ((r.state k).slot n).Steady (.ether m₀))
    (hkept : ((r.state k).slot n).entry.filter (fun e => since (r.time k) e.confirmed < ENTRY_TTL) =
      r.entryAt n k (r.time k)) : (r.seen k n).entry = r.entryAt n (k + 1) (r.time k) := by
  have hpos : 0 < ENTRY_TTL := by decide
  unfold Run.seen entryAt lastHeard
  rw [slot_recorded]
  cases hheard : (r.state k).heard (r.input k) n with
  | none =>
    dsimp only
    rw [hs.expired_entry]
    exact hkept
  | some side =>
    have hside := h.heard k side hheard
    dsimp only
    rw [(hs.expired _).sighted_eq hside]
    cases side with
    | «local» => cases hside
    | ether m => simp [since, hpos]

/-- What time leaves of the table is where the station was last heard. -/
theorem Stays.entry_kept {m₀ : MacAddr} (h : r.Stays n (.ether m₀))
    (hn : n ≠ 0 ∧ n ≠ 255 ∧ n ≠ r.addr.node) {now : Instant} (hnow : ∀ j < k, r.time j ≤ now) :
    ((r.state k).slot n).entry.filter (fun e => since now e.confirmed < ENTRY_TTL) =
      r.entryAt n k now := by
  induction k generalizing now with
  | zero =>
    rw [entry_start hn]
    unfold entryAt lastHeard
    cases r.gleaned n with
    | none => rfl
    | some m => by_cases hfresh : since now r.start < ENTRY_TTL <;> simp [Option.filter, hfresh]
  | succ k ih =>
    have hseen := h.seen_of_kept (h.steady hn k) (ih fun j hj => r.clock hj.le)
    rw [(r.outcome k n).entry_eq, hseen]
    unfold entryAt
    cases r.lastHeard n (k + 1) with
    | none => rfl
    | some x =>
      have hlater : since now x.2 < ENTRY_TTL → since (r.time k) x.2 < ENTRY_TTL :=
        fun hlt => (Nat.sub_le_sub_right (hnow k (Nat.lt_succ_self k)) _).trans_lt hlt
      by_cases hfresh : since now x.2 < ENTRY_TTL
      · simp [Option.filter, hfresh, hlater hfresh]
      · by_cases hearlier : since (r.time k) x.2 < ENTRY_TTL <;>
          simp [Option.filter, hfresh, hearlier]

/-- **What the table holds of a station of Ethernet** is where it was last heard, if that was
lately. -/
theorem Stays.entry_seen {m₀ : MacAddr} (h : r.Stays n (.ether m₀))
    (hn : n ≠ 0 ∧ n ≠ 255 ∧ n ≠ r.addr.node) (k : ℕ) :
    (r.seen k n).entry = r.entryAt n (k + 1) (r.time k) :=
  h.seen_of_kept (h.steady hn k) (h.entry_kept hn fun _ hj => r.clock hj.le)

theorem addr_recorded (k : ℕ) :
    ((r.state k).recorded (r.input k) (r.time k)).addr = r.addr := by
  rw [recorded, (record_fixed _ _ _).1, (expire_fixed _ _).1, r.addr_state k]

/-- A datagram for a station of LocalTalk crosses. -/
theorem Stays.crosses (h : r.Stays n Side.local) (hn : n ≠ 0 ∧ n ≠ 255 ∧ n ≠ r.addr.node) (k : ℕ)
    {d : Ddp} (hd : d.dst = ⟨r.addr.net, n⟩) :
    ((r.state k).recorded (r.input k) (r.time k)).Crosses d := by
  have hsteady : (r.seen k n).Steady Side.local := h.seen (h.steady hn k)
  have hlive : ((r.state k).recorded (r.input k) (r.time k)).live n =
      (r.seen k n).entry.map Entry.side := hsteady.live
  have haddr := addr_recorded (r := r) (k := k)
  unfold Crosses
  rw [haddr, hd]
  dsimp only
  refine ⟨fun he => hn.2.2 (congrArg Addr.node he), Or.inr ⟨rfl, ?_⟩⟩
  rw [hlive]
  cases he : (r.seen k n).entry with
  | none => exact Or.inr he
  | some e =>
    obtain ⟨hside, -⟩ := hsteady.1 e he
    left
    show some e.side = some Side.local
    cases hs : e.side with
    | «local» => rfl
    | ether m =>
      rw [hs] at hside
      cases hside

/-- Where a datagram goes that a station of Ethernet is sent. -/
theorem Stays.localDst {m₀ : MacAddr} (h : r.Stays m (.ether m₀))
    (hm : m ≠ 0 ∧ m ≠ 255 ∧ m ≠ r.addr.node) (k : ℕ) {l : Llap} (hl : l.dst ≠ 255) :
    ((r.state k).recorded (r.input k) (r.time k)).localDst l ⟨r.addr.net, m⟩ =
      some ((((r.lastHeard m (k + 1)).filter fun x => since (r.time k) x.2 < ENTRY_TTL).map
        Prod.fst).getD BROADCAST_MAC) := by
  have hlive : ((r.state k).recorded (r.input k) (r.time k)).live m =
      (r.entryAt m (k + 1) (r.time k)).map Entry.side :=
    (h.seen (h.steady hm k)).live.trans (congrArg _ (h.entry_seen hm k))
  unfold Bridge.localDst
  rw [if_neg (not_or.2 ⟨hl, hm.2.1⟩), addr_recorded, if_pos rfl]
  dsimp only
  rw [hlive]
  unfold entryAt
  cases (r.lastHeard m (k + 1)).filter fun x => since (r.time k) x.2 < ENTRY_TTL <;> rfl

/-- A LocalTalk frame that reads as a datagram goes out to Ethernet as octets that read as the
same. -/
theorem extendedOf_reads {b : Bridge} {wire : Bytes} {l : Llap} (hl : Llap.parse wire = some l)
    {d : Ddp} (h : l.datagram b.addr.net = some d) :
    (l.typ = LLAP_SHORT_DDP ∨ l.typ = LLAP_LONG_DDP) ∧
      ∃ bytes, b.extendedOf l = some (d.dst, bytes) ∧ ∀ m,
        decode (frame b.mac m DDP bytes).toBytes =
          some ⟨frame b.mac m DDP bytes, .ddp d (decodeDdpBody d)⟩ := by
  unfold Llap.datagram at h
  unfold extendedOf
  by_cases hshort : l.typ = LLAP_SHORT_DDP
  · rw [if_pos hshort] at h ⊢
    have hok := Ddp.wireOk_of_fromShort h (Llap.data_of_parse hl (Or.inl hshort)).1
    have hsize : d.toBytes.length ≤ 1492 := by
      rw [Ddp.length_toBytes]
      exact hok.2.1 ▸ hok.2.2.trans (by decide)
    exact ⟨Or.inl hshort, d.toBytes, by rw [h]; rfl,
      fun m => decode_datagram rfl rfl hsize (Ddp.parse_toBytes_ok hok)⟩
  rw [if_neg hshort] at h ⊢
  obtain ⟨hlong, h⟩ := Option.ite_none_right_eq_some.1 h
  have hsize := (Llap.data_of_parse hl (Or.inr hlong)).1.trans (show LLAP_MAX_DATA ≤ 1492 by decide)
  exact ⟨Or.inr hlong, l.data, by rw [h]; rfl, fun m => decode_datagram rfl rfl hsize h⟩

theorem datagram_of_extended {b : Bridge} {l : Llap} {dst : Addr} {bytes : Bytes}
    (hl : l.typ = LLAP_SHORT_DDP ∨ l.typ = LLAP_LONG_DDP)
    (h : b.extendedOf l = some (dst, bytes)) : ∃ d, l.datagram b.addr.net = some d := by
  unfold extendedOf at h
  unfold Llap.datagram
  by_cases hshort : l.typ = LLAP_SHORT_DDP
  · rw [if_pos hshort] at h ⊢
    obtain ⟨d, hd, -⟩ := Option.map_eq_some_iff.1 h
    exact ⟨d, hd⟩
  · rw [if_neg hshort] at h ⊢
    obtain ⟨d, hd, -⟩ := Option.map_eq_some_iff.1 h
    exact ⟨d, (if_pos (hl.resolve_left hshort)).trans hd⟩

/-- What goes out for a MAC goes where its destination has been heard. -/
theorem told_of_localDst {l : Llap} {k : ℕ} {a : Addr} {m : MacAddr}
    (h : ((r.state k).recorded (r.input k) (r.time k)).localDst l a = some m)
    (hm : m ≠ BROADCAST_MAC) (hamt : ((r.state k).recorded (r.input k) (r.time k)).amt =
      (r.state k).amt) : r.Told a m (k + 1) := by
  unfold Bridge.localDst at h
  rw [addr_recorded, hamt] at h
  split_ifs at h with hall hnet
  · exact absurd (Option.some.inj h).symm hm
  · obtain ⟨net, node⟩ := a
    obtain rfl : net = r.addr.net := hnet
    have hknows := seen_knows (r.state_knows node k)
    dsimp only at h
    rw [live_slot] at h
    have hslot : (((r.state k).recorded (r.input k) (r.time k)).slot node) = r.seen k node := rfl
    rw [hslot] at h
    unfold Slot.live at h
    cases he : (r.seen k node).entry with
    | none =>
      rw [he] at h
      exact absurd (Option.some.inj h).symm hm
    | some e =>
      rw [he] at h
      dsimp only at h
      split_ifs at h
      · exact absurd (Option.some.inj h).symm hm
      · cases hside : e.side with
        | «local» =>
          rw [hside] at h
          cases h
        | ether m' =>
          rw [hside] at h
          obtain rfl := Option.some.inj h
          exact hknows.1 e m' he hside
  · unfold macFor at h
    rw [Option.some.injEq] at h
    split_ifs at h
    · exact absurd h.symm hm
    · cases hfind : (r.state k).amt.find? fun e => e.1 = a with
      | none =>
        rw [hfind] at h
        exact absurd h.symm hm
      | some e =>
        rw [hfind] at h
        obtain rfl : e.2 = m := h
        obtain rfl : e.1 = a := by simpa using List.find?_some hfind
        exact (told_of_mem_amt (List.mem_of_find?_eq_some hfind)).succ

/-- **The bridge repeats faithfully**, whatever has arrived before: a step repeats one datagram at
most, and only to the other link, where it reads as it read on the first. To LocalTalk it goes from
and to the nodes it names. To Ethernet it goes from the bridge, to everyone or to a MAC that its
destination has been heard from. -/
theorem repeats_faithfully (r : Run) {k : ℕ} (hwire : (r.input k).OffTheWire) :
    (repeated (r.sent k)).length ≤ 1 ∧
    (∀ l, .toLocal l ∈ repeated (r.sent k) →
      ∃ p d body, r.input k = .ether p ∧ p.body = .ddp d body ∧
        Llap.parse l.toBytes = some l ∧ (∀ net, l.datagram net = some d) ∧
        l.dst = d.dst.node ∧ l.src = d.src.node) ∧
    ∀ f, .toEther f ∈ repeated (r.sent k) →
      ∃ l d, r.input k = In.local l ∧ l.datagram r.addr.net = some d ∧
        decode f.toBytes = some ⟨f, .ddp d (decodeDdpBody d)⟩ ∧ f.src = r.mac ∧
        (f.dst ≠ BROADCAST_MAC → r.Told d.dst f.dst (k + 1)) := by
  refine ⟨length_repeated _ _ _, fun l hl => ?_, fun f hf => ?_⟩
  · obtain ⟨hmem, hdatagram⟩ := List.mem_filter.1 hl
    have hdatagram := of_decide_eq_true hdatagram
    have hsent := step_sent (r.state k) (r.time k) (r.input k) _ hmem
    generalize r.input k = i at hsent hwire ⊢
    cases hsent with
    | control h => exact absurd hdatagram h.not_datagram
    | @crossed p d body _ hb hown h =>
      obtain ⟨bytes, hbytes⟩ := hwire
      have hparse := ((Packet.decoded_of_decode hbytes).ddp hb).1
      have hlegal := cross_wellFormed hparse (.ether p) _ h
      unfold cross at h
      split_ifs at h
      · cases h
      obtain rfl := Action.toLocal.inj (List.mem_singleton.1 h)
      have hlong : LLAP_LONG_DDP ≠ LLAP_SHORT_DDP := by decide
      exact ⟨p, d, body, rfl, hb, hlegal,
        fun net => (if_neg hlong).trans ((if_pos rfl).trans hparse), rfl, rfl⟩
  · obtain ⟨hmem, hdatagram⟩ := List.mem_filter.1 hf
    have hnot : ¬(Action.toEther f).Control :=
      fun h => absurd (of_decide_eq_true hdatagram) h.not_datagram
    have hsent := step_sent (r.state k) (r.time k) (r.input k) _ hmem
    obtain ⟨l, hk⟩ : ∃ l, r.input k = In.local l := by
      generalize r.input k = i at hsent
      cases hsent with
      | control h => exact absurd h hnot
      | crossed hb hown h =>
        unfold cross at h
        split_ifs at h
        · cases h
        · cases List.mem_singleton.1 h
      | extended => exact ⟨_, rfl⟩
    rw [hk] at hsent hwire
    obtain ⟨wire, hwire⟩ := hwire
    obtain ⟨hl, dst, bytes, hext⟩ : (l.typ = LLAP_SHORT_DDP ∨ l.typ = LLAP_LONG_DDP) ∧
        ∃ dst bytes, (r.state k).extendedOf l = some (dst, bytes) := by
      cases hsent with
      | control h => exact absurd h hnot
      | extended m hl h => exact ⟨hl, _, _, h⟩
    obtain ⟨d, hd⟩ := datagram_of_extended hl hext
    obtain ⟨-, bytes', hext', hreads⟩ := extendedOf_reads hwire hd
    obtain ⟨rfl, rfl⟩ := Prod.mk.inj (Option.some.inj (hext.symm.trans hext'))
    obtain ⟨pre, hpre, hacts⟩ := step_local (r.time k) hl hext
    rw [sent, hk, hacts] at hmem
    have hcrossed := (List.mem_append.1 hmem).resolve_left fun h => hnot (hpre _ h)
    split_ifs at hcrossed
    · cases hcrossed
    obtain ⟨m, hm, hf⟩ := Option.map_eq_some_iff.1 (Option.mem_toList.1 hcrossed)
    obtain rfl := Action.toEther.inj hf
    rw [r.addr_state] at hd
    refine ⟨l, d, hk, hd, hreads m, r.mac_state k, fun hne => ?_⟩
    rw [← hk] at hm
    exact told_of_localDst hm hne (by rw [hk, recorded_local hl, confirm_amt, expire_amt])

/-- The first frame of a node of LocalTalk goes out to everyone on Ethernet. -/
theorem repeats_faithfully_stray :
    ∃ l d, In.local fromNode8 = In.local l ∧ l.datagram 10 = some d ∧
      decode (frame ⟨2, 0, 0, 0, 0, 1⟩ BROADCAST_MAC DDP fromNode8.data).toBytes =
        some ⟨frame ⟨2, 0, 0, 0, 0, 1⟩ BROADCAST_MAC DDP fromNode8.data,
          .ddp d (decodeDdpBody d)⟩ := by
  have hwire : ((strayRun (In.local fromNode8)).input 1).OffTheWire :=
    ⟨fromNode8.toBytes, by decide⟩
  obtain ⟨l, d, hk, hd, hreads, -, -⟩ := (repeats_faithfully _ hwire).2.2
    (frame ⟨2, 0, 0, 0, 0, 1⟩ BROADCAST_MAC DDP fromNode8.data) (by decide +kernel)
  exact ⟨l, d, hk, hd, hreads⟩

/-- **Stations that stay on their own sides are always connected**, whatever else is on the links.
A datagram for the station of LocalTalk, from a station of Ethernet or from beyond the cable, comes
to it in one frame, and so does a datagram to the station of Ethernet: at the MAC it was last heard
from, if that was lately, and otherwise to everyone. -/
theorem stations_connected (r : Run) {n m : UInt8} {m₀ : MacAddr}
    (hn : n ≠ 0 ∧ n ≠ 255 ∧ n ≠ r.addr.node) (hstay : r.Stays n Side.local)
    (hm : m ≠ 0 ∧ m ≠ 255 ∧ m ≠ r.addr.node) (hstay' : r.Stays m (.ether m₀)) {k : ℕ}
    (hwire : (r.input k).OffTheWire) {d : Ddp} :
    (∀ p body, r.input k = .ether p → p.body = .ddp d body → p.frame.snap = true →
      p.frame.src ≠ r.mac → (d.src.net = r.addr.net → d.src.node = m) →
      d.dst = ⟨r.addr.net, n⟩ → d.length.toNat = p.frame.payload.length →
      p.frame.payload.length ≤ 600 →
      ∃ l, repeated (r.sent k) = [.toLocal l] ∧ l.dst = n ∧ l.src = d.src.node ∧
        Llap.parse l.toBytes = some l ∧ ∀ net, l.datagram net = some d) ∧
    (∀ l, r.input k = In.local l → l.src = n → l.dst ≠ 255 →
      l.datagram r.addr.net = some d → d.dst = ⟨r.addr.net, m⟩ →
      ∃ f, repeated (r.sent k) = [.toEther f] ∧ f.src = r.mac ∧
        f.dst = (((r.lastHeard m (k + 1)).filter fun x => since (r.time k) x.2 < ENTRY_TTL).map
          Prod.fst).getD BROADCAST_MAC ∧
        decode f.toBytes = some ⟨f, .ddp d (decodeDdpBody d)⟩) := by
  constructor
  · intro p body hk hb hsnap hours hsrc hdst hlen hmax
    rw [hk] at hwire
    obtain ⟨bytes, hbytes⟩ := hwire
    have hparse := ((Packet.decoded_of_decode hbytes).ddp hb).1
    obtain ⟨hsize, -⟩ := Ddp.header_of_parse hparse
    have hcross : cross p.frame.payload d =
        [.toLocal ⟨d.dst.node, d.src.node, LLAP_LONG_DDP, p.frame.payload⟩] :=
      if_neg (by omega)
    have hdoubts : d.src.net = (r.state k).addr.net →
        ¬((r.state k).recorded (r.input k) (r.time k)).doubts d.src.node := by
      rw [r.addr_state]
      intro hnet
      rw [hsrc hnet]
      exact hstay'.not_doubts k
    have hcrosses := hstay.crosses hn k hdst
    rw [hk] at hdoubts hcrosses
    have hrepeated := (repeated_ether hb hsnap (by rwa [r.mac_state]) (r.time k)).1
      ⟨hcrosses, hdoubts⟩
    have hlegal := cross_wellFormed hparse (.ether p) _ (hcross ▸ List.mem_singleton.2 rfl)
    refine ⟨_, ?_, ?_, rfl, hlegal, fun net => ?_⟩
    · rw [← hcross, ← hrepeated, sent, hk]
    · rw [hdst]
    · have hlong : LLAP_LONG_DDP ≠ LLAP_SHORT_DDP := by decide
      exact (if_neg hlong).trans ((if_pos rfl).trans hparse)
  · intro l hk hsrc hbroad hdatagram hdst
    rw [hk] at hwire
    obtain ⟨wire, hwire⟩ := hwire
    rw [← r.addr_state k] at hdatagram
    obtain ⟨hl, bytes, hext, hreads⟩ := extendedOf_reads hwire hdatagram
    obtain ⟨pre, hpre, hacts⟩ := step_local (r.time k) hl hext
    have hdoubts := hstay.not_doubts k
    have hwhere := hstay'.localDst hm k hbroad
    rw [hk] at hdoubts hwhere
    rw [hsrc, if_neg hdoubts, hdst, hwhere] at hacts
    refine ⟨_, ?_, r.mac_state k, rfl, hreads _⟩
    rw [sent, hk, hacts, repeated_append, repeated_control hpre]
    rfl

theorem fromSecs_le (j k : ℕ) (h : j ≤ k) : fromSecs j ≤ fromSecs k :=
  Nat.mul_le_mul_right _ h

/-- Node 8 of LocalTalk sends a datagram to node 7, which the bridge starts out with. -/
def homeRun : Run where
  addr := ⟨10, 1⟩
  mac := ⟨2, 0, 0, 0, 0, 1⟩
  amt := [(⟨10, 7⟩, ⟨2, 0, 0, 0, 0, 7⟩)]
  start := 0
  input k :=
    if k = 0 then
      In.local ⟨7, 8, LLAP_LONG_DDP, [0, 13, 0, 0, 0, 10, 0, 10, 7, 8, 4, 4, 10]⟩
    else .tick
  time k := fromSecs k
  clock := fromSecs_le

theorem stays_home {n : UInt8} {side : Side} (hlocal : n = 8 → side = Side.local)
    (hgleaned : side = Side.local → homeRun.gleaned n = none) : homeRun.Stays n side := by
  refine ⟨fun k s hheard => ?_, hgleaned⟩
  have hsight := (heard_eq_some_iff.1 hheard).1
  by_cases hk : k = 0
  · rw [hk] at hsight
    have hself : some ((8 : UInt8), Side.local) = some (n, s) := hsight
    obtain ⟨rfl, rfl⟩ := Prod.mk.inj (Option.some.inj hself)
    rw [hlocal rfl]
    rfl
  · rw [show homeRun.input k = .tick from if_neg hk] at hsight
    cases hsight

/-- It goes to node 7's MAC. -/
theorem stations_connected_home : ∃ f d,
    repeated (homeRun.sent 0) = [.toEther f] ∧ f.dst = ⟨2, 0, 0, 0, 0, 7⟩ ∧
      decode f.toBytes = some ⟨f, .ddp d (decodeDdpBody d)⟩ := by
  have hn : homeRun.Stays 8 Side.local := stays_home (fun _ => rfl) fun _ => by decide
  have hm : homeRun.Stays 7 (.ether MacAddr.zero) :=
    stays_home (fun h => absurd h (by decide)) fun h => by cases h
  have hwire : (homeRun.input 0).OffTheWire :=
    ⟨[7, 8, 2, 0, 13, 0, 0, 0, 10, 0, 10, 7, 8, 4, 4, 10], by decide⟩
  have hreads :
      (Llap.mk 7 8 LLAP_LONG_DDP [0, 13, 0, 0, 0, 10, 0, 10, 7, 8, 4, 4, 10]).datagram 10 =
        some ⟨0, 13, 0, ⟨10, 7⟩, 4, ⟨10, 8⟩, 4, 10, []⟩ := by
    decide
  obtain ⟨f, hsent, -, hdst, hdecode⟩ :=
    (stations_connected homeRun (by decide) hn (by decide) hm hwire).2 _ rfl rfl (by decide) hreads
      rfl
  refine ⟨f, _, hsent, hdst.trans ?_, hdecode⟩
  decide +kernel

end Run

end Bridge

end AppleTalk
