import AppleTalk.Bridge.Outcome

/-!
# What a step sends

Besides reports, AARP packets and control frames a step sends one thing: the datagram that
arrived, to the other link. From Ethernet its payload crosses as it is, unless the datagram is for
the bridge itself; from LocalTalk it goes out with its extended header, whomever it is for.
-/

namespace AppleTalk

namespace Bridge

/-- A report, an AARP packet, or a lapENQ or lapACK for a node ID. -/
def Action.Control : Action → Prop
  | toEther f => f.proto = AARP
  | toLocal l => ∃ n, l = .control n n LLAP_ENQ ∨ l = .control n n LLAP_ACK
  | report _ => True

/-- What a step can send, by what arrived. -/
inductive Sent (b : Bridge) : In → Action → Prop
  | control {i : In} {a : Action} (h : a.Control) : Sent b i a
  | crossed {p : Packet} {d : Ddp} {body : DdpBody} {a : Action} (hb : p.body = .ddp d body)
      (hown : d.dst ≠ b.addr) (h : a ∈ cross p.frame.payload d) : Sent b (.ether p) a
  | extended {l : Llap} {dst : Addr} {bytes : Bytes} (m : MacAddr)
      (hl : l.typ = LLAP_SHORT_DDP ∨ l.typ = LLAP_LONG_DDP)
      (h : b.extendedOf l = some (dst, bytes)) :
      Sent b (In.local l) (.toEther (frame b.mac m DDP bytes))

theorem extendedOf_congr {b c : Bridge} (h : c.addr = b.addr) (l : Llap) :
    c.extendedOf l = b.extendedOf l := by
  unfold extendedOf
  rw [h]

theorem Sent.congr {b c : Bridge} (hs : b.Same c) {i : In} {a : Action} (h : c.Sent i a) :
    b.Sent i a := by
  obtain ⟨ha, hm⟩ := hs
  cases h with
  | control h => exact .control h
  | crossed hb hown h => exact .crossed hb (by rwa [← ha]) h
  | extended m hl h =>
    rw [hm]
    rw [extendedOf_congr ha] at h
    exact .extended m hl h

variable (b : Bridge) (n m : UInt8) (now : Instant)

/-! ### Questions, reports and answers -/

theorem ask_control (link : Ask) (owed : Owed) (movedTo : Option Side) :
    ∀ a ∈ (b.ask m link owed movedTo now).2, a.Control :=
  ask_forall b m now (P := Action.Control) (fun _ _ => rfl) ⟨m, Or.inl rfl⟩ link owed movedTo

theorem confirm_control (side : Side) : ∀ a ∈ (b.confirm m side now).2, a.Control :=
  confirm_forall b m now (P := Action.Control)
    (fun c link movedTo _ => ask_control c m now link .nothing movedTo) (fun _ => trivial) side

theorem expire_control : ∀ a ∈ (b.expire now).2, a.Control :=
  expire_forall b now (P := Action.Control) fun _ => trivial

theorem settle_control (side : Side) : ∀ a ∈ (b.settle m side).2, a.Control := by
  unfold settle
  cases b.pending.get? m with
  | none => exact List.forall_mem_nil _
  | some q =>
    dsimp only
    by_cases hm : q.movedTo.isSome
    · rw [if_pos hm]
      exact List.forall_mem_nil _
    rw [if_neg hm]
    split
    · exact List.forall_mem_singleton.2 ⟨m, Or.inr rfl⟩
    · split_ifs
      · exact List.forall_mem_nil _
      · exact List.forall_mem_singleton.2 rfl
    · exact List.forall_mem_nil _

theorem etherAarp_control (x : Aarp) : ∀ a ∈ (b.etherAarp x now).2, a.Control := by
  have hask : ∀ owed, ∀ a ∈ (b.ask x.dst.node Ask.local owed none now).2, a.Control :=
    fun owed => ask_control b x.dst.node now Ask.local owed none
  unfold etherAarp
  cases aarpAction x b.addr b.mac false with
  | answerTo dst => exact List.forall_mem_singleton.2 rfl
  | conflict | ignore =>
    dsimp only
    by_cases hop : x.op = 2
    · rw [if_pos hop]
      split_ifs
      · exact List.forall_mem_nil _
      · exact List.forall_mem_append.2 ⟨confirm_control _ _ _ _, settle_control _ _ _⟩
    rw [if_neg hop]
    by_cases hasked : (x.op = 1 ∨ x.op = 3) ∧ x.dst.net = b.addr.net ∧ x.dst.node ≠ b.addr.node
    · rw [if_pos hasked]
      cases b.live x.dst.node with
      | none => exact hask _
      | some side =>
        cases side with
        | ether m => exact List.forall_mem_nil _
        | «local» =>
          dsimp only
          split_ifs
          · exact List.forall_mem_singleton.2 rfl
          · exact hask _
    · rw [if_neg hasked]
      exact List.forall_mem_nil _

/-! ### Datagrams -/

theorem etherDst_sent {p : Packet} {d : Ddp} {body : DdpBody} (hb : p.body = .ddp d body) :
    ∀ a ∈ (b.etherDst p d now).2, b.Sent (.ether p) a := by
  unfold etherDst
  by_cases hown : d.dst.net = b.addr.net ∧ d.dst.node = b.addr.node
  · rw [if_pos hown]
    exact List.forall_mem_nil _
  have hown' : d.dst ≠ b.addr := fun h => hown (by rw [h]; exact ⟨rfl, rfl⟩)
  have hcross : ∀ a ∈ cross p.frame.payload d, b.Sent (.ether p) a :=
    fun a ha => .crossed hb hown' ha
  rw [if_neg hown]
  by_cases hoff : d.dst.net ≠ b.addr.net ∧ d.dst.node ≠ 255
  · rw [if_pos hoff]
    exact List.forall_mem_nil _
  rw [if_neg hoff]
  by_cases hall : d.dst.node = 255
  · rw [if_pos hall]
    exact hcross
  rw [if_neg hall]
  cases b.live d.dst.node with
  | some side =>
    cases side with
    | ether m => exact List.forall_mem_nil _
    | «local» => exact hcross
  | none =>
    dsimp only
    split_ifs
    · exact List.forall_mem_nil _
    · refine List.forall_mem_append.2 ⟨hcross, fun a ha => .control ?_⟩
      exact ask_control b d.dst.node now .both .nothing none a ha

theorem onEther_sent (p : Packet) : ∀ a ∈ (b.onEther p now).2, b.Sent (.ether p) a := by
  unfold onEther
  split_ifs
  · exact List.forall_mem_nil _
  · exact List.forall_mem_nil _
  cases hb : p.body with
  | unknown => exact List.forall_mem_nil _
  | aarp x => exact fun a ha => .control (etherAarp_control b now x a ha)
  | ddp d body =>
    dsimp only
    unfold etherDdp
    split_ifs
    · have hconfirm := confirm_control b d.src.node now (.ether p.frame.src)
      have hsame := confirm_fixed b d.src.node now (.ether p.frame.src)
      dsimp only
      generalize b.confirm d.src.node (.ether p.frame.src) now = r at hconfirm hsame ⊢
      split_ifs
      · exact fun a ha => .control (hconfirm a ha)
      · refine List.forall_mem_append.2 ⟨fun a ha => .control (hconfirm a ha), fun a ha => ?_⟩
        exact (etherDst_sent r.1 now hb a ha).congr hsame
    · have hsame : b.Same { b with amt := amtInsert b.amt d.src p.frame.src } := ⟨rfl, rfl⟩
      exact fun a ha => (etherDst_sent _ now hb a ha).congr hsame

theorem localDdp_sent {l : Llap} (hl : l.typ = LLAP_SHORT_DDP ∨ l.typ = LLAP_LONG_DDP) :
    ∀ a ∈ (b.localDdp l now).2, b.Sent (In.local l) a := by
  have hconfirm := confirm_control b l.src now Side.local
  have hsame := confirm_fixed b l.src now Side.local
  unfold localDdp
  dsimp only
  generalize b.confirm l.src Side.local now = r at hconfirm hsame ⊢
  split_ifs
  · exact fun a ha => .control (hconfirm a ha)
  cases hext : r.1.extendedOf l with
  | none => exact fun a ha => .control (hconfirm a ha)
  | some x =>
    refine List.forall_mem_append.2 ⟨fun a ha => .control (hconfirm a ha), fun a ha => ?_⟩
    obtain ⟨m, -, rfl⟩ := Option.map_eq_some_iff.1 (Option.mem_toList.1 ha)
    exact Sent.congr hsame (.extended m hl hext)

theorem onLocal_sent (l : Llap) : ∀ a ∈ (b.onLocal l now).2, b.Sent (In.local l) a := by
  unfold onLocal
  by_cases hl : l.typ = LLAP_SHORT_DDP ∨ l.typ = LLAP_LONG_DDP
  · rw [if_pos hl]
    exact localDdp_sent b now hl
  rw [if_neg hl]
  refine fun a ha => .control ?_
  revert a
  split_ifs
  · exact List.forall_mem_singleton.2 ⟨l.dst, Or.inr rfl⟩
  · exact ask_control b l.dst now .ether .localAck none
  · exact List.forall_mem_append.2 ⟨confirm_control _ _ _ _, settle_control _ _ _⟩
  · exact List.forall_mem_nil _

/-- **What a step sends.** -/
theorem step_sent (i : In) : ∀ a ∈ (b.step i now).2, b.Sent i a := by
  have hexpire := expire_control b now
  have hsame := expire_fixed b now
  unfold step
  dsimp only
  generalize b.expire now = r at hexpire hsame ⊢
  refine List.forall_mem_append.2 ⟨fun a ha => .control (hexpire a ha), fun a ha => ?_⟩
  cases i with
  | tick => cases ha
  | ether p => exact (onEther_sent r.1 now p a ha).congr hsame
  | «local» l => exact (onLocal_sent r.1 now l a ha).congr hsame

end Bridge

end AppleTalk
