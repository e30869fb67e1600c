import AppleTalk.Bridge.Step

/-!
# What the bridge knows of one node

The table entry of a node and the question in flight about it are its slot. Expiry, a sighting,
a question and an answer each change the slot of one node by a rule that looks at that slot
alone; the bridge's operations act on every slot by these rules.
-/

namespace AppleTalk

namespace Bridge

namespace Side

theorem sameAs_self (a : Side) : a.sameAs a := by
  cases a <;> rfl

theorem sameAs_trans {a b c : Side} (h : a.sameAs b) (h' : b.sameAs c) : a.sameAs c := by
  cases a <;> cases b <;> cases c <;> simp_all [sameAs]

theorem sameAs_symm {a b : Side} (h : a.sameAs b) : b.sameAs a := by
  cases a <;> cases b <;> simp_all [sameAs]

end Side

/-- A question that is not due was put less than its window ago. -/
theorem since_lt_query_iff {now asked : ℕ} :
    since now asked < QUERY_TIMEOUT ↔ now < asked + QUERY_TIMEOUT := by
  have hpos : 0 < QUERY_TIMEOUT := by decide
  unfold since
  omega

/-- The entry of a node and the question in flight about it. -/
structure Slot where
  entry : Option Entry
  pending : Option Pending
  deriving DecidableEq, Repr

namespace Slot

/-- The side the node is known to be on. -/
def live (s : Slot) : Option Side :=
  match s.entry with
  | none => none
  | some e => if e.doubted then none else some e.side

/-- The question in flight went unanswered: a move-check was about a node that moved. -/
def resolved (s : Slot) (now : Instant) : Slot :=
  match s.pending with
  | none => s
  | some q =>
    match q.movedTo with
    | none => { s with pending := none }
    | some side =>
      { entry := some { side := side, confirmed := now, doubted := false }, pending := none }

/-- The question in flight has waited long enough. -/
def due (s : Slot) (now : Instant) : Bool :=
  s.pending.any fun q => QUERY_TIMEOUT ≤ since now q.asked

/-- The entry, unless nobody has confirmed it lately. -/
def fresh (s : Slot) (now : Instant) : Slot :=
  { s with entry := s.entry.filter fun e => since now e.confirmed < ENTRY_TTL }

/-- What time alone does: a stale entry goes, a question that has waited is resolved. -/
def expired (s : Slot) (now : Instant) : Slot :=
  if s.due now then (s.fresh now).resolved now else s.fresh now

/-- A question is recorded unless one is in flight. -/
def asked (s : Slot) (q : Pending) : Slot :=
  if s.pending.isSome then s else { s with pending := some q }

/-- The node was heard from on a side. -/
def sighted (s : Slot) (side : Side) (now : Instant) : Slot :=
  match s.entry with
  | none => { s with entry := some { side := side, confirmed := now, doubted := false } }
  | some e =>
    if !e.side.sameAs side then
      if e.doubted then s
      else
        { entry := some { side := e.side, confirmed := now, doubted := true }
          pending := some { asked := now, owed := .nothing, movedTo := some side } }
    else if s.pending.any fun q => q.movedTo.isSome then { s with pending := none }
    else if e.doubted then s
    else { s with entry := some { side := side, confirmed := now, doubted := false } }

/-! ### What time and a sighting leave -/

/-- What expiry leaves: a question that is not due and its entry as it was, or no question. -/
theorem expired_pending {s : Slot} {now : Instant} {q : Pending}
    (h : (s.expired now).pending = some q) :
    s.pending = some q ∧ since now q.asked < QUERY_TIMEOUT ∧ s.expired now = s.fresh now := by
  unfold expired at h ⊢
  split_ifs at h ⊢ with hd
  · unfold resolved fresh at h
    dsimp only at h
    cases hp : s.pending with
    | none => simp [hp] at h
    | some q' => cases hm : q'.movedTo <;> simp [hp, hm] at h
  · refine ⟨h, ?_, rfl⟩
    have hp : s.pending = some q := h
    simpa [due, hp] using hd

/-- An entry that is not stale outlives expiry, unless a move-check about it is due. -/
theorem expired_entry {s : Slot} {e : Entry} (he : s.entry = some e) {now : Instant}
    (hfresh : since now e.confirmed < ENTRY_TTL) :
    (s.expired now).entry = some e ∨
      ∃ q side, s.pending = some q ∧ q.movedTo = some side ∧ QUERY_TIMEOUT ≤ since now q.asked := by
  have hkept : (s.fresh now).entry = some e := by simp [fresh, he, hfresh]
  have hpend : (s.fresh now).pending = s.pending := rfl
  unfold expired
  by_cases hdue : s.due now
  · rw [if_pos hdue]
    unfold resolved
    rw [hpend]
    cases hp : s.pending with
    | none => exact Or.inl hkept
    | some q =>
      dsimp only
      cases hm : q.movedTo with
      | none => exact Or.inl hkept
      | some side => exact Or.inr ⟨q, side, rfl, hm, by simpa [due, hp] using hdue⟩
  · rw [if_neg hdue]
    exact Or.inl hkept

/-- A sighting leaves the question in flight, drops a move-check or raises one. -/
theorem sighted_pending {s : Slot} {side : Side} {now : Instant} {q : Pending}
    (hq : (s.sighted side now).pending = some q) :
    s.pending = some q ∨ q = ⟨now, .nothing, some side⟩ := by
  unfold sighted at hq
  cases he : s.entry with
  | none =>
    rw [he] at hq
    exact Or.inl hq
  | some e =>
    rw [he] at hq
    dsimp only at hq
    split_ifs at hq with h1 h2 h3 h4
    · exact Or.inl hq
    · exact Or.inr (Option.some.inj hq).symm
    · exact Or.inl hq
    · exact Or.inl hq

/-- A sighting leaves an entry on its side. -/
theorem sighted_entry {s : Slot} {e : Entry} (he : s.entry = some e) (side : Side)
    (now : Instant) : ∃ e', (s.sighted side now).entry = some e' ∧ e'.side.sameAs e.side := by
  unfold sighted
  rw [he]
  dsimp only
  split_ifs with h1 h2 h3 h4
  · exact ⟨e, he, Side.sameAs_self _⟩
  · exact ⟨_, rfl, Side.sameAs_self _⟩
  · exact ⟨e, rfl, Side.sameAs_self _⟩
  · exact ⟨e, he, Side.sameAs_self _⟩
  · exact ⟨_, rfl, Side.sameAs_symm (by simpa using h1)⟩

/-- After a sighting there is an entry. -/
theorem sighted_ne_none (s : Slot) (side : Side) (now : Instant) :
    (s.sighted side now).entry ≠ none := by
  cases he : s.entry with
  | none => simp [sighted, he]
  | some e =>
    obtain ⟨e', he', -⟩ := sighted_entry he side now
    simp [he']

/-- After a sighting a move-check stands only if the sighting was on the other side: the one that
stood before, or the one this sighting raises against a trusted entry. -/
theorem sighted_moved {s : Slot} {e : Entry} (he : s.entry = some e) {side to' : Side}
    {now : Instant} {q : Pending} (hq : (s.sighted side now).pending = some q)
    (hm : q.movedTo = some to') :
    e.side.sameAs side = false ∧ (s.pending = some q ∨ q.asked = now ∧ e.doubted = false) := by
  unfold sighted at hq
  rw [he] at hq
  dsimp only at hq
  split_ifs at hq with h1 h2 h3 h4
  · exact ⟨by simpa using h1, Or.inl hq⟩
  · obtain rfl := Option.some.inj hq
    exact ⟨by simpa using h1, Or.inr ⟨rfl, by simpa using h2⟩⟩
  · have hq : s.pending = some q := hq
    exact absurd (by simp [hq, hm]) h3
  · have hq : s.pending = some q := hq
    exact absurd (by simp [hq, hm]) h3

end Slot

/-- A node of this cable other than the bridge: not a reserved ID and not our own. -/
def Real (b : Bridge) (node : UInt8) : Prop := node ≠ 0 ∧ node ≠ 255 ∧ node ≠ b.addr.node

instance (b : Bridge) (node : UInt8) : Decidable (b.Real node) :=
  inferInstanceAs (Decidable (_ ∧ _))

def slot (b : Bridge) (n : UInt8) : Slot := { entry := b.nodes.get? n, pending := b.pending.get? n }

variable (b : Bridge) (n m : UInt8) (now : Instant)

@[simp] theorem slot_entry : (b.slot n).entry = b.nodes.get? n := rfl

@[simp] theorem slot_pending : (b.slot n).pending = b.pending.get? n := rfl

theorem live_slot : b.live n = (b.slot n).live := rfl

/-! ### The table's operations -/

theorem ask_fixed (link : Ask) (owed : Owed) (movedTo : Option Side) :
    (b.ask m link owed movedTo now).1.addr = b.addr ∧
      (b.ask m link owed movedTo now).1.mac = b.mac ∧
      (b.ask m link owed movedTo now).1.nodes = b.nodes := by
  unfold ask
  split_ifs <;> exact ⟨rfl, rfl, rfl⟩

theorem slot_ask (link : Ask) (owed : Owed) (movedTo : Option Side) :
    (b.ask m link owed movedTo now).1.slot n =
      if n = m ∧ m ≠ 0 ∧ m ≠ 255 then
        (b.slot n).asked { asked := now, owed := owed, movedTo := movedTo }
      else b.slot n := by
  unfold ask slot
  by_cases hm : m = 0 ∨ m = 255 ∨ (b.pending.get? m).isSome
  · rw [if_pos hm]
    split_ifs with h
    · obtain ⟨rfl, h0, h255⟩ := h
      have hsome : (b.pending.get? n).isSome := (hm.resolve_left h0).resolve_left h255
      simp [Slot.asked, hsome]
    · rfl
  · rw [if_neg hm]
    simp only [not_or] at hm
    simp only [SortedMap.get?_insert]
    by_cases h : n = m
    · subst h
      simp [Slot.asked, hm]
    · simp [h, Ne.symm h]

theorem confirm_fixed (side : Side) :
    (b.confirm m side now).1.addr = b.addr ∧ (b.confirm m side now).1.mac = b.mac := by
  unfold confirm
  by_cases hm : m = 0 ∨ m = 255 ∨ m = b.addr.node
  · rw [if_pos hm]
    exact ⟨rfl, rfl⟩
  · rw [if_neg hm]
    cases b.nodes.get? m with
    | none => exact ⟨rfl, rfl⟩
    | some e =>
      dsimp only
      split_ifs
      · exact ⟨rfl, rfl⟩
      · exact ⟨(ask_fixed _ _ _ _ _ _).1, (ask_fixed _ _ _ _ _ _).2.1⟩
      · exact ⟨rfl, rfl⟩
      · exact ⟨rfl, rfl⟩
      · exact ⟨rfl, rfl⟩

theorem slot_confirm (side : Side) :
    (b.confirm m side now).1.slot n =
      if n = m ∧ b.Real m then (b.slot n).sighted side now else b.slot n := by
  unfold confirm Real
  by_cases hm : m = 0 ∨ m = 255 ∨ m = b.addr.node
  · rw [if_pos hm, if_neg (by tauto)]
  · rw [if_neg hm]
    simp only [not_or] at hm
    by_cases h : n = m
    · subst h
      rw [if_pos ⟨rfl, hm⟩]
      cases he : b.nodes.get? n with
      | none => simp [slot, Slot.sighted, he]
      | some e =>
        simp only [Slot.sighted, slot_entry, slot_pending, he]
        split_ifs with h1 h2 h3 h4
        · rfl
        · rw [slot_ask, if_pos ⟨rfl, hm.1, hm.2.1⟩]
          simp [slot, Slot.asked]
        · simp [slot, he]
        · simp [slot, he]
        · simp [slot]
    · rw [if_neg (by tauto)]
      cases he : b.nodes.get? m with
      | none => simp [slot, SortedMap.get?_insert, Ne.symm h]
      | some e =>
        dsimp only
        split_ifs
        · rfl
        · rw [slot_ask, if_neg (by tauto)]
          simp [slot, SortedMap.get?_insert, SortedMap.get?_erase, Ne.symm h, h]
        · simp [slot, SortedMap.get?_erase, h]
        · rfl
        · simp [slot, SortedMap.get?_insert, Ne.symm h]

theorem settle_fixed (side : Side) :
    (b.settle m side).1.addr = b.addr ∧ (b.settle m side).1.mac = b.mac := by
  unfold settle
  cases b.pending.get? m with
  | none => exact ⟨rfl, rfl⟩
  | some q =>
    dsimp only
    by_cases hq : q.movedTo.isSome
    · rw [if_pos hq]
      exact ⟨rfl, rfl⟩
    · rw [if_neg hq]
      cases q.owed <;> cases side <;> exact ⟨rfl, rfl⟩

/-! ### Expiry -/

theorem resolve_fixed (r : Bridge × List Action) :
    (resolve now r m).1.addr = r.1.addr ∧ (resolve now r m).1.mac = r.1.mac := by
  unfold resolve
  cases r.1.pending.get? m with
  | none => exact ⟨rfl, rfl⟩
  | some q =>
    dsimp only
    cases q.movedTo <;> exact ⟨rfl, rfl⟩

theorem slot_resolve (r : Bridge × List Action) :
    (resolve now r m).1.slot n = if n = m then (r.1.slot n).resolved now else r.1.slot n := by
  unfold resolve Slot.resolved
  by_cases h : n = m
  · subst h
    rw [if_pos rfl, slot_pending]
    cases r.1.pending.get? n with
    | none => rfl
    | some q =>
      dsimp only
      cases q.movedTo <;> simp [slot]
  · rw [if_neg h]
    cases r.1.pending.get? m with
    | none => rfl
    | some q =>
      dsimp only
      cases q.movedTo <;>
        simp [slot, SortedMap.get?_insert, SortedMap.get?_erase, Ne.symm h, h]

theorem Slot.resolved_resolved (s : Slot) : (s.resolved now).resolved now = s.resolved now := by
  cases hs : s.pending with
  | none => simp [Slot.resolved, hs]
  | some q => cases hq : q.movedTo <;> simp [Slot.resolved, hs, hq]

/-- A list of questions resolved changes the slots it names, each once. -/
theorem slot_foldl_resolve (ms : List UInt8) (r : Bridge × List Action) :
    (ms.foldl (resolve now) r).1.slot n =
      if n ∈ ms then (r.1.slot n).resolved now else r.1.slot n := by
  induction ms generalizing r with
  | nil => rfl
  | cons m ms ih =>
    rw [List.foldl_cons, ih, slot_resolve]
    by_cases h : n = m
    · rw [if_pos h, if_pos (List.mem_cons.2 (Or.inl h)), Slot.resolved_resolved, ite_self]
    · rw [if_neg h]
      simp only [List.mem_cons, h, false_or]

theorem foldl_resolve_fixed (ms : List UInt8) (r : Bridge × List Action) :
    (ms.foldl (resolve now) r).1.addr = r.1.addr ∧ (ms.foldl (resolve now) r).1.mac = r.1.mac := by
  induction ms generalizing r with
  | nil => exact ⟨rfl, rfl⟩
  | cons m ms ih =>
    obtain ⟨ha, hm⟩ := resolve_fixed m now r
    exact ⟨(ih _).1.trans ha, (ih _).2.trans hm⟩

theorem expire_fixed : (b.expire now).1.addr = b.addr ∧ (b.expire now).1.mac = b.mac :=
  foldl_resolve_fixed now _ _

/-- The questions an expiry resolves are the ones that have waited. -/
theorem mem_due : n ∈ (b.pending.retain fun _ q => QUERY_TIMEOUT ≤ since now q.asked).keys ↔
    (b.slot n).due now = true := by
  unfold SortedMap.keys Slot.due
  rw [List.mem_map, Option.any_eq_true]
  constructor
  · rintro ⟨⟨k, q⟩, hq, rfl⟩
    rw [SortedMap.mem_entries_iff, SortedMap.get?_retain, Option.filter_eq_some_iff] at hq
    exact ⟨q, hq.1, by simpa using hq.2⟩
  · rintro ⟨q, hq, hd⟩
    refine ⟨(n, q), ?_, rfl⟩
    rw [SortedMap.mem_entries_iff, SortedMap.get?_retain, Option.filter_eq_some_iff]
    exact ⟨hq, by simpa using hd⟩

/-- **Expiry acts on every slot by itself.** -/
theorem slot_expire : (b.expire now).1.slot n = (b.slot n).expired now := by
  unfold expire Slot.expired
  rw [slot_foldl_resolve]
  have hfresh : ({ b with nodes := b.nodes.retain fun _ e => since now e.confirmed < ENTRY_TTL }
      : Bridge).slot n = (b.slot n).fresh now := by
    simp [slot, Slot.fresh, SortedMap.get?_retain]
  rw [hfresh]
  exact if_congr (mem_due b n now) rfl rfl

end Bridge

end AppleTalk
