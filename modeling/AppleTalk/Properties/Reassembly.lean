import AppleTalk.Lib.Pieces
import AppleTalk.Properties.Interleaving
import Mathlib.Tactic.IntervalCases

/-!
# Reassembly in any order

A response message is one to eight packets, and what the reassembler holds of it is a function of
which of them have come: neither their order nor their repetition matters. So it answers with the
packet that is the first to complete the set, and with nothing before.
-/

namespace AppleTalk

attribute [ext] Partial

/-- A response message: its packets, numbered from 0, of which the last has EOM. -/
structure Response where
  count : ℕ
  packets : Fin count → Atp
  pos : 0 < count
  few : count ≤ 8
  resp : ∀ i, (packets i).func = .resp
  numbered : ∀ i, (packets i).bitmap.toNat = i
  ends : ∀ i, (packets i).eom = decide (i.val + 1 = count)

namespace Response

/-- The first packet, which has the user bytes. -/
def first (m : Response) : Fin m.count := ⟨0, m.pos⟩

/-- The packet with EOM. -/
def final (m : Response) : Fin m.count := ⟨m.count - 1, Nat.sub_lt m.pos Nat.one_pos⟩

/-- The payloads in sequence order. -/
def data (m : Response) : Bytes :=
  ((List.finRange m.count).map fun i => (m.packets i).data).flatten

/-- The transaction that the message makes, completed at some time. -/
def transaction (m : Response) (key : TxnKey) («at» : Instant) : Transaction :=
  { key := key, userBytes := (m.packets m.first).userBytes, data := m.data, «at» := «at» }

/-- The sequence number of a packet. -/
def seq (m : Response) (i : Fin m.count) : Fin 8 := Fin.castLE m.few i

/-- A copy of a packet of the message, and the time it arrives at. -/
structure Copy (m : Response) (key : TxnKey) where
  index : Fin m.count
  «at» : Instant
  packet : Packet
  copies : packet.atp = some (key, m.packets index)

/-- A copy, as it is pushed. -/
def Copy.pushed {m : Response} {key : TxnKey} (c : m.Copy key) : Instant × Packet :=
  (c.at, c.packet)

/-- A copy, as a piece of the message. -/
def Copy.piece {m : Response} {key : TxnKey} (c : m.Copy key) : Fin m.count × Instant :=
  (c.index, c.at)

variable {m : Response}

theorem seq_injective : Function.Injective m.seq := fun _ _ h => Fin.castLE_injective m.few h

/-! ### What is held of a message -/

/-- The partial response that some of the packets make. -/
def holding (m : Response) (held : List (Fin m.count × Instant)) (firstSeen : Instant) :
    Partial where
  segments j :=
    if h : j.val < m.count then
      if ⟨j, h⟩ ∈ held.map Prod.fst then some (m.packets ⟨j, h⟩).data else none
    else none
  userBytes := if m.first ∈ held.map Prod.fst then (m.packets m.first).userBytes else ⟨0, 0, 0, 0⟩
  last := if m.final ∈ held.map Prod.fst then some (m.seq m.final) else none
  firstSeen := firstSeen

/-- The entry that some of the packets make. -/
def entry (m : Response) (held : List (Fin m.count × Instant)) : Option Partial :=
  held.head?.map fun y => m.holding held y.2

theorem holding_nil (firstSeen : Instant) : m.holding [] firstSeen = .new firstSeen := by
  simp [holding, Partial.new]

theorem segments_holding (held : List (Fin m.count × Instant)) (firstSeen : Instant)
    (i : Fin m.count) :
    (m.holding held firstSeen).segments (m.seq i) =
      if i ∈ held.map Prod.fst then some (m.packets i).data else none := by
  unfold holding
  dsimp only
  rw [dif_pos (show (m.seq i).val < m.count from i.isLt)]
  rfl

theorem eom_iff (i : Fin m.count) : (m.packets i).eom = true ↔ i = m.final := by
  rw [m.ends, decide_eq_true_eq, Fin.ext_iff]
  show i.val + 1 = m.count ↔ i.val = m.count - 1
  have := m.pos
  omega

theorem segments_of_ge (held : List (Fin m.count × Instant)) (firstSeen : Instant) {j : Fin 8}
    (h : ¬j.val < m.count) : (m.holding held firstSeen).segments j = none := dif_neg h

/-- **One packet more**, whichever it is and whatever came before. -/
theorem store_holding (held : List (Fin m.count × Instant)) (firstSeen : Instant)
    (x : Fin m.count × Instant) :
    (m.holding held firstSeen).store (m.seq x.1) (m.packets x.1) =
      m.holding (held ++ [x]) firstSeen := by
  obtain ⟨i, now⟩ := x
  have hmem : ∀ j, j ∈ (held ++ [(i, now)]).map Prod.fst ↔ j = i ∨ j ∈ held.map Prod.fst := by
    intro j
    rw [List.map_append, List.mem_append, or_comm]
    simp
  refine Partial.ext ?_ ?_ ?_ rfl
  · funext j
    show Function.update (m.holding held firstSeen).segments (m.seq i) _ j = _
    rw [Function.update_apply]
    by_cases h : j.val < m.count
    · obtain ⟨k, rfl⟩ : ∃ k, m.seq k = j := ⟨⟨j, h⟩, rfl⟩
      simp only [segments_holding, hmem, seq_injective.eq_iff]
      by_cases hk : k = i
      · simp only [hk, if_true, true_or]
      · simp only [hk, if_false, false_or]
    · have hj : j ≠ m.seq i := by
        rintro rfl
        exact h i.isLt
      rw [if_neg hj, segments_of_ge _ _ h, segments_of_ge _ _ h]
  · have hzero : m.seq i = 0 ↔ m.first = i := by
      rw [Fin.ext_iff, Fin.ext_iff]
      exact eq_comm
    unfold Partial.store holding
    dsimp only
    simp only [hmem, hzero]
    by_cases hi : m.first = i
    · rw [if_pos hi, if_pos (Or.inl hi), hi]
    · simp only [hi, if_false, false_or]
  · unfold Partial.store holding
    dsimp only
    simp only [hmem, eom_iff]
    by_cases hi : i = m.final
    · rw [if_pos hi, if_pos (Or.inl hi.symm), hi]
    · rw [if_neg hi]
      simp only [Ne.symm hi, false_or]

/-- The sequence numbers up to the last are those of the message. -/
theorem filter_seq_le {n : ℕ} (hpos : 0 < n) (hn : n ≤ 8) :
    (List.finRange 8).filter (fun j => j ≤ Fin.castLE hn ⟨n - 1, Nat.sub_lt hpos Nat.one_pos⟩) =
      (List.finRange n).map (Fin.castLE hn) := by
  interval_cases n <;> rfl

/-- Everything is there, or nothing comes of it. -/
theorem mapM_ite {α β : Type} (p : α → Prop) [DecidablePred p] (g : α → β) (l : List α) :
    l.mapM (fun a => if p a then some (g a) else none) =
      if ∀ a ∈ l, p a then some (l.map g) else none := by
  induction l with
  | nil => simp
  | cons a l ih =>
    rw [List.mapM_cons, ih]
    simp only [List.forall_mem_cons]
    by_cases ha : p a
    · by_cases hl : ∀ b ∈ l, p b
      · rw [if_pos ha, if_pos hl, if_pos ⟨ha, hl⟩]
        rfl
      · rw [if_pos ha, if_neg hl, if_neg fun h : p a ∧ ∀ b ∈ l, p b => hl h.2]
        rfl
    · rw [if_neg ha, if_neg fun h : p a ∧ ∀ b ∈ l, p b => ha h.1]
      rfl

/-- The message is complete when all of its packets have come. -/
theorem takeIfComplete_holding (held : List (Fin m.count × Instant)) (firstSeen : Instant) :
    (m.holding held firstSeen).takeIfComplete =
      if ∀ i, i ∈ held.map Prod.fst then some m.data else none := by
  have hlast : (m.holding held firstSeen).last =
      if m.final ∈ held.map Prod.fst then some (m.seq m.final) else none := rfl
  have hmap : ((List.finRange m.count).map m.seq).mapM (m.holding held firstSeen).segments =
      if ∀ i, i ∈ held.map Prod.fst then
        some ((List.finRange m.count).map fun i => (m.packets i).data) else none := by
    have hsegs : (m.holding held firstSeen).segments ∘ m.seq =
        fun i => if i ∈ held.map Prod.fst then some (m.packets i).data else none :=
      funext (segments_holding held firstSeen)
    rw [List.mapM_map, hsegs, mapM_ite]
    simp only [List.mem_finRange, true_implies]
  unfold Partial.takeIfComplete
  rw [hlast]
  by_cases hfinal : m.final ∈ held.map Prod.fst
  · rw [if_pos hfinal, Option.bind_some]
    unfold seq at hmap
    rw [seq, final, filter_seq_le m.pos m.few, hmap]
    split_ifs <;> rfl
  · rw [if_neg hfinal, if_neg fun hall => hfinal (hall _)]
    rfl

/-! ### The reassembler collects pieces -/

/-- **One copy.** -/
theorem feed_copy {key : TxnKey} {held : List (Fin m.count × Instant)} (c : m.Copy key)
    (hfresh : ∀ y ∈ held.head?, since c.at y.2 < TXN_TIMEOUT) :
    Partial.feed key (m.entry held) c.pushed =
      (m.entry (Pieces.take held c.piece).1,
        (Pieces.take held c.piece).2.map (m.transaction key)) := by
  have hkept : (m.entry held).filter (Partial.fresh c.at) = m.entry held := by
    unfold entry
    cases held with
    | nil => rfl
    | cons y held => exact Option.filter_some_pos (decide_eq_true (hfresh y rfl))
  have hseq : (m.packets c.index).bitmap.toNat < 8 := by
    rw [m.numbered]
    exact Nat.lt_of_lt_of_le c.index.isLt m.few
  have hnumber : (⟨(m.packets c.index).bitmap.toNat, hseq⟩ : Fin 8) = m.seq c.index :=
    Fin.ext (m.numbered c.index)
  -- The entry has the time of its first packet, which is this one if there is no entry yet.
  obtain ⟨firstSeen, hstore, hentry⟩ : ∃ firstSeen,
      ((m.entry held).getD (.new c.at)).store (m.seq c.index) (m.packets c.index) =
        m.holding (held ++ [c.piece]) firstSeen ∧
      m.entry (held ++ [c.piece]) = some (m.holding (held ++ [c.piece]) firstSeen) := by
    cases held with
    | nil =>
      refine ⟨c.at, ?_, rfl⟩
      rw [← store_holding, holding_nil]
      rfl
    | cons y held => exact ⟨y.2, store_holding (y :: held) y.2 c.piece, rfl⟩
  unfold Partial.feed
  dsimp only [Copy.pushed]
  rw [c.copies]
  dsimp only
  rw [if_neg (not_not.2 (m.resp c.index)), dif_pos hseq, hkept, hnumber, hstore,
    takeIfComplete_holding]
  unfold Pieces.take
  split_ifs with hall
  · have huser : (m.holding (held ++ [c.piece]) firstSeen).userBytes =
        (m.packets m.first).userBytes := if_pos (hall _)
    rw [huser]
    rfl
  · rw [hentry]
    rfl

variable (order : List (TxnKey × Partial) → List (TxnKey × Partial))

/-- **Any copies**, in any order and repeated: the reassembler collects them as the pieces they
are. -/
theorem push_copies {key : TxnKey} {s : Transactions} {held : List (Fin m.count × Instant)}
    (hs : s.open.get? key = m.entry held) {cs : List (m.Copy key)}
    (hwithin : Machine.Guarded (Machine.next Pieces.take)
      (fun held x => ∀ y ∈ held.head?, since x.2 y.2 < TXN_TIMEOUT) held (cs.map Copy.piece))
    (hroom : Machine.Guarded (Transactions.next order) (fun s _ => s.openCount < MAX_OPEN) s
      (cs.map Copy.pushed)) :
    (Machine.run (Transactions.next order) s (cs.map Copy.pushed)).open.get? key =
        m.entry (Machine.run (Machine.next Pieces.take) held (cs.map Copy.piece)) ∧
      Machine.outputs (fun s x => Transactions.push order s x.1 x.2) s (cs.map Copy.pushed) =
        (Machine.outputs Pieces.take held (cs.map Copy.piece)).map
          (Option.map (m.transaction key)) := by
  induction cs generalizing s held with
  | nil => exact ⟨hs, rfl⟩
  | cons c cs ih =>
    obtain ⟨hfresh, hwithin⟩ := hwithin
    obtain ⟨hopen, hroom⟩ := hroom
    obtain ⟨hout, hnext⟩ := Transactions.push_own order hopen (x := c.pushed) c.copies
    rw [hs, feed_copy c hfresh] at hout hnext
    obtain ⟨hget, houts⟩ := ih hnext hwithin hroom
    refine ⟨hget, ?_⟩
    rw [List.map_cons, List.map_cons, Machine.outputs_cons, Machine.outputs_cons, List.map_cons,
      hout]
    exact congrArg _ houts

/-- From a state that has two places left, copies of one message never reach the cap. -/
theorem room_of_openCount {key : TxnKey} {s : Transactions} (h : s.openCount + 1 < MAX_OPEN)
    (cs : List (m.Copy key)) :
    Machine.Guarded (Transactions.next order) (fun s _ => s.openCount < MAX_OPEN) s
      (cs.map Copy.pushed) := by
  have hspare : Transactions.Spare key s := .of_openCount h
  refine hspare.guarded order fun x hx => ?_
  obtain ⟨c, -, rfl⟩ := List.mem_map.1 hx
  unfold Transactions.IsOf
  rw [show c.pushed.2.atp = some (key, m.packets c.index) from c.copies]
  exact decide_eq_true rfl

/-- **Reassembly is independent of order and duplication.** Copies of the packets of a response of
which the last is the first to complete the set are answered once, by the last of them, with the
payloads in sequence order and the user bytes of packet 0, and nothing of the transaction is
left. -/
theorem reassembled (m : Response) {key : TxnKey} (cs : List (m.Copy key)) (c : m.Copy key)
    {s : Transactions} (hnew : s.open.get? key = none)
    (hall : ∀ i, ∃ x ∈ cs ++ [c], x.index = i) (hfirst : ¬∀ i, ∃ x ∈ cs, x.index = i)
    (hwithin : ∀ x ∈ cs ++ [c], ∀ y ∈ (cs ++ [c]).head?, since x.at y.at < TXN_TIMEOUT)
    (hroom : Machine.Guarded (Transactions.next order) (fun s _ => s.openCount < MAX_OPEN) s
      ((cs ++ [c]).map Copy.pushed)) :
    Machine.outputs (fun s x => Transactions.push order s x.1 x.2) s
        ((cs ++ [c]).map Copy.pushed) =
      List.replicate cs.length none ++ [some (m.transaction key c.at)] ∧
    (Machine.run (Transactions.next order) s ((cs ++ [c]).map Copy.pushed)).open.get? key =
      none := by
  have hmap : ∀ (cs : List (m.Copy key)) i,
      i ∈ (cs.map Copy.piece).map Prod.fst ↔ ∃ x ∈ cs, x.index = i := by
    intro cs i
    simp [Copy.piece]
  have hpieces : (cs ++ [c]).map Copy.piece = cs.map Copy.piece ++ [c.piece] := by simp
  have hfirst' : ¬∀ i, i ∈ (cs.map Copy.piece).map Prod.fst := by simpa only [hmap] using hfirst
  have hguard : Machine.Guarded (Machine.next Pieces.take)
      (fun held x => ∀ y ∈ held.head?, since x.2 y.2 < TXN_TIMEOUT) []
      ((cs ++ [c]).map Copy.piece) := by
    rw [hpieces]
    refine Pieces.guarded_first (fun before x behind h y hy => ?_) hfirst'
    rw [← hpieces] at h
    obtain ⟨x', hx', rfl⟩ : ∃ x' ∈ cs ++ [c], x'.piece = x := by
      rw [← List.mem_map, h]
      exact List.mem_append_right _ List.mem_cons_self
    have hhead : ((cs ++ [c]).map Copy.piece).head? = some y := by
      rw [h, List.head?_append, show before.head? = some y from hy]
      rfl
    obtain ⟨y', hy', rfl⟩ := Option.map_eq_some_iff.1 (List.head?_map.symm.trans hhead)
    exact hwithin x' hx' y' hy'
  have hall' : ∀ i, i ∈ (cs.map Copy.piece ++ [c.piece]).map Prod.fst := by
    rw [← hpieces]
    simpa only [hmap] using hall
  have hentry : s.open.get? key = m.entry [] := hnew
  obtain ⟨hget, hout⟩ := push_copies order hentry hguard hroom
  obtain ⟨hrun, houts⟩ := Pieces.take_all hall' hfirst'
  rw [hpieces, hrun] at hget
  rw [hpieces, houts] at hout
  refine ⟨hout.trans ?_, hget⟩
  simp [Copy.piece]

/-- A response of two packets. -/
def twoPackets : Response where
  count := 2
  packets i := .response 1 (UInt8.ofNat i.val) (i.val = 1) false ⟨1, 2, 3, 4⟩ [UInt8.ofNat i.val]
  pos := by decide
  few := by decide
  resp := by decide
  numbered := by decide
  ends := by decide

/-- A copy of one of its packets. -/
def twoCopy (i : Fin 2) («at» : Instant) : twoPackets.Copy ⟨⟨1, 2⟩, 9, ⟨1, 1⟩, 8, 1⟩ where
  index := i
  «at» := «at»
  packet :=
    { frame := { dst := ⟨0, 0, 0, 0, 0, 1⟩, src := ⟨0, 0, 0, 0, 0, 2⟩, proto := DDP, snap := true
                 payload := [] }
      body := .ddp
        { hops := 0, length := 0, checksum := 0, dst := ⟨1, 1⟩, dstSocket := 8, src := ⟨1, 2⟩
          srcSocket := 9, typ := DDP_ATP, data := [] }
        (.atp (twoPackets.packets i)) }
  copies := by revert i; decide

/-- Packet 1 comes twice, then packet 0. -/
theorem reassembled_two :
    let s := Transactions.new
    let xs := ([twoCopy 1 5, twoCopy 1 6] ++ [twoCopy 0 7]).map Copy.pushed
    Machine.outputs (fun s x => Transactions.push id s x.1 x.2) s xs =
      List.replicate 2 none ++ [some (twoPackets.transaction ⟨⟨1, 2⟩, 9, ⟨1, 1⟩, 8, 1⟩ 7)] ∧
    (Machine.run (Transactions.next id) s xs).open.get? ⟨⟨1, 2⟩, 9, ⟨1, 1⟩, 8, 1⟩ = none :=
  reassembled id twoPackets [twoCopy 1 5, twoCopy 1 6] (twoCopy 0 7) rfl (by decide) (by decide)
    (by decide) (room_of_openCount id (by decide) _)

end Response

end AppleTalk
