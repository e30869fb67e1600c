import AppleTalk.Lib.Gather
import AppleTalk.Node.Startup

/-!
# What a lookup finds

A lookup is sent three times, and everybody answers each of them. Whatever is on the cable besides,
what is listed is one answer of each entity that was heard to answer, in order.
-/

namespace AppleTalk

open Capture (Event)

/-! ### One answer of each entity -/

theorem NbpTuple.same_refl (a : NbpTuple) : a.same a = true := by simp [same]

theorem NbpTuple.same_comm (a b : NbpTuple) : a.same b = b.same a := by
  simp only [same, eq_comm]

theorem NbpTuple.same_trans (a b c : NbpTuple) (hab : a.same b = true) (hbc : b.same c = true) :
    a.same c = true := by
  simp only [same, decide_eq_true_eq] at *
  exact hab.trans hbc

theorem merge_eq (into tuples : List NbpTuple) :
    merge into tuples = Gather.addAll NbpTuple.same into tuples := rfl

theorem NbpTuple.le_iff (a b : NbpTuple) :
    a.le b = true ↔ a.object < b.object ∨ a.object = b.object ∧ ¬b.typ < a.typ := by
  simp [le]

theorem NbpTuple.le_trans (a b c : NbpTuple) (hab : a.le b = true) (hbc : b.le c = true) :
    a.le c = true := by
  rw [le_iff] at *
  rcases hab with hab | ⟨hab, hab'⟩ <;> rcases hbc with hbc | ⟨hbc, hbc'⟩
  · exact Or.inl (List.lt_trans hab hbc)
  · exact Or.inl (hbc ▸ hab)
  · exact Or.inl (hab ▸ hbc)
  · exact Or.inr ⟨hab.trans hbc, List.not_lt.2
      (List.le_trans (List.not_lt.1 hab') (List.not_lt.1 hbc'))⟩

theorem NbpTuple.le_total (a b : NbpTuple) : (a.le b || b.le a) = true := by
  rw [Bool.or_eq_true, le_iff, le_iff]
  by_cases h : a.object < b.object
  · exact Or.inl (Or.inl h)
  · by_cases h' : b.object < a.object
    · exact Or.inr (Or.inl h')
    · have heq : a.object = b.object := List.le_antisymm (List.not_lt.1 h') (List.not_lt.1 h)
      rcases List.le_total a.typ b.typ with ht | ht
      · exact Or.inl (Or.inr ⟨heq, List.not_lt.2 ht⟩)
      · exact Or.inr (Or.inr ⟨heq.symm, List.not_lt.2 ht⟩)

/-! ### What was heard and said -/

/-- The answers to lookup `id` in what was heard. -/
def Occurrence.replies (id : UInt8) : Occurrence → List NbpTuple
  | .heard (.packet _ _ p) => lookupReplies p id
  | _ => []

def repliesIn (id : UInt8) (seg : List Occurrence) : List NbpTuple :=
  seg.flatMap (Occurrence.replies id)

/-- The datagram the NIC sent. -/
def Occurrence.said : Occurrence → Option Bytes
  | .sent f => if f.proto = DDP then some f.payload else none
  | _ => none

theorem repliesIn_append (id : UInt8) (s t : List Occurrence) :
    repliesIn id (s ++ t) = repliesIn id s ++ repliesIn id t := List.flatMap_append

namespace Runtime

variable (order : List (TxnKey × Partial) → List (TxnKey × Partial)) {n n' : Runtime}

/-- From one state to the other the happenings were these, no datagram was sent, and the answers
to lookup `id` were taken in. -/
structure Took (id : UInt8) (n n' : Runtime) (seg : List Occurrence) : Prop where
  past : n'.past = n.past ++ seg
  said : seg.filterMap Occurrence.said = []
  pending : n'.pending = merge n.pending (repliesIn id seg)
  who : n'.identity = n.identity

namespace Took

variable {id : UInt8} {n'' : Runtime} {seg seg' : List Occurrence}

theorem refl (n : Runtime) : Took id n n [] := ⟨(List.append_nil _).symm, rfl, rfl, rfl⟩

theorem trans (h : Took id n n' seg) (h' : Took id n' n'' seg') :
    Took id n n'' (seg ++ seg') where
  past := by rw [h'.past, h.past, List.append_assoc]
  said := by rw [List.filterMap_append, h.said, h'.said, List.append_nil]
  pending := by
    rw [h'.pending, h.pending, repliesIn_append]
    exact (Gather.addAll_append ..).symm
  who := h'.who.trans h.who

end Took

/-- Answering for the address is no datagram, and nothing is heard meanwhile. -/
theorem answer_took (id : UInt8) (n : Runtime) (p : Packet) :
    ∃ seg, Took id n (n.answer p) seg ∧ repliesIn id seg = [] := by
  unfold answer
  split
  · unfold send
    split_ifs
    · exact ⟨_, ⟨rfl, rfl, rfl, rfl⟩, rfl⟩
    · exact ⟨_, ⟨rfl, rfl, rfl, rfl⟩, rfl⟩
  · exact ⟨[], Took.refl n, rfl⟩

theorem gatherReplies_fst (id : UInt8) (n : Runtime) (p : Packet) :
    (gatherReplies id n p).1 = { n with pending := merge n.pending (lookupReplies p id) } := by
  unfold gatherReplies
  dsimp only
  split_ifs with hnone
  · rw [List.isEmpty_iff.1 hnone]
    rfl
  · rfl

/-- One event of a lookup. -/
theorem attend_took (id : UInt8) (n : Runtime) (e : Event) (rx : List (Option Event)) :
    ∃ seg, Took id n ((n.hear e rx).attend order (gatherReplies id) e).1 seg := by
  cases e with
  | packet «at» port p =>
    obtain ⟨seg, ⟨hpast, hsaid, hpending, hwho⟩, hnone⟩ :=
      answer_took id ((n.hear (.packet «at» port p) rx).learn order «at» p) p
    refine ⟨.heard (.packet «at» port p) :: seg, ?_, ?_, ?_, ?_⟩
    · show (gatherReplies id _ p).1.past = _
      rw [gatherReplies_fst]
      refine hpast.trans ?_
      show (n.past ++ [_]) ++ seg = _
      rw [List.append_assoc, List.singleton_append]
    · exact hsaid
    · show (gatherReplies id _ p).1.pending = _
      rw [gatherReplies_fst]
      show merge ((n.hear _ rx).takeIn order «at» p).pending (lookupReplies p id) =
        merge n.pending (lookupReplies p id ++ repliesIn id seg)
      rw [hnone, List.append_nil,
        show ((n.hear _ rx).takeIn order «at» p).pending = _ from hpending, hnone]
      rfl
    · show (gatherReplies id _ p).1.identity = _
      rw [gatherReplies_fst]
      exact hwho
  | dropped k => exact ⟨_, rfl, rfl, rfl, rfl⟩
  | llap port l => exact ⟨_, rfl, rfl, rfl, rfl⟩
  | aurp «from» bytes => exact ⟨_, rfl, rfl, rfl, rfl⟩
  | error text => exact ⟨_, rfl, rfl, rfl, rfl⟩

/-- A whole wait of a lookup. -/
theorem wait_took (id : UInt8) (interval : ℕ) (n : Runtime) :
    ∃ seg, Took id n (n.wait order interval (gatherReplies id)).1 seg := by
  refine wait_keeps (I := fun m => ∃ seg, Took id n m seg) order interval ?_ ?_ ⟨[], Took.refl n⟩
  · rintro m e rx ⟨seg, h⟩
    obtain ⟨seg', h'⟩ := attend_took order id m e rx
    exact ⟨_, h.trans h'⟩
  · rintro m rx ⟨seg, h⟩
    exact ⟨_, h.trans ⟨rfl, rfl, rfl, rfl⟩⟩

/-- **The answers of one interval** are all taken in. -/
theorem collect_took (id : UInt8) (n : Runtime) : ∃ seg, Took id n (n.collect order id) seg := by
  fun_induction collect order id n with
  | case1 n n' h =>
    have hwait := wait_took order id LOOKUP_INTERVAL n
    rwa [h] at hwait
  | case2 n n' h ih =>
    have hwait := wait_took order id LOOKUP_INTERVAL n
    rw [h] at hwait
    obtain ⟨seg, hseg⟩ := hwait
    obtain ⟨seg', hseg'⟩ := ih
    exact ⟨_, hseg.trans hseg'⟩

/-- A datagram that the NIC took. -/
theorem sendDdp_said (n : Runtime) (dst : Addr) (dstSocket typ : UInt8) (data : Bytes)
    (h : (n.sendDdp dst dstSocket typ data).2 = .ok ()) :
    ∃ x, (n.sendDdp dst dstSocket typ data).1.past = n.past ++ [x] ∧
      x.said = some (AppleTalk.datagram n.addr OUR_SOCKET dst dstSocket typ data).toBytes ∧
      (∀ id, x.replies id = []) ∧
      (n.sendDdp dst dstSocket typ data).1.pending = n.pending ∧
      (n.sendDdp dst dstSocket typ data).1.identity = n.identity := by
  unfold sendDdp sendFrom send at h ⊢
  split_ifs at h ⊢
  exact ⟨_, rfl, rfl, fun _ => rfl, rfl, rfl⟩

/-- **So many requests**: each is followed by its answers, and what is found is what was found
before and one answer of each entity. -/
theorem lookupTries_found (dst : Addr) (body : Bytes) (id : UInt8) (tries : ℕ)
    (into : List NbpTuple) {found : List NbpTuple} (hn : n.pending = [])
    (h : lookupTries order dst body id tries into n = (n', .ok found)) :
    n'.pending = [] ∧ ∃ seg, n'.past = n.past ++ seg ∧
      seg.filterMap Occurrence.said = List.replicate tries
        (AppleTalk.datagram n.addr OUR_SOCKET dst 2 DDP_NBP body).toBytes ∧
        found = (merge into (repliesIn id seg)).mergeSort NbpTuple.le := by
  induction tries generalizing into n with
  | zero =>
    cases h
    exact ⟨hn, [], (List.append_nil _).symm, rfl, rfl⟩
  | succ tries ih =>
    have hsaid := sendDdp_said n dst 2 DDP_NBP body
    unfold lookupTries at h
    split at h
    · cases h
    · rename_i n1 hs
      rw [hs] at hsaid
      obtain ⟨x, hpast, hx, hquiet, hpending, hwho⟩ := hsaid rfl
      obtain ⟨seg, hseg⟩ := collect_took order id n1
      have hbatch : (n1.collect order id).pending = merge [] (repliesIn id seg) := by
        rw [hseg.pending, hpending, hn]
      have haddr : (n1.collect order id).addr = n.addr :=
        congrArg Identity.addr (hseg.who.trans hwho)
      obtain ⟨hpending', seg', hpast', hsaid', hfound⟩ := ih _ rfl h
      refine ⟨hpending', x :: (seg ++ seg'), ?_, ?_, ?_⟩
      · rw [hpast', hseg.past, hpast]
        simp
      · rw [List.filterMap_cons_some hx, List.filterMap_append, hseg.said, List.nil_append, hsaid',
          haddr, List.replicate_succ]
      · have hsplit : repliesIn id (x :: (seg ++ seg')) =
            repliesIn id seg ++ repliesIn id seg' := by
          rw [← List.singleton_append, repliesIn_append, repliesIn_append]
          show x.replies id ++ [] ++ _ = _
          rw [hquiet id, List.append_nil, List.nil_append]
        rw [hfound, hbatch, hsplit, merge_eq, merge_eq, merge_eq, merge_eq,
          Gather.addAll_addAll NbpTuple.same_refl NbpTuple.same_trans, Gather.addAll_nil,
          Gather.addAll_append]

/-- The startup takes in no answers. -/
theorem kept_pending : Kept order fun n => n.pending = [] where
  send n f h := by
    unfold send
    split_ifs <;> exact h
  hear _ _ _ h := h
  learn _ _ _ h := h
  flush _ h := h
  lapse _ _ _ h := h
  seed _ _ h := h
  probing _ _ h := h
  addr _ _ h := h
  told _ _ _ h := h

/-- Where a lookup goes, and the function it asks there. -/
def lookupAt (n : Runtime) : NbpFunc × Addr :=
  match n.router with
  | some r => (.brRq, r)
  | none => (.lkUp, { net := 0, node := 255 })

/-- **A lookup of a node that has come up**: the same request goes out three times, with the
router as its destination or else the whole cable. What is listed is one answer of each entity
that was heard to answer from the first request on, by object and by type. -/
theorem lookup_exact {tx : Tx} {rx : List (Option Event)} {clock : List UInt32} {want : Want}
    {object typ zone : Str} {found : List NbpTuple}
    (hclaim : ((boot tx rx clock).claim order want).1 = n)
    (h : n.lookup order object typ zone = (n', .ok found)) :
    ∃ seg, n'.past = n.past ++ seg ∧
      seg.filterMap Occurrence.said = List.replicate LOOKUP_TRIES
        (AppleTalk.datagram n.addr OUR_SOCKET n.lookupAt.2 2 DDP_NBP (lookupRequest n.lookupAt.1
          (n.nextId + 1).toUInt8 n.addr OUR_SOCKET object typ zone).toBytes).toBytes ∧
      (∀ t ∈ repliesIn (n.nextId + 1).toUInt8 seg, ∃ u ∈ found, u.same t = true) ∧
      (∀ u ∈ found, u ∈ repliesIn (n.nextId + 1).toUInt8 seg) ∧
      (found.Pairwise fun a b => a.same b = false) ∧ found.Pairwise fun a b => a.le b = true := by
  have hpending : n.pending = [] := by
    have hkept := (kept_pending order).claim want (rfl : (boot tx rx clock).pending = [])
    rwa [hclaim] at hkept
  obtain ⟨-, seg, hpast, hsaid, hfound⟩ := lookupTries_found order n.lookupAt.2
    (lookupRequest n.lookupAt.1 (n.nextId + 1).toUInt8 n.addr OUR_SOCKET object typ zone).toBytes
    (n.nextId + 1).toUInt8 LOOKUP_TRIES [] (n := n.takeId.1) hpending h
  refine ⟨seg, hpast, hsaid, ?_⟩
  subst hfound
  rw [merge_eq]
  refine ⟨fun t ht => ?_, fun u hu => ?_, ?_, List.pairwise_mergeSort NbpTuple.le_trans
    NbpTuple.le_total _⟩
  · obtain ⟨u, hu, hsame⟩ := Gather.exists_same NbpTuple.same_refl [] ht
    exact ⟨u, List.mem_mergeSort.2 hu, hsame⟩
  · exact Gather.addAll_subset [] _ (List.mem_mergeSort.1 hu)
  · refine (List.mergeSort_perm _ _).pairwise_iff (fun h => ?_) |>.2
      (Gather.pairwise_addAll List.Pairwise.nil _)
    rwa [NbpTuple.same_comm]

/-- A node on a cable without a router, on which one entity answers twice. -/
theorem lookup_exact_twice :
    let answer : NbpTuple :=
      { addr := { net := 3, node := 7 }, socket := 4, enumerator := 1, object := ['f'], typ := ['s']
        zone := ['*'] }
    let reply : Event := .packet 0 0 ⟨frame MacAddr.zero BROADCAST_MAC DDP [],
      .ddp (AppleTalk.datagram { net := 3, node := 7 } 2 { net := 3, node := 4 } 128 DDP_NBP [])
        (.nbp { func := .lkUpReply, id := 2, tuples := [answer] })⟩
    let n := ((boot ⟨⟨0, 5, 2, 1, 2, 3⟩, []⟩
      (List.replicate 13 none ++ [some reply, none, some reply]) []).claim id
        (.addr { net := 3, node := 4 })).1
    ∃ seg, (n.lookup id ['='] ['='] ['*']).1.past = n.past ++ seg ∧
      (∀ t ∈ repliesIn 2 seg, answer.same t = true) ∧ answer ∈ repliesIn 2 seg := by
  intro answer reply n
  have hfound : (n.lookup id ['='] ['='] ['*']).2 = .ok [answer] := by decide +kernel
  have hid : (n.nextId + 1).toUInt8 = 2 := by decide +kernel
  obtain ⟨seg, hpast, -, hall, hheard, -, -⟩ := lookup_exact id (n := n) rfl
    (Prod.ext rfl hfound)
  rw [hid] at hall hheard
  refine ⟨seg, hpast, fun t ht => ?_, hheard answer (List.mem_singleton_self _)⟩
  obtain ⟨u, hu, hsame⟩ := hall t ht
  rwa [List.mem_singleton.1 hu] at hsame

end Runtime

end AppleTalk
