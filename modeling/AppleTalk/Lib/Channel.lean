import AppleTalk.Lib.Run
import Mathlib.Algebra.GroupWithZero.Nat
import Mathlib.Logic.Function.Basic

/-!
# Writers of a bounded queue

Several writers post to one bounded queue that one reader empties. A writer that may wait posts when
there is room. One that may not wait discards what does not fit, counts it, and puts a notice with
the count in front of the next thing it posts, as soon as there is room to say so. The notice and
the post are two attempts, and anything may happen between them.
-/

namespace Channel

/-- Where a writer is with what it has to post. -/
inductive Stage (ε : Type*)
  | idle
  | reporting (e : ε)
  | sending (e : ε)
  | stopped

/-- What a writer holds in its hand. -/
def Stage.hand {ε : Type*} : Stage ε → List ε
  | reporting e | sending e => [e]
  | idle | stopped => []

structure Writer (ε : Type*) where
  stage : Stage ε
  /-- How much was discarded since the last notice. -/
  dropped : ℕ
  /-- What it tried to post so far, and what of it went in. -/
  fates : List (ε × Bool)

structure State (ι ε : Type*) where
  queue : List (ι × ε)
  /-- What the reader has had. -/
  taken : List (ι × ε)
  /-- The reader has hung up. -/
  gone : Bool
  writers : ι → Writer ε

inductive Act (ι ε : Type*)
  | offer (i : ι) (e : ε)
  | report (i : ι)
  | post (i : ι)
  | take
  | hangUp

def init (ι ε : Type*) : State ι ε :=
  { queue := [], taken := [], gone := false
    writers := fun _ => { stage := .idle, dropped := 0, fates := [] } }

variable {ι ε : Type*}

/-! ### What the queue tells of a writer -/

/-- What the items of a writer on the queue say of what it tried to post: what went in stands there
in order, and every notice counts what was discarded since the one before. So much is still untold.
A strict queue lets nothing in while something is. -/
inductive Tells (notice : ℕ → ε) (strict : Prop) : List (ε × Bool) → List ε → ℕ → Prop
  | nil : Tells notice strict [] [] 0
  | kept {fates items untold} (e : ε) (h : Tells notice strict fates items untold)
      (hstrict : strict → untold = 0) :
      Tells notice strict (fates ++ [(e, true)]) (items ++ [e]) untold
  | lost {fates items untold} (e : ε) (h : Tells notice strict fates items untold) :
      Tells notice strict (fates ++ [(e, false)]) items (untold + 1)
  | told {fates items untold} (h : Tells notice strict fates items (untold + 1)) :
      Tells notice strict fates (items ++ [notice (untold + 1)]) 0

namespace Tells

variable {notice : ℕ → ε} {strict : Prop} {fates : List (ε × Bool)} {items : List ε} {untold : ℕ}

/-- **The notices add up**: they count, with what is still untold, what was discarded. -/
theorem count (h : Tells notice strict fates items untold) {lost : ε → ℕ}
    (hnotice : ∀ n, lost (notice n) = n) (hevent : ∀ f ∈ fates, lost f.1 = 0) :
    (items.map lost).sum + untold = (fates.filter fun f => !f.2).length := by
  induction h with
  | nil => rfl
  | kept e _ _ ih =>
    obtain ⟨hfates, he⟩ := List.forall_mem_append.1 hevent
    have he : lost e = 0 := he (e, true) List.mem_cons_self
    simp [ih hfates, he]
  | lost e _ ih =>
    have hfates := (List.forall_mem_append.1 hevent).1
    simp [← Nat.add_assoc, ih hfates]
  | told _ ih =>
    rw [← ih hevent, List.map_append, List.sum_append]
    simp [hnotice]

/-- Where nothing was discarded, the queue has what was posted and no notice. -/
theorem of_all_kept (h : Tells notice strict fates items untold) (hall : ∀ f ∈ fates, f.2 = true) :
    items = fates.map Prod.fst ∧ untold = 0 := by
  induction h with
  | nil => exact ⟨rfl, rfl⟩
  | kept e _ _ ih =>
    obtain ⟨hitems, hzero⟩ := ih (List.forall_mem_append.1 hall).1
    exact ⟨by rw [hitems, List.map_append, List.map_singleton], hzero⟩
  | lost e _ _ =>
    have hlost : (e, false).2 = true := (List.forall_mem_append.1 hall).2 _ List.mem_cons_self
    cases hlost
  | told _ ih => exact absurd (ih hall).2 (Nat.succ_ne_zero _)

end Tells

/-! ### Steps -/

section Next

variable [DecidableEq ι] (capacity : ℕ) (waits : ι → Bool) (notice : ℕ → ε)

namespace State

/-- There is room for one more. -/
def room (s : State ι ε) : Bool := !s.gone ∧ s.queue.length < capacity

/-- Put what a writer posts on the queue. -/
def push (s : State ι ε) (i : ι) (e : ε) : State ι ε := { s with queue := s.queue ++ [(i, e)] }

def setWriter (s : State ι ε) (i : ι) (w : Writer ε) : State ι ε :=
  { s with writers := Function.update s.writers i w }

/-- The items of a writer, those the reader has had first. -/
def items (s : State ι ε) (i : ι) : List ε :=
  ((s.taken ++ s.queue).filter fun x => x.1 = i).map Prod.snd

end State

/-- One step of a writer or of the reader; what is not its turn changes nothing. -/
def next (s : State ι ε) : Act ι ε → State ι ε
  | .offer i e =>
    let w := s.writers i
    match w.stage with
    | .idle => s.setWriter i { w with stage := if waits i then .sending e else .reporting e }
    | _ => s
  | .report i =>
    let w := s.writers i
    match w.stage with
    | .reporting e =>
      if 0 < w.dropped ∧ s.room capacity then
        (s.push i (notice w.dropped)).setWriter i { w with stage := .sending e, dropped := 0 }
      else s.setWriter i { w with stage := .sending e }
    | _ => s
  | .post i =>
    let w := s.writers i
    match w.stage with
    | .sending e =>
      if s.gone then s.setWriter i { w with stage := .stopped }
      else if s.queue.length < capacity then
        (s.push i e).setWriter i { w with stage := .idle, fates := w.fates ++ [(e, true)] }
      else if waits i then s
      else s.setWriter i
        { w with stage := .idle, dropped := w.dropped + 1, fates := w.fates ++ [(e, false)] }
    | _ => s
  | .take =>
    match s.queue with
    | x :: queue => if s.gone then s else { s with queue := queue, taken := s.taken ++ [x] }
    | [] => s
  | .hangUp => { s with gone := true }

/-- What a run offers to a writer. -/
def offers (i : ι) (acts : List (Act ι ε)) : List ε :=
  acts.filterMap fun a =>
    match a with
    | .offer j e => if j = i then some e else none
    | _ => none

/-- A writer is offered the next thing when it is done with the last. -/
def Ready (s : State ι ε) : Act ι ε → Prop
  | .offer i _ => (s.writers i).stage = .idle
  | _ => True

/-- The reader leaves the queue alone while a writer is between its notice and its post. -/
def Undisturbed (s : State ι ε) : Act ι ε → Prop
  | .take => ∀ i e, (s.writers i).stage = .sending e → waits i = true
  | _ => True

/-! ### What a step does to one writer -/

variable {capacity waits notice} {s : State ι ε} {i j : ι}

@[simp] theorem items_push_self (s : State ι ε) (i : ι) (e : ε) :
    (s.push i e).items i = s.items i ++ [e] := by
  simp [State.items, State.push, ← List.append_assoc]

theorem items_push_of_ne (hne : j ≠ i) (s : State ι ε) (e : ε) :
    (s.push j e).items i = s.items i := by
  simp [State.items, State.push, hne]

@[simp] theorem items_setWriter (s : State ι ε) (j i : ι) (w : Writer ε) :
    (s.setWriter j w).items i = s.items i := rfl

omit [DecidableEq ι] in
@[simp] theorem writers_push (s : State ι ε) (j : ι) (e : ε) :
    (s.push j e).writers = s.writers := rfl

@[simp] theorem setWriter_self (s : State ι ε) (i : ι) (w : Writer ε) :
    (s.setWriter i w).writers i = w := by
  simp [State.setWriter]

theorem setWriter_of_ne (hne : j ≠ i) (s : State ι ε) (w : Writer ε) :
    (s.setWriter j w).writers i = s.writers i := by
  simp [State.setWriter, Function.update_of_ne (Ne.symm hne)]

/-- The turns of one writer: what it does to itself and to its items, and what it is offered. -/
inductive Turn (waits : Bool) (notice : ℕ → ε) (full : Prop) (w : Writer ε) (items : List ε) :
    Writer ε → List ε → List ε → Prop
  | rest : Turn waits notice full w items w items []
  | take (e : ε) (h : w.stage = .idle) :
      Turn waits notice full w items
        { w with stage := if waits then .sending e else .reporting e } items [e]
  | tell (e : ε) (h : w.stage = .reporting e) (hpos : 0 < w.dropped) :
      Turn waits notice full w items { w with stage := .sending e, dropped := 0 }
        (items ++ [notice w.dropped]) []
  | pass (e : ε) (h : w.stage = .reporting e) (hfull : 0 < w.dropped → full) :
      Turn waits notice full w items { w with stage := .sending e } items []
  | keep (e : ε) (h : w.stage = .sending e) (hroom : ¬full) :
      Turn waits notice full w items
        { w with stage := .idle, fates := w.fates ++ [(e, true)] } (items ++ [e]) []
  | lose (e : ε) (h : w.stage = .sending e) (hwaits : waits = false) :
      Turn waits notice full w items
        { w with stage := .idle, dropped := w.dropped + 1, fates := w.fates ++ [(e, false)] }
        items []
  | stop (e : ε) (h : w.stage = .sending e) :
      Turn waits notice full w items { w with stage := .stopped } items []

theorem Turn.of_eq {b : Bool} {full : Prop} {w w' : Writer ε} {items items' news : List ε}
    (hw : w' = w) (hi : items' = items) (hn : news = []) :
    Turn b notice full w items w' items' news := by
  subst hw hi hn
  exact .rest

/-- **Every step** is a turn of every writer. -/
theorem next_turn {a : Act ι ε} (hready : Ready s a) (i : ι) :
    Turn (waits i) notice (s.room capacity = false) (s.writers i) (s.items i)
      ((next capacity waits notice s a).writers i) ((next capacity waits notice s a).items i)
      (offers i [a]) := by
  cases a with
  | offer j e =>
    have hidle : (s.writers j).stage = .idle := hready
    unfold next
    dsimp only
    rw [hidle]
    by_cases hji : j = i
    · subst hji
      rw [setWriter_self, items_setWriter, show offers j [Act.offer j e] = [e] by simp [offers]]
      exact .take e hidle
    · exact .of_eq (setWriter_of_ne hji _ _) rfl (by simp [offers, hji])
  | report j =>
    by_cases hji : j = i
    · subst hji
      unfold next
      dsimp only
      split
      · rename_i e hstage
        split_ifs with h
        · rw [setWriter_self, items_setWriter, items_push_self]
          exact .tell e hstage h.1
        · rw [setWriter_self, items_setWriter]
          exact .pass e hstage fun hpos => by simpa [hpos] using h
      · exact .rest
    · unfold next
      dsimp only
      split
      · split_ifs
        · exact .of_eq (setWriter_of_ne hji _ _) (items_push_of_ne hji s _) rfl
        · exact .of_eq (setWriter_of_ne hji _ _) rfl rfl
      · exact .rest
  | post j =>
    by_cases hji : j = i
    · subst hji
      unfold next
      dsimp only
      split
      · rename_i e hstage
        split_ifs with hgone hroom hwaits
        · rw [setWriter_self, items_setWriter]
          exact .stop e hstage
        · rw [setWriter_self, items_setWriter, items_push_self]
          exact .keep e hstage (by simp [State.room, hgone, hroom])
        · exact .rest
        · rw [setWriter_self, items_setWriter]
          exact .lose e hstage (by simpa using hwaits)
      · exact .rest
    · unfold next
      dsimp only
      split
      · split_ifs
        · exact .of_eq (setWriter_of_ne hji _ _) rfl rfl
        · exact .of_eq (setWriter_of_ne hji _ _) (items_push_of_ne hji s _) rfl
        · exact .rest
        · exact .of_eq (setWriter_of_ne hji _ _) rfl rfl
      · exact .rest
  | take =>
    unfold next
    dsimp only
    split
    · rename_i x queue hqueue
      split_ifs
      · exact .rest
      · exact .of_eq rfl (by simp [State.items, hqueue]) rfl
    · exact .rest
  | hangUp => exact .rest

/-- Room only comes of the reader's taking. -/
theorem room_next (hfull : s.room capacity = false) {a : Act ι ε} (ha : a ≠ .take) :
    (next capacity waits notice s a).room capacity = false := by
  have hpush : ∀ i e, (s.push i e).room capacity = false := by
    intro i e
    simp only [State.room, State.push, List.length_append, List.length_singleton,
      decide_eq_false_iff_not] at hfull ⊢
    exact fun h => hfull ⟨h.1, Nat.lt_of_succ_lt h.2⟩
  have hset : ∀ (s : State ι ε) i w, (s.setWriter i w).room capacity = s.room capacity :=
    fun _ _ _ => rfl
  cases a with
  | take => exact absurd rfl ha
  | hangUp => simp [next, State.room]
  | offer i e | report i | post i =>
    unfold next
    dsimp only
    split
    · try split_ifs
      all_goals simp [hset, hfull, hpush]
    · exact hfull

/-- The queue never holds more than it can. -/
theorem length_queue_le (acts : List (Act ι ε)) :
    (Machine.run (next capacity waits notice) (init ι ε) acts).queue.length ≤ capacity := by
  refine Machine.run_invariant (I := fun s : State ι ε => s.queue.length ≤ capacity)
    (fun s a hs => ?_) (Nat.zero_le _) acts
  cases a with
  | offer i e =>
    unfold next
    dsimp only
    split <;> exact hs
  | report i =>
    unfold next
    dsimp only
    split
    · split_ifs with h
      · have hroom : !s.gone ∧ s.queue.length < capacity := by simpa [State.room] using h.2
        simpa [State.push, State.setWriter] using Nat.succ_le_of_lt hroom.2
      · exact hs
    · exact hs
  | post i =>
    unfold next
    dsimp only
    split
    · split_ifs with hgone hroom
      · exact hs
      · simpa [State.push, State.setWriter] using Nat.succ_le_of_lt hroom
      · exact hs
      · exact hs
    · exact hs
  | take =>
    unfold next
    dsimp only
    split
    · rename_i x queue hqueue
      split_ifs
      · exact hs
      · rw [hqueue, List.length_cons] at hs
        exact Nat.le_of_succ_le hs
    · exact hs
  | hangUp => exact hs

theorem writers_take (s : State ι ε) :
    (next capacity waits notice s .take).writers = s.writers := by
  unfold next
  dsimp only
  split
  · split_ifs <;> rfl
  · rfl

/-! ### Whole runs -/

/-- What was offered to a writer so far went in, or is counted, in order. -/
structure Accounted (waits : Bool) (notice : ℕ → ε) (strict full : Prop) (w : Writer ε)
    (items offered : List ε) : Prop where
  tells : Tells notice strict w.fates items w.dropped
  tried : w.fates.map Prod.fst <+: offered
  offered : w.stage ≠ .stopped → offered = w.fates.map Prod.fst ++ w.stage.hand
  patient : waits = true → w.dropped = 0 ∧ (∀ f ∈ w.fates, f.2 = true) ∧ ∀ e, w.stage ≠ .reporting e
  /-- Between its two attempts a writer with something to report has found the queue full. -/
  held : strict → waits = false → ∀ e, w.stage = .sending e → 0 < w.dropped → full

/-- **One turn** keeps the account. -/
theorem Accounted.turn {b : Bool} {strict full full' : Prop} {w w' : Writer ε}
    {items items' offered news : List ε} (h : Accounted b notice strict full w items offered)
    (ht : Turn b notice full w items w' items' news)
    (hfull : strict → b = false → ∀ e, w'.stage = .sending e → full → full') :
    Accounted b notice strict full' w' items' (offered ++ news) := by
  cases ht with
  | rest =>
    exact ⟨h.tells, by simpa using h.tried, by simpa using h.offered, h.patient,
      fun hs hb e he hpos => hfull hs hb e he (h.held hs hb e he hpos)⟩
  | take e hidle =>
    refine ⟨h.tells, h.tried.trans (List.prefix_append _ _), fun _ => ?_,
      fun hb => ⟨(h.patient hb).1, (h.patient hb).2.1, ?_⟩, ?_⟩
    · rw [h.offered (by simp [hidle]), hidle]
      cases b <;> simp [Stage.hand]
    · simp [hb]
    · rintro - rfl e he
      cases he
  | tell e hstage hpos =>
    refine ⟨?_, by simpa using h.tried, fun _ => ?_,
      fun hb => absurd hstage ((h.patient hb).2.2 e), ?_⟩
    · obtain ⟨n, hn⟩ := Nat.exists_eq_succ_of_ne_zero (Nat.pos_iff_ne_zero.1 hpos)
      have htells := h.tells
      rw [hn] at htells ⊢
      exact .told htells
    · simpa [hstage, Stage.hand] using h.offered (by simp [hstage])
    · rintro - - e' - hlt
      exact absurd hlt (Nat.lt_irrefl 0)
  | pass e hstage hpass =>
    refine ⟨h.tells, by simpa using h.tried, fun _ => ?_,
      fun hb => absurd hstage ((h.patient hb).2.2 e), ?_⟩
    · simpa [hstage, Stage.hand] using h.offered (by simp [hstage])
    · intro hs hb e' he' hpos
      exact hfull hs hb e' he' (hpass hpos)
  | keep e hstage hroom =>
    have hoffered : offered ++ [] = (w.fates ++ [(e, true)]).map Prod.fst := by
      simpa [hstage, Stage.hand] using h.offered (by simp [hstage])
    refine ⟨.kept e h.tells fun hs => ?_, hoffered ▸ List.prefix_rfl, fun _ => ?_, fun hb => ?_,
      fun _ _ _ h => by cases h⟩
    · by_contra hne
      cases b with
      | true => exact hne (h.patient rfl).1
      | false => exact hroom (h.held hs rfl e hstage (Nat.pos_of_ne_zero hne))
    · rw [hoffered, Stage.hand, List.append_nil]
    · obtain ⟨hzero, hall, -⟩ := h.patient hb
      exact ⟨hzero, List.forall_mem_append.2 ⟨hall, by simp⟩, by simp⟩
  | lose e hstage hb =>
    have hoffered : offered ++ [] = (w.fates ++ [(e, false)]).map Prod.fst := by
      simpa [hstage, Stage.hand] using h.offered (by simp [hstage])
    refine ⟨.lost e h.tells, hoffered ▸ List.prefix_rfl, fun _ => ?_, fun hb' => ?_,
      fun _ _ _ h => by cases h⟩
    · rw [hoffered, Stage.hand, List.append_nil]
    · rw [hb] at hb'
      cases hb'
  | stop e hstage =>
    refine ⟨h.tells, by simpa using h.tried, fun hne => absurd rfl hne, fun hb => ?_,
      fun _ _ _ h => by cases h⟩
    obtain ⟨hzero, hall, -⟩ := h.patient hb
    exact ⟨hzero, hall, by simp⟩

/-- **Every run** accounts for what every writer was offered; strictly, where the reader leaves
the queue alone between a notice and its post. -/
theorem accounted {strict : Prop} {acts : List (Act ι ε)}
    (hready : Machine.Guarded (next capacity waits notice) Ready (init ι ε) acts)
    (hstrict : strict →
      Machine.Guarded (next capacity waits notice) (Undisturbed waits) (init ι ε) acts) (i : ι) :
    Accounted (waits i) notice strict
      ((Machine.run (next capacity waits notice) (init ι ε) acts).room capacity = false)
      ((Machine.run (next capacity waits notice) (init ι ε) acts).writers i)
      ((Machine.run (next capacity waits notice) (init ι ε) acts).items i) (offers i acts) := by
  suffices hrun : ∀ (s : State ι ε) offered,
      Accounted (waits i) notice strict (s.room capacity = false) (s.writers i) (s.items i)
        offered →
      Machine.Guarded (next capacity waits notice) Ready s acts →
      (strict → Machine.Guarded (next capacity waits notice) (Undisturbed waits) s acts) →
      Accounted (waits i) notice strict
        ((Machine.run (next capacity waits notice) s acts).room capacity = false)
        ((Machine.run (next capacity waits notice) s acts).writers i)
        ((Machine.run (next capacity waits notice) s acts).items i) (offered ++ offers i acts) by
    refine hrun _ [] ⟨.nil, List.nil_prefix, fun _ => rfl,
      fun _ => ⟨rfl, by simp [init], fun e h => ?_⟩, fun _ _ _ h => ?_⟩ hready hstrict
    · cases h
    · cases h
  clear hready hstrict
  intro s offered
  induction acts generalizing s offered with
  | nil => intro h _ _; simpa [offers] using h
  | cons a acts ih =>
    intro h hready hstrict
    rw [show offers i (a :: acts) = offers i [a] ++ offers i acts by
      rw [offers, offers, offers, ← List.filterMap_append, List.singleton_append],
      ← List.append_assoc]
    refine ih _ _ (h.turn (next_turn hready.1 i) ?_) hready.2 fun hs => (hstrict hs).2
    intro hs hb e he hfull
    by_cases ha : a = .take
    · subst ha
      rw [writers_take] at he
      exact absurd ((hstrict hs).1 i e he) (by simp [hb])
    · exact room_next hfull ha

end Next

end Channel
