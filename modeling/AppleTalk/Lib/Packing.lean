import Mathlib.Algebra.GroupWithZero.Nat
import Mathlib.Algebra.Order.BigOperators.Group.List
import Mathlib.Data.List.Induction

/-!
# Packing

A packer takes items one at a time into an open piece and closes it when the next item would take
it over its limit. What it has closed and what is open are together the items it took, in order,
and as long as every item fits on its own, every piece fits.
-/

namespace Packing

variable {α β : Type*}

/-- What holds of a state and the items it has yet to take, and every taking keeps, holds of the
last state. -/
theorem foldl_consumes {I : β → List α → Prop} {f : β → α → β}
    (h : ∀ b a as, I b (a :: as) → I (f b a) as) {b : β} {as : List α} (hb : I b as) :
    I (as.foldl f b) [] := by
  induction as generalizing b with
  | nil => exact hb
  | cons a as ih => exact ih (h b a as hb)

/-- Take one item: the pieces closed so far, the open one and the room it takes. A piece starts
out with `head` of its room taken. -/
def take (limit head : ℕ) (size : α → ℕ) (close : List α → β) (r : List β × List α × ℕ) (a : α) :
    List β × List α × ℕ :=
  if limit < r.2.2 + size a ∧ r.2.1 ≠ [] then (r.1 ++ [close r.2.1], [a], head + size a)
  else (r.1, r.2.1 ++ [a], r.2.2 + size a)

/-- The pieces hold the items, in order, and each fits the limit. -/
structure Packed (limit head : ℕ) (size : α → ℕ) (xs : List α) (ps : List (List α))
    (p : List α) : Prop where
  all : ps.flatten ++ p = xs
  closed : ∀ q ∈ ps, q ≠ [] ∧ head + (q.map size).sum ≤ limit
  fits : head + (p.map size).sum ≤ limit
  opened : xs ≠ [] → p ≠ []

variable {limit head : ℕ} {size : α → ℕ}

/-- **What a packer makes of its items.** -/
theorem foldl_take (size : α → ℕ) (close : List α → β) (hhead : head ≤ limit) {xs : List α}
    (hfit : ∀ a ∈ xs, head + size a ≤ limit) :
    ∃ ps p, xs.foldl (take limit head size close) ([], [], head) =
        (ps.map close, p, head + (p.map size).sum) ∧ Packed limit head size xs ps p := by
  induction xs using List.reverseRecOn with
  | nil => exact ⟨[], [], rfl, rfl, by simp, by simpa using hhead, by simp⟩
  | append_singleton xs a ih =>
    obtain ⟨ps, p, hfold, hp⟩ := ih fun b hb => hfit b (by simp [hb])
    have ha := hfit a (by simp)
    rw [List.foldl_append, List.foldl_cons, List.foldl_nil, hfold, take]
    dsimp only
    split_ifs with hclose
    · refine ⟨ps ++ [p], [a], by simp, by simp [← hp.all], ?_, by simpa using ha, by simp⟩
      intro q hq
      rcases List.mem_append.1 hq with hq | hq
      · exact hp.closed q hq
      · rw [List.mem_singleton.1 hq]
        exact ⟨hclose.2, hp.fits⟩
    · refine ⟨ps, p ++ [a], ?_, ?_, hp.closed, ?_, by simp⟩
      · simp [Nat.add_assoc]
      · rw [← List.append_assoc, hp.all]
      · simp only [List.map_append, List.map_cons, List.map_nil, List.sum_append,
          List.sum_singleton]
        by_cases hnil : p = []
        · simpa [hnil] using ha
        · have : ¬limit < head + (p.map size).sum + size a := fun h => hclose ⟨h, hnil⟩
          omega

/-- Take one item without a look at whether the open piece is empty. -/
def takeAny (limit head : ℕ) (size : α → ℕ) (close : List α → β) (r : List β × List α × ℕ)
    (a : α) : List β × List α × ℕ :=
  if limit < r.2.2 + size a then (r.1 ++ [close r.2.1], [a], head + size a)
  else (r.1, r.2.1 ++ [a], r.2.2 + size a)

/-- Where every item fits, an empty piece has room for it. -/
theorem foldl_takeAny (size : α → ℕ) (close : List α → β) (hhead : head ≤ limit) {xs : List α}
    (hfit : ∀ a ∈ xs, head + size a ≤ limit) :
    xs.foldl (takeAny limit head size close) ([], [], head) =
      xs.foldl (take limit head size close) ([], [], head) := by
  induction xs using List.reverseRecOn with
  | nil => rfl
  | append_singleton xs a ih =>
    have hxs : ∀ b ∈ xs, head + size b ≤ limit := fun b hb => hfit b (by simp [hb])
    obtain ⟨ps, p, hfold, -⟩ := foldl_take size close hhead hxs
    rw [List.foldl_append, List.foldl_append, ih hxs, hfold, List.foldl_cons, List.foldl_nil,
      List.foldl_cons, List.foldl_nil, take, takeAny]
    have hroom : limit < head + (p.map size).sum + size a → p ≠ [] := by
      rintro hlt rfl
      have := hfit a (by simp)
      simp at hlt
      omega
    simp only [and_iff_left_of_imp hroom]

/-- Every piece, the open one included when it has an item. -/
def pieces (ps : List (List α)) (p : List α) : List (List α) := if p = [] then ps else ps ++ [p]

theorem Packed.flatten_pieces {xs : List α} {ps : List (List α)} {p : List α}
    (h : Packed limit head size xs ps p) : (pieces ps p).flatten = xs := by
  unfold pieces
  split_ifs with hp
  · simpa [hp] using h.all
  · simpa using h.all

theorem Packed.mem_pieces {xs : List α} {ps : List (List α)} {p : List α}
    (h : Packed limit head size xs ps p) :
    ∀ q ∈ pieces ps p, q ≠ [] ∧ head + (q.map size).sum ≤ limit := by
  unfold pieces
  intro q hq
  split_ifs at hq with hp
  · exact h.closed q hq
  · rcases List.mem_append.1 hq with hq | hq
    · exact h.closed q hq
    · rw [List.mem_singleton.1 hq]
      exact ⟨hp, h.fits⟩

/-! ### Closing the last piece -/

/-- Close the open piece too when it has an item. -/
def finish (close : List α → β) (r : List β × List α × ℕ) : List β :=
  if r.2.1 = [] then r.1 else r.1 ++ [close r.2.1]

/-- **What goes out is the items, in order, in pieces that fit.** -/
theorem finish_foldl_take (size : α → ℕ) (close : List α → β) (hhead : head ≤ limit) {xs : List α}
    (hfit : ∀ a ∈ xs, head + size a ≤ limit) :
    ∃ ps : List (List α),
      finish close (xs.foldl (take limit head size close) ([], [], head)) = ps.map close ∧
      ps.flatten = xs ∧ ∀ q ∈ ps, q ≠ [] ∧ head + (q.map size).sum ≤ limit := by
  obtain ⟨ps, p, hfold, hp⟩ := foldl_take size close hhead hfit
  refine ⟨pieces ps p, ?_, hp.flatten_pieces, hp.mem_pieces⟩
  rw [hfold]
  unfold finish pieces
  dsimp only
  split_ifs <;> simp

/-- Whatever the items, all that goes out was closed. -/
theorem forall_mem_finish {size : α → ℕ} {close : List α → β} {P : β → Prop}
    (h : ∀ p, P (close p)) (xs : List α) :
    ∀ b ∈ finish close (xs.foldl (take limit head size close) ([], [], head)), P b := by
  generalize hr : xs.foldl (take limit head size close) ([], [], head) = r
  have hclosed : ∀ b ∈ r.1, P b := by
    rw [← hr]
    refine List.foldlRecOn (motive := fun r : List β × List α × ℕ => ∀ b ∈ r.1, P b) xs _ (by simp)
      fun r hr a _ => ?_
    unfold take
    split_ifs
    · exact List.forall_mem_append.2 ⟨hr, List.forall_mem_singleton.2 (h _)⟩
    · exact hr
  unfold finish
  split_ifs
  · exact hclosed
  · exact List.forall_mem_append.2 ⟨hclosed, List.forall_mem_singleton.2 (h _)⟩

/-! ### Chunks of one length -/

theorem length_of_mem_go {n : ℕ} {xs : List α} {acc : Array α} {closed : Array (List α)}
    (hopen : acc.size ≤ n) (hclosed : ∀ p ∈ closed, p.length ≤ n) (hn : 0 < n) :
    ∀ p ∈ List.toChunks.go n xs acc closed, p.length ≤ n := by
  induction xs generalizing acc closed with
  | nil =>
    intro p hp
    simp only [List.toChunks.go, Array.toList_push, List.mem_append, Array.mem_toList_iff,
      List.mem_singleton] at hp
    rcases hp with hp | rfl
    · exact hclosed p hp
    · simpa using hopen
  | cons x xs ih =>
    unfold List.toChunks.go
    split_ifs with h
    · refine ih (by simp; omega) fun p hp => ?_
      rcases Array.mem_push.1 hp with hp | rfl
      · exact hclosed p hp
      · simpa using hopen
    · refine ih ?_ hclosed
      have : acc.size ≠ n := by simpa using h
      simp only [Array.size_push]
      omega

/-- A chunk is no longer than asked. -/
theorem length_of_mem_toChunks {n : ℕ} (hn : 0 < n) {xs p : List α} (h : p ∈ xs.toChunks n) :
    p.length ≤ n := by
  cases n with
  | zero => cases hn
  | succ n =>
    cases xs with
    | nil => cases h
    | cons x xs => exact length_of_mem_go (by simp) (by simp) hn p h
end Packing
