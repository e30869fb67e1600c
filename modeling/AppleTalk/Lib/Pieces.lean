import AppleTalk.Lib.Run
import Mathlib.Data.Fintype.Basic

/-!
# Collecting pieces

Pieces of a whole come in any order and any number of times. Those that came are kept until every
one of them has; the piece that completes the whole is answered, and the next collection starts
with nothing.
-/

namespace Pieces

variable {ι τ : Type*} [Fintype ι] [DecidableEq ι]

/-- Take in a piece, with a mark of its own. -/
def take (held : List (ι × τ)) (x : ι × τ) : List (ι × τ) × Option τ :=
  if ∀ i, i ∈ (held ++ [x]).map Prod.fst then ([], some x.2) else (held ++ [x], none)

/-- A piece that leaves another one missing is kept. -/
theorem take_kept {held xs : List (ι × τ)} {x : ι × τ} {i : ι}
    (hi : i ∉ (held ++ x :: xs).map Prod.fst) : take held x = (held ++ [x], none) := by
  refine if_neg fun hall => hi ?_
  rw [← List.singleton_append, ← List.append_assoc, List.map_append]
  exact List.mem_append_left _ (hall i)

/-- As long as a piece is missing, what came is kept and nothing is answered. -/
theorem take_missing {held xs : List (ι × τ)} {i : ι} (hi : i ∉ (held ++ xs).map Prod.fst) :
    Machine.run (Machine.next take) held xs = held ++ xs ∧
      Machine.outputs take held xs = List.replicate xs.length none := by
  induction xs generalizing held with
  | nil => exact ⟨(List.append_nil held).symm, rfl⟩
  | cons x xs ih =>
    have hone := take_kept hi
    rw [← List.singleton_append, ← List.append_assoc] at hi
    obtain ⟨hrun, hout⟩ := ih hi
    rw [Machine.run_cons, Machine.outputs_cons, Machine.next, hone, hrun, hout,
      List.append_assoc, List.singleton_append]
    exact ⟨rfl, rfl⟩

/-- **The first moment all pieces have come** is the one at which the whole is answered. -/
theorem take_all {xs : List (ι × τ)} {x : ι × τ} (hall : ∀ i, i ∈ (xs ++ [x]).map Prod.fst)
    (hfirst : ¬∀ i, i ∈ xs.map Prod.fst) :
    Machine.run (Machine.next take) [] (xs ++ [x]) = [] ∧
      Machine.outputs take [] (xs ++ [x]) = List.replicate xs.length none ++ [some x.2] := by
  obtain ⟨i, hi⟩ := not_forall.1 hfirst
  rw [← List.nil_append xs] at hi
  obtain ⟨hrun, hout⟩ := take_missing hi
  have hlast : take xs x = ([], some x.2) := if_pos hall
  rw [Machine.run_append, Machine.outputs_append, hrun, hout, List.nil_append, Machine.run_cons,
    Machine.outputs_cons, Machine.next, hlast]
  exact ⟨rfl, rfl⟩

/-- Up to that moment every piece finds the ones before it held. -/
theorem guarded_first {ok : List (ι × τ) → ι × τ → Prop} {held xs : List (ι × τ)} {x : ι × τ}
    (hok : ∀ before y behind, xs ++ [x] = before ++ y :: behind → ok (held ++ before) y)
    (hfirst : ¬∀ i, i ∈ (held ++ xs).map Prod.fst) :
    Machine.Guarded (Machine.next take) ok held (xs ++ [x]) := by
  induction xs generalizing held with
  | nil => exact ⟨by simpa using hok [] x [] rfl, trivial⟩
  | cons y xs ih =>
    obtain ⟨i, hi⟩ := not_forall.1 hfirst
    refine ⟨by simpa using hok [] y (xs ++ [x]) rfl, ?_⟩
    rw [Machine.next, take_kept hi]
    refine ih (fun before z behind h => ?_) fun hall => hi ?_
    · rw [List.append_assoc, List.singleton_append]
      exact hok (y :: before) z behind (by rw [List.cons_append, h, List.cons_append])
    · rw [← List.singleton_append, ← List.append_assoc]
      exact hall i

end Pieces
