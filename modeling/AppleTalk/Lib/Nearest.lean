import Mathlib.Combinatorics.SimpleGraph.Metric

/-!
# Steps to the nearest of a set of vertices

How far a vertex of a graph is from a set of them: the length of a shortest walk into the set,
infinite where there is none. It is 0 on the set, and one step changes it by at most 1.
-/

namespace SimpleGraph

variable {V : Type*} {G : SimpleGraph V} {s : Set V} {u v : V}

variable (G s) in
/-- The fewest steps from a vertex to one of the set. -/
noncomputable def stepsTo (v : V) : ℕ∞ := ⨅ w ∈ s, G.edist v w

theorem stepsTo_le {w : V} (hw : w ∈ s) (p : G.Walk v w) : G.stepsTo s v ≤ p.length :=
  (iInf₂_le w hw).trans (edist_le p)

theorem stepsTo_of_mem (h : v ∈ s) : G.stepsTo s v = 0 := by
  simpa using stepsTo_le h (Walk.nil : G.Walk v v)

/-- A finite distance is the length of a walk. -/
theorem exists_walk_of_stepsTo_le {n : ℕ} (h : G.stepsTo s v ≤ n) :
    ∃ w ∈ s, ∃ p : G.Walk v w, p.length ≤ n := by
  have hlt : G.stepsTo s v < (n + 1 : ℕ) := h.trans_lt (by exact_mod_cast Nat.lt_succ_self n)
  obtain ⟨w, hw⟩ := iInf_lt_iff.1 hlt
  obtain ⟨hws, hw⟩ := iInf_lt_iff.1 hw
  obtain ⟨p, hp⟩ := exists_walk_of_edist_ne_top hw.ne_top
  refine ⟨w, hws, p, ?_⟩
  rw [← hp] at hw
  exact Nat.lt_succ_iff.1 (by exact_mod_cast hw)

/-- **One step** changes the distance by at most 1. -/
theorem stepsTo_le_of_adj (h : G.Adj u v) {n : ℕ} (hv : G.stepsTo s v ≤ n) :
    G.stepsTo s u ≤ (n + 1 : ℕ) := by
  obtain ⟨w, hw, p, hp⟩ := exists_walk_of_stepsTo_le hv
  refine (stepsTo_le hw (p.cons h)).trans ?_
  rw [Walk.length_cons]
  exact_mod_cast Nat.succ_le_succ hp

end SimpleGraph
