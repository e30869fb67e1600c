import Mathlib.Data.List.Basic

/-!
# Runs of a deterministic machine

A machine is a step function `σ → ι → σ`; a run feeds it a list of inputs. `Guarded` says that
every step of a run meets a condition on the state before it and the input it takes, and the
two run rules carry an invariant from one step to a whole run.
-/

namespace Machine

variable {σ ι τ κ : Type*}

/-- The state after a list of inputs. -/
def run (step : σ → ι → σ) (s : σ) (is : List ι) : σ := is.foldl step s

@[simp] theorem run_nil (step : σ → ι → σ) (s : σ) : run step s [] = s := rfl

@[simp] theorem run_cons (step : σ → ι → σ) (s : σ) (i : ι) (is : List ι) :
    run step s (i :: is) = run step (step s i) is := rfl

theorem run_append (step : σ → ι → σ) (s : σ) (is js : List ι) :
    run step s (is ++ js) = run step (run step s is) js := by
  simp [run]

/-- **The simulation rule.** What follows a machine step by step follows its runs. -/
theorem run_map {step : σ → ι → σ} {step' : τ → ι → τ} {f : σ → τ}
    (h : ∀ s i, f (step s i) = step' (f s) i) (s : σ) (is : List ι) :
    f (run step s is) = run step' (f s) is := by
  induction is generalizing s with
  | nil => rfl
  | cons i is ih => rw [run_cons, run_cons, ih, h]

/-! ### Answers -/

/-- The state a machine that answers its inputs is in after one. -/
def next (step : σ → ι → σ × κ) (s : σ) (i : ι) : σ := (step s i).1

/-- What it answers a list of inputs. -/
def outputs (step : σ → ι → σ × κ) : σ → List ι → List κ
  | _, [] => []
  | s, i :: is => (step s i).2 :: outputs step (step s i).1 is

@[simp] theorem outputs_nil (step : σ → ι → σ × κ) (s : σ) : outputs step s [] = [] := rfl

@[simp] theorem outputs_cons (step : σ → ι → σ × κ) (s : σ) (i : ι) (is : List ι) :
    outputs step s (i :: is) = (step s i).2 :: outputs step (step s i).1 is := rfl

theorem outputs_append (step : σ → ι → σ × κ) (s : σ) (is js : List ι) :
    outputs step s (is ++ js) =
      outputs step s is ++ outputs step (run (next step) s is) js := by
  induction is generalizing s with
  | nil => rfl
  | cons i is ih => rw [List.cons_append, outputs_cons, outputs_cons, run_cons, ih, next]; rfl

/-- What follows a machine step by step, and answers the same, answers its runs the same. -/
theorem outputs_map {step : σ → ι → σ × κ} {step' : τ → ι → τ × κ} {f : σ → τ}
    (h : ∀ s i, (f (step s i).1, (step s i).2) = step' (f s) i) (s : σ) (is : List ι) :
    outputs step s is = outputs step' (f s) is := by
  induction is generalizing s with
  | nil => rfl
  | cons i is ih => rw [outputs_cons, outputs_cons, ih, ← h]

/-! ### Runs whose steps meet a condition -/

/-- Every step of the run meets `ok`, a condition on the state before it and its input. -/
def Guarded (step : σ → ι → σ) (ok : σ → ι → Prop) : σ → List ι → Prop
  | _, [] => True
  | s, i :: is => ok s i ∧ Guarded step ok (step s i) is

@[simp] theorem guarded_nil (step : σ → ι → σ) (ok : σ → ι → Prop) (s : σ) :
    Guarded step ok s [] := trivial

@[simp] theorem guarded_cons (step : σ → ι → σ) (ok : σ → ι → Prop) (s : σ) (i : ι)
    (is : List ι) :
    Guarded step ok s (i :: is) ↔ ok s i ∧ Guarded step ok (step s i) is := Iff.rfl

instance Guarded.decidable {step : σ → ι → σ} {ok : σ → ι → Prop} [∀ s i, Decidable (ok s i)] :
    ∀ s is, Decidable (Guarded step ok s is)
  | _, [] => .isTrue trivial
  | s, i :: is => @instDecidableAnd _ _ inferInstance (decidable (step s i) is)

theorem Guarded.append {step : σ → ι → σ} {ok : σ → ι → Prop} {s : σ} {is js : List ι} :
    Guarded step ok s (is ++ js) ↔
      Guarded step ok s is ∧ Guarded step ok (run step s is) js := by
  induction is generalizing s with
  | nil => simp
  | cons i is ih => simp [ih, and_assoc]

theorem Guarded.mono {step : σ → ι → σ} {ok ok' : σ → ι → Prop} {s : σ} {is : List ι}
    (h : Guarded step ok s is) (himp : ∀ s i, ok s i → ok' s i) : Guarded step ok' s is := by
  induction is generalizing s with
  | nil => trivial
  | cons i is ih => exact ⟨himp _ _ h.1, ih h.2⟩

/-- A condition on the inputs alone guards a run from every state. -/
theorem guarded_of_forall {step : σ → ι → σ} {P : ι → Prop} {s : σ} {is : List ι}
    (h : ∀ i ∈ is, P i) : Guarded step (fun _ => P) s is := by
  induction is generalizing s with
  | nil => trivial
  | cons i is ih => exact ⟨h i (by simp), ih fun i hi => h i (by simp [hi])⟩

/-- **The invariant rule.** What one guarded step preserves, a guarded run preserves. -/
theorem Guarded.invariant {step : σ → ι → σ} {ok : σ → ι → Prop} {I : σ → Prop}
    (hstep : ∀ s i, I s → ok s i → I (step s i)) {s : σ} {is : List ι}
    (hs : I s) (h : Guarded step ok s is) : I (run step s is) := by
  induction is generalizing s with
  | nil => exact hs
  | cons i is ih => exact ih (hstep s i hs h.1) h.2

/-- The invariant rule for steps that are all allowed. -/
theorem run_invariant {step : σ → ι → σ} {I : σ → Prop}
    (hstep : ∀ s i, I s → I (step s i)) {s : σ} (hs : I s) (is : List ι) :
    I (run step s is) := by
  induction is generalizing s with
  | nil => exact hs
  | cons i is ih => exact ih (hstep s i hs)

/-- Along a chain a measure that grows with every link cannot grow past its bound. -/
theorem length_le_of_isChain {α : Type*} {R : α → α → Prop} (rank : α → ℕ) {bound : ℕ}
    {P : α → Prop} (hbound : ∀ a, P a → rank a < bound)
    (hlt : ∀ a b, P a → P b → R a b → rank a < rank b) {l : List α} (hP : ∀ a ∈ l, P a)
    (h : l.IsChain R) : l.length ≤ bound := by
  cases l with
  | nil => exact Nat.zero_le _
  | cons a l =>
    suffices rank a + (a :: l).length ≤ bound by omega
    induction l generalizing a with
    | nil =>
      have := hbound a (hP a (by simp))
      simp only [List.length_singleton]
      omega
    | cons b l ih =>
      obtain ⟨hab, h⟩ := List.isChain_cons_cons.1 h
      have h1 := hlt a b (hP a (by simp)) (hP b (by simp)) hab
      have h2 := ih b (fun c hc => hP c (by simp [hc])) h
      simp only [List.length_cons] at h2 ⊢
      omega

/-- Going back and forth between two linked elements makes chains of every length. -/
theorem isChain_replicate {α : Type*} {R : α → α → Prop} {a b : α} (hab : R a b) (hba : R b a)
    (n : ℕ) : (List.replicate n [a, b]).flatten.IsChain R := by
  induction n with
  | zero => simp
  | succ n ih =>
    rw [List.replicate_succ, List.flatten_cons]
    cases n with
    | zero => simpa using hab
    | succ n =>
      rw [List.replicate_succ, List.flatten_cons] at ih ⊢
      exact .cons_cons hab (.cons_cons hba ih)

end Machine
