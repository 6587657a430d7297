/-
  Sync/Machine.lean --- synchronous machines, their runs and their traces.

  A clocked design is one function of its registers and of this cycle's inputs:
  it gives the wires of the cycle and the registers of the next one.  Everything
  a test bench can see is the list of (inputs, wires) pairs, one for each cycle.

  A property "at every cycle of every run" is a property of every finite list of
  inputs, because every cycle of a run ends one of them.  `history_induction` is
  the one induction over runs of the whole development: it carries a relation
  between the registers and the trace so far, under a condition that each step
  of the run is asked to meet.
-/
import Mathlib.Data.List.Basic

set_option autoImplicit false

namespace UsbSniffer.Sync

/-- A synchronous machine with registers `σ`, inputs `ι` and wires `ω`. -/
structure Machine (σ ι ω : Type) where
  /-- The wires of a cycle. -/
  out : σ → ι → ω
  /-- The registers after the clock edge. -/
  next : σ → ι → σ

namespace Machine

variable {σ ι ω : Type} (M : Machine σ ι ω)

/-- The registers after a list of cycles. -/
def run : σ → List ι → σ
  | s, [] => s
  | s, i :: is => run (M.next s i) is

/-- The inputs and wires of a list of cycles, oldest first. -/
def trace : σ → List ι → List (ι × ω)
  | _, [] => []
  | s, i :: is => (i, M.out s i) :: trace (M.next s i) is

/-- Every step of the run meets the condition `ok` on its registers and inputs. -/
def AllSteps (ok : σ → ι → Prop) : σ → List ι → Prop
  | _, [] => True
  | s, i :: is => ok s i ∧ AllSteps ok (M.next s i) is

instance decidableAllSteps (ok : σ → ι → Prop) [∀ s i, Decidable (ok s i)] :
    ∀ (s : σ) (is : List ι), Decidable (M.AllSteps ok s is)
  | _, [] => inferInstanceAs (Decidable True)
  | s, i :: is =>
      have := decidableAllSteps ok (M.next s i) is
      inferInstanceAs (Decidable (_ ∧ _))

@[simp] theorem run_nil (s : σ) : M.run s [] = s := rfl

@[simp] theorem run_cons (s : σ) (i : ι) (is : List ι) :
    M.run s (i :: is) = M.run (M.next s i) is := rfl

@[simp] theorem trace_nil (s : σ) : M.trace s [] = [] := rfl

@[simp] theorem trace_cons (s : σ) (i : ι) (is : List ι) :
    M.trace s (i :: is) = (i, M.out s i) :: M.trace (M.next s i) is := rfl

/-- The inputs of a trace. -/
theorem map_fst_trace (s : σ) (is : List ι) : (M.trace s is).map Prod.fst = is := by
  induction is generalizing s with
  | nil => rfl
  | cons i is ih => exact congrArg (i :: ·) (ih (M.next s i))

theorem run_append (s : σ) (is js : List ι) :
    M.run s (is ++ js) = M.run (M.run s is) js := by
  induction is generalizing s with
  | nil => rfl
  | cons i is ih => exact ih (M.next s i)

theorem trace_append (s : σ) (is js : List ι) :
    M.trace s (is ++ js) = M.trace s is ++ M.trace (M.run s is) js := by
  induction is generalizing s with
  | nil => rfl
  | cons i is ih => exact congrArg ((i, M.out s i) :: ·) (ih (M.next s i))

/-- A condition that no step can fail is met by every run. -/
theorem allSteps_of_forall {ok : σ → ι → Prop} (h : ∀ s i, ok s i) (s : σ)
    (is : List ι) : M.AllSteps ok s is := by
  induction is generalizing s with
  | nil => exact trivial
  | cons i is ih => exact ⟨h s i, ih (M.next s i)⟩

/-- **Induction over runs.**  A relation between the registers and the trace so
far that holds at the start and is kept by every step meeting `ok` holds at
every cycle of every run whose steps all meet `ok`. -/
theorem history_induction (ok : σ → ι → Prop) (P : σ → List (ι × ω) → Prop)
    {s₀ : σ} (hinit : P s₀ [])
    (hstep : ∀ s tr i, ok s i → P s tr →
      P (M.next s i) (tr ++ [(i, M.out s i)])) :
    ∀ is, M.AllSteps ok s₀ is → P (M.run s₀ is) (M.trace s₀ is) := by
  -- the trace before `s` is generalised so that the list can be eaten from the front
  have key : ∀ is s tr, P s tr → M.AllSteps ok s is →
      P (M.run s is) (tr ++ M.trace s is) := by
    intro is
    induction is with
    | nil => intro s tr hP _; simpa using hP
    | cons i is ih =>
      intro s tr hP hok
      have hnext := hstep s tr i hok.1 hP
      simpa using ih (M.next s i) (tr ++ [(i, M.out s i)]) hnext hok.2
  intro is hok
  simpa using key is s₀ [] hinit hok

/-- Induction over all runs. -/
theorem history_induction_always (P : σ → List (ι × ω) → Prop) {s₀ : σ} (hinit : P s₀ [])
    (hstep : ∀ s tr i, P s tr → P (M.next s i) (tr ++ [(i, M.out s i)])) (is : List ι) :
    P (M.run s₀ is) (M.trace s₀ is) :=
  M.history_induction (fun _ _ => True) P hinit (fun s tr i _ h => hstep s tr i h) is
    (M.allSteps_of_forall (fun _ _ => trivial) s₀ is)

/-- An invariant of the registers alone. -/
theorem invariant_run {ok : σ → ι → Prop} {Inv : σ → Prop}
    (hstep : ∀ s i, ok s i → Inv s → Inv (M.next s i)) {s : σ} (hs : Inv s)
    (is : List ι) (hok : M.AllSteps ok s is) : Inv (M.run s is) :=
  M.history_induction ok (fun s _ => Inv s) hs
    (fun s _ i hi hInv => hstep s i hi hInv) is hok

/-- A property that every cycle has, whatever the registers, holds of every cycle
of a trace. -/
theorem trace_forall {Q : ι × ω → Prop} (h : ∀ s i, Q (i, M.out s i)) (s : σ)
    (is : List ι) : ∀ c ∈ M.trace s is, Q c := by
  induction is generalizing s with
  | nil => intro c hc; simp at hc
  | cons i is ih =>
    intro c hc
    rw [trace_cons, List.mem_cons] at hc
    rcases hc with rfl | hc
    · exact h s i
    · exact ih (M.next s i) c hc

/-- A condition that follows from another one in every step. -/
theorem AllSteps.imp {M : Machine σ ι ω} {ok ok' : σ → ι → Prop}
    (h : ∀ s i, ok s i → ok' s i) {s : σ} {is : List ι} (hok : M.AllSteps ok s is) :
    M.AllSteps ok' s is := by
  induction is generalizing s with
  | nil => exact trivial
  | cons i is ih => exact ⟨h s i hok.1, ih hok.2⟩

/-- What two steps in a row make of their cycles holds along the trace. -/
theorem AllSteps.isChain {M : Machine σ ι ω} {ok : σ → ι → Prop} {R : ι × ω → ι × ω → Prop}
    (h : ∀ s i j, ok s i → ok (M.next s i) j → R (i, M.out s i) (j, M.out (M.next s i) j))
    {s : σ} {is : List ι} (hok : M.AllSteps ok s is) : List.IsChain R (M.trace s is) := by
  induction is generalizing s with
  | nil => exact .nil
  | cons i is ih =>
    have htail := ih hok.2
    cases is with
    | nil => exact .singleton _
    | cons j is => exact .cons_cons (h s i j hok.1 hok.2.1) htail

/-- Conditions on two cycles in a row that agree along every run. -/
theorem isChain_trace_iff {R R' : ι × ω → ι × ω → Prop}
    (h : ∀ s i j, R (i, M.out s i) (j, M.out (M.next s i) j) ↔
      R' (i, M.out s i) (j, M.out (M.next s i) j)) (s : σ) (is : List ι) :
    List.IsChain R (M.trace s is) ↔ List.IsChain R' (M.trace s is) := by
  induction is generalizing s with
  | nil => exact iff_of_true .nil .nil
  | cons i is ih =>
    have htail := ih (M.next s i)
    cases is with
    | nil => exact iff_of_true (.singleton _) (.singleton _)
    | cons j is =>
      simp only [trace_cons] at htail ⊢
      rw [List.isChain_cons_cons, List.isChain_cons_cons, htail, h s i j]

/-- A condition on registers and inputs that the cycle shows is met by every step of
a run exactly when every cycle of the trace shows it. -/
theorem allSteps_iff_trace {ok A : σ → ι → Prop} {Inv : σ → Prop} {B : ι × ω → Prop}
    (hinv : ∀ s i, ok s i → Inv s → Inv (M.next s i))
    (h : ∀ s i, ok s i → Inv s → (A s i ↔ B (i, M.out s i))) {s : σ} (hs : Inv s)
    (is : List ι) (hok : M.AllSteps ok s is) :
    M.AllSteps A s is ↔ ∀ c ∈ M.trace s is, B c := by
  induction is generalizing s with
  | nil => simp [AllSteps]
  | cons i is ih =>
    have htail := ih (hinv s i hok.1 hs) hok.2
    simp only [AllSteps, trace_cons, List.forall_mem_cons, htail, h s i hok.1 hs]

/-! ## Reset -/

/-- The machine with a reset input.  In a cycle with reset the wires are driven
as in any other cycle, and at its edge `clear` overrides the registers that the
reset reaches. -/
def resettable (clear : σ → σ) : Machine σ (ι × Bool) ω where
  out s i := M.out s i.1
  next s i := if i.2 then clear (M.next s i.1) else M.next s i.1

/-- The trace of a machine with a reset input, without that input. -/
def wires (tr : List ((ι × Bool) × ω)) : List (ι × ω) := tr.map fun c => (c.1.1, c.2)

@[simp] theorem wires_append (tr tr' : List ((ι × Bool) × ω)) :
    wires (tr ++ tr') = wires tr ++ wires tr' := List.map_append ..

/-- The cycles after the last one with reset. -/
def sinceReset (tr : List ((ι × Bool) × ω)) : List (ι × ω) :=
  tr.foldl (fun seen c => if c.1.2 then [] else seen ++ [(c.1.1, c.2)]) []

@[simp] theorem sinceReset_nil : sinceReset ([] : List ((ι × Bool) × ω)) = [] := rfl

theorem sinceReset_concat (tr : List ((ι × Bool) × ω)) (c : (ι × Bool) × ω) :
    sinceReset (tr ++ [c]) = if c.1.2 then [] else sinceReset tr ++ [(c.1.1, c.2)] := by
  simp [sinceReset]

end Machine

end UsbSniffer.Sync
