/-
  Sync/Queue.lean --- the unbounded first-in first-out queue, and what it means
  for a machine to be one.

  The abstract component has a list for its state.  In a cycle it takes some
  words in at the back and gives some words out at the front; a word may pass
  through an empty queue in the cycle it arrives in.  "Nothing is lost,
  duplicated or reordered" is exactly that every cycle of the machine is a step
  of this component, under a map `held` from registers to the words inside.
-/
import UsbSniffer.Sync.Machine

set_option autoImplicit false

namespace UsbSniffer.Sync

variable {σ ι ω α : Type}

/-! ## Handshakes -/

/-- The word that a valid/ready handshake moves in a cycle, if any. -/
def beat (valid ready : Bool) (x : α) : List α :=
  if valid && ready then [x] else []

@[simp] theorem beat_false_left (ready : Bool) (x : α) : beat false ready x = [] := rfl

@[simp] theorem beat_false_right (valid : Bool) (x : α) : beat valid false x = [] := by
  cases valid <;> rfl

@[simp] theorem beat_true_true (x : α) : beat true true x = [x] := rfl

theorem beat_of_fire {valid ready : Bool} (h : (valid && ready) = true) (x : α) :
    beat valid ready x = [x] :=
  if_pos h

theorem beat_of_quiet {valid ready : Bool} (h : (valid && ready) = false) (x : α) :
    beat valid ready x = [] := by
  rw [beat, h, if_neg Bool.false_ne_true]

theorem beat_length_le (valid ready : Bool) (x : α) : (beat valid ready x).length ≤ 1 := by
  cases valid <;> cases ready <;> simp [beat]

theorem map_beat {β : Type} (f : α → β) (valid ready : Bool) (x : α) :
    (beat valid ready x).map f = beat valid ready (f x) := by
  cases valid <;> cases ready <;> rfl

/-- What an interface moved in the cycles of a trace, oldest first. -/
def moved (port : ι × ω → List α) (tr : List (ι × ω)) : List α := tr.flatMap port

@[simp] theorem moved_nil (port : ι × ω → List α) : moved port [] = [] := rfl

@[simp] theorem moved_cons (port : ι × ω → List α) (c : ι × ω) (tr : List (ι × ω)) :
    moved port (c :: tr) = port c ++ moved port tr := List.flatMap_cons

@[simp] theorem moved_append (port : ι × ω → List α) (tr tr' : List (ι × ω)) :
    moved port (tr ++ tr') = moved port tr ++ moved port tr' := by
  simp [moved]

@[simp] theorem moved_singleton (port : ι × ω → List α) (c : ι × ω) :
    moved port [c] = port c := by
  simp [moved]

theorem countP_cons_toNat (p : α → Bool) (c : α) (tr : List α) :
    (c :: tr).countP p = tr.countP p + (p c).toNat := by
  rw [List.countP_cons]
  cases h : p c <;> rfl

theorem countP_concat (p : α → Bool) (tr : List α) (c : α) :
    (tr ++ [c]).countP p = tr.countP p + (p c).toNat := by
  rw [List.countP_append]
  cases h : p c <;> simp [h]

/-! ## The abstract queue -/

/-- One cycle of the unbounded queue: `ins` enter at the back, `outs` leave at
the front. -/
def QueueStep (q ins outs q' : List α) : Prop := q ++ ins = outs ++ q'

/-- Queue steps through a first and then a second queue are steps of the two
laid end to end: `p` is nearer the output. -/
theorem QueueStep.chain {p q ins mid outs p' q' : List α}
    (hq : QueueStep q ins mid q') (hp : QueueStep p mid outs p') :
    QueueStep (p ++ q) ins outs (p' ++ q') := by
  unfold QueueStep at *
  calc (p ++ q) ++ ins = p ++ (q ++ ins) := List.append_assoc _ _ _
    _ = (p ++ mid) ++ q' := by rw [hq, List.append_assoc]
    _ = outs ++ (p' ++ q') := by rw [hp, List.append_assoc]

/-- The machine is a queue in every step that meets `ok` from registers that
meet `Inv`, and such a step keeps `Inv`. -/
structure RefinesQueue (M : Machine σ ι ω) (ok : σ → ι → Prop) (Inv : σ → Prop)
    (held : σ → List α) (ins outs : ι × ω → List α) : Prop where
  inv : ∀ s i, ok s i → Inv s → Inv (M.next s i)
  step : ∀ s i, ok s i → Inv s →
    QueueStep (held s) (ins (i, M.out s i)) (outs (i, M.out s i)) (held (M.next s i))

namespace RefinesQueue

variable {M : Machine σ ι ω} {ok : σ → ι → Prop} {Inv : σ → Prop}
  {held : σ → List α} {ins outs : ι × ω → List α}

/-- Over a whole run: what was inside and came in is what went out and is still
inside, in the same order. -/
theorem run (h : RefinesQueue M ok Inv held ins outs) {s : σ} (hs : Inv s)
    (is : List ι) (hok : M.AllSteps ok s is) :
    held s ++ moved ins (M.trace s is) =
      moved outs (M.trace s is) ++ held (M.run s is) := by
  have hrun := M.history_induction ok
    (fun s' tr => Inv s' ∧ held s ++ moved ins tr = moved outs tr ++ held s')
    ⟨hs, by simp⟩
    (by
      rintro s' tr i hi ⟨hInv, heq⟩
      refine ⟨h.inv s' i hi hInv, ?_⟩
      have hstep := h.step s' i hi hInv
      unfold QueueStep at hstep
      calc held s ++ moved ins (tr ++ [(i, M.out s' i)])
          = (held s ++ moved ins tr) ++ ins (i, M.out s' i) := by simp
        _ = moved outs tr ++ (held s' ++ ins (i, M.out s' i)) := by
            rw [heq, List.append_assoc]
        _ = moved outs (tr ++ [(i, M.out s' i)]) ++ held (M.next s' i) := by
            rw [hstep]; simp)
    is hok
  exact hrun.2

/-- From an empty queue the words given are a prefix of the words taken. -/
theorem prefix_of_empty (h : RefinesQueue M ok Inv held ins outs) {s : σ} (hs : Inv s)
    (hempty : held s = []) (is : List ι) (hok : M.AllSteps ok s is) :
    moved outs (M.trace s is) <+: moved ins (M.trace s is) := by
  refine ⟨held (M.run s is), ?_⟩
  simpa [hempty] using (h.run hs is hok).symm

end RefinesQueue

end UsbSniffer.Sync
