/-
  Iti/Overflow.lean --- the overflow records of the packer.

  The counter stays at its maximum for one cycle or for two, as the fractional
  clock has it, and sets the overflow flag in each of them.  The flag is cleared
  when its record is accepted, unless it is set in the same cycle.  So a record
  accepted in the second cycle at the maximum is sent a second time.
-/
import UsbSniffer.Iti.Time

set_option autoImplicit false

namespace UsbSniffer.Iti.ITIPacker

open UsbSniffer.Sync

/-! ## Overflow records on the source -/

/-- A reader of the format finds type NONE. -/
def isOverflow (b : Beat) : Bool :=
  match readRecord b.bytes with
  | some (r, _) => r.payloadType == PAYLOAD_NONE
  | none => false

theorem isOverflow_record (r : Record) :
    isOverflow r.beat = (r.payloadType == PAYLOAD_NONE) := by
  have hread := reads_record r []
  rw [List.append_nil] at hread
  unfold isOverflow
  rw [show r.beat.bytes = r.bytes from rfl, hread]
  rfl

/-- The overflow record accepted on source in a cycle. -/
def overflowRecord (c : In × Out) : List Beat :=
  (beat c.2.sourceValid c.1.sourceReady c.2.source).filter isOverflow

/-- The event or data record accepted on source in a cycle. -/
def itemRecord (c : In × Out) : List Beat :=
  (beat c.2.sourceValid c.1.sourceReady c.2.source).filter (!isOverflow ·)

/-- The edge that ends this cycle brings the counter to its maximum. -/
def Arrives (s : State) (i : In) : Prop :=
  s.time.diff ≠ BitVec.ofNat 28 (2 ^ 28 - 1) ∧
    (next s i).time.diff = BitVec.ofNat 28 (2 ^ 28 - 1)

/-- The capture is enabled and the counter is not at its maximum. -/
def Below (s : State) (i : In) : Prop :=
  i.enable = true ∧ s.time.diff ≠ BitVec.ofNat 28 (2 ^ 28 - 1)

/-! ## What a cycle does to the flag -/

/-- While the flag is set its record is offered, and nothing else is answered. -/
theorem out_pending {s : State} (hover : s.time.overflow = true) (i : In) :
    (mux s i).next = false ∧ (mux s i).clear = i.sourceReady ∧
      overflowRecord (i, out s i) = if i.sourceReady then [Record.overflow.beat] else [] := by
  have hm : mux s i =
      { payload := 0, payloadType := PAYLOAD_NONE, diff := BitVec.ofNat 28 (2 ^ 28 - 1),
        length := 3, sourceValid := true, clear := i.sourceReady, next := false,
        ack := false, sinkReady := false } := by
    simp [mux, hover]
  have hsource : (out s i).source = Record.overflow.beat := by
    unfold out
    rw [hm]
    rfl
  refine ⟨by rw [hm], by rw [hm], ?_⟩
  unfold overflowRecord
  rw [hsource, show (out s i).sourceValid = true by simp [out, hm]]
  have hnone := isOverflow_record .overflow
  cases i.sourceReady with
  | false => rfl
  | true => simp [hnone, Record.payloadType]

/-- While the flag is clear no overflow record is offered. -/
theorem overflowRecord_clear {s : State} (hover : s.time.overflow = false) (i : In) :
    overflowRecord (i, out s i) = [] := by
  unfold overflowRecord
  by_cases hnone : s.ev.new = false ∧ i.sinkValid = false
  · simp [(out_nothing hover hnone).2]
  · obtain ⟨-, hvalid, kind, payload, hrecord⟩ := out_item hover hnone
    have hitem := isOverflow_record (.item kind s.time.diff payload)
    rw [hrecord, hvalid]
    cases i.sourceReady with
    | false => rfl
    | true => simp [hitem, Record.payloadType, kind.code_ne_none]

/-- The counter is not cleared in a cycle that accepts no event and no data. -/
theorem next_of_no_item {s : State} {i : In} (h : itemRecord (i, out s i) = []) :
    (mux s i).next = false := by
  cases hover : s.time.overflow with
  | true => exact (out_pending hover i).1
  | false =>
    by_cases hnone : s.ev.new = false ∧ i.sinkValid = false
    · exact (out_nothing hover hnone).1
    · obtain ⟨hnext, hvalid, kind, payload, hrecord⟩ := out_item hover hnone
      have hitem := isOverflow_record (.item kind s.time.diff payload)
      rw [hnext]
      cases hready : i.sourceReady with
      | false => rfl
      | true =>
        simp [itemRecord, hrecord, hvalid, hready, hitem, Record.payloadType,
          kind.code_ne_none] at h

/-- At the maximum the flag is set, and a pulse wraps the counter. -/
theorem time_next_max {s : State} {i : In} (henable : i.enable = true)
    (hmax : s.time.diff = BitVec.ofNat 28 (2 ^ 28 - 1)) (hnext : (mux s i).next = false) :
    (next s i).time.overflow = true ∧
      (next s i).time.diff =
        (if s.time.tune.en then 0 else BitVec.ofNat 28 (2 ^ 28 - 1)) ∧
      (next s i).time.tune = TuneClocker.next ITITime.tuningWord s.time.tune := by
  rw [time_next, henable, hnext]
  simp only [ITITime.step, hmax, Bool.not_true, Bool.false_eq_true, if_false, if_true]
  exact ⟨trivial, by cases s.time.tune.en <;> rfl, trivial⟩

/-- Below the maximum the flag stays set until its record is accepted. -/
theorem overflow_next_pending {s : State} {i : In} (hbelow : Below s i)
    (hover : s.time.overflow = true) : (next s i).time.overflow = !i.sourceReady := by
  obtain ⟨hnext, hclear, -⟩ := out_pending hover i
  rw [time_next, hbelow.1, hnext, hclear]
  simp only [ITITime.step, Bool.not_true, Bool.false_eq_true, if_false, if_neg hbelow.2]
  cases i.sourceReady with
  | false => exact hover
  | true => rfl

/-- Below the maximum a clear flag stays clear. -/
theorem overflow_next_clear {s : State} {i : In} (hbelow : Below s i)
    (hover : s.time.overflow = false) : (next s i).time.overflow = false := by
  rw [time_next, hbelow.1]
  cases (mux s i).next with
  | true => exact (step_next s.time (mux s i).clear).2
  | false => exact (step_count hover hbelow.2 (mux s i).clear).2

/-! ## Below the maximum -/

theorem overflowRecords_clear (w : List In) {s : State} (hover : s.time.overflow = false)
    (hbelow : machine.AllSteps Below s w) :
    moved overflowRecord (machine.trace s w) = [] := by
  induction w generalizing s with
  | nil => rfl
  | cons i w ih =>
    rw [Machine.trace_cons, moved_cons, machine_out, overflowRecord_clear hover]
    exact ih (overflow_next_clear hbelow.1 hover) hbelow.2

/-- The record of a set flag is sent once, as soon as the source is ready. -/
theorem overflowRecords_pending (w : List In) {s : State} (hover : s.time.overflow = true)
    (hbelow : machine.AllSteps Below s w) :
    (moved overflowRecord (machine.trace s w)).length =
      if w.any (·.sourceReady) then 1 else 0 := by
  induction w generalizing s with
  | nil => rfl
  | cons i w ih =>
    have hflag := overflow_next_pending hbelow.1 hover
    rw [Machine.trace_cons, moved_cons, machine_out, machine_next, (out_pending hover i).2.2,
      List.length_append, List.any_cons]
    by_cases hready : i.sourceReady = true
    · rw [hready] at hflag ⊢
      rw [overflowRecords_clear w hflag hbelow.2]
      rfl
    · rw [Bool.not_eq_true] at hready
      rw [hready] at hflag ⊢
      rw [ih hflag hbelow.2]
      simp

/-- From below the maximum the counter stays below it up to the next arrival. -/
theorem below_of_no_arrival (w : List In) {s : State} (henable : ∀ x ∈ w, x.enable = true)
    (hdiff : s.time.diff ≠ BitVec.ofNat 28 (2 ^ 28 - 1))
    (hnone : machine.AllSteps (fun t x => ¬ Arrives t x) s w.dropLast) :
    machine.AllSteps Below s w := by
  induction w generalizing s with
  | nil => exact trivial
  | cons i w ih =>
    refine ⟨⟨henable i (by simp), hdiff⟩, ?_⟩
    cases w with
    | nil => exact trivial
    | cons j w =>
      rw [List.dropLast_cons_cons] at hnone
      exact ih (fun x hx => henable x (List.mem_cons_of_mem i hx))
        (fun hmax => hnone.1 ⟨hdiff, hmax⟩) hnone.2

/-! ## From one arrival to the next -/

/-- The clocker of the capture never pauses twice. -/
theorem en_next_of_step (t : ITITime.State) (enable nextDiff clear : Bool)
    (hpause : (ITITime.step t enable nextDiff clear).tune.en = false) :
    (TuneClocker.next ITITime.tuningWord
      (ITITime.step t enable nextDiff clear).tune).en = true := by
  rw [ITITime.step_tune] at hpause ⊢
  exact TuneClocker.en_next_of_pause (by decide) (by decide) hpause

/-- The counter leaves its maximum with the next edge, or the record of the flag is
not accepted both in the second cycle at the maximum and later. -/
def SentOnce (s : State) (w : List In) : Prop :=
  s.time.tune.en = true ∨ w.head?.any (·.sourceReady) = false ∨
    w.tail.any (·.sourceReady) = false

/-- The overflow records accepted after a cycle at the maximum: one for the flag, and
another one when it is accepted while the counter is still there. -/
theorem overflowRecords_window {s : State} {i : In} {w : List In}
    (henable : ∀ x ∈ i :: w, x.enable = true)
    (hclock : s.time.tune.en = false →
      (TuneClocker.next ITITime.tuningWord s.time.tune).en = true)
    (hmax : s.time.diff = BitVec.ofNat 28 (2 ^ 28 - 1))
    (hitem : itemRecord (i, out s i) = [])
    (hnone : machine.AllSteps (fun t x => ¬ Arrives t x) s (i :: w).dropLast) :
    (moved overflowRecord (machine.trace (next s i) w)).length =
      if s.time.tune.en then (if w.any (·.sourceReady) then 1 else 0)
      else (if w.head?.any (·.sourceReady) then 1 else 0) +
        (if w.tail.any (·.sourceReady) then 1 else 0) := by
  obtain ⟨hover, hdiff, htune⟩ := time_next_max (henable i (by simp)) hmax (next_of_no_item hitem)
  have henable' : ∀ x ∈ w, x.enable = true := fun x hx => henable x (List.mem_cons_of_mem i hx)
  cases w with
  | nil => simp
  | cons j w =>
    rw [List.dropLast_cons_cons] at hnone
    cases hen : s.time.tune.en with
    | true =>
      -- the counter wraps at once
      rw [hen, if_pos rfl] at hdiff
      have hbelow := below_of_no_arrival (j :: w) (s := next s i) henable'
        (by rw [hdiff]; decide) hnone.2
      rw [overflowRecords_pending (j :: w) hover hbelow, if_pos rfl]
    | false =>
      -- it stays for the cycle of `j`, which sets the flag again, and wraps then
      rw [hen, if_neg Bool.false_ne_true] at hdiff
      have hpending := out_pending hover j
      obtain ⟨hover', hdiff', -⟩ := time_next_max (henable' j (by simp)) hdiff hpending.1
      rw [htune, hclock hen, if_pos rfl] at hdiff'
      have hrest : machine.AllSteps (fun t x => ¬ Arrives t x) (next (next s i) j) w.dropLast := by
        cases w with
        | nil => exact trivial
        | cons k w =>
          have htail := hnone.2
          rw [List.dropLast_cons_cons] at htail
          exact htail.2
      have hbelow := below_of_no_arrival w
        (fun x hx => henable' x (List.mem_cons_of_mem j hx)) (by rw [hdiff']; decide) hrest
      rw [Machine.trace_cons, moved_cons, machine_out, machine_next, hpending.2.2,
        List.length_append, overflowRecords_pending w hover' hbelow]
      by_cases hready : j.sourceReady = true <;> simp [hready]

/-- **One overflow record for each arrival of the counter at its maximum, exactly when
the flag is not cleared in a cycle that sets it again.** -/
theorem overflow_sent_once (pre : List In) (j i : In) (w : List In)
    (henable : ∀ x ∈ pre ++ j :: i :: w, x.enable = true)
    (harrives : Arrives (machine.run init pre) j)
    (hitem : itemRecord (i, out (machine.run init (pre ++ [j])) i) = [])
    (hnone : machine.AllSteps (fun t x => ¬ Arrives t x)
      (machine.run init (pre ++ [j])) (i :: w).dropLast)
    (hready : ∃ x ∈ w, x.sourceReady = true) :
    (moved overflowRecord
        (machine.trace (next (machine.run init (pre ++ [j])) i) w)).length = 1 ↔
      SentOnce (machine.run init (pre ++ [j])) w := by
  have hlast : machine.run init (pre ++ [j]) = next (machine.run init pre) j :=
    machine.run_append init pre [j]
  rw [hlast] at hitem hnone ⊢
  have hclock := en_next_of_step (machine.run init pre).time j.enable
    (mux (machine.run init pre) j).next (mux (machine.run init pre) j).clear
  have hwindow := overflowRecords_window
    (fun x hx => henable x (List.mem_append_right pre (List.mem_cons_of_mem j hx)))
    hclock harrives.2 hitem hnone
  rw [hwindow]
  unfold SentOnce
  cases w with
  | nil => simp at hready
  | cons k w =>
    have hflags : ∀ leaves second later : Bool, (second || later) = true →
        ((if leaves then (if second || later then 1 else 0)
            else (if second then 1 else 0) + (if later then 1 else 0)) = 1 ↔
          leaves = true ∨ second = false ∨ later = false) := by
      decide
    rw [← List.any_eq_true, List.any_cons] at hready
    simp only [List.any_cons, List.head?_cons, Option.any_some, List.tail_cons]
    exact hflags _ _ _ hready

/-! ## A run to the maximum -/

/-- Pulses and the fraction of the next one, in units of `2 ^ -32` pulses. -/
def elapsed (s : State) : Nat :=
  2 ^ 32 * (s.time.diff.toNat + s.time.tune.en.toNat) + s.time.tune.acc.toNat

/-- Nothing is pending. -/
structure Quiet (s : State) : Prop where
  overflow : s.time.overflow = false
  event : s.ev.new = false

/-- A cycle in which nothing happens lets the tuning word elapse. -/
theorem elapsed_step {s : State} (hquiet : Quiet s)
    (hdiff : s.time.diff ≠ BitVec.ofNat 28 (2 ^ 28 - 1)) :
    Quiet (next s (captureCycle false)) ∧
      (next s (captureCycle false)).time.diff.toNat =
        s.time.diff.toNat + s.time.tune.en.toNat ∧
      elapsed (next s (captureCycle false)) = elapsed s + ITITime.tuningWord := by
  have hnext := (out_nothing (i := captureCycle false) hquiet.overflow ⟨hquiet.event, rfl⟩).1
  obtain ⟨hcount, hover⟩ :=
    step_count hquiet.overflow hdiff (mux s (captureCycle false)).clear
  have htime := time_next s (captureCycle false)
  rw [hnext] at htime
  have hdiff' : (next s (captureCycle false)).time.diff.toNat =
      s.time.diff.toNat + s.time.tune.en.toNat := by
    rw [← toNat_count hdiff, ← hcount, htime]
    rfl
  have htotal := TuneClocker.next_total (by decide : ITITime.tuningWord < 2 ^ 32) s.time.tune
  have hevent : (next s (captureCycle false)).ev.new = false := by
    have hstep : ∀ ack : Bool, (ITIEvent.step s.ev false 0 ack).new = false := by
      intro ack
      cases ack <;> simp [ITIEvent.step, hquiet.event]
    exact hstep _
  refine ⟨⟨by rw [htime]; exact hover, hevent⟩, hdiff', ?_⟩
  unfold elapsed
  rw [hdiff', tune_next]
  omega

/-- Below the maximum a quiet run lets one tuning word elapse in each cycle. -/
theorem elapsed_run (n : Nat) {s : State} (hquiet : Quiet s)
    (hdiff : s.time.diff ≠ BitVec.ofNat 28 (2 ^ 28 - 1))
    (hbound : elapsed s + n * ITITime.tuningWord < 2 ^ 32 * (2 ^ 28 - 1) + ITITime.tuningWord) :
    let s' := machine.run s (List.replicate n (captureCycle false))
    Quiet s' ∧ s'.time.diff ≠ BitVec.ofNat 28 (2 ^ 28 - 1) ∧
      elapsed s' = elapsed s + n * ITITime.tuningWord := by
  induction n generalizing s with
  | zero => exact ⟨hquiet, hdiff, by simp⟩
  | succ n ih =>
    rw [Nat.succ_mul] at hbound ⊢
    obtain ⟨hquiet', hcount, helapsed⟩ := elapsed_step hquiet hdiff
    have hdiff' : (next s (captureCycle false)).time.diff ≠ BitVec.ofNat 28 (2 ^ 28 - 1) := by
      intro hmax
      rw [hmax] at hcount
      unfold elapsed at hbound
      simp at hcount
      omega
    have hrest := ih hquiet' hdiff' (by rw [helapsed]; omega)
    rw [List.replicate_succ, Machine.run_cons, machine_next]
    exact ⟨hrest.1, hrest.2.1, by rw [hrest.2.2, helapsed]; omega⟩

/-- The cycle before which a quiet run arrives at the maximum, and whether it stays
there for a second cycle. -/
theorem arrives_of_elapsed {n : Nat} {s : State} (hquiet : Quiet s)
    (hdiff : s.time.diff ≠ BitVec.ofNat 28 (2 ^ 28 - 1))
    (hlow : 2 ^ 32 * (2 ^ 28 - 1) ≤ elapsed s + n * ITITime.tuningWord)
    (hhigh : elapsed s + n * ITITime.tuningWord < 2 ^ 32 * (2 ^ 28 - 1) + ITITime.tuningWord) :
    let s' := machine.run s (List.replicate n (captureCycle false))
    Arrives s' (captureCycle false) ∧ Quiet (next s' (captureCycle false)) ∧
      ((next s' (captureCycle false)).time.tune.en = true ↔
        2 ^ 60 ≤ elapsed s + n * ITITime.tuningWord + ITITime.tuningWord) := by
  obtain ⟨hquiet', hdiff', helapsed⟩ := elapsed_run n hquiet hdiff hhigh
  generalize machine.run s (List.replicate n (captureCycle false)) = s' at *
  obtain ⟨hquiet'', hcount, helapsed'⟩ := elapsed_step hquiet' hdiff'
  have hword : ITITime.tuningWord < 2 ^ 32 := by decide
  have hacc := s'.time.tune.acc.isLt
  have hacc' := (next s' (captureCycle false)).time.tune.acc.isLt
  have hmax : (next s' (captureCycle false)).time.diff.toNat = 2 ^ 28 - 1 := by
    rw [hcount]
    unfold elapsed at helapsed hlow hhigh
    omega
  refine ⟨⟨hdiff', BitVec.eq_of_toNat_eq hmax⟩, hquiet'', ?_⟩
  rw [← helapsed, ← helapsed', elapsed, hmax]
  cases (next s' (captureCycle false)).time.tune.en with
  | false => simp; omega
  | true => simp

/-- The runs that are quiet after some first cycles, up to the cycle before the
counter arrives at its maximum. -/
def quietAfter (first : List In) (n : Nat) : List In :=
  first ++ List.replicate n (captureCycle false)

theorem run_quietAfter (first : List In) (n : Nat) :
    machine.run init (quietAfter first n) =
      machine.run (machine.run init first) (List.replicate n (captureCycle false)) :=
  machine.run_append init first _

theorem enable_quietAfter {first : List In} (h : ∀ x ∈ first, x.enable = true) (n : Nat)
    {rest : List In} (hrest : ∀ x ∈ rest, x.enable = true) :
    ∀ x ∈ quietAfter first n ++ rest, x.enable = true := by
  intro x hx
  rw [quietAfter, List.append_assoc, List.mem_append, List.mem_append] at hx
  rcases hx with hx | hx | hx
  · exact h x hx
  · rw [List.eq_of_mem_replicate hx]
    rfl
  · exact hrest x hx

/-- A quiet cycle accepts nothing. -/
theorem itemRecord_quiet {s : State} (hquiet : Quiet s) :
    itemRecord (captureCycle false, out s (captureCycle false)) = [] := by
  have hvalid := (out_nothing (i := captureCycle false) hquiet.overflow ⟨hquiet.event, rfl⟩).2
  simp [itemRecord, hvalid]

/-- A quiet run from reset arrives at the maximum in a cycle with a pulse, and its
record is sent once. -/
theorem overflow_sent_once_quiet :
    (moved overflowRecord
        (machine.trace (next (machine.run init
          (quietAfter [] 447392426 ++ [captureCycle false])) (captureCycle false))
          [captureCycle false])).length = 1 ↔
      SentOnce (machine.run init (quietAfter [] 447392426 ++ [captureCycle false]))
        [captureCycle false] := by
  have hquiet : Quiet (machine.run init []) := ⟨rfl, rfl⟩
  obtain ⟨harrives, hquiet', -⟩ := arrives_of_elapsed (n := 447392426) hquiet (by decide)
    (by decide) (by decide)
  rw [← run_quietAfter] at harrives hquiet'
  have hlast : machine.run init (quietAfter [] 447392426 ++ [captureCycle false]) =
      next (machine.run init (quietAfter [] 447392426)) (captureCycle false) :=
    machine.run_append init _ [captureCycle false]
  refine overflow_sent_once _ (captureCycle false) (captureCycle false) _
    (enable_quietAfter (by simp) _ (by decide)) harrives ?_ ?_ ⟨captureCycle false, by simp, rfl⟩
  · rw [hlast]
    exact itemRecord_quiet hquiet'
  · rw [hlast]
    exact ⟨fun h => h.1 harrives.2, trivial⟩

/-- A byte in the third cycle, whose pulse is missed, moves the arrival to a cycle
without a pulse, and the record is sent in the second cycle at the maximum and once
more in the next. -/
theorem overflow_sent_twice :
    let pre := quietAfter coincidentRun 447392424
    let s := machine.run init (pre ++ [captureCycle false])
    let w := [captureCycle false, captureCycle false]
    (∀ x ∈ pre ++ captureCycle false :: captureCycle false :: w, x.enable = true) ∧
      Arrives (machine.run init pre) (captureCycle false) ∧
      itemRecord (captureCycle false, out s (captureCycle false)) = [] ∧
      machine.AllSteps (fun t x => ¬ Arrives t x) s (captureCycle false :: w).dropLast ∧
      (∃ x ∈ w, x.sourceReady = true) ∧
      (moved overflowRecord (machine.trace (next s (captureCycle false)) w)).length = 2 := by
  have hquiet : Quiet (machine.run init coincidentRun) := ⟨by decide, by decide⟩
  obtain ⟨harrives, hquiet', hen⟩ := arrives_of_elapsed (n := 447392424) hquiet (by decide)
    (by decide) (by decide)
  rw [← run_quietAfter] at harrives hquiet' hen
  have hlast : machine.run init (quietAfter coincidentRun 447392424 ++ [captureCycle false]) =
      next (machine.run init (quietAfter coincidentRun 447392424)) (captureCycle false) :=
    machine.run_append init _ [captureCycle false]
  intro pre s w
  have hs : s = next (machine.run init pre) (captureCycle false) := hlast
  have hpause : s.time.tune.en = false := by
    rw [hs, ← Bool.not_eq_true, hen]
    decide
  have hitem : itemRecord (captureCycle false, out s (captureCycle false)) = [] := by
    rw [hs]
    exact itemRecord_quiet hquiet'
  have hmax : s.time.diff = BitVec.ofNat 28 (2 ^ 28 - 1) := by
    rw [hs]
    exact harrives.2
  obtain ⟨-, hstay, -⟩ := time_next_max (i := captureCycle false) rfl hmax (next_of_no_item hitem)
  rw [hpause, if_neg Bool.false_ne_true] at hstay
  have hfirst : ∀ x ∈ coincidentRun, x.enable = true := by decide
  have hrest : ∀ x ∈ captureCycle false :: captureCycle false :: w, x.enable = true := by decide
  have henable := enable_quietAfter hfirst 447392424 hrest
  have hnone : machine.AllSteps (fun t x => ¬ Arrives t x) s (captureCycle false :: w).dropLast :=
    ⟨fun h => h.1 hmax, fun h => h.1 hstay, trivial⟩
  have hclock : s.time.tune.en = false →
      (TuneClocker.next ITITime.tuningWord s.time.tune).en = true := by
    rw [hs, time_next]
    exact en_next_of_step _ _ _ _
  refine ⟨henable, harrives, hitem, hnone, ⟨captureCycle false, by simp [w], rfl⟩, ?_⟩
  rw [overflowRecords_window (by decide) hclock hmax hitem hnone, hpause]
  rfl

end UsbSniffer.Iti.ITIPacker
