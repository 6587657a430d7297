/-
  Iti/Time.lean --- the time increments of the records.

  `diff` counts the pulses of `tune.en`, and an accepted record carries it away and
  clears it.  A pulse in the very cycle of the acceptance is neither in the record
  nor in the cleared counter, so what the records say falls behind by one for each
  such coincidence, and by nothing else.
-/
import UsbSniffer.Iti.Format
import UsbSniffer.Sync.Queue

set_option autoImplicit false

namespace UsbSniffer.Iti

open UsbSniffer.Sync

namespace ITIPacker

/-- `ITIPacker`. -/
def machine : Machine State In Out where
  out := out
  next := next

@[simp] theorem machine_out (s : State) (i : In) : machine.out s i = out s i := rfl

@[simp] theorem machine_next (s : State) (i : In) : machine.next s i = next s i := rfl

theorem time_next (s : State) (i : In) :
    (next s i).time = ITITime.step s.time i.enable (mux s i).next (mux s i).clear := rfl

/-! ## Any pulses -/

/-- The registers in a cycle with the given `tune.en`. -/
def withTick (s : State) (tick : Bool) : State :=
  { s with time := { s.time with tune := { s.time.tune with en := tick } } }

/-- The packer with `tune.en` for an input. -/
def pulsed : Machine State (Bool × In) Out where
  out s i := out (withTick s i.1) i.2
  next s i := next (withTick s i.1) i.2

/-- The inputs of a run, with the pulses that the packer's own clocker gives. -/
def withPulses : State → List In → List (Bool × In)
  | _, [] => []
  | s, i :: is => (s.time.tune.en, i) :: withPulses (next s i) is

/-- A run of the packer is one of the pulsed packer. -/
theorem run_withPulses (s : State) (is : List In) :
    pulsed.run s (withPulses s is) = machine.run s is := by
  induction is generalizing s with
  | nil => rfl
  | cons i is ih => exact ih (next s i)

theorem trace_withPulses (s : State) (is : List In) :
    (pulsed.trace s (withPulses s is)).map (fun c => (c.1.2, c.2)) = machine.trace s is := by
  induction is generalizing s with
  | nil => rfl
  | cons i is ih => exact congrArg (List.cons (i, out s i)) (ih (next s i))

/-! ## The law of the counter -/

/-- The time increment that a reader of the format gets out of a beat. -/
def recordDiff (b : Beat) : Nat :=
  match readRecord b.bytes with
  | some (r, _) => r.diff
  | none => 0

theorem recordDiff_record (r : Record) : recordDiff r.beat = r.diff.toNat := by
  have hread := reads_record r []
  rw [List.append_nil] at hread
  unfold recordDiff
  rw [show r.beat.bytes = r.bytes from rfl, hread]
  rfl

/-- The increment of the record accepted on source in a cycle. -/
def acceptedDiff (c : (Bool × In) × Out) : List Nat :=
  (beat c.2.sourceValid c.1.2.sourceReady c.2.source).map recordDiff

/-- `tune.en` in a cycle. -/
def ticked (c : (Bool × In) × Out) : Bool := c.1.1

/-- A cycle with a pulse in which a record is accepted. -/
def missedTick (c : (Bool × In) × Out) : Bool :=
  c.1.1 && (c.2.sourceValid && c.1.2.sourceReady)

/-- The increments accepted so far and the running one add up to the pulses so far. -/
def TimeKept (s : State) (tr : List ((Bool × In) × Out)) : Prop :=
  (moved acceptedDiff tr).sum + s.time.diff.toNat = tr.countP ticked

instance (s : State) (tr : List ((Bool × In) × Out)) : Decidable (TimeKept s tr) :=
  inferInstanceAs (Decidable (_ = _))

/-- The capture is enabled and the counter is not at its maximum. -/
def Counting (s : State) (i : Bool × In) : Prop :=
  i.2.enable = true ∧ s.time.diff ≠ BitVec.ofNat 28 (2 ^ 28 - 1)

instance (s : State) (i : Bool × In) : Decidable (Counting s i) :=
  inferInstanceAs (Decidable (_ ∧ _))

/-- No event and no captured byte is accepted in a cycle with a pulse. -/
def TickCounted (s : State) (i : Bool × In) : Prop :=
  i.1 = true → i.2.sourceReady = true → s.ev.new = false ∧ i.2.sinkValid = false

instance (s : State) (i : Bool × In) : Decidable (TickCounted s i) :=
  inferInstanceAs (Decidable (_ → _ → _ ∧ _))

/-- An accepted record clears the counter. -/
theorem step_next (s : ITITime.State) (clear : Bool) :
    (ITITime.step s true true clear).diff = 0 ∧
      (ITITime.step s true true clear).overflow = false := by
  simp [ITITime.step]

/-- Without a record the pulse is counted, and below the maximum nothing overflows. -/
theorem step_count {s : ITITime.State} (hover : s.overflow = false)
    (hdiff : s.diff ≠ BitVec.ofNat 28 (2 ^ 28 - 1)) (clear : Bool) :
    (ITITime.step s true false clear).diff = (if s.tune.en then s.diff + 1 else s.diff) ∧
      (ITITime.step s true false clear).overflow = false := by
  unfold ITITime.step
  simp only [Bool.not_true, Bool.false_eq_true, if_false, if_neg hdiff]
  exact ⟨trivial, by cases clear <;> simp [hover]⟩

/-- A pending event or a captured byte is offered with the running increment. -/
theorem out_item {s : State} {i : In} (hover : s.time.overflow = false)
    (h : ¬ (s.ev.new = false ∧ i.sinkValid = false)) :
    (mux s i).next = i.sourceReady ∧ (out s i).sourceValid = true ∧
      ∃ kind payload, (out s i).source = (Record.item kind s.time.diff payload).beat := by
  unfold out
  rcases mux_cases s i with
    ⟨hpending, -⟩ | ⟨-, -, hm⟩ | ⟨-, -, -, hm⟩ | ⟨-, hnew, hvalid, -⟩
  · rw [hover] at hpending
    cases hpending
  · rw [hm]
    exact ⟨rfl, rfl, .event, s.ev.data, rfl⟩
  · rw [hm]
    refine ⟨rfl, rfl, if i.sinkCmd then .rxcmd else .data, i.sinkData, ?_⟩
    cases i.sinkCmd <;> rfl
  · exact absurd ⟨hnew, hvalid⟩ h

/-- With neither nothing is offered. -/
theorem out_nothing {s : State} {i : In} (hover : s.time.overflow = false)
    (h : s.ev.new = false ∧ i.sinkValid = false) :
    (mux s i).next = false ∧ (out s i).sourceValid = false := by
  simp [out, mux, hover, h.1, h.2]

/-- What a cycle of the counter does while no overflow is pending: an accepted record
carries the increment away, and otherwise the pulse is counted. -/
theorem pulsed_cases {s : State} {i : Bool × In} (hover : s.time.overflow = false)
    (hcount : Counting s i) :
    (pulsed.next s i).time.overflow = false ∧
      ((¬ (s.ev.new = false ∧ i.2.sinkValid = false) ∧ i.2.sourceReady = true ∧
          acceptedDiff (i, pulsed.out s i) = [s.time.diff.toNat] ∧
          missedTick (i, pulsed.out s i) = i.1 ∧
          (pulsed.next s i).time.diff = 0) ∨
        ((i.2.sourceReady = true → s.ev.new = false ∧ i.2.sinkValid = false) ∧
          acceptedDiff (i, pulsed.out s i) = [] ∧
          missedTick (i, pulsed.out s i) = false ∧
          (pulsed.next s i).time.diff = if i.1 then s.time.diff + 1 else s.time.diff)) := by
  obtain ⟨tick, i⟩ := i
  obtain ⟨henable, hdiff⟩ := hcount
  have hpulsed : pulsed.next s (tick, i) = next (withTick s tick) i := rfl
  rw [hpulsed, time_next, henable]
  by_cases hnone : s.ev.new = false ∧ i.sinkValid = false
  · obtain ⟨hnext, hvalid⟩ := out_nothing (s := withTick s tick) hover hnone
    rw [hnext]
    obtain ⟨hcounted, hover'⟩ := step_count (s := (withTick s tick).time) hover hdiff
      (mux (withTick s tick) i).clear
    exact ⟨hover', Or.inr ⟨fun _ => hnone, by simp [acceptedDiff, pulsed, hvalid],
      by simp [missedTick, pulsed, hvalid], hcounted⟩⟩
  · obtain ⟨hnext, hvalid, kind, payload, hrecord⟩ := out_item (s := withTick s tick) hover hnone
    rw [hnext]
    cases hready : i.sourceReady with
    | true =>
      obtain ⟨hcleared, hover'⟩ := step_next (withTick s tick).time
        (mux (withTick s tick) i).clear
      refine ⟨hover', Or.inl ⟨hnone, rfl, ?_, ?_, hcleared⟩⟩
      · simp only [acceptedDiff, pulsed, hvalid, hready, beat_true_true, List.map_cons,
          List.map_nil, hrecord, recordDiff_record]
        rfl
      · simp [missedTick, pulsed, hvalid, hready]
    | false =>
      obtain ⟨hcounted, hover'⟩ := step_count (s := (withTick s tick).time) hover hdiff
        (mux (withTick s tick) i).clear
      exact ⟨hover', Or.inr ⟨by simp, by simp [acceptedDiff, pulsed, hready],
        by simp [missedTick, pulsed, hready], hcounted⟩⟩

/-- Below the maximum a counted pulse does not wrap. -/
theorem toNat_count {diff : BitVec 28} (h : diff ≠ BitVec.ofNat 28 (2 ^ 28 - 1))
    (tick : Bool) : (if tick then diff + 1 else diff).toNat = diff.toNat + tick.toNat := by
  have hne : diff.toNat ≠ 2 ^ 28 - 1 := fun heq => h (BitVec.eq_of_toNat_eq heq)
  have hlt := diff.isLt
  cases tick with
  | false => rfl
  | true =>
    rw [if_pos rfl, BitVec.toNat_add]
    simp
    omega

/-- The law of the counter for one cycle. -/
theorem diff_step {s : State} {i : Bool × In} (hover : s.time.overflow = false)
    (hcount : Counting s i) :
    (acceptedDiff (i, pulsed.out s i)).sum + (pulsed.next s i).time.diff.toNat +
        (missedTick (i, pulsed.out s i)).toNat =
      s.time.diff.toNat + i.1.toNat := by
  rcases (pulsed_cases hover hcount).2 with
    ⟨-, -, hsent, hmissed, hnext⟩ | ⟨-, hsent, hmissed, hnext⟩
  · simp [hsent, hmissed, hnext]
  · rw [hsent, hmissed, hnext, toNat_count hcount.2]
    simp

/-- The law of the counter: the increments accepted and the running one fall behind
the pulses by the pulses missed. -/
theorem time_law {s₀ : State} (hdiff : s₀.time.diff = 0) (hover : s₀.time.overflow = false)
    (is : List (Bool × In)) (hrun : pulsed.AllSteps Counting s₀ is) :
    (moved acceptedDiff (pulsed.trace s₀ is)).sum + (pulsed.run s₀ is).time.diff.toNat +
        (pulsed.trace s₀ is).countP missedTick =
      (pulsed.trace s₀ is).countP ticked := by
  have hlaw := pulsed.history_induction Counting
    (fun s tr => s.time.overflow = false ∧
      (moved acceptedDiff tr).sum + s.time.diff.toNat + tr.countP missedTick =
        tr.countP ticked)
    ⟨hover, by simp [hdiff]⟩
    (by
      rintro s tr i hcount ⟨hover, hlaw⟩
      have hstep := diff_step hover hcount
      refine ⟨(pulsed_cases hover hcount).1, ?_⟩
      rw [moved_append, moved_singleton, List.sum_append, countP_concat, countP_concat]
      have htick : ticked (i, pulsed.out s i) = i.1 := rfl
      rw [htick]
      omega)
    is hrun
  exact hlaw.2

/-! ## The nominal rate -/

theorem tune_next (s : State) (i : In) :
    (next s i).time.tune = TuneClocker.next ITITime.tuningWord s.time.tune :=
  ITITime.step_tune ..

/-- The pulses of a run that begins behind some cycle of the clocker. -/
theorem countP_ticked {s : State} {a : Nat}
    (htune : s.time.tune = TuneClocker.cycle ITITime.tuningWord (a + 1)) (is : List In) :
    (pulsed.trace s (withPulses s is)).countP ticked =
      TuneClocker.pulses ITITime.tuningWord a is.length := by
  induction is generalizing s a with
  | nil => rfl
  | cons i is ih =>
    have hnext : (next s i).time.tune = TuneClocker.cycle ITITime.tuningWord (a + 1 + 1) := by
      rw [tune_next, htune]
      rfl
    have hrest : (pulsed.trace (next s i) (withPulses (next s i) is)).countP ticked =
        TuneClocker.pulses ITITime.tuningWord (a + 1) is.length := ih hnext
    change ((_, _) :: pulsed.trace (next s i) (withPulses (next s i) is)).countP ticked = _
    rw [countP_cons_toNat, hrest, List.length_cons, TuneClocker.pulses_front, ← htune, Nat.add_comm]
    rfl

/-- The records keep the nominal time: what they and the running increment say, and the
pulses that were missed, are the whole part of what 60 MHz have in the cycles behind the
reset. -/
theorem time_nominal (i : In) (is : List In)
    (hrun : pulsed.AllSteps Counting init (withPulses init (i :: is))) :
    (moved acceptedDiff (pulsed.trace init (withPulses init (i :: is)))).sum +
        (pulsed.run init (withPulses init (i :: is))).time.diff.toNat +
        (pulsed.trace init (withPulses init (i :: is))).countP missedTick =
      is.length * ITITime.tuningWord / 2 ^ 32 := by
  have hnext : (next init i).time.tune = TuneClocker.cycle ITITime.tuningWord (0 + 1) :=
    tune_next init i
  have hticks : (pulsed.trace init (withPulses init (i :: is))).countP ticked =
      TuneClocker.pulses ITITime.tuningWord 0 is.length := by
    -- the first cycle has no pulse
    change ((_, _) :: pulsed.trace (next init i) (withPulses (next init i) is)).countP ticked = _
    rw [countP_cons_toNat, countP_ticked hnext]
    rfl
  rw [time_law rfl rfl _ hrun, hticks, TuneClocker.pulses_reset (by decide)]

/-! ## Records in cycles with a pulse -/

/-- The pulses missed are those in whose cycle a record is accepted. -/
theorem tickCounted_iff {s : State} {i : Bool × In} (hover : s.time.overflow = false)
    (hcount : Counting s i) :
    TickCounted s i ↔ ¬ missedTick (i, pulsed.out s i) = true := by
  unfold TickCounted
  rcases (pulsed_cases hover hcount).2 with ⟨hsome, hready, -, hmissed, -⟩ | ⟨hnone, -, hmissed, -⟩
  · rw [hmissed, hready]
    exact ⟨fun h htick => hsome (h htick rfl), fun h htick => absurd htick h⟩
  · rw [hmissed]
    exact ⟨fun _ h => Bool.noConfusion h, fun _ _ hready => hnone hready⟩

/-- **The records keep the time of the capture exactly when no event and no captured byte,
of data or of a command, is accepted in a cycle with a pulse.** -/
theorem timeKept_iff {s₀ : State} (hdiff : s₀.time.diff = 0)
    (hover : s₀.time.overflow = false) (is : List (Bool × In))
    (hrun : pulsed.AllSteps Counting s₀ is) :
    TimeKept (pulsed.run s₀ is) (pulsed.trace s₀ is) ↔ pulsed.AllSteps TickCounted s₀ is := by
  have hlaw := time_law hdiff hover is hrun
  have hsteps := pulsed.allSteps_iff_trace (A := TickCounted)
    (B := fun c => ¬ missedTick c = true)
    (fun s i hcount (hover : s.time.overflow = false) => (pulsed_cases hover hcount).1)
    (fun s i hcount hover => tickCounted_iff hover hcount) hover is hrun
  rw [hsteps, ← List.countP_eq_zero]
  unfold TimeKept
  omega

/-- A cycle of an enabled capture with a ready source, and a captured byte or none. -/
def captureCycle (sinkValid : Bool) : In where
  enable := true
  eventRe := false
  eventR := 0
  sinkValid := sinkValid
  sinkData := 0xa5
  sinkCmd := false
  sourceReady := true

/-- The first pulse comes in the third cycle after a reset, and so does a byte. -/
def coincidentRun : List In := [captureCycle false, captureCycle false, captureCycle true]

/-- The pulse is in no record and not in the counter. -/
theorem coincident_tick_missed :
    pulsed.AllSteps Counting init (withPulses init coincidentRun) ∧
      ¬ TimeKept (pulsed.run init (withPulses init coincidentRun))
        (pulsed.trace init (withPulses init coincidentRun)) := by
  decide

/-- A byte in the fourth cycle has the pulse in its record. -/
theorem timeKept_after_tick :
    TimeKept
        (pulsed.run init (withPulses init
          [captureCycle false, captureCycle false, captureCycle false, captureCycle true]))
        (pulsed.trace init (withPulses init
          [captureCycle false, captureCycle false, captureCycle false, captureCycle true])) ↔
      pulsed.AllSteps TickCounted init (withPulses init
          [captureCycle false, captureCycle false, captureCycle false, captureCycle true]) :=
  timeKept_iff rfl rfl _ (by decide)

end ITIPacker

end UsbSniffer.Iti
