/-
  Iti/Event.lean --- the event register of the capture core.

  `ITIEvent` holds one byte.  A write in the cycle in which the pending byte is
  acknowledged is kept; a write to a register whose byte still waits replaces it.
-/
import UsbSniffer.Iti.Core

set_option autoImplicit false

namespace UsbSniffer.Iti.ITICore

open UsbSniffer.Sync

/-- The payload that a reader of the format gets out of a beat of type EVENT. -/
def eventPayload (b : Beat) : List (BitVec 8) :=
  match readRecord b.bytes with
  | some ({ payloadType, diff := _, payload := some payload }, _) =>
      if payloadType = PAYLOAD_EVENT then [payload] else []
  | _ => []

/-- The payload of the EVENT record accepted from the packer in a cycle.  (The beats
of the start pattern read as EVENT records too.) -/
def sentEvent (c : In × Out) : List (BitVec 8) :=
  if c.2.patternValid then [] else (sourceBeat c).flatMap eventPayload

/-- The byte written to the event register in a cycle. -/
def writtenEvent (c : In × Out) : List (BitVec 8) :=
  if c.1.eventRe then [c.1.eventR] else []

/-- The byte that waits in the event register. -/
def pendingEvent (s : State) : List (BitVec 8) :=
  if s.packer.ev.new then [s.packer.ev.data] else []

/-- In the cycles to come another byte is written in a cycle before the one that accepts
the next EVENT record. -/
def replaced : List (In × Out) → Bool
  | [] => false
  | c :: tr =>
      if sentEvent c ≠ [] then false else if c.1.eventRe then true else replaced tr

/-- The bytes written that are not replaced while they wait. -/
def keptEvents : List (In × Out) → List (BitVec 8)
  | [] => []
  | c :: tr => (if replaced tr then [] else writtenEvent c) ++ keptEvents tr

/-! ## The register in one cycle -/

theorem eventPayload_record (r : Record) : eventPayload r.beat =
    match r with
    | .item .event _ payload => [payload]
    | _ => [] := by
  have hread := reads_record r []
  rw [List.append_nil] at hread
  unfold eventPayload
  rw [show r.beat.bytes = r.bytes from rfl, hread]
  cases r with
  | overflow => rfl
  | item kind diff payload => cases kind <;> rfl

/-- The acknowledge of the event register in a cycle. -/
def ack (s : State) (i : In) : Bool := (ITIPacker.mux s.packer (packerIn s i)).ack

/-- While the pattern is sent nothing is acknowledged. -/
theorem ack_pattern {s : State} (h : patternValid s = true) (i : In) : ack s i = false := by
  have hready : (packerIn s i).sourceReady = false := by simp [packerIn, h]
  unfold ack
  rcases ITIPacker.mux_cases s.packer (packerIn s i) with
    ⟨-, hm⟩ | ⟨-, -, hm⟩ | ⟨-, -, -, hm⟩ | ⟨-, -, -, hm⟩ <;> rw [hm]
  exact hready

theorem flatMap_beat_record (ready : Bool) (r : Record) :
    (beat true ready r.beat).flatMap eventPayload =
      if ready then eventPayload r.beat else [] := by
  cases ready <;> simp

/-- The register is acknowledged in exactly the cycles in which its byte is sent. -/
theorem sentEvent_eq (s : State) (i : In) :
    sentEvent (i, out s i) = if ack s i then pendingEvent s else [] := by
  unfold sentEvent
  cases hpattern : patternValid s with
  | true =>
    rw [ack_pattern hpattern]
    simp [out, hpattern]
  | false =>
    have hready : (packerIn s i).sourceReady = i.sourceReady := by simp [packerIn, hpattern]
    have hout : (out s i).patternValid = false ∧
        (out s i).sourceValid = (ITIPacker.out s.packer (packerIn s i)).sourceValid ∧
        (out s i).source = (ITIPacker.out s.packer (packerIn s i)).source := by
      simp [out, hpattern]
    unfold sourceBeat ack pendingEvent
    rw [hout.1, hout.2.1, hout.2.2, ← hready]
    generalize packerIn s i = j
    unfold ITIPacker.out
    rcases ITIPacker.mux_cases s.packer j with
      ⟨-, hm⟩ | ⟨-, hnew, hm⟩ | ⟨-, -, -, hm⟩ | ⟨-, -, -, hm⟩ <;> rw [hm]
    · have hsend := flatMap_beat_record j.sourceReady .overflow
      rw [eventPayload_record, ite_self] at hsend
      exact hsend
    · have hsend := flatMap_beat_record j.sourceReady
        (.item .event s.packer.time.diff s.packer.ev.data)
      rw [eventPayload_record] at hsend
      rw [hnew]
      exact hsend
    · have hsend := fun kind => flatMap_beat_record j.sourceReady
        (.item kind s.packer.time.diff j.sinkData)
      simp only [eventPayload_record] at hsend
      cases j.sinkCmd
      · exact (hsend .data).trans (ite_self _)
      · exact (hsend .rxcmd).trans (ite_self _)
    · simp

/-- What a cycle does to the register. -/
theorem pendingEvent_next (s : State) (i : In) :
    pendingEvent (next s i) =
      if i.eventRe then [i.eventR] else if ack s i then [] else pendingEvent s := by
  have hev : (next s i).packer.ev = ITIEvent.step s.packer.ev i.eventRe i.eventR (ack s i) := rfl
  unfold pendingEvent
  rw [hev]
  unfold ITIEvent.step
  cases i.eventRe <;> cases ack s i <;> simp

/-! ## Runs -/

/-- From any registers: the byte that waits is sent first, unless it is replaced. -/
theorem events_run (is : List In) (s : State) :
    moved sentEvent (machine.trace s is) ++ pendingEvent (machine.run s is) =
      (if replaced (machine.trace s is) then [] else pendingEvent s) ++
        keptEvents (machine.trace s is) := by
  induction is generalizing s with
  | nil => simp [replaced, keptEvents]
  | cons i is ih =>
    have hsent : sentEvent (i, machine.out s i) = if ack s i then pendingEvent s else [] :=
      sentEvent_eq s i
    have hnext : pendingEvent (machine.next s i) =
        if i.eventRe then [i.eventR] else if ack s i then [] else pendingEvent s :=
      pendingEvent_next s i
    rw [Machine.trace_cons, moved_cons, Machine.run_cons, List.append_assoc, ih, hnext, hsent]
    simp only [replaced, keptEvents, writtenEvent, hsent]
    generalize replaced (machine.trace (machine.next s i) is) = later
    generalize keptEvents (machine.trace (machine.next s i) is) = rest
    generalize pendingEvent s = waiting
    cases ack s i with
    | true => cases waiting <;> cases i.eventRe <;> cases later <;> simp
    | false => cases i.eventRe <;> cases later <;> simp

/-- **The events sent are the bytes written that are not replaced.**  At every cycle of
every run the payloads of the EVENT records accepted from the packer, and then the byte
that waits, are the bytes written, in order and each once, without those after which
another byte is written before their record is accepted. -/
theorem events_kept (is : List In) :
    moved sentEvent (machine.trace init is) ++ pendingEvent (machine.run init is) =
      keptEvents (machine.trace init is) := by
  rw [events_run]
  simp [pendingEvent, init, ITIPacker.init, ITIEvent.init]

/-- A cycle with a write to the event register or none, in front of a source that is not
ready. -/
def writeCycle (eventRe : Bool) (eventR : BitVec 8) : In :=
  { readyCycle with eventRe := eventRe, eventR := eventR, sourceReady := false }

/-- A start event that waits for the source is replaced by the stop event. -/
theorem event_replaced :
    moved sentEvent (machine.trace init [writeCycle true 0xe0, writeCycle true 0xf1]) ++
        pendingEvent (machine.run init [writeCycle true 0xe0, writeCycle true 0xf1]) ≠
      moved writtenEvent (machine.trace init [writeCycle true 0xe0, writeCycle true 0xf1]) := by
  decide

/-- An event that is accepted in the cycle of the next write is not. -/
example :
    moved sentEvent (machine.trace init
        [writeCycle true 0xe0, { readyCycle with eventRe := true, eventR := 0xf1 }, readyCycle]) =
      [0xe0, 0xf1] := by
  decide

end UsbSniffer.Iti.ITICore
