/-
  Ft601/Transmit.lean --- the transmit path of the FT601 bus machine.

  In a cycle of WRITE after the first one, the word of the cycle before is on the
  output register and the machine sees whether the chip takes it.  When `txe_n`
  has risen the word must be sent again, and `temptosend` says so; but the branch
  asks `write_fifo` for another word before it sets the flag, and the time-out
  branch turns the bus round without setting it at all.  In both the word in
  flight is lost.  With these two steps left out the path is a queue.
-/
import UsbSniffer.Ft601.Fsm

set_option autoImplicit false

namespace UsbSniffer.FT601Sync

open UsbSniffer.Sync

variable {dw timeout : Nat}

/-- The popped words that the chip has not taken are none, the one in flight on the
output register, or the one kept to be sent again. -/
def TransmitLossless (s : State dw timeout) (tr : List (In dw × Out dw)) : Prop :=
  ∃ rest, moved poppedWord tr = moved takenByChip tr ++ rest ∧
    (rest = [] ∨ (s.wrN = false ∧ rest = [s.dataW]) ∨
      (s.temptosend = true ∧ rest = [s.tempsendval]))

/-- The step is neither of the two that lose the word in flight: `txe_n` rises after
the first cycle of WRITE while `write_fifo` is empty, or WRITE times out. -/
def KeepsInFlight (s : State dw timeout) (i : In dw) : Prop :=
  s.fsm = .write →
    (i.txeN = true → s.firstWrite = false → i.writeValid = true) ∧
      (i.txeN = false → s.temptosend = false → s.cntWrite.toNat ≤ timeout)

instance (s : State dw timeout) (i : In dw) : Decidable (KeepsInFlight s i) :=
  inferInstanceAs (Decidable (_ → _ ∧ _))

/-- The popped words not yet taken. -/
def pending (s : State dw timeout) : List (BitVec dw) :=
  if s.wrN = false then [s.dataW] else if s.temptosend then [s.tempsendval] else []

/-- A word is in flight in every cycle of WRITE but the first, and in no other
cycle; then `tempsendval` is a copy of it that is not marked to be sent. -/
structure TransmitInv (s : State dw timeout) : Prop where
  inFlight : s.wrN = false ↔ s.fsm = .write ∧ s.firstWrite = false
  copy : s.wrN = false → s.temptosend = false ∧ s.dataW = s.tempsendval

theorem transmitInv_init : TransmitInv (init : State dw timeout) where
  inFlight := by simp [init]
  copy := by simp [init]

/-- Outside WRITE nothing is driven to the chip, nothing is popped, the kept word
stays, and WRITE is entered with its first cycle. -/
theorem transmit_frame {s : State dw timeout} (i : In dw) (hfsm : s.fsm ≠ .write) :
    (next s i).wrN = true ∧ (next s i).temptosend = s.temptosend ∧
      (next s i).tempsendval = s.tempsendval ∧
      ((next s i).fsm = .write → (next s i).firstWrite = true) ∧
      poppedWord (i, out s i) = [] := by
  unfold poppedWord out next drive
  cases hf : s.fsm with
  | write => exact absurd hf hfsm
  | idle => cases wantsWrite s i <;> cases wantsRead s i <;> simp
  | rdwait => simp
  | read =>
    by_cases htimeout : s.cntRead.toNat > timeout <;>
      cases i.rxfN <;> cases i.readReady <;> simp [htimeout]

/-- What a cycle of WRITE does that loses no word: `txe_n` sends the word in flight
back to the kept one, the kept word goes out, a popped word goes out, or there is
nothing to send. -/
theorem transmit_write {s : State dw timeout} {i : In dw} (hfsm : s.fsm = .write)
    (hok : KeepsInFlight s i) :
    (i.txeN = true ∧ (next s i).wrN = true ∧ (next s i).tempsendval = s.tempsendval ∧
      (next s i).temptosend = (!s.firstWrite || s.temptosend) ∧
      (next s i).fsm = .idle ∧ (out s i).writeReady = false) ∨
    (i.txeN = false ∧ s.temptosend = true ∧ (next s i).wrN = false ∧
      (next s i).dataW = s.tempsendval ∧ (next s i).tempsendval = s.tempsendval ∧
      (next s i).temptosend = false ∧ (next s i).fsm = .write ∧
      (next s i).firstWrite = false ∧ (out s i).writeReady = false ∧
      (out s i).oeN = true) ∨
    (i.txeN = false ∧ s.temptosend = false ∧ i.writeValid = true ∧
      (next s i).wrN = false ∧ (next s i).dataW = i.writeData ∧
      (next s i).tempsendval = i.writeData ∧ (next s i).temptosend = false ∧
      (next s i).fsm = .write ∧ (next s i).firstWrite = false ∧
      (out s i).writeReady = true ∧ (out s i).oeN = true) ∨
    (i.txeN = false ∧ s.temptosend = false ∧ i.writeValid = false ∧
      (next s i).wrN = true ∧ (next s i).temptosend = false ∧ (next s i).fsm = .idle ∧
      (out s i).writeReady = false ∧ (out s i).oeN = true) := by
  obtain ⟨hretry, htimeout⟩ := hok hfsm
  unfold out next drive
  simp only [hfsm]
  cases htxe : i.txeN with
  | true =>
    left
    cases hfirst : s.firstWrite with
    | true => simp
    | false => simp [hretry htxe hfirst]
  | false =>
    right
    cases hsend : s.temptosend with
    | true => simp
    | false =>
      have hcount : ¬ s.cntWrite.toNat > timeout := by
        have := htimeout htxe hsend
        omega
      cases hvalid : i.writeValid <;> simp [hcount]

/-- In WRITE the word in flight is there exactly after the first cycle. -/
theorem TransmitInv.wrN_write {s : State dw timeout} (h : TransmitInv s)
    (hfsm : s.fsm = .write) : s.wrN = s.firstWrite := by
  cases hfirst : s.firstWrite with
  | false => exact h.inFlight.mpr ⟨hfsm, hfirst⟩
  | true =>
    cases hwr : s.wrN with
    | true => rfl
    | false =>
      rw [(h.inFlight.mp hwr).2] at hfirst
      cases hfirst

/-- Outside WRITE no word is in flight. -/
theorem TransmitInv.wrN_other {s : State dw timeout} (h : TransmitInv s)
    (hfsm : s.fsm ≠ .write) : s.wrN = true := by
  cases hwr : s.wrN with
  | true => rfl
  | false => exact absurd (h.inFlight.mp hwr).1 hfsm

/-- In WRITE `tempsendval` holds the pending word, if there is one. -/
theorem TransmitInv.pending_write {s : State dw timeout} (h : TransmitInv s)
    (hfsm : s.fsm = .write) :
    pending s = if s.firstWrite = false ∨ s.temptosend = true then [s.tempsendval] else [] := by
  have hflight := h.wrN_write hfsm
  unfold pending
  rw [hflight]
  cases hfirst : s.firstWrite with
  | false =>
    obtain ⟨-, hcopy⟩ := h.copy (hflight.trans hfirst)
    simp [hcopy]
  | true => simp

/-- A step of WRITE that loses no word. -/
theorem transmit_step_write {s : State dw timeout} {i : In dw} (hfsm : s.fsm = .write)
    (hok : KeepsInFlight s i) (hInv : TransmitInv s) :
    TransmitInv (next s i) ∧
      QueueStep (pending s) (poppedWord (i, out s i)) (takenByChip (i, out s i))
        (pending (next s i)) := by
  have htaken : takenByChip (i, out s i) =
      beat (!s.firstWrite) (!i.txeN && (out s i).oeN) s.dataW := by
    rw [← hInv.wrN_write hfsm]
    rfl
  have hcopy : s.firstWrite = false → s.dataW = s.tempsendval := fun hfirst =>
    (hInv.copy ((hInv.wrN_write hfsm).trans hfirst)).2
  unfold QueueStep poppedWord
  rw [htaken, hInv.pending_write hfsm]
  rcases transmit_write hfsm hok with
    ⟨htxe, hwr, hval, hsend, hnext, hpop⟩ |
    ⟨htxe, hsend, hwr, hdata, hval, hsend', hnext, hfirst, hpop, hoe⟩ |
    ⟨htxe, hsend, hvalid, hwr, hdata, hval, hsend', hnext, hfirst, hpop, hoe⟩ |
    ⟨htxe, hsend, hvalid, hwr, hsend', hnext, hpop, hoe⟩
  · -- not taken: the word in flight becomes the kept word
    refine ⟨⟨by simp [hwr, hnext], by simp [hwr]⟩, ?_⟩
    simp only [htxe, hpop, pending, hwr, hsend, hval]
    cases s.firstWrite <;> cases s.temptosend <;> simp
  · -- the kept word goes out, in the first cycle
    refine ⟨⟨by simp [hwr, hnext, hfirst], by simp [hdata, hval, hsend']⟩, ?_⟩
    have hidle : s.firstWrite = true := by
      cases hf : s.firstWrite with
      | true => rfl
      | false =>
        rw [(hInv.copy ((hInv.wrN_write hfsm).trans hf)).1] at hsend
        cases hsend
    simp [pending, hpop, hwr, hdata, hsend, hidle]
  · -- the word in flight is taken and the next one goes out
    refine ⟨⟨by simp [hwr, hnext, hfirst], by simp [hdata, hval, hsend']⟩, ?_⟩
    simp only [pending, hpop, hwr, hdata, hsend, hvalid, htxe, hoe]
    cases hf : s.firstWrite with
    | true => simp
    | false => simp [hcopy hf]
  · -- the word in flight is taken and there is no other
    refine ⟨⟨by simp [hwr, hnext], by simp [hwr]⟩, ?_⟩
    simp only [pending, hpop, hwr, hsend, hsend', hvalid, htxe, hoe]
    cases hf : s.firstWrite with
    | true => simp
    | false => simp [hcopy hf]

/-- A step outside WRITE. -/
theorem transmit_step_other {s : State dw timeout} {i : In dw} (hfsm : s.fsm ≠ .write)
    (hInv : TransmitInv s) :
    TransmitInv (next s i) ∧
      QueueStep (pending s) (poppedWord (i, out s i)) (takenByChip (i, out s i))
        (pending (next s i)) := by
  obtain ⟨hwr, hsend, hval, hfirst, hpop⟩ := transmit_frame i hfsm
  have hidle := hInv.wrN_other hfsm
  refine ⟨⟨?_, by simp [hwr]⟩, ?_⟩
  · rw [hwr]
    constructor
    · intro h
      cases h
    · rintro ⟨hwrite, hlow⟩
      rw [hfirst hwrite] at hlow
      cases hlow
  · have htaken : takenByChip (i, out s i) = [] := by
      simp [takenByChip, out, hidle]
    unfold QueueStep
    rw [htaken, hpop]
    simp [pending, hwr, hsend, hval, hidle]

/-- In steps that keep the word in flight the transmit path is a queue of one
word. -/
theorem transmit_refinesQueue :
    RefinesQueue (machine dw timeout) KeepsInFlight TransmitInv pending poppedWord
      takenByChip where
  inv s i hok hInv := by
    by_cases hfsm : s.fsm = .write
    · exact (transmit_step_write hfsm hok hInv).1
    · exact (transmit_step_other hfsm hInv).1
  step s i hok hInv := by
    by_cases hfsm : s.fsm = .write
    · exact (transmit_step_write hfsm hok hInv).2
    · exact (transmit_step_other hfsm hInv).2

/-- **The transmit path loses nothing** in a run that never meets one of the two
losing steps, at any of its cycles. -/
theorem transmit_lossless (is : List (In dw))
    (hok : (machine dw timeout).AllSteps KeepsInFlight init is) :
    TransmitLossless ((machine dw timeout).run init is)
      ((machine dw timeout).trace init is) := by
  have hrun := transmit_refinesQueue.run transmitInv_init is hok
  refine ⟨pending ((machine dw timeout).run init is), hrun, ?_⟩
  unfold pending
  split_ifs with hwr hsend
  · exact Or.inr (Or.inl ⟨hwr, rfl⟩)
  · exact Or.inr (Or.inr ⟨hsend, rfl⟩)
  · exact Or.inl rfl

/-- A cycle with the given flags of the chip and a word of `write_fifo`. -/
def transmitCycle (txeN rxfN writeValid : Bool) (writeData : BitVec 32) : In 32 :=
  ⟨txeN, rxfN, 0, writeValid, writeData, true⟩

/-- A word is sent, `txe_n` rises while `write_fifo` is empty, and when it falls
again the next word is sent. -/
def fifoEmptyRun : List (In 32) :=
  [transmitCycle false true true 1, transmitCycle false true true 1,
    transmitCycle true true false 0, transmitCycle false true true 2,
    transmitCycle false true true 2, transmitCycle false true false 0]

/-- The chip has a word to read all the while, so that WRITE times out after 1025
words; then another word is sent. -/
def writeTimeoutRun : List (In 32) :=
  List.replicate 1028 (transmitCycle false false true 7) ++
    [transmitCycle false true true 8, transmitCycle false true true 8,
      transmitCycle false true true 8, transmitCycle false true false 0]

theorem not_transmitLossless_of_lost {s : State dw timeout}
    {tr : List (In dw × Out dw)} (h : ¬ moved takenByChip tr <+: moved poppedWord tr) :
    ¬ TransmitLossless s tr := by
  rintro ⟨rest, hrest, -⟩
  exact h ⟨rest, hrest.symm⟩

/-- Both losing steps lose a word, with the time-out of the SoC. -/
theorem transmit_loses_word :
    ¬ TransmitLossless ((machine 32 1024).run init fifoEmptyRun)
        ((machine 32 1024).trace init fifoEmptyRun) ∧
      ¬ TransmitLossless ((machine 32 1024).run init writeTimeoutRun)
        ((machine 32 1024).trace init writeTimeoutRun) :=
  ⟨not_transmitLossless_of_lost (by decide),
    not_transmitLossless_of_lost (by decide +kernel)⟩

/-- A run that meets neither: `txe_n` rises while another word waits. -/
theorem transmit_lossless_retry :
    TransmitLossless
      ((machine 32 1024).run init
        [transmitCycle false true true 1, transmitCycle false true true 1,
          transmitCycle true true true 2, transmitCycle false true true 2])
      ((machine 32 1024).trace init
        [transmitCycle false true true 1, transmitCycle false true true 1,
          transmitCycle true true true 2, transmitCycle false true true 2]) :=
  transmit_lossless _ (by decide)

end UsbSniffer.FT601Sync
