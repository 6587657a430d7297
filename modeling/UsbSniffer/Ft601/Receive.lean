/-
  Ft601/Receive.lean --- the receive path of the FT601 bus machine.

  The read strobe that the machine drives in a cycle pops a word at the end of the
  next one, so in READ a word is popped in every cycle with `rxf_n` low, and the
  machine has to capture it in that very cycle: in the read buffer or, when the
  buffer is full, in `tempreadval`.  The branch in which READ times out captures
  nothing, and it leaves the strobe low as well.  With this step left out the
  path is a queue.
-/
import UsbSniffer.Ft601.Fsm

set_option autoImplicit false

namespace UsbSniffer.FT601Sync

open UsbSniffer.Sync

variable {dw timeout : Nat}

/-- The word kept for the read buffer. -/
def kept (s : State dw timeout) : List (BitVec dw) :=
  if s.temptoread then [s.tempreadval] else []

/-- The words accepted by the read buffer, and then the kept one, are the words that
the chip popped. -/
def ReceiveLossless (s : State dw timeout) (tr : List (In dw × Out dw)) : Prop :=
  moved bufferedWord tr ++ kept s = moved poppedByChip tr

/-- The step is not the one in which READ times out while the chip pops a word. -/
def CapturesRead (s : State dw timeout) (i : In dw) : Prop :=
  s.fsm = .read → i.rxfN = false → s.cntRead.toNat ≤ timeout

instance (s : State dw timeout) (i : In dw) : Decidable (CapturesRead s i) :=
  inferInstanceAs (Decidable (_ → _ → _))

/-- The strobe on the pin is low exactly in READ, and READ begins with no kept word.
WRITE may be entered with one, but it can only time out after a cycle that had
none. -/
structure ReceiveInv (s : State dw timeout) : Prop where
  strobe : s.rdN = false ↔ s.fsm = .read
  empty : s.fsm = .rdwait ∨ s.fsm = .read → s.temptoread = false
  counted : s.fsm = .write → s.cntWrite ≠ 0 → s.temptoread = false

theorem receiveInv_init : ReceiveInv (init : State dw timeout) where
  strobe := by simp [init]
  empty := by simp [init]
  counted := by simp [init]

/-- Outside READ the kept word is drained, and READ is entered with the strobe
low. -/
theorem receive_frame {s : State dw timeout} (i : In dw) (hfsm : s.fsm ≠ .read) :
    (next s i).temptoread = (s.temptoread && !i.readReady) ∧
      (next s i).tempreadval = s.tempreadval ∧
      bufferedWord (i, out s i) = beat s.temptoread i.readReady s.tempreadval ∧
      ((next s i).rdN = false ↔ (next s i).fsm = .read) := by
  have hbuffered : bufferedWord (i, out s i) =
      beat s.temptoread i.readReady s.tempreadval := by
    simp only [bufferedWord, out, readValid, readData]
    cases hf : s.fsm with
    | read => exact absurd hf hfsm
    | _ => cases s.temptoread <;> simp
  rw [hbuffered]
  unfold next drive
  cases hf : s.fsm with
  | read => exact absurd hf hfsm
  | idle => cases wantsWrite s i <;> cases wantsRead s i <;> simp
  | rdwait => simp
  | write =>
    by_cases htimeout : s.cntWrite.toNat > timeout <;>
      cases i.txeN <;> cases s.temptosend <;> cases i.writeValid <;> simp [htimeout]

theorem temptoread_of_wantsRead {s : State dw timeout} {i : In dw}
    (hread : wantsRead s i = true) : s.temptoread = false := by
  unfold wantsRead at hread
  cases ht : s.temptoread with
  | false => rfl
  | true => rw [ht] at hread; cases hread

/-- Where the states that must not have a kept word are entered from. -/
theorem receive_entered {s : State dw timeout} (i : In dw) (hfsm : s.fsm ≠ .read)
    (hInv : ReceiveInv s) :
    ((next s i).fsm = .rdwait ∨ (next s i).fsm = .read → s.temptoread = false) ∧
      ((next s i).fsm = .write → (next s i).cntWrite ≠ 0 → s.temptoread = false) := by
  unfold next
  cases hf : s.fsm with
  | read => exact absurd hf hfsm
  | rdwait => exact ⟨fun _ => hInv.empty (Or.inl hf), by simp⟩
  | idle =>
    cases hwrite : wantsWrite s i with
    | true => simp
    | false =>
      cases hread : wantsRead s i with
      | false => simp
      | true =>
        have hnone := temptoread_of_wantsRead hread
        exact ⟨fun _ => hnone, fun _ _ => hnone⟩
  | write =>
    constructor
    · -- only the time-out leads to RDWAIT, and it needs a counted cycle
      intro hnext
      refine hInv.counted hf ?_
      intro hzero
      rw [hzero] at hnext
      revert hnext
      cases i.txeN <;> cases s.temptosend <;> cases i.writeValid <;> simp
    · intro _ hcount
      cases hread : wantsRead s i with
      | true => exact temptoread_of_wantsRead hread
      | false =>
        refine hInv.counted hf ?_
        intro hzero
        apply hcount
        simp only [hread, hzero]
        cases i.txeN <;> cases s.temptosend <;> cases i.writeValid <;> simp

/-- What a cycle of READ does that captures the popped word: nothing is popped, the
word goes into the buffer, or the word is kept. -/
theorem receive_read {s : State dw timeout} {i : In dw} (hfsm : s.fsm = .read)
    (hok : CapturesRead s i) :
    (i.rxfN = true ∧ bufferedWord (i, out s i) = [] ∧ (next s i).rdN = true ∧
      (next s i).fsm = .idle ∧ (next s i).temptoread = s.temptoread ∧
      (next s i).tempreadval = s.tempreadval) ∨
    (i.rxfN = false ∧ bufferedWord (i, out s i) = [i.dataR] ∧ (next s i).rdN = false ∧
      (next s i).fsm = .read ∧ (next s i).temptoread = s.temptoread) ∨
    (i.rxfN = false ∧ bufferedWord (i, out s i) = [] ∧ (next s i).rdN = true ∧
      (next s i).fsm = .idle ∧ (next s i).temptoread = true ∧
      (next s i).tempreadval = i.dataR) := by
  simp only [bufferedWord, out, readValid, readData, next, drive, hfsm]
  cases hrxf : i.rxfN with
  | true => simp
  | false =>
    have hcount : ¬ s.cntRead.toNat > timeout := by
      have := hok hfsm hrxf
      omega
    cases i.readReady <;> simp [hcount]

theorem receive_step_other {s : State dw timeout} (i : In dw) (hfsm : s.fsm ≠ .read)
    (hInv : ReceiveInv s) :
    ReceiveInv (next s i) ∧
      QueueStep (kept s) (poppedByChip (i, out s i)) (bufferedWord (i, out s i))
        (kept (next s i)) := by
  obtain ⟨htemp, hval, hbuffered, hstrobe⟩ := receive_frame i hfsm
  obtain ⟨hempty, hcounted⟩ := receive_entered i hfsm hInv
  have hidle : s.rdN = true := by
    cases hrd : s.rdN with
    | true => rfl
    | false => exact absurd (hInv.strobe.mp hrd) hfsm
  refine ⟨⟨hstrobe, fun h => ?_, fun h hc => ?_⟩, ?_⟩
  · rw [htemp, hempty h]
    rfl
  · rw [htemp, hcounted h hc]
    rfl
  · have hpopped : poppedByChip (i, out s i) = [] := by simp [poppedByChip, out, hidle]
    unfold QueueStep kept
    rw [hpopped, hbuffered, htemp, hval]
    cases s.temptoread <;> cases i.readReady <;> simp

theorem receive_step_read {s : State dw timeout} {i : In dw} (hfsm : s.fsm = .read)
    (hok : CapturesRead s i) (hInv : ReceiveInv s) :
    ReceiveInv (next s i) ∧
      QueueStep (kept s) (poppedByChip (i, out s i)) (bufferedWord (i, out s i))
        (kept (next s i)) := by
  have hpopped : poppedByChip (i, out s i) = beat true (!i.rxfN) i.dataR := by
    simp [poppedByChip, out, hInv.strobe.mpr hfsm]
  have hnone := hInv.empty (Or.inr hfsm)
  unfold QueueStep kept
  rw [hpopped, hnone]
  rcases receive_read hfsm hok with
    ⟨hrxf, hbuffered, hrd, hnext, htemp, hval⟩ |
    ⟨hrxf, hbuffered, hrd, hnext, htemp⟩ |
    ⟨hrxf, hbuffered, hrd, hnext, htemp, hval⟩
  · refine ⟨⟨by simp [hrd, hnext], by simp [hnext], by simp [hnext]⟩, ?_⟩
    simp [hrxf, hbuffered, htemp, hnone]
  · refine ⟨⟨by simp [hrd, hnext], by simp [htemp, hnone], by simp [hnext]⟩, ?_⟩
    simp [hrxf, hbuffered, htemp, hnone]
  · refine ⟨⟨by simp [hrd, hnext], by simp [hnext], by simp [hnext]⟩, ?_⟩
    simp [hrxf, hbuffered, htemp, hval]

/-- In steps that capture what they pop the receive path is a queue of one word. -/
theorem receive_refinesQueue :
    RefinesQueue (machine dw timeout) CapturesRead ReceiveInv kept poppedByChip
      bufferedWord where
  inv s i hok hInv := by
    by_cases hfsm : s.fsm = .read
    · exact (receive_step_read hfsm hok hInv).1
    · exact (receive_step_other i hfsm hInv).1
  step s i hok hInv := by
    by_cases hfsm : s.fsm = .read
    · exact (receive_step_read hfsm hok hInv).2
    · exact (receive_step_other i hfsm hInv).2

/-- **The receive path loses nothing** in a run in which READ never times out while
the chip pops a word, at any of its cycles. -/
theorem receive_lossless (is : List (In dw))
    (hok : (machine dw timeout).AllSteps CapturesRead init is) :
    ReceiveLossless ((machine dw timeout).run init is)
      ((machine dw timeout).trace init is) :=
  (receive_refinesQueue.run receiveInv_init is hok).symm

/-- A cycle with the given flags of the chip, a word on the bus and a ready read
buffer. -/
def receiveCycle (txeN rxfN : Bool) (dataR : BitVec 32) : In 32 :=
  ⟨txeN, rxfN, dataR, true, 0, true⟩

/-- The chip has words to read and room to write, and `write_fifo` a word to send,
so that READ times out after 1025 words. -/
def readTimeoutRun : List (In 32) :=
  [receiveCycle true false 0, receiveCycle true false 0] ++
    List.replicate 1026 (receiveCycle false false 5)

/-- The time-out of READ loses a word, with the time-out of the SoC. -/
theorem receive_loses_word :
    ¬ ReceiveLossless ((machine 32 1024).run init readTimeoutRun)
        ((machine 32 1024).trace init readTimeoutRun) := by
  unfold ReceiveLossless
  decide +kernel

/-- A run that captures each popped word: the read buffer is full in mid-burst and
the kept word is drained later. -/
theorem receive_lossless_stall :
    ReceiveLossless
      ((machine 32 1024).run init
        [receiveCycle true false 1, receiveCycle true false 1, receiveCycle true false 1,
          { receiveCycle true false 2 with readReady := false }, receiveCycle true false 3])
      ((machine 32 1024).trace init
        [receiveCycle true false 1, receiveCycle true false 1, receiveCycle true false 1,
          { receiveCycle true false 2 with readReady := false }, receiveCycle true false 3]) :=
  receive_lossless _ (by decide)

end UsbSniffer.FT601Sync
