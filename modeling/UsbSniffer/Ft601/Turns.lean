/-
  Ft601/Turns.lean --- who gets the bus of the FT601 (gateware/ft601.py, FT601Sync).

  A burst of one direction is cut off when the other one has waited for `timeout` cycles,
  so that with words waiting on both sides each gets its turn.  But the count of a burst
  starts over with the next one.  A writer whose FIFO is empty in every third cycle ends
  its bursts by itself, and takes the bus again before the reader gets it.
-/
import UsbSniffer.Ft601.Counters
import UsbSniffer.Sync.Progress

set_option autoImplicit false

namespace UsbSniffer.FT601Sync

open UsbSniffer.Sync

variable {dw timeout : Nat}

/-! ## Words waiting on both sides -/

/-- There is a word to write, and the chip has room for it. -/
def CanWrite (i : In dw) : Prop := i.txeN = false ∧ i.writeValid = true

/-- There is a word to read, and the read buffer has room for it. -/
def CanRead (i : In dw) : Prop := i.rxfN = false ∧ i.readReady = true

theorem wantsWrite_of_canWrite (s : State dw timeout) {i : In dw} (h : CanWrite i) :
    wantsWrite s i = true := by
  simp [wantsWrite, h.1, h.2]

/-- The cycles that are left before a counter is past `timeout`. -/
def cyclesLeft (timeout : Nat) (cnt : BitVec (bitsFor timeout)) : Nat := timeout + 1 - cnt.toNat

/-- A count takes one off, if the counter does not wrap. -/
theorem cyclesLeft_add_one (hbits : timeout + 1 < 2 ^ bitsFor timeout)
    {cnt : BitVec (bitsFor timeout)} (hcnt : cnt.toNat ≤ timeout) :
    cyclesLeft timeout (cnt + 1#_) + 1 = cyclesLeft timeout cnt := by
  have hadd : (cnt + 1#_).toNat = cnt.toNat + 1 := by
    rw [BitVec.toNat_add, BitVec.toNat_ofNat, Nat.add_mod_mod, Nat.mod_eq_of_lt (by omega)]
  unfold cyclesLeft
  omega

/-- The cycles before a writer gets the bus. -/
def writeRank (s : State dw timeout) : Nat :=
  match s.fsm with
  | .write => 0
  | .idle => 1
  | .read => 2 + cyclesLeft timeout s.cntRead
  | .rdwait => 3 + (timeout + 1)

theorem writeRank_falls (hbits : timeout + 1 < 2 ^ bitsFor timeout) (s : State dw timeout)
    (i : In dw) (hwrite : CanWrite i) (hfsm : s.fsm ≠ .write) :
    writeRank (next s i) < writeRank s := by
  have hwants := wantsWrite_of_canWrite s hwrite
  cases h : s.fsm with
  | write => exact absurd h hfsm
  | idle => simp [writeRank, next, h, hwants]
  | rdwait => simp [writeRank, next, h, cyclesLeft]
  | read =>
    have hrank : writeRank s = 2 + cyclesLeft timeout s.cntRead := by simp only [writeRank, h]
    cases hrxf : i.rxfN with
    | true =>
      have hidle : writeRank (next s i) = 1 := by simp [writeRank, next, h, hrxf, hwants]
      omega
    | false =>
      by_cases htimeout : s.cntRead.toNat > timeout
      · have hturn : writeRank (next s i) = 0 := by simp [writeRank, next, h, htimeout, hrxf]
        omega
      · have hstep := cyclesLeft_add_one hbits (Nat.not_lt.mp htimeout)
        cases hready : i.readReady with
        | true =>
          have hcounted : writeRank (next s i) = 2 + cyclesLeft timeout (s.cntRead + 1#_) := by
            simp [writeRank, next, h, htimeout, hrxf, hready, hwants]
          omega
        | false =>
          have hidle : writeRank (next s i) = 1 := by
            simp [writeRank, next, h, htimeout, hrxf, hready]
          omega

/-- The cycles before a reader gets it: a kept word of either direction takes one more. -/
def readRank (s : State dw timeout) : Nat :=
  match s.fsm with
  | .read => 0
  | .rdwait => 1
  | .write => 2 + cyclesLeft timeout s.cntWrite + s.temptosend.toNat + s.temptoread.toNat
  | .idle => 3 + (timeout + 1) + s.temptosend.toNat + s.temptoread.toNat

/-- A kept word is sent in the first cycle of a burst, before anything is counted. -/
def KeptFirst (s : State dw timeout) : Prop :=
  s.fsm = .write → s.temptosend = true → s.cntWrite = 0

theorem keptFirst_next {s : State dw timeout} (i : In dw) : KeptFirst (next s i) := by
  intro hnext hsend
  by_cases hfsm : s.fsm = .write
  · rw [(write_goesOn hfsm hnext).2] at hsend
    cases hsend
  · rw [cntWrite_other i hfsm, if_pos hnext]

theorem readRank_falls (hbits : timeout + 1 < 2 ^ bitsFor timeout) {s : State dw timeout}
    (hInv : KeptFirst s) {i : In dw} (hwrite : CanWrite i) (hread : CanRead i)
    (hfsm : s.fsm ≠ .read) : readRank (next s i) < readRank s := by
  have hwants := wantsWrite_of_canWrite s hwrite
  obtain ⟨htxe, hvalid⟩ := hwrite
  obtain ⟨hrxf, hready⟩ := hread
  cases h : s.fsm with
  | read => exact absurd h hfsm
  | rdwait => simp [readRank, next, h]
  | idle => simp [readRank, next, h, hwants, hready, cyclesLeft]; omega
  | write =>
    have hrank : readRank s = 2 + cyclesLeft timeout s.cntWrite + s.temptosend.toNat +
        s.temptoread.toNat := by simp only [readRank, h]
    -- the cycle is counted, unless it takes a kept word to the read buffer
    have hwantsRead : wantsRead s i = !s.temptoread := by simp [wantsRead, hrxf]
    cases hsend : s.temptosend with
    | true =>
      have hzero : s.cntWrite.toNat ≤ timeout := by
        rw [hInv h hsend]
        exact Nat.zero_le _
      have hstep := cyclesLeft_add_one hbits hzero
      rw [hsend, Bool.toNat_true] at hrank
      cases hkept : s.temptoread with
      | true =>
        have hcleared : readRank (next s i) = 2 + cyclesLeft timeout s.cntWrite := by
          simp [readRank, next, h, htxe, hsend, hready, hwantsRead, hkept]
        omega
      | false =>
        have hcounted : readRank (next s i) = 2 + cyclesLeft timeout (s.cntWrite + 1#_) := by
          simp [readRank, next, h, htxe, hsend, hready, hwantsRead, hkept]
        omega
    | false =>
      by_cases htimeout : s.cntWrite.toNat > timeout
      · have hleft : readRank (next s i) = 1 := by
          simp [readRank, next, h, htxe, hsend, htimeout]
        omega
      · have hstep := cyclesLeft_add_one hbits (Nat.not_lt.mp htimeout)
        rw [hsend, Bool.toNat_false, Nat.add_zero] at hrank
        cases hkept : s.temptoread with
        | true =>
          rw [hkept, Bool.toNat_true] at hrank
          have hcleared : readRank (next s i) = 2 + cyclesLeft timeout s.cntWrite := by
            simp [readRank, next, h, htxe, hsend, htimeout, hvalid, hready, hwantsRead, hkept]
          omega
        | false =>
          have hcounted : readRank (next s i) = 2 + cyclesLeft timeout (s.cntWrite + 1#_) := by
            simp [readRank, next, h, htxe, hsend, htimeout, hvalid, hready, hwantsRead, hkept]
          omega

/-- **Both sides get their turn.**  Unless `timeout` fills its bits, a writer that has words
for the chip gets the bus within `timeout + 5` cycles from any state that is reached, and
with words waiting on both sides the reader gets it within `timeout + 6`. -/
theorem turns_taken (hpow : ∀ k, timeout + 1 ≠ 2 ^ k) (is js : List (In dw))
    (hwrite : ∀ j ∈ js, CanWrite j) (hlen : timeout + 6 < js.length) :
    let s := (machine dw timeout).run init is
    (∃ n ≤ timeout + 5, ((machine dw timeout).run s (js.take n)).fsm = .write) ∧
      ((∀ j ∈ js, CanRead j) →
        ∃ n ≤ timeout + 6, ((machine dw timeout).run s (js.take n)).fsm = .read) := by
  intro s
  have hbits := succ_lt_two_pow_bitsFor hpow
  constructor
  · have hrank : writeRank s ≤ timeout + 5 := by
      unfold writeRank cyclesLeft
      cases s.fsm <;> dsimp only <;> omega
    have hfalls : ∀ (s : State dw timeout) (j : In dw), CanWrite j → True → ¬ s.fsm = .write →
        writeRank ((machine dw timeout).next s j) < writeRank s :=
      fun s j hj _ hgoal => writeRank_falls hbits s j hj hgoal
    obtain ⟨n, hn, hreached⟩ := Machine.reaches writeRank (fun _ _ _ _ => trivial) hfalls trivial
      js (Machine.allSteps_of_mem s hwrite) (by omega)
    exact ⟨n, by omega, hreached⟩
  · intro hread
    have hrank : readRank s ≤ timeout + 6 := by
      have hsend := Bool.toNat_le s.temptosend
      have hkept := Bool.toNat_le s.temptoread
      unfold readRank cyclesLeft
      cases s.fsm <;> dsimp only <;> omega
    have hkeeps : ∀ (s : State dw timeout) (j : In dw), CanWrite j ∧ CanRead j → KeptFirst s →
        KeptFirst ((machine dw timeout).next s j) := fun _ j _ _ => keptFirst_next j
    have hfalls : ∀ (s : State dw timeout) (j : In dw), CanWrite j ∧ CanRead j → KeptFirst s →
        ¬ s.fsm = .read → readRank ((machine dw timeout).next s j) < readRank s :=
      fun s j hj hkept hgoal => readRank_falls hbits hkept hj.1 hj.2 hgoal
    have hInv : KeptFirst s :=
      (machine dw timeout).history_induction_always (fun s _ => KeptFirst s)
        (fun h => by cases h) (fun _ _ i _ => keptFirst_next i) is
    obtain ⟨n, hn, hreached⟩ := Machine.reaches readRank hkeeps hfalls hInv js
      (Machine.allSteps_of_mem s fun j hj => ⟨hwrite j hj, hread j hj⟩) (by omega)
    exact ⟨n, by omega, hreached⟩

/-- The turns under contention, with the time-out of the SoC. -/
theorem turns_taken_soc :
    (∃ n ≤ 1024 + 5, ((machine 32 1024).run ((machine 32 1024).run init [])
        ((List.replicate 2000 (contended 32)).take n)).fsm = .write) ∧
      ((∀ j ∈ List.replicate 2000 (contended 32), CanRead j) →
        ∃ n ≤ 1024 + 6, ((machine 32 1024).run ((machine 32 1024).run init [])
          ((List.replicate 2000 (contended 32)).take n)).fsm = .read) := by
  refine turns_taken ?_ [] (List.replicate 2000 (contended 32)) ?_ ?_
  · intro k
    have hpow : ∀ k < 12, 1024 + 1 ≠ 2 ^ k := by decide
    rcases Nat.lt_or_ge k 12 with hlt | hge
    · exact hpow k hlt
    · have := Nat.pow_le_pow_right (show 0 < 2 by decide) hge
      omega
  · intro j hj
    rw [List.eq_of_mem_replicate hj]
    exact ⟨rfl, rfl⟩
  · rw [List.length_replicate]
    decide

/-! ## A writer with gaps -/

/-- A cycle in which the chip has a word to read and room for one to write, with a ready
read buffer. -/
def gapCycle (dataR : BitVec dw) (writeValid : Bool) (w : BitVec dw) : In dw :=
  ⟨false, false, dataR, writeValid, w, true⟩

/-- The words, with a cycle in which `write_fifo` is empty behind each of them. -/
def gapped (dataR : BitVec dw) (ws : List (BitVec dw)) : List (In dw) :=
  ws.flatMap fun w => [gapCycle dataR true w, gapCycle dataR true w, gapCycle dataR false 0]

/-- IDLE, with no word kept or on its way to the chip. -/
structure Clear (s : State dw timeout) : Prop where
  fsm : s.fsm = .idle
  wrN : s.wrN = true
  rdN : s.rdN = true
  temptosend : s.temptosend = false
  temptoread : s.temptoread = false

theorem takenByChip_of_high {s : State dw timeout} (h : s.wrN = true) (i : In dw) :
    takenByChip (i, out s i) = [] := by
  simp [takenByChip, out, h]

theorem poppedByChip_of_high {s : State dw timeout} (h : s.rdN = true) (i : In dw) :
    poppedByChip (i, out s i) = [] := by
  simp [poppedByChip, out, h]

/-- In the first of the three cycles the bus is taken. -/
theorem Clear.next_first {s : State dw timeout} (h : Clear s) (dataR w : BitVec dw) :
    next s (gapCycle dataR true w) =
      { s with
        dataW := 0
        oeN := true
        cntWrite := 0
        firstWrite := true
        fsm := .write } := by
  obtain ⟨hfsm, hwr, hrd, hsend, hread⟩ := h
  simp [next, drive, wantsWrite, gapCycle, hfsm, hwr, hrd, hsend, hread]

/-- In the second one the word goes out. -/
theorem Clear.next_second {s : State dw timeout} (h : Clear s) (dataR w : BitVec dw) :
    let s₂ := (machine dw timeout).run s [gapCycle dataR true w, gapCycle dataR true w]
    s₂.fsm = .write ∧ s₂.wrN = false ∧ s₂.rdN = true ∧ s₂.dataW = w ∧ s₂.temptosend = false ∧
      s₂.temptoread = false ∧ s₂.cntWrite.toNat ≤ 1 := by
  intro s₂
  have hs₂ : s₂ = next (next s (gapCycle dataR true w)) (gapCycle dataR true w) := rfl
  rw [hs₂, h.next_first]
  simp [next, drive, wantsRead, gapCycle, h.temptosend, h.temptoread]
  exact Nat.mod_le 1 _

/-- A word goes out and the bus is free for one cycle, in which the next word takes it. -/
theorem Clear.gap {s : State dw timeout} (htimeout : 1 ≤ timeout) (h : Clear s)
    (dataR w : BitVec dw) :
    let is := [gapCycle dataR true w, gapCycle dataR true w, gapCycle dataR false 0]
    Clear ((machine dw timeout).run s is) ∧
      moved takenByChip ((machine dw timeout).trace s is) = [w] ∧
      moved poppedByChip ((machine dw timeout).trace s is) = [] := by
  intro is
  obtain ⟨hfsm, hwr, hrd, hdata, hsend, hread, hcnt⟩ := h.next_second dataR w
  set s₂ := (machine dw timeout).run s [gapCycle dataR true w, gapCycle dataR true w]
  have hcount : ¬ s₂.cntWrite.toNat > timeout := by omega
  have hfirst : (next s (gapCycle dataR true w)).wrN = true ∧
      (next s (gapCycle dataR true w)).rdN = true := by
    rw [h.next_first]
    exact ⟨h.wrN, h.rdN⟩
  have htrace : (machine dw timeout).trace s is =
      [(gapCycle dataR true w, out s (gapCycle dataR true w)),
        (gapCycle dataR true w, out (next s (gapCycle dataR true w)) (gapCycle dataR true w)),
        (gapCycle dataR false 0, out s₂ (gapCycle dataR false 0))] := rfl
  have hrun : (machine dw timeout).run s is = next s₂ (gapCycle dataR false 0) := rfl
  rw [htrace, hrun]
  refine ⟨⟨?_, ?_, ?_, ?_, ?_⟩, ?_, ?_⟩
  · simp [next, hfsm, hsend, hcount, gapCycle]
  · simp [next, drive, hfsm, hsend, hcount, gapCycle]
  · simp [next, drive, hfsm, hsend, hcount, gapCycle]
  · simp [next, hfsm, hsend, hcount, gapCycle]
  · simp [next, hfsm, hsend, hcount, gapCycle, hread]
  · -- only in the third cycle the strobe is low on the pad
    have hlast : takenByChip (gapCycle dataR false 0, out s₂ (gapCycle dataR false 0)) = [w] := by
      simp [takenByChip, out, hwr, hdata, drive, hfsm, hsend, hcount, gapCycle]
    rw [moved_cons, moved_cons, moved_singleton, takenByChip_of_high h.wrN,
      takenByChip_of_high hfirst.1, hlast]
    rfl
  · rw [moved_cons, moved_cons, moved_singleton, poppedByChip_of_high h.rdN,
      poppedByChip_of_high hfirst.2, poppedByChip_of_high hrd]
    rfl

/-- **A writer with gaps keeps the reader out.**  However many words are written, with the
chip offering a word to read and the read buffer having room for it in every cycle, none
is read. -/
theorem reader_kept_out (htimeout : 1 ≤ timeout) (dataR : BitVec dw) (ws : List (BitVec dw)) :
    (∀ i ∈ gapped dataR ws, CanRead i) ∧
      moved takenByChip ((machine dw timeout).trace init (gapped dataR ws)) = ws ∧
      moved poppedByChip ((machine dw timeout).trace init (gapped dataR ws)) = [] := by
  have hclear : ∀ (ws : List (BitVec dw)) (s : State dw timeout), Clear s →
      moved takenByChip ((machine dw timeout).trace s (gapped dataR ws)) = ws ∧
        moved poppedByChip ((machine dw timeout).trace s (gapped dataR ws)) = [] := by
    intro ws
    induction ws with
    | nil => exact fun _ _ => ⟨rfl, rfl⟩
    | cons w ws ih =>
      intro s hs
      obtain ⟨hnext, htaken, hpopped⟩ := hs.gap htimeout dataR w
      obtain ⟨htaken', hpopped'⟩ := ih _ hnext
      rw [show gapped dataR (w :: ws) = _ ++ gapped dataR ws from List.flatMap_cons,
        Machine.trace_append, moved_append, moved_append, htaken, hpopped, htaken', hpopped']
      exact ⟨rfl, rfl⟩
  refine ⟨?_, hclear ws init ⟨rfl, rfl, rfl, rfl, rfl⟩⟩
  intro i hi
  obtain ⟨w, -, hi⟩ := List.mem_flatMap.mp hi
  simp only [List.mem_cons, List.not_mem_nil, or_false] at hi
  rcases hi with rfl | rfl | rfl <;> exact ⟨rfl, rfl⟩

/-- A thousand words, with the time-out of the SoC. -/
theorem reader_kept_out_soc :
    (∀ i ∈ gapped (5 : BitVec 32) (List.replicate 1000 7), CanRead i) ∧
      moved takenByChip ((machine 32 1024).trace init (gapped 5 (List.replicate 1000 7))) =
        List.replicate 1000 7 ∧
      moved poppedByChip ((machine 32 1024).trace init (gapped 5 (List.replicate 1000 7))) = [] :=
  reader_kept_out (by decide) 5 (List.replicate 1000 7)

end UsbSniffer.FT601Sync
