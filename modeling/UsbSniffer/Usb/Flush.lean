/-
  Usb/Flush.lean --- the sender does not keep words (gateware/wrapper.py).

  The timer of BUFFER is there so that a few words do not wait for a full buffer.  The
  words in the buffer are on the link after one period of the timer, the headers of two
  packets and as many cycles of a ready link as there are words, whatever comes behind
  them.
-/
import UsbSniffer.Sync.Progress
import UsbSniffer.Usb.FramingReset

set_option autoImplicit false

namespace UsbSniffer.Sync.WaitTimer

/-- How a timer gets done: after a period in which `wait` is high. -/
structure Countdown (W : WaitTimer) where
  period : Nat
  left : W.State → Nat
  left_init : left W.init ≤ period
  left_wait : ∀ s, left (W.next s true) ≤ left s - 1
  left_low : ∀ s, left (W.next s false) ≤ period
  done_of_zero : ∀ s, left s = 0 → W.done s = true

/-- The down-counter shows what is left. -/
def countdown (period : Nat) (hperiod : 0 < period) : Countdown (counter period hperiod) where
  period := period
  left s := s
  left_init := Nat.le_refl period
  left_wait _ := Nat.le_refl _
  left_low _ := Nat.le_refl period
  done_of_zero _ h := beq_iff_eq (α := Nat).mpr h

end UsbSniffer.Sync.WaitTimer

namespace UsbSniffer.Usb

open UsbSniffer.Sync

namespace WrapSender

variable {C : Config}

/-- A burst that starts from a level has as many beats. -/
theorem beatsLeft_ofNat {n : Nat} (hpos : 1 ≤ n) (hlt : n < 2 ^ 32) :
    beatsLeft (BitVec.ofNat 32 n) = n := by
  rw [beatsLeft_eq, BitVec.toNat_ofNat]
  omega

/-- BUFFER is left with all words that are buffered, or the timer runs on and was not
done. -/
theorem next_buffer_all {s : State C} (hInv : Inv s) (hdepth : C.depth + 1 < 2 ^ 32)
    (h : s.fsm = .buffer) (sinkValid : Bool) (sinkData : BitVec 32) (sourceReady : Bool) :
    let s' := next s sinkValid sinkData sourceReady
    (s'.fsm = .transfer ∧ beatsLeft s'.count = (C.Buf.contents s.buf).length) ∨
      (s'.fsm = .buffer ∧ C.Timer.done s.timer = false ∧
        s'.timer = C.Timer.next s.timer (decide (C.Buf.level s.buf > 0))) := by
  intro s'
  have hbounded := hInv.bounded
  simp only [s', next, h, wait]
  by_cases hleave : C.Buf.level s.buf ≥ C.depth ∨ C.Timer.done s.timer = true
  · left
    rw [if_pos hleave]
    rw [C.Buf.level_eq] at hleave ⊢
    refine ⟨rfl, beatsLeft_ofNat ?_ (by omega)⟩
    rcases hleave with hfull | hdone
    · have := C.depth_pos
      omega
    · exact hInv.timed h hdone
  · right
    rw [if_neg hleave]
    exact ⟨rfl, Bool.not_eq_true _ ▸ (not_or.mp hleave).2, rfl⟩

/-- Behind the last beat of a burst the next one has all words that are buffered, or the
sender buffers again. -/
theorem next_last_all {s : State C} (hInv : Inv s) (hdepth : C.depth + 1 < 2 ^ 32)
    (h : s.fsm = .transfer) (hcount : s.count = 1) (sinkValid : Bool) (sinkData : BitVec 32) :
    let s' := next s sinkValid sinkData true
    (s'.fsm = .transfer ∧ beatsLeft s'.count + 1 = (C.Buf.contents s.buf).length) ∨
      (s'.fsm = .buffer ∧ s'.timer = C.Timer.next s.timer false) := by
  intro s'
  have hbounded := hInv.bounded
  have hvalid := valid_of_transfer hInv h
  have hlast : (source s).last = true := by simp [source, h, hcount]
  simp only [s', next, h, hvalid, hlast, wait, Bool.and_self, if_true]
  by_cases hfull : C.Buf.level s.buf - 1 ≥ C.depth
  · left
    rw [if_pos hfull]
    rw [C.Buf.level_eq] at hfull ⊢
    have hpos := C.depth_pos
    have hbeats := beatsLeft_ofNat (n := (C.Buf.contents s.buf).length - 1) (by omega) (by omega)
    exact ⟨rfl, by dsimp only; omega⟩
  · right
    rw [if_neg hfull]
    exact ⟨rfl, rfl⟩

end WrapSender

namespace Framing

variable {C : Config} (T : C.Sender.Timer.Countdown)

/-! ## What the words cost -/

/-- The cycles up to the payload. -/
def headerLeft (s : State C) : Nat :=
  match s.packetizer.fsm with
  | .idle => 4
  | .insertHeader => 3 - C.Packetizer.HeaderUnpack.pos s.packetizer.headerUnpack
  | .copy => 0

/-- The cycles of a ready link until the first `r` words of the buffer are out.  Those that
are not in the burst that is sent are all in the next one. -/
def cost (s : State C) (r : Nat) : Nat :=
  match s.sender.fsm with
  | .buffer => T.left s.sender.timer + 5 + r
  | .transfer =>
      headerLeft s + r + if r ≤ WrapSender.beatsLeft s.sender.count then 0 else T.period + 5

/-- `r` words are in the buffer, and the sender and the packetizer are in step. -/
structure Draining (s : State C) (r : Nat) : Prop where
  sender : WrapSender.Inv s.sender
  busy : Busy s
  inPacket : ∃ part sent, InPacket s part sent
  timer : T.left s.sender.timer ≤ T.period
  words : r ≤ (C.Sender.Buf.contents s.sender.buf).length

/-- The words that do not come out in a cycle stay in the buffer. -/
theorem words_next {s : State C} {r : Nat} (i : In) (h : Draining T s r) :
    r - (poppedWord (i, out s i)).length ≤
      (C.Sender.Buf.contents (next s i).sender.buf).length := by
  have hstep := refinesQueue.step s i trivial trivial
  have hlength := congrArg List.length hstep
  simp only [List.length_append] at hlength
  have hwords := h.words
  change (C.Sender.Buf.contents s.sender.buf).length + _ =
    (poppedWord (i, out s i)).length + _ at hlength
  change _ ≤ (C.Sender.Buf.contents ((machine C).next s i).sender.buf).length
  omega

/-- The timer keeps to its period. -/
theorem timer_next {s : State C} {r : Nat} (i : In) (h : Draining T s r) :
    T.left (next s i).sender.timer ≤ T.period := by
  have htimer : (next s i).sender.timer =
      C.Sender.Timer.next s.sender.timer (WrapSender.wait s.sender) := by
    unfold next WrapSender.next
    dsimp only
    split <;> split_ifs <;> rfl
  rw [htimer]
  cases WrapSender.wait s.sender with
  | false => exact T.left_low _
  | true => exact (T.left_wait _).trans ((Nat.sub_le _ _).trans h.timer)

theorem draining_next {s : State C} {r : Nat} (i : In) (h : Draining T s r) :
    Draining T (next s i) (r - (poppedWord (i, out s i)).length) where
  sender := WrapSender.inv_next h.sender _ _ _
  busy := busy_next i h.sender h.busy
  inPacket := by
    obtain ⟨part, sent, hin⟩ := h.inPacket
    obtain ⟨-, part', sent', -, hin', -, -⟩ := stepsPacket i h.sender (h.busy.lengthLive i) hin
    exact ⟨part', sent', hin'⟩
  timer := timer_next T i h
  words := words_next T i h

theorem cost_buffer {s : State C} {r : Nat} (hdepth : C.Sender.depth + 1 < 2 ^ 32) (i : In)
    (h : Draining T s r) (hr : 0 < r) (hfsm : s.sender.fsm = .buffer) :
    cost T (next s i) r + i.sourceReady.toNat ≤ cost T s r := by
  have hidle : s.packetizer.fsm = .idle := by
    by_contra hne
    rw [h.busy hne] at hfsm
    cases hfsm
  have hready := i.sourceReady.toNat_le
  have hwords := h.words
  rcases WrapSender.next_buffer_all h.sender hdepth hfsm i.sinkValid i.sinkData
    (out s i).userReady with ⟨hfsm', hbeats⟩ | ⟨hfsm', hdone, htimer⟩
  · have hidle' : (next s i).packetizer.fsm = .idle := by
      simp [next, USBPacketizer.next, hidle, WrapSender.source, hfsm]
    change (next s i).sender.fsm = .transfer at hfsm'
    change WrapSender.beatsLeft (next s i).sender.count = _ at hbeats
    simp only [cost, headerLeft, hfsm, hfsm', hidle', hbeats, if_pos hwords]
    omega
  · change (next s i).sender.fsm = .buffer at hfsm'
    change (next s i).sender.timer = _ at htimer
    have hlevel : C.Sender.Buf.level s.sender.buf > 0 := by
      rw [C.Sender.Buf.level_eq]
      omega
    have hleft : T.left s.sender.timer ≠ 0 := by
      intro hzero
      rw [T.done_of_zero _ hzero] at hdone
      cases hdone
    have hwait := T.left_wait s.sender.timer
    rw [decide_eq_true hlevel] at htimer
    simp only [cost, hfsm, hfsm', htimer]
    omega

/-- In front of the payload the sender stands still. -/
theorem cost_header {s : State C} {r : Nat} (i : In) (h : Draining T s r)
    (hfsm : s.sender.fsm = .transfer) (hnot : s.packetizer.fsm ≠ .copy) :
    cost T (next s i) r + i.sourceReady.toNat ≤ cost T s r := by
  obtain ⟨hfsm', hcount⟩ := WrapSender.next_hold hfsm i.sinkValid i.sinkData
  have huser := userReady_of_not_copy hnot i
  rw [← huser] at hfsm' hcount
  change (next s i).sender.fsm = .transfer at hfsm'
  change (next s i).sender.count = s.sender.count at hcount
  have hready := i.sourceReady.toNat_le
  -- a cycle of the header is paid for by the header
  have hheader : headerLeft (next s i) + i.sourceReady.toNat ≤ headerLeft s := by
    obtain ⟨part, sent, hin⟩ := h.inPacket
    cases hp : s.packetizer.fsm with
    | idle =>
      simp only [InPacket, hp] at hin
      have hvalid := WrapSender.valid_of_transfer h.sender hfsm
      have hpos : C.Packetizer.HeaderUnpack.pos (next s i).packetizer.headerUnpack = 0 := by
        simp [next, USBPacketizer.next, hp, C.Packetizer.HeaderUnpack.pos_next, hin.1]
      have hp' : (next s i).packetizer.fsm = .insertHeader := by
        simp [next, USBPacketizer.next, hp, hvalid]
      simp only [headerLeft, hp, hp', hpos]
      omega
    | insertHeader =>
      simp only [InPacket, hp] at hin
      have hpos := hin.1
      cases hsource : i.sourceReady with
      | false =>
        have hpos' : C.Packetizer.HeaderUnpack.pos (next s i).packetizer.headerUnpack =
            C.Packetizer.HeaderUnpack.pos s.packetizer.headerUnpack := by
          simp [next, USBPacketizer.next, hp, hsource, C.Packetizer.HeaderUnpack.pos_next]
        have hp' : (next s i).packetizer.fsm = .insertHeader := by
          simp [next, USBPacketizer.next, hp, hsource, Serializer.sinkReady]
        simp only [headerLeft, hp, hp', hpos', Bool.toNat_false]
        omega
      | true =>
        by_cases htwo : C.Packetizer.HeaderUnpack.pos s.packetizer.headerUnpack = 2
        · have hp' : (next s i).packetizer.fsm = .copy := by
            simp [next, USBPacketizer.next, hp, hsource, Serializer.sinkReady, htwo]
          simp only [headerLeft, hp, hp', htwo, Bool.toNat_true]
          omega
        · have hpos' : C.Packetizer.HeaderUnpack.pos (next s i).packetizer.headerUnpack =
              C.Packetizer.HeaderUnpack.pos s.packetizer.headerUnpack + 1 := by
            simp [next, USBPacketizer.next, hp, hsource, C.Packetizer.HeaderUnpack.pos_next, htwo]
          have hp' : (next s i).packetizer.fsm = .insertHeader := by
            simp [next, USBPacketizer.next, hp, hsource, Serializer.sinkReady, htwo]
          simp only [headerLeft, hp, hp', hpos', Bool.toNat_true]
          omega
    | copy => exact absurd hp hnot
  simp only [cost, hfsm, hfsm', hcount]
  omega

/-- A cycle of the payload: the words of the burst come out one by one, and with the last one
the next burst has all that are left. -/
theorem cost_copy {s : State C} {r : Nat} (hdepth : C.Sender.depth + 1 < 2 ^ 32) (i : In)
    (h : Draining T s r) (hr : 0 < r) (hfsm : s.sender.fsm = .transfer)
    (hcopy : s.packetizer.fsm = .copy) :
    r ≤ (poppedWord (i, out s i)).length ∨
      cost T (next s i) (r - (poppedWord (i, out s i)).length) + i.sourceReady.toNat ≤
        cost T s r := by
  have hvalid := WrapSender.valid_of_transfer h.sender hfsm
  have huser := userReady_of_copy hcopy i
  have hpopped : poppedWord (i, out s i) =
      beat true i.sourceReady (WrapSender.source s.sender).data := by
    rw [poppedWord, huser, ← hvalid]
    rfl
  have hwords := h.words
  have hbeats := WrapSender.beatsLeft_pos s.sender.count
  rw [hpopped]
  cases hsource : i.sourceReady with
  | false =>
    right
    obtain ⟨hfsm', hcount⟩ := WrapSender.next_hold hfsm i.sinkValid i.sinkData
    rw [← hsource, ← huser] at hfsm' hcount
    change (next s i).sender.fsm = .transfer at hfsm'
    change (next s i).sender.count = s.sender.count at hcount
    have hcopy' : (next s i).packetizer.fsm = .copy := by
      simp [next, USBPacketizer.next, hcopy, hsource]
    simp only [cost, headerLeft, hfsm, hfsm', hcopy, hcopy', hcount]
    exact Nat.le_refl _
  | true =>
    rw [beat_true_true, List.length_singleton]
    by_cases hone : s.sender.count = 1
    · have hlast : (WrapSender.source s.sender).last = true := by
        simp [WrapSender.source, hfsm, hone]
      have hidle' : (next s i).packetizer.fsm = .idle := by
        simp [next, USBPacketizer.next, hcopy, hsource, hvalid, hlast]
      have hnext := WrapSender.next_last_all h.sender hdepth hfsm hone i.sinkValid i.sinkData
      rw [← hsource, ← huser] at hnext
      rcases Nat.lt_or_ge 1 r with hmore | hall
      · right
        have hmany : ¬ r ≤ WrapSender.beatsLeft s.sender.count := by
          rw [hone, WrapSender.beatsLeft_one]
          omega
        rcases hnext with ⟨hfsm', hbeats'⟩ | ⟨hfsm', htimer⟩
        · change (next s i).sender.fsm = .transfer at hfsm'
          change WrapSender.beatsLeft (next s i).sender.count + 1 = _ at hbeats'
          have hfits : r - 1 ≤ WrapSender.beatsLeft (next s i).sender.count := by omega
          simp only [cost, headerLeft, hfsm, hfsm', hcopy, hidle', if_neg hmany, if_pos hfits,
            Bool.toNat_true]
          omega
        · change (next s i).sender.fsm = .buffer at hfsm'
          change (next s i).sender.timer = _ at htimer
          have hperiod := T.left_low s.sender.timer
          simp only [cost, headerLeft, hfsm, hfsm', hcopy, htimer, if_neg hmany, Bool.toNat_true]
          omega
      · exact Or.inl hall
    · right
      obtain ⟨hfsm', hbeats'⟩ := WrapSender.next_more h.sender hfsm hone i.sinkValid i.sinkData
      rw [← hsource, ← huser] at hfsm' hbeats'
      change (next s i).sender.fsm = .transfer at hfsm'
      change WrapSender.beatsLeft (next s i).sender.count + 1 = _ at hbeats'
      have hlast : (WrapSender.source s.sender).last = false := by
        simpa [WrapSender.source, hfsm] using hone
      have hcopy' : (next s i).packetizer.fsm = .copy := by
        simp [next, USBPacketizer.next, hcopy, hsource, hlast]
      simp only [cost, headerLeft, hfsm, hfsm', hcopy, hcopy', Bool.toNat_true]
      split_ifs <;> omega

/-- A cycle of a ready link lowers the cost of the words. -/
theorem cost_next {s : State C} {r : Nat} (hdepth : C.Sender.depth + 1 < 2 ^ 32) (i : In)
    (h : Draining T s r) (hr : 0 < r) :
    r ≤ (poppedWord (i, out s i)).length ∨
      cost T (next s i) (r - (poppedWord (i, out s i)).length) + i.sourceReady.toNat ≤
        cost T s r := by
  cases hfsm : s.sender.fsm with
  | buffer =>
    have hidle : s.packetizer.fsm ≠ .copy := by
      intro hcopy
      rw [h.busy (by simp [hcopy])] at hfsm
      cases hfsm
    rw [poppedWord_of_not_copy hidle]
    exact Or.inr (cost_buffer T hdepth i h hr hfsm)
  | transfer =>
    by_cases hcopy : s.packetizer.fsm = .copy
    · exact cost_copy T hdepth i h hr hfsm hcopy
    · rw [poppedWord_of_not_copy hcopy]
      exact Or.inr (cost_header T i h hfsm hcopy)

/-- No words cost more than one period, two headers and themselves. -/
theorem cost_le {s : State C} {r : Nat} (h : Draining T s r) : cost T s r ≤ T.period + 9 + r := by
  have htimer := h.timer
  have hheader : headerLeft s ≤ 4 := by
    unfold headerLeft
    cases s.packetizer.fsm with
    | idle => exact Nat.le_refl 4
    | insertHeader => exact (Nat.sub_le _ _).trans (by omega)
    | copy => exact Nat.zero_le 4
  cases hfsm : s.sender.fsm with
  | buffer =>
    simp only [cost, hfsm]
    omega
  | transfer =>
    simp only [cost, hfsm]
    split_ifs <;> omega

theorem draining_init : Draining T (init : State C) 0 where
  sender := WrapSender.inv_init
  busy := by simp [Busy, init, USBPacketizer.init]
  inPacket := by
    refine ⟨[], [], ?_⟩
    simp [InPacket, init, USBPacketizer.init, C.Packetizer.HeaderUnpack.pos_init]
  timer := T.left_init
  words := Nat.zero_le _

/-- Every state that is reached can be drained of what it holds. -/
theorem draining_run (is : List In) :
    Draining T ((machine C).run init is)
      (C.Sender.Buf.contents ((machine C).run init is).sender.buf).length := by
  have hrun := (machine C).history_induction_always (fun s _ => Draining T s 0)
    (draining_init T) (fun s _ i h => Nat.zero_sub _ ▸ draining_next T i h) is
  exact { hrun with words := Nat.le_refl _ }

/-- **The sender keeps no words.**  The words that its buffer holds at some cycle are on the
link, in front of all others, after one period of the timer, two headers and as many cycles
of a ready link as there are words, whatever is offered to the buffer and however often the
link stalls. -/
theorem words_flushed (hdepth : C.Sender.depth + 1 < 2 ^ 32) (is js : List In)
    (hready : T.period + 9 +
      (C.Sender.Buf.contents ((machine C).run init is).sender.buf).length <
        js.countP In.sourceReady) :
    C.Sender.Buf.contents ((machine C).run init is).sender.buf <+:
      moved poppedWord ((machine C).trace ((machine C).run init is) js) := by
  have hdraining := draining_run T is
  generalize (machine C).run init is = s at hdraining hready ⊢
  have hstep : ∀ s i r, Draining T s r → 0 < r →
      r ≤ (poppedWord (i, (machine C).out s i)).length ∨
        (Draining T ((machine C).next s i) (r - (poppedWord (i, (machine C).out s i)).length) ∧
          cost T ((machine C).next s i) (r - (poppedWord (i, (machine C).out s i)).length) +
            i.sourceReady.toNat ≤ cost T s r) := fun s i r h hr =>
    (cost_next T hdepth i h hr).imp_right fun hcost => ⟨draining_next T i h, hcost⟩
  have hlength := Machine.drains (cost T) In.sourceReady hstep hdraining js
    (Nat.lt_of_le_of_lt (cost_le T hdraining) hready)
  have hqueue := refinesQueue.run (s := s) trivial js
    ((machine C).allSteps_of_forall (fun _ _ => trivial) s js)
  have hfront : moved poppedWord ((machine C).trace s js) <+:
      C.Sender.Buf.contents s.sender.buf ++ moved acceptedWord ((machine C).trace s js) := by
    rw [hqueue]
    exact List.prefix_append _ _
  exact List.prefix_of_prefix_length_le (List.prefix_append _ _) hfront hlength

/-- The sender of the design, with its timer of a million cycles. -/
abbrev timed : Config :=
  wrapCore 1 (SyncFIFO.queue (BitVec 32) 129) (WaitTimer.counter 1000000 WrapSender.period_pos)
    (Serializer.mux 3)

/-- A word is offered once, and then the link is ready for a period and more. -/
theorem words_flushed_one :
    ([7] : List (BitVec 32)) <+: moved poppedWord ((machine timed).trace
      ((machine timed).run init [⟨true, 7, true⟩]) (List.replicate 1000011 ⟨false, 0, true⟩)) := by
  have hready : 1000000 + 9 + 1 <
      (List.replicate 1000011 (⟨false, 0, true⟩ : In)).countP In.sourceReady := by
    rw [List.countP_replicate]
    exact (by decide : 1000010 < 1000011)
  have hdepth : 128 + 1 < 2 ^ 32 := by decide
  exact words_flushed (C := timed) (WaitTimer.countdown 1000000 WrapSender.period_pos) hdepth
    [⟨true, 7, true⟩] (List.replicate 1000011 ⟨false, 0, true⟩) hready

end Framing

end UsbSniffer.Usb
