/-
  Usb/Timeout.lean --- the depacketizer when its timer expires.

  The timer brings the machine back to IDLE from any word of a packet.  The next
  preamble is then decoded as after a reset.  But when beats of the packet are out
  and the last one is not, nothing tells the consumers that it is over, and they
  take the next packet for the rest of it.
-/
import UsbSniffer.Usb.Depacketizer

set_option autoImplicit false

namespace UsbSniffer.Usb.USBDepacketizer

open UsbSniffer.Sync

/-! ## What the consumers see -/

/-- A header begins with its preamble; a beat is the last of its packet or not. -/
inductive Event
  | header
  | beat (last : Bool)
  deriving DecidableEq, Repr

/-- What a consumer sees in a cycle. -/
def events (c : In × Out) : List Event :=
  (if c.2.idle && (c.1.sinkValid && c.1.sinkData == preamble) then [.header] else []) ++
    (sourceBeat c).map fun b => .beat b.last

/-- A consumer has no packet open, or one, or one that a header has come after, or it
has taken a beat under that header for one of the packet. -/
inductive Status
  | closed
  | opened
  | stale
  | merged
  deriving DecidableEq, Repr

/-- The status after an event. -/
def watch : Status → Event → Status
  | .closed, .header => .closed
  | .closed, .beat last => if last then .closed else .opened
  | .opened, .header => .stale
  | .opened, .beat last => if last then .closed else .opened
  | .stale, .header => .stale
  | .stale, .beat _ => .merged
  | .merged, _ => .merged

variable {D : Config}

/-- When the timer is done in COPY, either this cycle gives out the last beat, or it
gives out none and none was given out before. -/
def ClosesPacket (s : State D) (i : In) : Prop :=
  s.fsm = .copy → done s = true →
    if i.sinkValid && i.sourceReady then last s = true else s.cnt = 0

instance (s : State D) (i : In) : Decidable (ClosesPacket s i) :=
  inferInstanceAs (Decidable (s.fsm = .copy → done s = true →
    if i.sinkValid && i.sourceReady then last s = true else s.cnt = 0))

/-! ## Packets -/

/-- In COPY the beats counted are fewer than the length announces. -/
def Counted (s : State D) : Prop :=
  s.fsm = .copy → 4 ≤ (length s).toNat → s.cnt.toNat < (length s).toNat / 4

theorem counted_next {s : State D} (i : In) (hInv : Inv s) (h : Counted s) :
    Counted (next s i) := by
  intro hfsm' hlen
  cases hfsm : s.fsm with
  | idle =>
    rw [(next_idle hfsm i).2.2.2] at hfsm'
    split_ifs at hfsm'
  | receiveHeader =>
    have hcnt : (next s i).cnt = 0 := by
      unfold next
      simp [hfsm, sourceValid, hInv.header hfsm]
    rw [hcnt]
    simp
    omega
  | copy =>
    cases hdone : done s with
    | true =>
      rw [(next_done (by simp [hfsm]) hdone i).1] at hfsm'
      cases hfsm'
    | false =>
      obtain ⟨hcnt, hloaded, hnext⟩ := next_copy hfsm hdone (hInv.copy hfsm) i
      have hlength : length (next s i) = length s := by rw [length, length, hloaded]
      rw [hlength] at hlen ⊢
      have hlt := h hfsm hlen
      have hbound := (length s).isLt
      have hlast := last_iff s
      rw [Nat.mod_eq_of_lt (by omega)] at hlast
      rw [hnext] at hfsm'
      rw [hcnt]
      cases hfire : i.sinkValid && i.sourceReady with
      | false => simpa using hlt
      | true =>
        rw [hfire, Bool.true_and] at hfsm'
        have hmore : ¬ last s = true := fun hyes => by simp [hyes] at hfsm'
        rw [hlast] at hmore
        rw [if_pos rfl, BitVec.toNat_add]
        simp
        omega

/-- A beat that is not the last one leaves the count above zero. -/
theorem cnt_ne_zero {s : State D} (hcounted : Counted s) (hfsm : s.fsm = .copy)
    (hlast : last s = false) : s.cnt + 1 ≠ 0 := by
  intro hzero
  have hwrap : (s.cnt.toNat + 1) % 2 ^ 32 = 0 := by
    have := congrArg BitVec.toNat hzero
    simpa [BitVec.toNat_add] using this
  rw [← Bool.not_eq_true, last_iff, hwrap] at hlast
  have hlt := hcounted hfsm (by omega)
  have hbound := (length s).isLt
  omega

/-- The consumers have a packet open only while its payload is being sent. -/
structure Watched (s : State D) (status : Status) : Prop where
  sound : status = .closed ∨ status = .opened
  copying : status = .opened → s.fsm = .copy ∧ s.cnt ≠ 0

theorem watched_closed (s : State D) : Watched s .closed where
  sound := Or.inl rfl
  copying h := by cases h

/-- Outside COPY no packet is open. -/
theorem Watched.closed {s : State D} {status : Status} (h : Watched s status)
    (hfsm : s.fsm ≠ .copy) : status = .closed := by
  rcases h.sound with hs | hs
  · exact hs
  · exact absurd (h.copying hs).1 hfsm

/-- In COPY the consumers see the beat that is accepted, if there is one. -/
theorem events_copy {s : State D} (hfsm : s.fsm = .copy) (i : In) :
    events (i, out s i) =
      if i.sinkValid && i.sourceReady then [.beat (last s)] else [] := by
  have hidle : (Fsm.copy == Fsm.idle) = false := rfl
  have hcopy : (Fsm.copy == Fsm.copy) = true := rfl
  simp only [events, sourceBeat, out, source, sourceValid, hfsm, hidle, hcopy]
  cases i.sinkValid <;> cases i.sourceReady <;> simp

/-- Outside COPY they see at most a header. -/
theorem watch_other {s : State D} (hfsm : s.fsm ≠ .copy) (i : In) :
    (events (i, out s i)).foldl watch .closed = .closed := by
  have hsource : sourceBeat (i, out s i) = [] := by
    cases hf : s.fsm with
    | copy => exact absurd hf hfsm
    | idle => simp [sourceBeat, out, source, sourceValid, hf]
    | receiveHeader => simp [sourceBeat, out, source, sourceValid, hf]
  unfold events
  rw [hsource]
  split_ifs <;> rfl

theorem watched_next {s : State D} {status : Status} (i : In) (hInv : Inv s)
    (hcounted : Counted s) (hcloses : ClosesPacket s i) (h : Watched s status) :
    Watched (next s i) ((events (i, out s i)).foldl watch status) := by
  by_cases hfsm : s.fsm = .copy
  · rw [events_copy hfsm]
    have hcloses' := hcloses hfsm
    cases hfire : i.sinkValid && i.sourceReady with
    | false =>
      rw [hfire] at hcloses'
      rcases h.sound with rfl | rfl
      · exact watched_closed _
      · -- beats are out, so that the timer is not done
        obtain ⟨-, hcnt⟩ := h.copying rfl
        have hdone : done s = false := by
          rw [← Bool.not_eq_true]
          exact fun hdone => hcnt (hcloses' hdone)
        obtain ⟨hcnt', -, hnext⟩ := next_copy hfsm hdone (hInv.copy hfsm) i
        rw [hfire] at hcnt' hnext
        exact ⟨Or.inr rfl, fun _ => ⟨hnext, by rw [hcnt']; exact hcnt⟩⟩
    | true =>
      rw [hfire] at hcloses'
      have hwatch : [Event.beat (last s)].foldl watch status =
          if last s then .closed else .opened := by
        rcases h.sound with rfl | rfl <;> rfl
      rw [if_pos rfl, hwatch]
      cases hlast : last s with
      | true => exact watched_closed _
      | false =>
        have hdone : done s = false := by
          rw [← Bool.not_eq_true]
          intro hdone
          have := hcloses' hdone
          rw [if_pos rfl, hlast] at this
          cases this
        obtain ⟨hcnt', -, hnext⟩ := next_copy hfsm hdone (hInv.copy hfsm) i
        rw [hfire, hlast] at hnext
        rw [hfire] at hcnt'
        refine ⟨Or.inr rfl, fun _ => ⟨hnext, ?_⟩⟩
        rw [hcnt']
        exact cnt_ne_zero hcounted hfsm hlast
  · rw [h.closed hfsm, watch_other hfsm]
    exact watched_closed _

/-! ## The next preamble -/

/-- The registers are the same but for what the packer does not show. -/
structure Same (s s' : State D) : Prop where
  loaded : loaded s = loaded s'
  timer : s.timer = s'.timer
  cnt : s.cnt = s'.cnt
  fsm : s.fsm = s'.fsm

theorem Same.out_eq {s s' : State D} (h : Same s s') (i : In) : out s i = out s' i := by
  have hfull := full_of_loaded_eq h.loaded
  have hdone : done s = done s' := congrArg D.Timer.done h.timer
  unfold out source sinkReady sourceValid last dst length
  rw [h.loaded, h.fsm, h.cnt, hfull, hdone]

theorem Same.next {s s' : State D} (h : Same s s') (i : In) : Same (next s i) (next s' i) := by
  have hfull := full_of_loaded_eq h.loaded
  have hdone : done s = done s' := congrArg D.Timer.done h.timer
  have hlast : last s = last s' := by
    unfold last length
    rw [h.loaded, h.cnt]
  refine ⟨?_, ?_, ?_, ?_⟩
  · rw [loaded_next, loaded_next, hdone, hfull, h.loaded, h.fsm]
  · simp only [USBDepacketizer.next, h.timer, h.fsm]
  · unfold USBDepacketizer.next sourceValid
    rw [h.cnt, h.fsm]
  · unfold USBDepacketizer.next sourceValid
    rw [h.fsm, hdone, hfull, hlast]

theorem Same.trace_eq (js : List In) {s s' : State D} (h : Same s s') :
    (machine D).trace s js = (machine D).trace s' js := by
  induction js generalizing s s' with
  | nil => rfl
  | cons j js ih =>
    have hout : (machine D).out s j = (machine D).out s' j := h.out_eq j
    rw [Machine.trace_cons, Machine.trace_cons, hout]
    exact congrArg _ (ih (h.next j))

/-- After a cycle of IDLE the machine is as after that cycle from reset. -/
theorem same_of_idle {s : State D} (hInv : Inv s) (hfsm : s.fsm = .idle) (i : In) :
    Same (next s i) (next init i) := by
  obtain ⟨hcnt, htimer, hloaded, hnext⟩ := next_idle hfsm i
  obtain ⟨hcnt', htimer', hloaded', hnext'⟩ := next_idle (s := (init : State D)) rfl i
  refine ⟨?_, htimer.trans htimer'.symm, hcnt.trans hcnt'.symm, hnext.trans hnext'.symm⟩
  have hempty : loaded (init : State D) = [] := D.HeaderPack.loaded_init
  rw [hloaded, hloaded', hempty, ite_self]
  rcases hInv.idle hfsm with h | h <;> simp [h]

/-- **A time-out merges no packets when it leaves none open.**  In a run in which the
timer is not done with a packet open, no beat is given out under a later header before
the last one of its packet; and in every run, from IDLE on the machine does what it does
after a reset. -/
theorem timeout_closed (is : List In) :
    ((machine D).AllSteps ClosesPacket init is →
        (moved events ((machine D).trace init is)).foldl watch .closed ≠ .merged) ∧
      (((machine D).run init is).fsm = .idle → ∀ i js,
        (machine D).trace (next ((machine D).run init is) i) js =
          (machine D).trace (next init i) js) := by
  refine ⟨fun hok => ?_, fun hidle i js => (same_of_idle (inv_run is) hidle i).trace_eq js⟩
  have hrun := (machine D).history_induction ClosesPacket
    (fun s tr => Inv s ∧ Counted s ∧ Watched s ((moved events tr).foldl watch .closed))
    ⟨inv_init, (fun h => by cases h), watched_closed _⟩
    (by
      rintro s tr i hcloses ⟨hInv, hcounted, hwatched⟩
      refine ⟨inv_next i hInv, counted_next i hInv hcounted, ?_⟩
      rw [moved_append, moved_singleton, List.foldl_append]
      exact watched_next i hInv hcounted hcloses hwatched)
    is hok
  rcases hrun.2.2.sound with h | h <;> rw [h] <;> decide

/-- A cycle in which no word is offered. -/
def quietCycle : In := ⟨false, 0, true⟩

/-- A packet of two words whose second one is late, and a packet of one word. -/
def lateRun : List In :=
  [wordCycle preamble, wordCycle 0, wordCycle 8, wordCycle 7, wordCycle 7, quietCycle,
    quietCycle, quietCycle, wordCycle preamble, wordCycle 1, wordCycle 4, wordCycle 9,
    wordCycle 9]

/-- The timer is done after the first beat of the packet, and the consumers take the
word of the next packet for its second one. -/
theorem timeout_merges :
    let tr := (machine (withPeriod 6 (by decide))).trace init lateRun
    moved sourceBeat tr = [⟨true, false, 0, 8, 7⟩, ⟨true, true, 1, 4, 9⟩] ∧
      (moved events tr).foldl watch .closed = .merged := by
  decide

/-- The timer is done in the header of the first packet. -/
theorem timeout_closed_header :
    let D := withPeriod 4 (by decide)
    let is := [wordCycle preamble, quietCycle, quietCycle, quietCycle, quietCycle,
      quietCycle, wordCycle preamble, wordCycle 1, wordCycle 4, wordCycle 9, wordCycle 9]
    (moved events ((machine D).trace init is)).foldl watch .closed ≠ .merged ∧
      ∀ i js, (machine D).trace (next ((machine D).run init is) i) js =
        (machine D).trace (next init i) js :=
  ⟨(timeout_closed _).1 (by decide), (timeout_closed _).2 (by decide)⟩

end UsbSniffer.Usb.USBDepacketizer
