/-
  Usb/Wrapper.lean --- the sender of gateware/wrapper.py.

  `WrapSender` collects words in a buffer and sends them in bursts.  It leaves
  BUFFER when the buffer holds `depth` words, or when it held some for the whole
  period of the timer.  `count` then runs down from the level of that cycle, and
  the beat on which it is one ends the burst; the length that the burst is
  announced with is read from the same counter.
-/
import Mathlib.Data.BitVec
import UsbSniffer.Sync.Bits
import UsbSniffer.Sync.Parts

set_option autoImplicit false

namespace UsbSniffer.Usb

open UsbSniffer.Sync

/-- What a source of `user_description(32)` drives. -/
structure UserSource where
  valid : Bool
  last : Bool
  dst : BitVec 8
  length : BitVec 32
  data : BitVec 32
  deriving DecidableEq, Repr

namespace WrapSender

/-- The parameters and the library blocks. -/
structure Config where
  identifier : BitVec 8
  depth : Nat
  depth_pos : 0 < depth
  Buf : SyncFIFO (BitVec 32) (depth + 1)
  Timer : WaitTimer

/-- The depth of the SoC. -/
theorem depth_pos : 0 < 128 := Nat.zero_lt_succ 127

/-- The period of the timer. -/
theorem period_pos : 0 < 1000000 := Nat.zero_lt_succ 999999

/-- The states of `WrapSender`. -/
inductive Fsm
  | buffer
  | transfer
  deriving DecidableEq, Repr

/-- The registers of the sender. -/
structure State (C : Config) where
  buf : C.Buf.State
  count : BitVec 32
  timer : C.Timer.State
  fsm : Fsm

variable {C : Config}

/-- Nothing is in the buffer. -/
def init : State C where
  buf := C.Buf.init
  count := 0
  timer := C.Timer.init
  fsm := .buffer

/-- The registers after a reset. -/
def clear (s : State C) : State C where
  buf := C.Buf.clear s.buf
  count := 0
  timer := C.Timer.init
  fsm := .buffer

/-- `source`. -/
def source (s : State C) : UserSource :=
  match s.fsm with
  | .buffer =>
      { valid := false, last := false, dst := C.identifier, length := 0, data := 0 }
  | .transfer =>
      { valid := C.Buf.readable s.buf
        last := s.count == 1
        dst := C.identifier
        length := (cat (0 : BitVec 2) s.count).setWidth 32
        data := C.Buf.dout s.buf }

/-- `sink.ready`. -/
def sinkReady (s : State C) : Bool := C.Buf.writable s.buf

/-- `timer.wait`. -/
def wait (s : State C) : Bool :=
  match s.fsm with
  | .buffer => decide (C.Buf.level s.buf > 0)
  | .transfer => false

/-- `buf.source.ready`. -/
def bufReady (s : State C) (sourceReady : Bool) : Bool :=
  match s.fsm with
  | .buffer => false
  | .transfer => sourceReady

/-- The clock edge, with `sink.valid`, `sink.data` and `source.ready`. -/
def next (s : State C) (sinkValid : Bool) (sinkData : BitVec 32) (sourceReady : Bool) :
    State C :=
  let level := C.Buf.level s.buf
  let clocked :=
    { s with
      buf := C.Buf.next s.buf sinkValid sinkData (bufReady s sourceReady)
      timer := C.Timer.next s.timer (wait s) }
  match s.fsm with
  | .buffer =>
      if level ≥ C.depth ∨ C.Timer.done s.timer = true then
        { clocked with count := BitVec.ofNat 32 level, fsm := .transfer }
      else clocked
  | .transfer =>
      if (source s).valid && sourceReady then
        if (source s).last then
          -- a full buffer starts the next burst without a gap
          if level - 1 ≥ C.depth then { clocked with count := BitVec.ofNat 32 (level - 1) }
          else { clocked with fsm := .buffer }
        else { clocked with count := s.count - 1 }
      else clocked

/-! ## The count -/

/-- The beats that a burst with this count still has, the one on which the count is
one among them. -/
def beatsLeft (count : BitVec 32) : Nat := (count - 1).toNat + 1

theorem beatsLeft_pos (count : BitVec 32) : 1 ≤ beatsLeft count := by
  unfold beatsLeft
  omega

theorem toNat_sub_one (count : BitVec 32) :
    (count - 1).toNat = (count.toNat + 4294967295) % 4294967296 := by
  rw [BitVec.toNat_sub, Nat.add_comm]
  rfl

theorem beatsLeft_eq (count : BitVec 32) :
    beatsLeft count = (count.toNat + 4294967295) % 4294967296 + 1 := by
  rw [beatsLeft, toNat_sub_one]

theorem beatsLeft_one : beatsLeft 1 = 1 := by decide

/-- Before the last beat a beat takes one off. -/
theorem beatsLeft_sub_one {count : BitVec 32} (h : count ≠ 1) :
    beatsLeft (count - 1) + 1 = beatsLeft count := by
  have hne : count.toNat ≠ 1 := fun heq => h (BitVec.eq_of_toNat_eq heq)
  have hlt := count.isLt
  rw [beatsLeft_eq (count - 1), beatsLeft_eq count, toNat_sub_one]
  omega

/-- A burst is never longer than the level that it starts from. -/
theorem beatsLeft_ofNat_le {n : Nat} (h : 1 ≤ n) : beatsLeft (BitVec.ofNat 32 n) ≤ n := by
  rw [beatsLeft_eq, BitVec.toNat_ofNat]
  omega

/-- The length announced is the size in bytes of the beats left. -/
theorem length_eq (count : BitVec 32) :
    (cat (0 : BitVec 2) count).setWidth 32 = BitVec.ofNat 32 (4 * beatsLeft count) := by
  apply BitVec.eq_of_toNat_eq
  have hlt := count.isLt
  rw [beatsLeft_eq, BitVec.toNat_setWidth, BitVec.toNat_ofNat, cat, BitVec.toNat_append,
    Nat.shiftLeft_eq, BitVec.ofNat_eq_ofNat, BitVec.toNat_zero, Nat.or_zero]
  omega

/-! ## The invariant of the sender -/

/-- The buffer keeps to its size, holds every word up to the last one of the burst
that is being sent, and is not empty when the timer of BUFFER is done. -/
structure Inv (s : State C) : Prop where
  bounded : (C.Buf.contents s.buf).length ≤ C.depth + 1
  burst : s.fsm = .transfer → beatsLeft s.count ≤ (C.Buf.contents s.buf).length
  timed : s.fsm = .buffer → C.Timer.done s.timer = true →
    1 ≤ (C.Buf.contents s.buf).length

theorem inv_init : Inv (init : State C) where
  bounded := by simp [init, C.Buf.contents_init]
  burst := by simp [init]
  timed := by simp [init, C.Timer.done_init]

theorem inv_clear (s : State C) : Inv (clear s) where
  bounded := by simp [clear, C.Buf.contents_clear]
  burst := by simp [clear]
  timed := by simp [clear, C.Timer.done_init]

/-- In TRANSFER the buffer has a word to send. -/
theorem valid_of_transfer {s : State C} (hInv : Inv s) (h : s.fsm = .transfer) :
    (source s).valid = true := by
  have hburst := hInv.burst h
  have hpos := beatsLeft_pos s.count
  have hne : C.Buf.contents s.buf ≠ [] := by
    intro hnil
    rw [hnil, List.length_nil] at hburst
    omega
  simp only [source, h]
  exact (C.Buf.readable_iff s.buf).mpr hne

/-! ## What one cycle does -/

@[simp] theorem next_buf (s : State C) (sinkValid : Bool) (sinkData : BitVec 32)
    (sourceReady : Bool) :
    (next s sinkValid sinkData sourceReady).buf =
      C.Buf.next s.buf sinkValid sinkData (bufReady s sourceReady) := by
  unfold next
  cases s.fsm with
  | buffer => dsimp only; split_ifs <;> rfl
  | transfer => dsimp only; split_ifs <;> rfl

/-- BUFFER is left for a burst of the words that are buffered, or kept with the
timer running on. -/
theorem next_buffer {s : State C} (hInv : Inv s) (h : s.fsm = .buffer) (sinkValid : Bool)
    (sinkData : BitVec 32) (sourceReady : Bool) :
    let s' := next s sinkValid sinkData sourceReady
    (s'.fsm = .transfer ∧ beatsLeft s'.count ≤ (C.Buf.contents s.buf).length) ∨
      (s'.fsm = .buffer ∧
        s'.timer = C.Timer.next s.timer (decide (C.Buf.level s.buf > 0))) := by
  intro s'
  simp only [s', next, h, wait]
  by_cases hleave : C.Buf.level s.buf ≥ C.depth ∨ C.Timer.done s.timer = true
  · left
    rw [if_pos hleave]
    rw [C.Buf.level_eq] at hleave ⊢
    refine ⟨rfl, beatsLeft_ofNat_le ?_⟩
    rcases hleave with hfull | hdone
    · have := C.depth_pos
      omega
    · exact hInv.timed h hdone
  · right
    rw [if_neg hleave]
    exact ⟨rfl, rfl⟩

/-- A burst waits for its receiver. -/
theorem next_hold {s : State C} (h : s.fsm = .transfer) (sinkValid : Bool)
    (sinkData : BitVec 32) :
    (next s sinkValid sinkData false).fsm = .transfer ∧
      (next s sinkValid sinkData false).count = s.count := by
  simp [next, h]

/-- A beat before the last one. -/
theorem next_more {s : State C} (hInv : Inv s) (h : s.fsm = .transfer) (hcount : s.count ≠ 1)
    (sinkValid : Bool) (sinkData : BitVec 32) :
    (next s sinkValid sinkData true).fsm = .transfer ∧
      beatsLeft (next s sinkValid sinkData true).count + 1 = beatsLeft s.count := by
  have hvalid := valid_of_transfer hInv h
  have hlast : (source s).last = false := by simpa [source, h] using hcount
  simp only [next, h, hvalid, hlast, Bool.and_self, if_true, Bool.false_eq_true, if_false]
  exact ⟨trivial, beatsLeft_sub_one hcount⟩

/-- The last beat of a burst: the next one starts at once from a full buffer, or the
sender buffers again, with its timer restarted. -/
theorem next_last {s : State C} (hInv : Inv s) (h : s.fsm = .transfer) (hcount : s.count = 1)
    (sinkValid : Bool) (sinkData : BitVec 32) :
    let s' := next s sinkValid sinkData true
    (s'.fsm = .transfer ∧ beatsLeft s'.count + 1 ≤ (C.Buf.contents s.buf).length) ∨
      (s'.fsm = .buffer ∧ s'.timer = C.Timer.next s.timer false) := by
  intro s'
  have hvalid := valid_of_transfer hInv h
  have hlast : (source s).last = true := by simp [source, h, hcount]
  simp only [s', next, h, hvalid, hlast, wait, Bool.and_self, if_true]
  by_cases hfull : C.Buf.level s.buf - 1 ≥ C.depth
  · left
    rw [if_pos hfull]
    rw [C.Buf.level_eq] at hfull ⊢
    have hpos := C.depth_pos
    have hle := beatsLeft_ofNat_le (n := (C.Buf.contents s.buf).length - 1) (by omega)
    exact ⟨rfl, by dsimp only; omega⟩
  · right
    rw [if_neg hfull]
    exact ⟨rfl, rfl⟩

/-- What the buffer holds after a cycle, as a number. -/
theorem length_buf_next (s : State C) (sinkValid : Bool) (sinkData : BitVec 32)
    (sourceReady : Bool) :
    (C.Buf.contents s.buf).length ≤
      (C.Buf.contents (next s sinkValid sinkData sourceReady).buf).length +
        (if bufReady s sourceReady then 1 else 0) := by
  rw [next_buf]
  have hlen := C.Buf.length_next s.buf sinkValid sinkData (bufReady s sourceReady)
  cases hready : bufReady s sourceReady with
  | false =>
    rw [hready, beat_false_right] at hlen
    simp only [List.length_nil] at hlen
    simp
    omega
  | true =>
    have := beat_length_le (C.Buf.readable s.buf) true (C.Buf.dout s.buf)
    rw [hready] at hlen
    simp only [if_true]
    omega

theorem inv_next {s : State C} (hInv : Inv s) (sinkValid : Bool) (sinkData : BitVec 32)
    (sourceReady : Bool) : Inv (next s sinkValid sinkData sourceReady) := by
  have hlen := length_buf_next s sinkValid sinkData sourceReady
  have hbounded : (C.Buf.contents (next s sinkValid sinkData sourceReady).buf).length ≤
      C.depth + 1 := by
    rw [next_buf]
    exact C.Buf.length_next_le _ _ _ _ hInv.bounded
  cases h : s.fsm with
  | buffer =>
    simp only [bufReady, h, Bool.false_eq_true, if_false] at hlen
    rcases next_buffer hInv h sinkValid sinkData sourceReady with ⟨hfsm, hcount⟩ | ⟨hfsm, htimer⟩
    · exact ⟨hbounded, fun _ => by omega, fun hb => by simp [hfsm] at hb⟩
    · refine ⟨hbounded, fun ht => by simp [hfsm] at ht, fun _ hdone => ?_⟩
      -- the timer was waiting, so the buffer was not empty
      rw [htimer] at hdone
      by_cases hlevel : C.Buf.level s.buf > 0
      · rw [C.Buf.level_eq] at hlevel
        omega
      · rw [decide_eq_false hlevel, C.Timer.done_restart] at hdone
        simp at hdone
  | transfer =>
    simp only [bufReady, h] at hlen
    have hburst := hInv.burst h
    cases sourceReady with
    | false =>
      obtain ⟨hfsm, hcount⟩ := next_hold h sinkValid sinkData
      simp only [Bool.false_eq_true, if_false] at hlen
      exact ⟨hbounded, fun _ => by rw [hcount]; omega, fun hb => by simp [hfsm] at hb⟩
    | true =>
      simp only [if_true] at hlen
      by_cases hone : s.count = 1
      · rcases next_last hInv h hone sinkValid sinkData with ⟨hfsm, hcount⟩ | ⟨hfsm, htimer⟩
        · exact ⟨hbounded, fun _ => by omega, fun hb => by simp [hfsm] at hb⟩
        · refine ⟨hbounded, fun ht => by simp [hfsm] at ht, fun _ hdone => ?_⟩
          rw [htimer, C.Timer.done_restart] at hdone
          simp at hdone
      · obtain ⟨hfsm, hcount⟩ := next_more hInv h hone sinkValid sinkData
        exact ⟨hbounded, fun _ => by omega, fun hb => by simp [hfsm] at hb⟩

end WrapSender

end UsbSniffer.Usb
