/-
  Dram/Latch.lean --- the latch of gateware/dramfifo.py.

  Words wait in a small FIFO.  While the latch is enabled it lets them go in groups
  of exactly `depth`: it opens when it holds a group, counts the words that leave,
  and closes after a group when the next one is not there yet.  So a group that has
  begun can always be completed.
-/
import UsbSniffer.Sync.Parts

set_option autoImplicit false

namespace UsbSniffer.Dram

open UsbSniffer.Sync

namespace LiteDRAMFIFOLatch

variable {dw depth : Nat} {F : SyncFIFO (BitVec dw) (2 * depth)}

/-- The FIFO of the latch, whether it is opened, and the words of the group that have passed. -/
structure State (F : SyncFIFO (BitVec dw) (2 * depth)) where
  fifo : F.State
  opened : Bool
  /-- `Signal(max=depth)`. -/
  counter : Nat

/-- Nothing is in the latch, and it is closed. -/
def init : State F where
  fifo := F.init
  opened := false
  counter := 0

/-- What a reset leaves. -/
def clear (s : State F) : State F where
  fifo := F.clear s.fifo
  opened := false
  counter := 0

/-- `writable`. -/
def writable (s : State F) : Bool := F.writable s.fifo

/-- `fifo.source` is connected to `source`. -/
def passes (s : State F) (en : Bool) : Bool := !en || s.opened

/-- `source.valid`. -/
def sourceValid (s : State F) (en : Bool) : Bool := passes s en && F.readable s.fifo

/-- `source.data`, which is zero when the latch does not let it pass. -/
def sourceData (s : State F) (en : Bool) : BitVec dw :=
  if passes s en then F.dout s.fifo else 0

/-- `fifo.source.ready`. -/
def fifoReady (s : State F) (en sourceReady : Bool) : Bool := passes s en && sourceReady

/-- The clock edge. -/
def next (s : State F) (en sinkValid : Bool) (sinkData : BitVec dw) (sourceReady : Bool) :
    State F :=
  let clocked :=
    { s with fifo := F.next s.fifo sinkValid sinkData (fifoReady s en sourceReady) }
  if en && s.opened then
    if F.readable s.fifo && fifoReady s en sourceReady then
      if s.counter < depth - 1 then { clocked with counter := s.counter + 1 }
      else if F.level s.fifo - 1 < depth then { clocked with counter := 0, opened := false }
      else { clocked with counter := 0 }
    else clocked
  else if F.level s.fifo ≥ depth then { clocked with opened := true }
  else clocked

/-- The words in the latch. -/
def contents (s : State F) : List (BitVec dw) := F.contents s.fifo

@[simp] theorem contents_init : contents (init : State F) = [] := F.contents_init

@[simp] theorem contents_clear (s : State F) : contents (clear s) = [] :=
  F.contents_clear s.fifo

theorem next_fifo (s : State F) (en sinkValid : Bool) (sinkData : BitVec dw)
    (sourceReady : Bool) :
    (next s en sinkValid sinkData sourceReady).fifo =
      F.next s.fifo sinkValid sinkData (fifoReady s en sourceReady) := by
  unfold next
  dsimp only
  split_ifs <;> rfl

/-- The latch is a queue. -/
theorem queueStep (s : State F) (en sinkValid : Bool) (sinkData : BitVec dw)
    (sourceReady : Bool) :
    QueueStep (contents s) (beat sinkValid (writable s) sinkData)
      (beat (sourceValid s en) sourceReady (sourceData s en))
      (contents (next s en sinkValid sinkData sourceReady)) := by
  have hfifo := F.queueStep s.fifo sinkValid sinkData (fifoReady s en sourceReady)
  have hpopped : beat (sourceValid s en) sourceReady (sourceData s en) =
      beat (F.readable s.fifo) (fifoReady s en sourceReady) (F.dout s.fifo) := by
    unfold sourceValid sourceData fifoReady
    cases passes s en <;> simp
  unfold contents
  rw [hpopped, next_fifo]
  exact hfifo

/-- The number of words after a cycle. -/
theorem length_next (s : State F) (en sinkValid : Bool) (sinkData : BitVec dw)
    (sourceReady : Bool) :
    (contents s).length ≤ (contents (next s en sinkValid sinkData sourceReady)).length +
      (if sourceValid s en && sourceReady then 1 else 0) := by
  have hlen := congrArg List.length (queueStep s en sinkValid sinkData sourceReady)
  simp only [List.length_append] at hlen
  have hbeat : (beat (sourceValid s en) sourceReady (sourceData s en)).length =
      if sourceValid s en && sourceReady then 1 else 0 := by
    unfold beat
    split_ifs <;> rfl
  omega

/-! ## Groups -/

/-- A group that has begun can be completed from the words in the latch, and while
the latch is closed none has begun. -/
structure Grouped (s : State F) : Prop where
  counter_lt : s.counter < depth
  opened : s.opened = true → depth ≤ s.counter + (contents s).length
  closed : s.opened = false → s.counter = 0

/-- A closed latch, or one that is not enabled, opens when it holds a group. -/
theorem opened_next_closed {s : State F} {en : Bool} (h : (en && s.opened) = false)
    (sinkValid : Bool) (sinkData : BitVec dw) (sourceReady : Bool) :
    (next s en sinkValid sinkData sourceReady).opened =
        (s.opened || decide (depth ≤ (contents s).length)) ∧
      (next s en sinkValid sinkData sourceReady).counter = s.counter := by
  unfold next contents
  rw [h, F.level_eq]
  by_cases hfull : (F.contents s.fifo).length ≥ depth
  · simp [hfull]
  · simp [hfull]

/-- An open latch counts a word that leaves; after the last word of a group it stays
open only when the next group is there. -/
theorem next_open {s : State F} (hopened : s.opened = true) (sinkValid : Bool)
    (sinkData : BitVec dw) (sourceReady : Bool) :
    let s' := next s true sinkValid sinkData sourceReady
    ((sourceValid s true && sourceReady) = false ∧ s'.opened = true ∧
        s'.counter = s.counter) ∨
      ((sourceValid s true && sourceReady) = true ∧ s.counter < depth - 1 ∧
        s'.opened = true ∧ s'.counter = s.counter + 1) ∨
      ((sourceValid s true && sourceReady) = true ∧ depth - 1 ≤ s.counter ∧
        s'.counter = 0 ∧ (s'.opened = true → depth ≤ (contents s).length - 1)) := by
  intro s'
  simp only [s', next, sourceValid, fifoReady, passes, contents, hopened, F.level_eq,
    Bool.true_and, Bool.not_true, Bool.or_true, if_true]
  cases F.readable s.fifo && sourceReady with
  | false => simp
  | true =>
    right
    simp only [if_true]
    by_cases hmore : s.counter < depth - 1
    · left
      simp [hmore]
    · right
      by_cases hshort : (F.contents s.fifo).length - 1 < depth
      · simp [hmore, hshort]
        omega
      · simp [hmore, hshort]
        omega

/-- The counter counts the words that leave an enabled latch, modulo the group. -/
theorem counter_next {s : State F} (hgroup : Grouped s) (sinkValid : Bool)
    (sinkData : BitVec dw) (sourceReady : Bool) :
    (next s true sinkValid sinkData sourceReady).counter =
      (s.counter + (if sourceValid s true && sourceReady then 1 else 0)) % depth := by
  have hlt := hgroup.counter_lt
  cases hopened : s.opened with
  | false =>
    have hclosed : (true && s.opened) = false := by rw [hopened]; rfl
    have hvalid : sourceValid s true = false := by simp [sourceValid, passes, hopened]
    rw [(opened_next_closed hclosed sinkValid sinkData sourceReady).2, hvalid]
    exact (Nat.mod_eq_of_lt hlt).symm
  | true =>
    rcases next_open hopened sinkValid sinkData sourceReady with
      ⟨hpop, -, hcounter⟩ | ⟨hpop, hmore, -, hcounter⟩ | ⟨hpop, hlast, hcounter, -⟩
    · rw [hcounter, hpop]
      exact (Nat.mod_eq_of_lt hlt).symm
    · rw [hcounter, hpop, if_pos rfl, Nat.mod_eq_of_lt (by omega)]
    · rw [hcounter, hpop, if_pos rfl, show s.counter + 1 = depth by omega, Nat.mod_self]

/-- An enabled latch keeps to its groups. -/
theorem grouped_next {s : State F} (hgroup : Grouped s) (sinkValid : Bool)
    (sinkData : BitVec dw) (sourceReady : Bool) :
    Grouped (next s true sinkValid sinkData sourceReady) := by
  have hlt := hgroup.counter_lt
  have hlen := length_next s true sinkValid sinkData sourceReady
  cases hopened : s.opened with
  | false =>
    have hzero := hgroup.closed hopened
    have hclosed : (true && s.opened) = false := by rw [hopened]; rfl
    obtain ⟨hopen, hsame⟩ := opened_next_closed hclosed sinkValid sinkData sourceReady
    have hvalid : sourceValid s true = false := by simp [sourceValid, passes, hopened]
    rw [hvalid, Bool.false_and] at hlen
    simp only [Bool.false_eq_true, if_false] at hlen
    refine ⟨by omega, fun h => ?_, fun _ => by omega⟩
    rw [hopen, hopened, Bool.false_or, decide_eq_true_iff] at h
    omega
  | true =>
    have hfull := hgroup.opened hopened
    rcases next_open hopened sinkValid sinkData sourceReady with
      ⟨hpop, hopen, hcounter⟩ | ⟨hpop, hmore, hopen, hcounter⟩ | ⟨hpop, hlast, hcounter, hopen⟩
    · rw [hpop] at hlen
      simp only [Bool.false_eq_true, if_false] at hlen
      exact ⟨by omega, fun _ => by omega, fun h => by rw [hopen] at h; cases h⟩
    · rw [hpop] at hlen
      simp only [if_true] at hlen
      exact ⟨by omega, fun _ => by omega, fun h => by rw [hopen] at h; cases h⟩
    · rw [hpop] at hlen
      simp only [if_true] at hlen
      refine ⟨by omega, fun h => ?_, fun _ => hcounter⟩
      have := hopen h
      omega

/-- A full latch that is not enabled opens, and still holds a group when it is enabled
in the next cycle. -/
theorem grouped_of_full {s : State F} (hdepth : 0 < depth) (hcounter : s.counter = 0)
    (hfull : writable s = false) (sinkValid : Bool) (sinkData : BitVec dw)
    (sourceReady : Bool) : Grouped (next s false sinkValid sinkData sourceReady) := by
  have hlevel : (contents s).length = 2 * depth := by
    unfold writable SyncFIFO.writable at hfull
    rw [F.level_eq] at hfull
    simpa [contents] using hfull
  have hclosed : (false && s.opened) = false := rfl
  obtain ⟨hopen, hsame⟩ := opened_next_closed hclosed sinkValid sinkData sourceReady
  have hlen := length_next s false sinkValid sinkData sourceReady
  rw [hlevel, decide_eq_true (by omega), Bool.or_true] at hopen
  refine ⟨by omega, fun _ => ?_, fun h => by rw [hopen] at h; cases h⟩
  split_ifs at hlen <;> omega

end LiteDRAMFIFOLatch

end UsbSniffer.Dram
