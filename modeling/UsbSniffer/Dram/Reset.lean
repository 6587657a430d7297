/-
  Dram/Reset.lean --- resets of the DRAM FIFO.

  The reset manager of usbsniffer.py resets the FIFO at any cycle, but not the
  memory controller.  A read that is outstanding then still returns its block: the
  reader, which has forgotten it, gives its words out as the first ones of the next
  contents and counts the block off a level that does not include it.  A write that
  is outstanding takes the data of the first block written after the reset, and
  every later block goes to the slot of the block before it.
-/
import UsbSniffer.Dram.Lossless

set_option autoImplicit false

namespace UsbSniffer.Dram.LiteDRAMFIFO

open UsbSniffer.Sync

variable {dw : Nat} {C : Config dw}

/-- A reset reaches everything but the memory controller. -/
def clear (s : State C) : State C where
  ctrl := LiteDRAMFIFOCtrl.init
  writer := LiteDRAMFIFOWriter.init
  reader := LiteDRAMFIFOReader.clear s.reader
  latch := LiteDRAMFIFOLatch.clear s.latch
  fsm := .bypass
  convW := C.ConvW.init
  convR := C.ConvR.init
  ports := s.ports

/-- The FIFO in its `ResetInserter`. -/
def resetMachine (C : Config dw) : Machine (State C) (In C × Bool) (Out dw) :=
  (machine C).resettable clear

/-- The FIFO is as good as a fresh one since its last reset: the level is one, no block
is read when there is none, and the words given out were taken in since then. -/
structure FreshSinceReset (s : State C) (tr : List ((In C × Bool) × Out dw)) : Prop where
  level_le : s.ctrl.level ≤ C.ctrlDepth
  read_pos : ∀ c ∈ tr, c.2.read = true → 1 ≤ c.2.level
  words : moved sourceWord (Machine.sinceReset tr) <+: moved sinkWord (Machine.sinceReset tr)

/-- A reset leaves no command outstanding: no read, and no write unless there is only
one slot that it can be for.  A FIFO that can be built has more slots. -/
def LeavesNoCommand (s : State C) (i : In C × Bool) : Prop :=
  i.2 = true → Ports.SettlesReads s.ports (moves s i.1) ∧
    (Ports.SettlesWrites s.ports (moves s i.1) ∨ C.ctrlDepth = 1)

instance (s : State C) (i : In C × Bool) : Decidable (LeavesNoCommand s i) :=
  inferInstanceAs (Decidable (_ → _ ∧ _))

theorem held_clear (s : State C) : held (clear s) = [] :=
  held_of_empty rfl C.ConvW.held_init (LiteDRAMFIFOLatch.contents_clear s.latch)

/-- Without outstanding commands the registers after a reset are those of a fresh
FIFO. -/
theorem inv_clear {s : State C} (hInv : Inv s) (hreads : s.ports.reads = [])
    (hwrites : s.ports.writes = [] ∨ C.ctrlDepth = 1) : Inv (clear s) where
  ctrl := LiteDRAMFIFOCtrl.inv_init (ctrlDepth_pos C)
  grouped := by simp [clear]
  counted := by simp [gathered, clear, C.ConvW.held_init, LiteDRAMFIFOLatch.clear]
  bypass _ := ⟨rfl, C.ConvW.held_init⟩
  writer :=
    { sendcmd := rfl
      slot := by
        intro a ha
        rcases hwrites with hnone | hone
        · simp [clear, hnone] at ha
        · -- the one slot is the one that is written next
          have hslot := hInv.writer.slot a ha
          have hold : s.ctrl.writeAddress < 1 := hone ▸ hInv.ctrl.writeAddress_lt
          have hzero : (clear s).ctrl.writeAddress = 0 := rfl
          unfold writeSlot at hslot ⊢
          omega
      commanded := by simp [clear, LiteDRAMFIFOWriter.init]
      single := by
        intro hone
        rcases hwrites with hnone | h
        · simp [clear, hnone]
        · exact absurd h hone }
  reader :=
    { idle := fun _ => ⟨hreads, C.ReadFifo.contents_clear s.reader.fifo⟩
      busy := by simp [clear, LiteDRAMFIFOReader.clear]
      pos_lt := by simp [clear, C.ConvR.pos_init, C.ratio_pos]
      started := by simp [clear, C.ConvR.pos_init] }

/-- What holds between the registers and the cycles since the last reset. -/
structure History (s : State C) (tr : List ((In C × Bool) × Out dw)) : Prop where
  inv : Inv s
  read_pos : ∀ c ∈ tr, c.2.read = true → 1 ≤ c.2.level
  words : moved sinkWord (Machine.sinceReset tr) =
    moved sourceWord (Machine.sinceReset tr) ++ held s

theorem history_next {s : State C} {tr : List ((In C × Bool) × Out dw)} {i : In C × Bool}
    (hok : LeavesNoCommand s i) (h : History s tr) :
    History ((resetMachine C).next s i) (tr ++ [(i, out s i.1)]) := by
  have hnext := inv_next i.1 h.inv
  have hread_pos : ∀ c ∈ tr ++ [(i, out s i.1)], c.2.read = true → 1 ≤ c.2.level := by
    intro c hc
    rw [List.mem_append, List.mem_singleton] at hc
    rcases hc with hc | rfl
    · exact h.read_pos c hc
    · exact level_pos_of_read i.1 h.inv
  cases hreset : i.2 with
  | false =>
    have hstate : (resetMachine C).next s i = next s i.1 := by
      simp [resetMachine, Machine.resettable, hreset, machine]
    rw [hstate]
    refine ⟨hnext, hread_pos, ?_⟩
    have hstep := refinesQueue.step s i.1 trivial h.inv
    rw [Machine.sinceReset_concat, hreset, if_neg Bool.false_ne_true, moved_append,
      moved_append, moved_singleton, moved_singleton, h.words, List.append_assoc,
      List.append_assoc]
    exact congrArg _ hstep
  | true =>
    have hstate : (resetMachine C).next s i = clear (next s i.1) := by
      simp [resetMachine, Machine.resettable, hreset, machine]
    obtain ⟨hreads, hwrites⟩ := hok hreset
    have hclear := inv_clear hnext (Ports.reads_of_settles hreads)
      (hwrites.imp_left Ports.writes_of_settles)
    rw [hstate]
    refine ⟨hclear, hread_pos, ?_⟩
    rw [Machine.sinceReset_concat, hreset, if_pos rfl, held_clear]
    rfl

/-- **A reset that leaves no command outstanding restores a fresh FIFO.**  In every run
in which each reset does, the FIFO is at every cycle as good as fresh since the last
one. -/
theorem reset_fresh (mem : Nat → Vector (BitVec dw) C.ratio) (is : List (In C × Bool))
    (hok : (resetMachine C).AllSteps LeavesNoCommand (init mem) is) :
    FreshSinceReset ((resetMachine C).run (init mem) is)
      ((resetMachine C).trace (init mem) is) := by
  have hrun := (resetMachine C).history_induction LeavesNoCommand History
    ⟨inv_init mem, by simp, by simp [held_init]⟩
    (fun s tr i hi h => history_next hi h) is hok
  refine ⟨hrun.inv.ctrl.level_le, hrun.read_pos, ?_⟩
  exact ⟨_, hrun.words.symm⟩

/-! ## The FIFO of the SoC -/

/-- 32 Mi words of 32 bits, on a controller with words of 128 bits. -/
def dramfifo : Config 32 where
  ratio := 4
  ratio_pos := by omega
  depth := 32 * 1024 * 1024
  depth_pos := by omega
  base := 0
  Latch := SyncFIFO.queue (BitVec 32) (2 * 4)
  ReadFifo := SyncFIFO.queue (Vector (BitVec 32) 4) 2
  ConvW := UpConverter.register (BitVec 32) 4 (by omega)
  ConvR := Serializer.mux 4

/-- A memory of zeros. -/
def zeros : Nat → Vector (BitVec 32) dramfifo.ratio := fun _ => Vector.replicate 4 0

/-- A cycle that offers a word, with or without a ready receiver. -/
def wordCycle (sinkData : BitVec 32) (sourceReady : Bool) : In dramfifo where
  sinkValid := true
  sinkData := sinkData
  sourceReady := sourceReady
  writeCmdReady := true
  wdataWilling := true
  readCmdReady := true
  rdataWilling := true
  rdataUnknown := Vector.replicate 4 0

/-- The receiver stalls until the first block is in the memory and its read is
outstanding.  After the reset the words are new ones. -/
def staleReadRun : List (In dramfifo × Bool) :=
  List.replicate 17 ({ wordCycle 1 false with rdataWilling := false }, false) ++
    [({ wordCycle 1 false with rdataWilling := false }, true)] ++
    List.replicate 10 (wordCycle 2 false, false) ++ List.replicate 4 (wordCycle 2 true, false)

/-- The reset comes while the first write is outstanding. -/
def staleWriteRun : List (In dramfifo × Bool) :=
  List.replicate 14 (wordCycle 1 false, false) ++
    [({ wordCycle 1 false with wdataWilling := false }, true)] ++
    List.replicate 4 (wordCycle 2 false, false) ++ List.replicate 6 (wordCycle 3 false, false) ++
    List.replicate 16 (wordCycle 3 true, false)

/-- **A reset with a command outstanding does not restore a fresh FIFO**: with a read
the words from before the reset come out and the level wraps, and with a write the
second block is lost. -/
theorem reset_not_fresh :
    ¬ FreshSinceReset ((resetMachine dramfifo).run (init zeros) staleReadRun)
        ((resetMachine dramfifo).trace (init zeros) staleReadRun) ∧
      ¬ FreshSinceReset ((resetMachine dramfifo).run (init zeros) staleWriteRun)
        ((resetMachine dramfifo).trace (init zeros) staleWriteRun) :=
  ⟨fun h => absurd h.level_le (by decide +kernel), fun h => absurd h.words (by decide +kernel)⟩

/-- A reset while words are in the memory and no command is outstanding. -/
theorem reset_fresh_in_dram :
    FreshSinceReset
      ((resetMachine dramfifo).run (init zeros)
        (List.replicate 30 (wordCycle 1 false, false) ++ [(wordCycle 1 false, true)] ++
          List.replicate 20 (wordCycle 2 true, false)))
      ((resetMachine dramfifo).trace (init zeros)
        (List.replicate 30 (wordCycle 1 false, false) ++ [(wordCycle 1 false, true)] ++
          List.replicate 20 (wordCycle 2 true, false))) :=
  reset_fresh zeros _ (by decide +kernel)

end UsbSniffer.Dram.LiteDRAMFIFO
