/-
  Dram/Lossless.lean --- the DRAM FIFO is a FIFO.

  Whichever way the words take, each stage on it is a queue: the latch, the
  up-converter, and the ring of blocks in the memory with the chunks that the
  down-converter has already given of the oldest one.  In DRAM the three are laid
  end to end.  In BYPASS the last two are empty and rest, and the latch is the
  whole FIFO.
-/
import UsbSniffer.Dram.Invariant

set_option autoImplicit false

namespace UsbSniffer.Dram.LiteDRAMFIFO

open UsbSniffer.Sync

variable {dw : Nat} {C : Config dw}

/-- The blocks in the memory, in the slots `[base, base + ctrl_depth)` from the read
address on. -/
def blocks (s : State C) : List (Vector (BitVec dw) C.ratio) :=
  ring s.ports.mem C.base C.ctrlDepth s.ctrl.readAddress s.ctrl.level

/-- The words of the blocks that the down-converter has not given out.  The oldest block
is in the memory until its last word is out; the reader works on a copy. -/
def inMemory (s : State C) : List (BitVec dw) := chunks (blocks s) (C.ConvR.pos s.convR)

/-- The words in the FIFO, oldest first. -/
def held (s : State C) : List (BitVec dw) :=
  inMemory s ++ (gathered s ++ LiteDRAMFIFOLatch.contents s.latch)

theorem inMemory_of_level {s : State C} (h : s.ctrl.level = 0) : inMemory s = [] := by
  rw [inMemory, blocks, h, ring_zero, chunks_nil]

theorem held_of_empty {s : State C} (hlevel : s.ctrl.level = 0) (hgathered : gathered s = [])
    (hlatch : LiteDRAMFIFOLatch.contents s.latch = []) : held s = [] := by
  rw [held, inMemory_of_level hlevel, hgathered, hlatch]
  rfl

/-! ## The stages -/

theorem blocks_step {s : State C} (i : In C) (hInv : Inv s) :
    QueueStep (blocks s) (beat (write s i) true (writeData s))
      (beat (read s i) true (s.ports.mem (readSlot s))) (blocks (next s i)) := by
  have hwaddr : s.ctrl.writeAddress = (s.ctrl.readAddress + s.ctrl.level) % C.ctrlDepth :=
    hInv.ctrl.writeAddress_eq
  have hraddr : (next s i).ctrl.readAddress =
      if read s i then (s.ctrl.readAddress + 1) % C.ctrlDepth else s.ctrl.readAddress :=
    LiteDRAMFIFOCtrl.readAddress_next _ _ hInv.ctrl
  have hmem := mem_next i hInv
  rw [writeSlot, hwaddr] at hmem
  unfold blocks
  rw [hmem, hraddr, level_next i hInv]
  exact ring_step s.ports.mem C.base hInv.ctrl.readAddress_lt (level_lt_of_write i hInv)
    (level_pos_of_read i hInv) (writeData s)

/-- While a chunk is on offer the block that it is of is the oldest one. -/
theorem blocks_of_convRValid {s : State C} (hInv : Inv s) (h : convRValid s = true) :
    ∃ rest, blocks s = readWord s :: rest := by
  obtain ⟨hlevel, hword⟩ := of_convRValid hInv h
  have hpop := ring_pop s.ports.mem C.base (s.ctrl.level - 1) hInv.ctrl.readAddress_lt
  rw [Nat.sub_add_cancel hlevel] at hpop
  rw [hword]
  exact ⟨_, hpop⟩

theorem inMemory_step {s : State C} (i : In C) (hInv : Inv s) :
    QueueStep (inMemory s) (written s i)
      (beat (convRValid s) (sink1Ready s i) (convRData s)) (inMemory (next s i)) := by
  have hlast : (convRValid s && sink1Ready s i && C.ConvR.pos s.convR == C.ratio - 1) =
      read s i := by
    unfold read convRReady Serializer.sinkReady
    cases convRValid s <;> cases sink1Ready s i <;> simp
  have hblocks := blocks_step i hInv
  have hhead : beat (read s i) true (s.ports.mem (readSlot s)) =
      beat (read s i) true (readWord s) := by
    cases hread : read s i with
    | false => rfl
    | true => rw [(of_convRValid hInv (of_read hread)).2]
  rw [hhead, ← hlast] at hblocks
  have hstarted : C.ConvR.pos s.convR ≠ 0 → blocks s ≠ [] := by
    intro hne hnil
    have hvalid := (convRValid_iff s).mpr (hInv.reader.started hne)
    obtain ⟨rest, hrest⟩ := blocks_of_convRValid hInv hvalid
    rw [hnil] at hrest
    cases hrest
  have hfire : (convRValid s && sink1Ready s i) = true → ∃ rest, blocks s = readWord s :: rest := by
    intro h
    rw [Bool.and_eq_true] at h
    exact blocks_of_convRValid hInv h.1
  have hstep := chunks_step hInv.reader.pos_lt hstarted hfire hblocks 0
  rw [← pos_next] at hstep
  have hbeat : beat (convRValid s) (sink1Ready s i) (convRData s) =
      beat (convRValid s && sink1Ready s i) true (convRData s) := by
    unfold beat
    rw [Bool.and_true]
  rw [hbeat]
  exact hstep

/-! ## The whole FIFO -/

theorem held_step_dram {s : State C} (i : In C) (hInv : Inv s) (hfsm : s.fsm = .dram) :
    QueueStep (held s) (sinkWord (i, out s i)) (sourceWord (i, out s i)) (held (next s i)) := by
  have hen : en s = true := by simp [en, hfsm]
  have hlatch := LiteDRAMFIFOLatch.queueStep s.latch (en s) i.sinkValid i.sinkData
    (latchReady s i)
  have hmiddle : beat (LiteDRAMFIFOLatch.sourceValid s.latch (en s)) (latchReady s i)
      (LiteDRAMFIFOLatch.sourceData s.latch (en s)) =
      beat (source1Valid s) (source1Ready s i) (source1Data s) := by
    simp only [source1Valid, source1Data, latchValid, latchData, latchReady, hfsm, hen,
      Bool.true_and, if_true]
  have hsource : sourceWord (i, out s i) =
      beat (convRValid s) (sink1Ready s i) (convRData s) := by
    simp only [sourceWord, out, sourceValid, sourceData, sink1Ready, hfsm, hen, Bool.true_and]
  rw [hmiddle] at hlatch
  rw [hsource]
  exact (hlatch.chain (convW_step i hInv)).chain (inMemory_step i hInv)

theorem held_step_bypass {s : State C} (i : In C) (hInv : Inv s) (hfsm : s.fsm = .bypass) :
    QueueStep (held s) (sinkWord (i, out s i)) (sourceWord (i, out s i)) (held (next s i)) := by
  obtain ⟨hlevel, hgathered⟩ := hInv.bypass hfsm
  obtain ⟨-, -, hgathered', hlevel'⟩ := of_bypass i hInv hfsm
  have hlatch := LiteDRAMFIFOLatch.queueStep s.latch (en s) i.sinkValid i.sinkData
    (latchReady s i)
  have hsource : sourceWord (i, out s i) =
      beat (LiteDRAMFIFOLatch.sourceValid s.latch (en s)) (latchReady s i)
        (LiteDRAMFIFOLatch.sourceData s.latch (en s)) := by
    simp only [sourceWord, out, sourceValid, sourceData, latchValid, latchData, latchReady, hfsm]
  rw [hsource]
  unfold held
  rw [inMemory_of_level hlevel, inMemory_of_level hlevel', hgathered, hgathered']
  exact hlatch

/-- The DRAM FIFO is a queue. -/
theorem refinesQueue :
    RefinesQueue (machine C) (fun _ _ => True) Inv held sinkWord sourceWord where
  inv _ i _ hInv := inv_next i hInv
  step s i _ hInv := by
    cases hfsm : s.fsm with
    | bypass => exact held_step_bypass i hInv hfsm
    | dram => exact held_step_dram i hInv hfsm

theorem held_init (mem : Nat → Vector (BitVec dw) C.ratio) :
    held (init mem : State C) = [] :=
  held_of_empty rfl C.ConvW.held_init LiteDRAMFIFOLatch.contents_init

/-- **The DRAM FIFO loses, duplicates and reorders nothing.**  At every cycle of every
run the words accepted on `sink` are the words accepted on `source`, in order, and
then the words held, in at most `ctrl_depth` blocks of the memory and in the parts
before it. -/
theorem lossless (mem : Nat → Vector (BitVec dw) C.ratio) (is : List (In C)) :
    let s := (machine C).run (init mem) is
    let tr := (machine C).trace (init mem) is
    moved sourceWord tr <+: moved sinkWord tr ∧
      moved sinkWord tr = moved sourceWord tr ++ held s ∧ (blocks s).length ≤ C.ctrlDepth := by
  intro s tr
  have hok := (machine C).allSteps_of_forall (fun _ _ => trivial) (init mem) is
  have hrun := refinesQueue.run (inv_init mem) is hok
  rw [held_init, List.nil_append] at hrun
  have hInv : Inv s := (machine C).invariant_run refinesQueue.inv (inv_init mem) is hok
  refine ⟨refinesQueue.prefix_of_empty (inv_init mem) (held_init mem) is hok, hrun, ?_⟩
  rw [blocks, length_ring]
  exact hInv.ctrl.level_le

end UsbSniffer.Dram.LiteDRAMFIFO
