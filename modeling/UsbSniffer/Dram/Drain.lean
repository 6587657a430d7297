/-
  Dram/Drain.lean --- the DRAM FIFO does not keep words (gateware/dramfifo.py).

  A word can wait in a closed latch, behind a block that is not full, for a command or for
  its data.  But the latch opens when a group is there, a group that has begun is
  completed, and the router goes back to BYPASS when the latch is closed and the memory
  is empty: in front of a memory and a receiver that are willing, every cycle brings the
  oldest words on, and they are out after a number of cycles that is linear in the words
  in front.
-/
import UsbSniffer.Sync.Progress
import UsbSniffer.Dram.Reset

set_option autoImplicit false

namespace UsbSniffer.Sync.UpConverter

/-- A converter that holds one wide word at most, and takes a word that is offered unless it
has one to give. -/
structure Prompt {α : Type} {ratio : Nat} (U : UpConverter α ratio) : Prop where
  held_le : ∀ s, (U.held s).length ≤ ratio
  ready : ∀ s ready, U.sourceValid s true = false → U.sinkReady s ready = true

theorem register_prompt {α : Type} [Inhabited α] {ratio : Nat} (hratio : 0 < ratio) :
    (register α ratio hratio).Prompt where
  held_le s := s.2
  ready s ready h := by
    change (s.1.length == ratio) = false at h
    change (s.1.length != ratio || ready) = true
    rw [bne, h]
    rfl

end UsbSniffer.Sync.UpConverter

namespace UsbSniffer.Dram.LiteDRAMFIFO

open UsbSniffer.Sync

variable {dw : Nat} {C : Config dw}

/-- The memory and the receiver do their part. -/
def willing (i : In C) : Bool :=
  i.writeCmdReady && i.wdataWilling && i.readCmdReady && i.rdataWilling && i.sourceReady

/-- The words given in a cycle. -/
def given (s : State C) (i : In C) : Nat := (sourceWord (i, out s i)).length

/-- The words that leave the latch for the memory in a cycle. -/
def entered (s : State C) (i : In C) : Nat :=
  (beat (source1Valid s) (source1Ready s i) (source1Data s)).length

theorem given_le (s : State C) (i : In C) : given s i ≤ 1 := beat_length_le _ _ _

/-! ## The reader -/

/-- How far the oldest block is: it is asked for, or it is there. -/
def readerPhase (s : State C) : Nat :=
  if s.reader.sendcmd then 0 else if (readFifo s).isEmpty then 1 else 2

theorem readerPhase_le (s : State C) : readerPhase s ≤ 2 := by
  unfold readerPhase
  split_ifs <;> omega

theorem sendcmd_next (s : State C) (i : In C) : (next s i).reader.sendcmd =
    if read s i then true else if readCmd s i then false else s.reader.sendcmd := rfl

theorem given_dram {s : State C} (i : In C) (hfsm : s.fsm = .dram) :
    given s i = (convRValid s && i.sourceReady).toNat := by
  unfold given sourceWord
  simp only [out, sourceValid, hfsm, beat]
  cases convRValid s && i.sourceReady <;> rfl

theorem one_le_readerPhase {s : State C} (h : s.reader.sendcmd = false) : 1 ≤ readerPhase s := by
  unfold readerPhase
  rw [h]
  simp only [Bool.false_eq_true, if_false]
  split_ifs <;> omega

/-- A reader that has asked for nothing asks for the oldest block. -/
theorem readerPhase_idle {s : State C} (i : In C) (hInv : Inv s) (h : s.reader.sendcmd = true) :
    readerPhase s + (willing i && decide (1 ≤ s.ctrl.level)).toNat ≤ readerPhase (next s i) := by
  obtain ⟨-, hfifo⟩ := hInv.reader.idle h
  have hread := read_eq_false i (convRValid_of_nil hfifo)
  have hphase : readerPhase s = 0 := by simp [readerPhase, h]
  cases hgo : willing i && decide (1 ≤ s.ctrl.level) with
  | false => simp [hphase]
  | true =>
    obtain ⟨hwilling, hlevel⟩ := Bool.and_eq_true_iff.mp hgo
    simp only [willing, Bool.and_eq_true] at hwilling
    have hcmd : readCmd s i = true := by
      unfold readCmd LiteDRAMFIFOReader.cmdValid
      rw [h, hwilling.1.1.2, Bool.and_true, Bool.and_true]
      exact hlevel
    have hsend : (next s i).reader.sendcmd = false := by rw [sendcmd_next, hread, hcmd]; rfl
    have hphase' := one_le_readerPhase hsend
    rw [hphase, Bool.toNat_true]
    omega

/-- A block that has been asked for comes. -/
theorem readerPhase_asked {s : State C} (i : In C) (h : s.reader.sendcmd = false)
    {slot : Nat} {block : Vector (BitVec dw) C.ratio}
    (hreads : s.ports.reads = [(slot, some block)]) (hfifo : readFifo s = []) :
    readerPhase s + (willing i && decide (1 ≤ s.ctrl.level)).toNat ≤ readerPhase (next s i) := by
  have hread := read_eq_false i (convRValid_of_nil hfifo)
  have hcmd : readCmd s i = false := by simp [readCmd, LiteDRAMFIFOReader.cmdValid, h]
  have hphase : readerPhase s = 1 := by simp [readerPhase, h, hfifo]
  have hsend : (next s i).reader.sendcmd = false := by
    rw [sendcmd_next, hread, hcmd, h]
    rfl
  cases hgo : willing i && decide (1 ≤ s.ctrl.level) with
  | false =>
    rw [hphase, Bool.toNat_false]
    exact one_le_readerPhase hsend
  | true =>
    obtain ⟨hwilling, -⟩ := Bool.and_eq_true_iff.mp hgo
    simp only [willing, Bool.and_eq_true] at hwilling
    have hrdata : rdataValid s i = true := by
      simp [rdataValid, Ports.rdataValid, hwilling.1.2, hreads]
    have hcontents : C.ReadFifo.contents s.reader.fifo = [] := hfifo
    have hfifo' : readFifo (next s i) ≠ [] := by
      simp [readFifo, next, LiteDRAMFIFOReader.next, C.ReadFifo.contents_next, hcontents,
        C.ReadFifo.level_eq, hrdata]
    have hphase' : readerPhase (next s i) = 2 := by
      unfold readerPhase
      rw [hsend, List.isEmpty_eq_false_iff.mpr hfifo']
      rfl
    rw [hphase, hphase', Bool.toNat_true]

/-- A block that is there stays while nobody takes its words. -/
theorem readerPhase_stays {s : State C} (i : In C) (h : s.reader.sendcmd = false)
    (hreads : s.ports.reads = []) (hready : i.sourceReady = false) :
    readerPhase (next s i) = readerPhase s := by
  have hrdata := rdataValid_of_nil i hreads
  have hstay : convRReady s i = false := by
    simp [convRReady, Serializer.sinkReady, sink1Ready, hready]
  have hread : read s i = false := by simp [read, hstay]
  have hcmd : readCmd s i = false := by simp [readCmd, LiteDRAMFIFOReader.cmdValid, h]
  have hsend : (next s i).reader.sendcmd = s.reader.sendcmd := by
    rw [sendcmd_next, hread, hcmd]
    rfl
  have hfifo : readFifo (next s i) = readFifo s := by
    rw [readFifo_next hrdata, hstay]
    rfl
  unfold readerPhase
  rw [hsend, hfifo]


/-- In front of a block the reader acts in every cycle. -/
theorem readerPhase_next {s : State C} (i : In C) (hInv : Inv s) (hfsm : s.fsm = .dram) :
    readerPhase s + (willing i && decide (1 ≤ s.ctrl.level)).toNat ≤
      readerPhase (next s i) + 3 * given s i := by
  have hone := (willing i && decide (1 ≤ s.ctrl.level)).toNat_le
  cases hsend : s.reader.sendcmd with
  | true => exact Nat.le_add_right_of_le (readerPhase_idle i hInv hsend)
  | false =>
    obtain ⟨-, ⟨hreads, hfifo⟩ | ⟨hreads, hfifo⟩⟩ := hInv.reader.busy hsend
    · exact Nat.le_add_right_of_le (readerPhase_asked i hsend hreads hfifo)
    · have hvalid : convRValid s = true := by
        rw [convRValid_iff, hfifo]
        exact List.cons_ne_nil _ _
      rw [given_dram i hfsm, hvalid, Bool.true_and]
      cases hready : i.sourceReady with
      | true =>
        have hphase := readerPhase_le s
        rw [Bool.toNat_true]
        omega
      | false =>
        have hnot : willing i = false := by simp [willing, hready]
        rw [readerPhase_stays i hsend hreads hready, hnot, Bool.false_and, Bool.toNat_false]

/-! ## The latch and the writer -/

/-- The latch waits for a group. -/
def closed (s : State C) : Nat := (en s && !s.latch.opened).toNat

/-- How far the next block is: the words gathered for it, and its command. -/
def writerPhase (s : State C) : Nat := 2 * (gathered s).length + s.writer.senddata.toNat

theorem senddata_next (s : State C) (i : In C) : (next s i).writer.senddata =
    if write s i then false else if writeCmd s i then true else s.writer.senddata := rfl

theorem gathered_length {s : State C} (i : In C) (hInv : Inv s) :
    (gathered s).length + entered s i =
      (if write s i then C.ratio else 0) + (gathered (next s i)).length := by
  have hlength := congrArg List.length (convW_step i hInv)
  rw [List.length_append, List.length_append, length_written] at hlength
  exact hlength

theorem inMemory_length {s : State C} (i : In C) (hInv : Inv s) (hfsm : s.fsm = .dram) :
    (inMemory s).length + (if write s i then C.ratio else 0) =
      given s i + (inMemory (next s i)).length := by
  have hlength := congrArg List.length (inMemory_step i hInv)
  rw [List.length_append, List.length_append, length_written] at hlength
  have hgiven : given s i = (beat (convRValid s) (sink1Ready s i) (convRData s)).length := by
    unfold given sourceWord
    simp only [out, sourceValid, sourceData, sink1Ready, en, hfsm, beq_self_eq_true, Bool.true_and]
  rw [hgiven]
  exact hlength

/-- There are words in the memory when there is a block. -/
theorem inMemory_pos {s : State C} (hInv : Inv s) :
    0 < (inMemory s).length ↔ 1 ≤ s.ctrl.level := by
  constructor
  · intro h
    by_contra hzero
    rw [inMemory_of_level (by omega)] at h
    exact absurd h (Nat.lt_irrefl 0)
  · intro h
    have hpos := hInv.reader.pos_lt
    have hone : 1 * C.ratio ≤ s.ctrl.level * C.ratio := Nat.mul_le_mul_right _ h
    rw [inMemory, chunks, List.length_drop, length_flatMap_toList, blocks, length_ring]
    omega

theorem given_of_level {s : State C} (i : In C) (hInv : Inv s) (hfsm : s.fsm = .dram)
    (h : s.ctrl.level = 0) : given s i = 0 := by
  have hvalid : convRValid s = false := by
    cases hvalid : convRValid s with
    | false => rfl
    | true =>
      have := (of_convRValid hInv hvalid).1
      omega
  rw [given_dram i hfsm, hvalid]
  rfl

/-- A word that is given was in the memory. -/
theorem given_le_inMemory {s : State C} (i : In C) (hInv : Inv s) (hfsm : s.fsm = .dram) :
    given s i ≤ (inMemory s).length := by
  rcases Nat.eq_zero_or_pos s.ctrl.level with hzero | hlevel
  · rw [given_of_level i hInv hfsm hzero]
    exact Nat.zero_le _
  · exact (given_le s i).trans ((inMemory_pos hInv).mpr hlevel)

/-- The latch closes with the last word of a group. -/
theorem closed_next {s : State C} (i : In C) (hfsm : s.fsm = .dram) :
    closed (next s i) ≤ closed s + entered s i := by
  have hen : en s = true := by simp [en, hfsm]
  have hone : closed (next s i) ≤ 1 := Bool.toNat_le _
  cases hopened : s.latch.opened with
  | false =>
    have hclosed : closed s = 1 := by simp [closed, hen, hopened]
    omega
  | true =>
    have hlatch : (next s i).latch = LiteDRAMFIFOLatch.next s.latch true i.sinkValid i.sinkData
        (latchReady s i) := by
      rw [← hen]
      rfl
    have hentered : entered s i =
        (LiteDRAMFIFOLatch.sourceValid s.latch true && latchReady s i).toNat := by
      unfold entered source1Valid latchValid latchReady beat
      rw [hen, hfsm, Bool.true_and]
      cases LiteDRAMFIFOLatch.sourceValid s.latch true && source1Ready s i <;> rfl
    rw [hentered]
    rcases LiteDRAMFIFOLatch.next_open hopened i.sinkValid i.sinkData (latchReady s i) with
      ⟨-, hopen, -⟩ | ⟨-, -, hopen, -⟩ | ⟨hpop, -⟩
    · have hzero : closed (next s i) = 0 := by simp [closed, hlatch, hopen]
      omega
    · have hzero : closed (next s i) = 0 := by simp [closed, hlatch, hopen]
      omega
    · rw [hpop, Bool.toNat_true]
      omega

/-- The writer's command is kept until its data is out. -/
theorem senddata_le {s : State C} {i : In C} (h : write s i = false) :
    s.writer.senddata.toNat ≤ (next s i).writer.senddata.toNat := by
  rw [senddata_next, h]
  cases writeCmd s i <;> cases s.writer.senddata <;> decide

/-- In a willing cycle in which no data is written, the command for a wide word is taken. -/
theorem senddata_advances {s : State C} {i : In C} (hInv : Inv s) (hwritable : writable s = true)
    (hwilling : willing i = true) (hwrite : write s i = false) (hpending : pending s = true) :
    s.writer.senddata.toNat + 1 = (next s i).writer.senddata.toNat := by
  simp only [willing, Bool.and_eq_true] at hwilling
  cases hdata : s.writer.senddata with
  | true =>
    have hcommanded := hInv.writer.commanded hdata
    have hwritten : write s i = true := by
      simp [write, LiteDRAMFIFOWriter.wdataValid, Ports.wdataReady, hpending, hwritable, hdata,
        hwilling.1.1.1.2, hcommanded]
    rw [hwrite] at hwritten
    cases hwritten
  | false =>
    have hsendcmd := hInv.writer.sendcmd
    rw [hdata, Bool.not_false] at hsendcmd
    have hcmd : writeCmd s i = true := by
      simp [writeCmd, LiteDRAMFIFOWriter.cmdValid, hpending, hwritable, hsendcmd,
        hwilling.1.1.1.1]
    rw [senddata_next, hwrite, hcmd]
    rfl

/-- A word that the latch offers is gathered, unless a wide word is there. -/
theorem entered_of_valid {s : State C} (i : In C) (hprompt : C.ConvW.Prompt)
    (hfsm : s.fsm = .dram) (hpending : pending s = false) (hvalid : latchValid s = true) :
    entered s i = 1 := by
  have hsource : source1Valid s = true := by simp [source1Valid, en, hfsm, hvalid]
  unfold pending at hpending
  rw [hsource] at hpending
  have hready : source1Ready s i = true := hprompt.ready s.convW _ hpending
  simp [entered, hsource, hready]

/-- An open latch has words of its group to offer. -/
theorem closed_of_not_valid {s : State C} (hInv : Inv s) (hfsm : s.fsm = .dram)
    (hvalid : latchValid s = false) : closed s = 1 := by
  have hnot : s.latch.opened = false := by
    cases hopened : s.latch.opened with
    | false => rfl
    | true =>
      have hfull := (hInv.grouped hfsm).opened hopened
      have hreadable : C.Latch.readable s.latch.fifo = false := by
        simpa [latchValid, LiteDRAMFIFOLatch.sourceValid, LiteDRAMFIFOLatch.passes,
          hopened] using hvalid
      rw [C.Latch.readable_eq, Bool.not_eq_false', List.isEmpty_iff] at hreadable
      have hempty : LiteDRAMFIFOLatch.contents s.latch = [] := hreadable
      rw [counter_of_not_valid hInv hfsm hvalid, hempty, List.length_nil] at hfull
      have := C.ratio_pos
      omega
  simp [closed, en, hfsm, hnot]

/-- With nothing to be written or read the router goes back to BYPASS, where the latch is not
closed. -/
theorem closed_of_leaves {s : State C} (i : In C) (hfsm : s.fsm = .dram)
    (hvalid : latchValid s = false) (hpending : pending s = false)
    (hlevel : s.ctrl.level = 0) : closed (next s i) = 0 := by
  have hreadable : readable s = false := by
    unfold readable LiteDRAMFIFOCtrl.readable
    rw [hlevel]
    rfl
  have hleave : (next s i).fsm = .bypass := by
    simp [next, hfsm, hvalid, hpending, hreadable]
  simp [closed, en, hleave]

/-- With an empty memory the latch, the writer or the router acts in every cycle. -/
theorem writerPhase_next {s : State C} (i : In C) (hInv : Inv s) (hprompt : C.ConvW.Prompt)
    (hfsm : s.fsm = .dram) (hlevel : s.ctrl.level = 0) (hwilling : willing i = true)
    (hwrite : write s i = false) :
    closed (next s i) + writerPhase s + 1 ≤ closed s + writerPhase (next s i) := by
  have hgathered := gathered_length i hInv
  rw [hwrite, if_neg Bool.false_ne_true, Nat.zero_add] at hgathered
  have hclosed := closed_next i hfsm
  have hsend := senddata_le hwrite
  have hwritable : writable s = true := by
    unfold writable LiteDRAMFIFOCtrl.writable
    rw [hlevel]
    exact decide_eq_true (ctrlDepth_pos C)
  unfold writerPhase
  cases hpending : pending s with
  | true =>
    have hcommand := senddata_advances hInv hwritable hwilling hwrite hpending
    omega
  | false =>
    cases hvalid : latchValid s with
    | true =>
      have hentered := entered_of_valid i hprompt hfsm hpending hvalid
      omega
    | false =>
      have hone := closed_of_not_valid hInv hfsm hvalid
      have hzero := closed_of_leaves i hfsm hvalid hpending hlevel
      omega

theorem writerPhase_le (s : State C) (hprompt : C.ConvW.Prompt) :
    writerPhase s ≤ 2 * C.ratio + 1 := by
  have hheld : (gathered s).length ≤ C.ratio := hprompt.held_le s.convW
  have hsend := s.writer.senddata.toNat_le
  unfold writerPhase
  omega

/-! ## What the words cost -/

/-- What has been done already for the first `r` words. -/
def spent (s : State C) (r : Nat) : Nat :=
  (if 0 < min r (inMemory s).length then readerPhase s else 0) +
    if (inMemory s).length < r then writerPhase s else 0

/-- The cycles until the first `r` words are out: three for a word in the memory, more for
one in front of it, and one for the latch. -/
def cost (s : State C) (r : Nat) : Nat :=
  3 * min r (inMemory s).length + (2 * C.ratio + 6) * (r - (inMemory s).length) +
    (if (inMemory s).length < r then closed s else 0) - spent s r

/-- Words that are all in the memory cost the work of the reader. -/
theorem cost_of_le {s : State C} {r : Nat} (hr : 0 < r) (h : r ≤ (inMemory s).length) :
    cost s r = 3 * r - readerPhase s := by
  have hzero : r - (inMemory s).length = 0 := by omega
  simp only [cost, spent, Nat.min_eq_left h, hzero, if_neg (Nat.not_lt.mpr h), if_pos hr]
  omega

/-- Others cost that of the latch and of the writer too. -/
theorem cost_of_lt {s : State C} {r : Nat} (h : (inMemory s).length < r) :
    cost s r = 3 * (inMemory s).length + (2 * C.ratio + 6) * (r - (inMemory s).length) +
      closed s - ((if 0 < (inMemory s).length then readerPhase s else 0) + writerPhase s) := by
  simp only [cost, spent, Nat.min_eq_right (Nat.le_of_lt h), if_pos h]

/-- Nothing that has been done was for more than a block. -/
theorem spent_le_front {s : State C} {r : Nat} (hprompt : C.ConvW.Prompt)
    (h : (inMemory s).length < r) :
    readerPhase s + writerPhase s + 3 ≤ (2 * C.ratio + 6) * (r - (inMemory s).length) := by
  have hreader := readerPhase_le s
  have hwriter := writerPhase_le s hprompt
  have hfront : 2 * C.ratio + 6 ≤ (2 * C.ratio + 6) * (r - (inMemory s).length) :=
    Nat.le_mul_of_pos_right _ (Nat.sub_pos_of_lt h)
  omega

theorem cost_le (s : State C) (r : Nat) : cost s r ≤ (2 * C.ratio + 6) * r + 1 := by
  have hclosed : closed s ≤ 1 := Bool.toNat_le _
  have hsplit : r = min r (inMemory s).length + (r - (inMemory s).length) := by omega
  have hinside : 3 * min r (inMemory s).length ≤
      (2 * C.ratio + 6) * min r (inMemory s).length := Nat.mul_le_mul_right _ (by omega)
  have hlatch : (if (inMemory s).length < r then closed s else 0) ≤ 1 := by
    split_ifs
    · exact hclosed
    · exact Nat.zero_le 1
  calc cost s r
      ≤ 3 * min r (inMemory s).length + (2 * C.ratio + 6) * (r - (inMemory s).length) + 1 := by
        unfold cost
        omega
    _ ≤ (2 * C.ratio + 6) * (min r (inMemory s).length + (r - (inMemory s).length)) + 1 := by
        rw [Nat.mul_add]
        omega
    _ = (2 * C.ratio + 6) * r + 1 := by rw [← hsplit]

/-- The words are all in the memory: the reader brings them out. -/
theorem cost_inside {s : State C} {r : Nat} (i : In C) (hInv : Inv s) (hfsm : s.fsm = .dram)
    (hr : given s i < r) (h : r ≤ (inMemory s).length) :
    cost (next s i) (r - given s i) + (willing i).toNat ≤ cost s r := by
  have hmemory := inMemory_length i hInv hfsm
  have hlevel : 1 ≤ s.ctrl.level := (inMemory_pos hInv).mp (by omega)
  have hreader := readerPhase_next i hInv hfsm
  rw [decide_eq_true hlevel, Bool.and_true] at hreader
  have hphase := readerPhase_le s
  have hphase' := readerPhase_le (next s i)
  have hstay : r - given s i ≤ (inMemory (next s i)).length := by omega
  rw [cost_of_le (by omega) h, cost_of_le (by omega) hstay]
  omega

/-- Words are gathered in front of the memory. -/
theorem cost_gather {s : State C} {r : Nat} (i : In C) (hInv : Inv s) (hprompt : C.ConvW.Prompt)
    (hfsm : s.fsm = .dram) (hwrite : write s i = false) (hr : given s i < r)
    (h : (inMemory s).length < r) :
    cost (next s i) (r - given s i) + (willing i).toNat ≤ cost s r := by
  have hmemory := inMemory_length i hInv hfsm
  have hgathered := gathered_length i hInv
  rw [hwrite, if_neg Bool.false_ne_true] at hmemory hgathered
  have hclosed := closed_next i hfsm
  have hsend := senddata_le hwrite
  have hfront := spent_le_front hprompt h
  have hone := (willing i).toNat_le
  have hwriter : closed (next s i) + writerPhase s ≤ closed s + writerPhase (next s i) := by
    unfold writerPhase
    omega
  have hsame : r - given s i - (inMemory (next s i)).length = r - (inMemory s).length := by omega
  rw [cost_of_lt h, cost_of_lt (by omega), hsame]
  rcases Nat.eq_zero_or_pos s.ctrl.level with hzero | hlevel
  · have hgiven := given_of_level i hInv hfsm hzero
    have hnone : ¬ 0 < (inMemory s).length := by
      rw [inMemory_of_level hzero]
      exact Nat.lt_irrefl 0
    have hnone' : ¬ 0 < (inMemory (next s i)).length := by omega
    rw [if_neg hnone, if_neg hnone']
    cases hwilling : willing i with
    | false =>
      rw [Bool.toNat_false]
      omega
    | true =>
      have hact := writerPhase_next i hInv hprompt hfsm hzero hwilling hwrite
      rw [Bool.toNat_true]
      omega
  · have hsome := (inMemory_pos hInv).mpr hlevel
    have hreader := readerPhase_next i hInv hfsm
    rw [decide_eq_true (show 1 ≤ s.ctrl.level from hlevel), Bool.and_true] at hreader
    have hphase := readerPhase_le s
    rw [if_pos hsome]
    split_ifs <;> omega

/-- A block is written, and the words behind the old ones are in the memory. -/
theorem cost_write {s : State C} {r : Nat} (i : In C) (hInv : Inv s) (hprompt : C.ConvW.Prompt)
    (hfsm : s.fsm = .dram) (hwrite : write s i = true) (hr : given s i < r)
    (h : (inMemory s).length < r) :
    cost (next s i) (r - given s i) + (willing i).toNat ≤ cost s r := by
  have hmemory := inMemory_length i hInv hfsm
  rw [hwrite, if_pos rfl] at hmemory
  have hpos := C.ratio_pos
  have hfront := spent_le_front hprompt h
  have hwriter := writerPhase_le s hprompt
  have hphase := readerPhase_le s
  have hreader := readerPhase_next i hInv hfsm
  have hone := (willing i).toNat_le
  have hclosed : closed (next s i) ≤ 1 := Bool.toNat_le _
  have hgiven := given_le_inMemory i hInv hfsm
  -- what the reader did is still there, when there was anything to read
  have hread : (if 0 < (inMemory s).length then readerPhase s else 0) + (willing i).toNat ≤
      readerPhase (next s i) + 3 * given s i + 1 := by
    split_ifs with hsome
    · rw [decide_eq_true ((inMemory_pos hInv).mp hsome), Bool.and_true] at hreader
      omega
    · omega
  rw [cost_of_lt h]
  generalize hold : (if 0 < (inMemory s).length then readerPhase s else 0) = old at hread
  rcases Nat.lt_or_ge (inMemory (next s i)).length (r - given s i) with hmore | hall
  · have hsome' : 0 < (inMemory (next s i)).length := by omega
    have hsplit : (2 * C.ratio + 6) * (r - (inMemory s).length) =
        (2 * C.ratio + 6) * (r - given s i - (inMemory (next s i)).length) +
          (2 * C.ratio + 6) * C.ratio := by
      rw [← Nat.mul_add]
      congr 1
      omega
    have hblock : 3 * C.ratio + (2 * C.ratio + 3) ≤ (2 * C.ratio + 6) * C.ratio := by
      have := Nat.le_mul_of_pos_right (2 * C.ratio + 3) hpos
      have hsum : (2 * C.ratio + 6) * C.ratio = (2 * C.ratio + 3) * C.ratio + 3 * C.ratio := by
        rw [← Nat.add_mul]
      omega
    have hfront' := spent_le_front hprompt hmore
    rw [cost_of_lt hmore, if_pos hsome']
    omega
  · have hphase' := readerPhase_le (next s i)
    have hblock : 3 * (r - (inMemory s).length) + (2 * C.ratio + 3) ≤
        (2 * C.ratio + 6) * (r - (inMemory s).length) := by
      have := Nat.le_mul_of_pos_right (2 * C.ratio + 3) (Nat.sub_pos_of_lt h)
      have hsum : (2 * C.ratio + 6) * (r - (inMemory s).length) =
          (2 * C.ratio + 3) * (r - (inMemory s).length) + 3 * (r - (inMemory s).length) := by
        rw [← Nat.add_mul]
      omega
    rw [cost_of_le (by omega) hall]
    omega

/-- Around the memory the latch is never closed: it opens when it is full. -/
theorem closed_of_bypass {s : State C} (i : In C) (hfsm : s.fsm = .bypass) :
    closed (next s i) = 0 := by
  cases hwritable : LiteDRAMFIFOLatch.writable s.latch with
  | true =>
    have hstay : (next s i).fsm = .bypass := by simp [next, hfsm, hwritable]
    simp [closed, en, hstay]
  | false =>
    have hlatch : (next s i).latch = LiteDRAMFIFOLatch.next s.latch (en s) i.sinkValid
      i.sinkData (latchReady s i) := rfl
    have hoff : (en s && s.latch.opened) = false := by simp [en, hfsm]
    have hfull : (LiteDRAMFIFOLatch.contents s.latch).length = 2 * C.ratio := by
      unfold LiteDRAMFIFOLatch.writable SyncFIFO.writable at hwritable
      rw [C.Latch.level_eq] at hwritable
      simpa [LiteDRAMFIFOLatch.contents] using hwritable
    have hopen := (LiteDRAMFIFOLatch.opened_next_closed hoff i.sinkValid i.sinkData
      (latchReady s i)).1
    rw [decide_eq_true (by omega), Bool.or_true, ← hlatch] at hopen
    simp [closed, hopen]

/-- Words that are held there are in the latch, and a willing receiver takes one. -/
theorem given_of_bypass {s : State C} (i : In C) (hInv : Inv s) (hfsm : s.fsm = .bypass)
    (h : 0 < (held s).length) : (willing i).toNat ≤ given s i := by
  cases hwilling : willing i with
  | false => exact Nat.zero_le _
  | true =>
    obtain ⟨hlevel, hgathered⟩ := hInv.bypass hfsm
    have hready : i.sourceReady = true := by
      simp only [willing, Bool.and_eq_true] at hwilling
      exact hwilling.2
    have hword : 0 < (LiteDRAMFIFOLatch.contents s.latch).length := by
      rw [held, List.length_append, List.length_append, inMemory_of_level hlevel, hgathered,
        List.length_nil] at h
      omega
    have hvalid : C.Latch.readable s.latch.fifo = true :=
      (C.Latch.readable_iff s.latch.fifo).mpr (List.ne_nil_of_length_pos hword)
    have hoffer : (out s i).sourceValid = true := by
      simp [out, sourceValid, hfsm, latchValid, LiteDRAMFIFOLatch.sourceValid,
        LiteDRAMFIFOLatch.passes, en, hvalid]
    have hone : given s i = 1 := by
      unfold given sourceWord
      rw [hoffer, hready]
      rfl
    rw [hone]
    exact Nat.le_refl 1

/-- Around the memory a word leaves with every word that is taken. -/
theorem cost_bypass {s : State C} {r : Nat} (i : In C) (hInv : Inv s) (hfsm : s.fsm = .bypass)
    (hr : given s i < r) (h : r ≤ (held s).length) :
    cost (next s i) (r - given s i) + (willing i).toNat ≤ cost s r := by
  obtain ⟨hlevel, hgathered⟩ := hInv.bypass hfsm
  obtain ⟨hwrite, -, hgathered', hlevel'⟩ := of_bypass i hInv hfsm
  have hmemory : (inMemory s).length = 0 := by rw [inMemory_of_level hlevel]; rfl
  have hmemory' : (inMemory (next s i)).length = 0 := by rw [inMemory_of_level hlevel']; rfl
  have hclosed := closed_of_bypass i hfsm
  have hgiven := given_of_bypass i hInv hfsm (by omega)
  have hsend := senddata_le hwrite
  have hsendle := s.writer.senddata.toNat_le
  have hphase : writerPhase s = s.writer.senddata.toNat := by
    rw [writerPhase, hgathered, List.length_nil]
    omega
  have hphase' : writerPhase (next s i) = (next s i).writer.senddata.toNat := by
    rw [writerPhase, hgathered', List.length_nil]
    omega
  have hmul : (2 * C.ratio + 6) * r =
      (2 * C.ratio + 6) * (r - given s i) + (2 * C.ratio + 6) * given s i := by
    rw [← Nat.mul_add]
    congr 1
    omega
  have hpaid : given s i ≤ (2 * C.ratio + 6) * given s i :=
    Nat.le_mul_of_pos_left _ (by omega)
  have hfront : 2 * C.ratio + 6 ≤ (2 * C.ratio + 6) * (r - given s i) :=
    Nat.le_mul_of_pos_right _ (by omega)
  rw [cost_of_lt (by omega), cost_of_lt (by omega), hmemory, hmemory', hphase, hphase', hclosed,
    if_neg (Nat.lt_irrefl 0), if_neg (Nat.lt_irrefl 0), Nat.sub_zero, Nat.sub_zero]
  omega

/-- A cycle in which all are willing lowers the cost of the words that are held. -/
theorem cost_next {s : State C} {r : Nat} (i : In C) (hInv : Inv s) (hprompt : C.ConvW.Prompt)
    (hr : given s i < r) (h : r ≤ (held s).length) :
    cost (next s i) (r - given s i) + (willing i).toNat ≤ cost s r := by
  cases hfsm : s.fsm with
  | bypass => exact cost_bypass i hInv hfsm hr h
  | dram =>
    rcases Nat.lt_or_ge (inMemory s).length r with hfront | hall
    · cases hwrite : write s i with
      | false => exact cost_gather i hInv hprompt hfsm hwrite hr hfront
      | true => exact cost_write i hInv hprompt hfsm hwrite hr hfront
    · exact cost_inside i hInv hfsm hr hall

/-- The words that do not come out in a cycle are held. -/
theorem held_next {s : State C} {r : Nat} (i : In C) (hInv : Inv s) (h : r ≤ (held s).length) :
    r - given s i ≤ (held (next s i)).length := by
  have hlength := congrArg List.length (refinesQueue.step s i trivial hInv)
  rw [List.length_append, List.length_append] at hlength
  change _ = given s i + (held (next s i)).length at hlength
  omega

/-- **The DRAM FIFO keeps no words.**  Whatever is in the latch, half gathered, in the memory
or on its way back is on `source`, in front of all others, after a number of cycles with a
willing memory and receiver that is linear in the words, whatever is offered behind them
and however often the memory or the receiver stalls. -/
theorem words_drained (hprompt : C.ConvW.Prompt) (mem : Nat → Vector (BitVec dw) C.ratio)
    (is js : List (In C))
    (hwilling : (2 * C.ratio + 6) * (held ((machine C).run (init mem) is)).length + 1 <
      js.countP willing) :
    held ((machine C).run (init mem) is) <+:
      moved sourceWord ((machine C).trace ((machine C).run (init mem) is) js) := by
  have hInv : Inv ((machine C).run (init mem) is) :=
    (machine C).invariant_run refinesQueue.inv (inv_init mem) is
      ((machine C).allSteps_of_forall (fun _ _ => trivial) (init mem) is)
  generalize (machine C).run (init mem) is = s at hInv hwilling ⊢
  have hstep : ∀ s i r, (Inv s ∧ r ≤ (held s).length) → 0 < r →
      r ≤ (sourceWord (i, (machine C).out s i)).length ∨
        ((Inv ((machine C).next s i) ∧ r - (sourceWord (i, (machine C).out s i)).length ≤
            (held ((machine C).next s i)).length) ∧
          cost ((machine C).next s i) (r - (sourceWord (i, (machine C).out s i)).length) +
            (willing i).toNat ≤ cost s r) := by
    intro s i r ⟨hInv, hheld⟩ _
    rcases Nat.lt_or_ge (given s i) r with hmore | hall
    · exact .inr ⟨⟨inv_next i hInv, held_next i hInv hheld⟩, cost_next i hInv hprompt hmore hheld⟩
    · exact .inl hall
  have hlength := Machine.drains cost willing hstep ⟨hInv, Nat.le_refl _⟩ js
    (Nat.lt_of_le_of_lt (cost_le s _) hwilling)
  have hqueue := refinesQueue.run hInv js
    ((machine C).allSteps_of_forall (fun _ _ => trivial) s js)
  have hfront : moved sourceWord ((machine C).trace s js) <+:
      held s ++ moved sinkWord ((machine C).trace s js) := by
    rw [hqueue]
    exact List.prefix_append _ _
  exact List.prefix_of_prefix_length_le (List.prefix_append _ _) hfront hlength

/-- The receiver stalls until there are words in the memory, in the converter and in the
latch. -/
def stalledRun : List (In dramfifo) := List.replicate 21 (wordCycle 3 false)

/-- Nothing is offered any more, and all are willing. -/
def drainRun : List (In dramfifo) :=
  List.replicate 240 { wordCycle 0 true with sinkValid := false }

theorem words_drained_stalled :
    held ((machine dramfifo).run (init zeros) stalledRun) <+:
      moved sourceWord ((machine dramfifo).trace ((machine dramfifo).run (init zeros) stalledRun)
        drainRun) := by
  have hlength : (held ((machine dramfifo).run (init zeros) stalledRun)).length = 17 := by
    decide +kernel
  have hwilling : drainRun.countP willing = 240 := List.countP_replicate
  refine words_drained (C := dramfifo) (UpConverter.register_prompt (show 0 < 4 by omega)) zeros
    stalledRun drainRun ?_
  rw [hlength, hwilling]
  decide

end UsbSniffer.Dram.LiteDRAMFIFO
