/-
  Dram/Invariant.lean --- what holds between the parts of the DRAM FIFO.

  The latch, the level counter, the two state machines of the ports and the router
  each know a part of where the words are, and none checks the others.  The
  invariant ties them together: in BYPASS nothing is left on the way through the
  memory; a group that the latch has begun can be completed; the one outstanding
  write is for the slot behind the last block; and from the read command to the
  last chunk the reader has exactly the oldest block.
-/
import UsbSniffer.Sync.Ring
import UsbSniffer.Dram.Fifo

set_option autoImplicit false

namespace UsbSniffer.Dram.LiteDRAMFIFO

open UsbSniffer.Sync

variable {dw : Nat} {C : Config dw}

/-- The slot behind the last block. -/
def writeSlot (s : State C) : Nat := C.base + s.ctrl.writeAddress

/-- The slot of the oldest block. -/
def readSlot (s : State C) : Nat := C.base + s.ctrl.readAddress

/-- The blocks in the reader's FIFO. -/
def readFifo (s : State C) : List (Vector (BitVec dw) C.ratio) :=
  C.ReadFifo.contents s.reader.fifo

/-- The words gathered for the next block. -/
def gathered (s : State C) : List (BitVec dw) := C.ConvW.held s.convW

/-- The writer has one write outstanding between the command and the data, and it is
for the slot behind the last block.  When there is only one slot, older commands for
it do no harm. -/
structure WriterInv (s : State C) : Prop where
  sendcmd : s.writer.sendcmd = !s.writer.senddata
  slot : ∀ a ∈ s.ports.writes, a = writeSlot s
  commanded : s.writer.senddata = true → s.ports.writes ≠ []
  single : C.ctrlDepth ≠ 1 → s.ports.writes.length ≤ if s.writer.senddata then 1 else 0

/-- Between its command and the last chunk the reader has the oldest block, on the port
or in its FIFO, and otherwise nothing. -/
structure ReaderInv (s : State C) : Prop where
  idle : s.reader.sendcmd = true → s.ports.reads = [] ∧ readFifo s = []
  busy : s.reader.sendcmd = false → 1 ≤ s.ctrl.level ∧
    (s.ports.reads = [(readSlot s, some (s.ports.mem (readSlot s)))] ∧ readFifo s = [] ∨
      s.ports.reads = [] ∧ readFifo s = [s.ports.mem (readSlot s)])
  pos_lt : C.ConvR.pos s.convR < C.ratio
  started : C.ConvR.pos s.convR ≠ 0 → readFifo s ≠ []

/-- What holds of the registers in every cycle: the words of the latch come in groups, and the
converter has the start of one of them. -/
structure Inv (s : State C) : Prop where
  ctrl : LiteDRAMFIFOCtrl.Inv C.ctrl s.ctrl
  grouped : s.fsm = .dram → LiteDRAMFIFOLatch.Grouped s.latch
  counted : s.latch.counter = (gathered s).length % C.ratio
  bypass : s.fsm = .bypass → s.ctrl.level = 0 ∧ gathered s = []
  writer : WriterInv s
  reader : ReaderInv s

theorem ctrlDepth_pos (C : Config dw) : 0 < C.ctrlDepth := Nat.succ_pos _

theorem inv_init (mem : Nat → Vector (BitVec dw) C.ratio) : Inv (init mem : State C) where
  ctrl := LiteDRAMFIFOCtrl.inv_init (ctrlDepth_pos C)
  grouped := by simp [init]
  counted := by simp [gathered, init, C.ConvW.held_init, LiteDRAMFIFOLatch.init]
  bypass _ := ⟨rfl, C.ConvW.held_init⟩
  writer :=
    { sendcmd := rfl
      slot := by simp [init, Ports.init]
      commanded := by simp [init, LiteDRAMFIFOWriter.init]
      single := by simp [init, Ports.init] }
  reader :=
    { idle := fun _ => ⟨rfl, C.ReadFifo.contents_init⟩
      busy := by simp [init, LiteDRAMFIFOReader.init]
      pos_lt := by simp [init, C.ConvR.pos_init, C.ratio_pos]
      started := by simp [init, C.ConvR.pos_init] }

/-! ## What a cycle moves -/

/-- A write needs a free slot, and its data goes to the slot behind the last block. -/
theorem of_write {s : State C} {i : In C} (hInv : Inv s) (h : write s i = true) :
    s.ctrl.level < C.ctrlDepth ∧ s.writer.senddata = true ∧ pending s = true ∧
      ∃ rest, s.ports.writes = writeSlot s :: rest := by
  simp only [write, LiteDRAMFIFOWriter.wdataValid, Ports.wdataReady, Bool.and_eq_true] at h
  obtain ⟨⟨⟨hpending, hwritable⟩, hsend⟩, -, hnonempty⟩ := h
  refine ⟨of_decide_eq_true hwritable, hsend, hpending, ?_⟩
  cases hwrites : s.ports.writes with
  | nil => simp [hwrites] at hnonempty
  | cons a rest =>
    have ha := hInv.writer.slot a (by rw [hwrites]; exact List.mem_cons_self)
    exact ⟨rest, by rw [ha]⟩

theorem convRValid_iff (s : State C) : convRValid s = true ↔ readFifo s ≠ [] :=
  C.ReadFifo.readable_iff s.reader.fifo

theorem convRValid_of_nil {s : State C} (h : readFifo s = []) : convRValid s = false := by
  cases hvalid : convRValid s with
  | false => rfl
  | true => exact absurd h ((convRValid_iff s).mp hvalid)

/-- What the down-converter works on is the oldest block. -/
theorem of_convRValid {s : State C} (hInv : Inv s) (h : convRValid s = true) :
    1 ≤ s.ctrl.level ∧ readWord s = s.ports.mem (readSlot s) := by
  have hne := (convRValid_iff s).mp h
  cases hsend : s.reader.sendcmd with
  | true => exact absurd (hInv.reader.idle hsend).2 hne
  | false =>
    obtain ⟨hlevel, ⟨-, hempty⟩ | ⟨hreads, hword⟩⟩ := hInv.reader.busy hsend
    · exact absurd hempty hne
    · exact ⟨hlevel, C.ReadFifo.dout_eq _ _ _ hword⟩

theorem of_read {s : State C} {i : In C} (h : read s i = true) : convRValid s = true := by
  simp only [read, Bool.and_eq_true] at h
  exact h.1

theorem written_eq {s : State C} (i : In C) (hInv : Inv s) :
    Ports.written s.ports (moves s i) = if write s i then some (writeSlot s) else none := by
  unfold Ports.written
  cases hwrite : write s i with
  | false => simp [moves, hwrite]
  | true =>
    obtain ⟨-, -, -, rest, hwrites⟩ := of_write hInv hwrite
    simp [moves, hwrite, hwrites]

theorem mem_next {s : State C} (i : In C) (hInv : Inv s) :
    (next s i).ports.mem =
      if write s i then Function.update s.ports.mem (writeSlot s) (writeData s)
      else s.ports.mem := by
  simp only [next, Ports.next, written_eq i hInv]
  cases write s i <;> rfl

/-- A block that is in the memory is not the one that is written. -/
theorem written_ne_readSlot {s : State C} (i : In C) (hInv : Inv s) (h : 1 ≤ s.ctrl.level) :
    Ports.written s.ports (moves s i) ≠ some (readSlot s) := by
  rw [written_eq i hInv]
  cases hwrite : write s i with
  | false => simp
  | true =>
    have hlt := (of_write hInv hwrite).1
    have hraddr : s.ctrl.readAddress < C.ctrlDepth := hInv.ctrl.readAddress_lt
    have hwaddr : s.ctrl.writeAddress = (s.ctrl.readAddress + s.ctrl.level) % C.ctrlDepth :=
      hInv.ctrl.writeAddress_eq
    have hne : s.ctrl.readAddress ≠ s.ctrl.writeAddress := by
      have := slot_ne s.ctrl.readAddress h (by simpa using hlt)
      rwa [Nat.add_zero, Nat.mod_eq_of_lt hraddr, ← hwaddr] at this
    simp only [if_true, ne_eq, Option.some.injEq, writeSlot, readSlot]
    omega

theorem mem_readSlot_next {s : State C} (i : In C) (hInv : Inv s) (h : 1 ≤ s.ctrl.level) :
    (next s i).ports.mem (readSlot s) = s.ports.mem (readSlot s) := by
  have hne := written_ne_readSlot i hInv h
  rw [written_eq i hInv] at hne
  rw [mem_next i hInv]
  cases hwrite : write s i with
  | false => rfl
  | true =>
    rw [hwrite] at hne
    exact Function.update_of_ne (fun heq => hne (by simp [heq])) _ _

/-! ## The counters -/

theorem level_lt_of_write {s : State C} (i : In C) (hInv : Inv s) :
    write s i = true → s.ctrl.level < C.ctrl.depth := fun h => (of_write hInv h).1

theorem level_pos_of_read {s : State C} (i : In C) (hInv : Inv s) :
    read s i = true → 1 ≤ s.ctrl.level := fun h => (of_convRValid hInv (of_read h)).1

theorem not_read_of_level {s : State C} (i : In C) (hInv : Inv s) (h : s.ctrl.level = 0) :
    read s i = false := by
  cases hread : read s i with
  | false => rfl
  | true =>
    have := level_pos_of_read i hInv hread
    omega

theorem ctrlInv_next {s : State C} (i : In C) (hInv : Inv s) :
    LiteDRAMFIFOCtrl.Inv C.ctrl (next s i).ctrl :=
  LiteDRAMFIFOCtrl.inv_next hInv.ctrl (level_lt_of_write i hInv) (level_pos_of_read i hInv)

theorem level_next {s : State C} (i : In C) (hInv : Inv s) :
    (next s i).ctrl.level =
      s.ctrl.level + (if write s i then 1 else 0) - (if read s i then 1 else 0) :=
  LiteDRAMFIFOCtrl.level_next hInv.ctrl (level_lt_of_write i hInv) (level_pos_of_read i hInv)

theorem level_next_pos {s : State C} {i : In C} (hInv : Inv s) (h : 1 ≤ s.ctrl.level)
    (hread : read s i = false) : 1 ≤ (next s i).ctrl.level := by
  rw [level_next i hInv, hread]
  simp only [Bool.false_eq_true, if_false]
  omega

theorem writeSlot_next_of_not_write {s : State C} {i : In C} (h : write s i = false) :
    writeSlot (next s i) = writeSlot s := by
  simp [writeSlot, next, LiteDRAMFIFOCtrl.next, h]

theorem readSlot_next_of_not_read {s : State C} {i : In C} (h : read s i = false) :
    readSlot (next s i) = readSlot s := by
  simp [readSlot, next, LiteDRAMFIFOCtrl.next, h]

/-! ## The writer -/

theorem of_writeCmd {s : State C} {i : In C} (hInv : Inv s) (h : writeCmd s i = true) :
    s.writer.senddata = false ∧ write s i = false := by
  simp only [writeCmd, LiteDRAMFIFOWriter.cmdValid, Bool.and_eq_true] at h
  have hsend : s.writer.senddata = false := by
    have := hInv.writer.sendcmd
    rw [h.1.2] at this
    simpa using this.symm
  refine ⟨hsend, ?_⟩
  simp [write, LiteDRAMFIFOWriter.wdataValid, hsend]

/-- The data beat completes the write; only with a single slot can there be another
one, and then it is for the same slot. -/
theorem writerInv_of_write {s : State C} {i : In C} (hInv : Inv s) (h : write s i = true) :
    WriterInv (next s i) := by
  obtain ⟨hlt, hsend, -, rest, hwrites⟩ := of_write hInv h
  have hcmd : writeCmd s i = false := by
    cases hcmd : writeCmd s i with
    | false => rfl
    | true =>
      have := (of_writeCmd hInv hcmd).2
      rw [h] at this
      cases this
  have hrest : (next s i).ports.writes = rest := by
    simp [next, Ports.next, moves, h, hcmd, hwrites]
  have hnone : C.ctrlDepth ≠ 1 → rest = [] := by
    intro hone
    have := hInv.writer.single hone
    rw [hwrites, hsend, if_pos rfl, List.length_cons] at this
    exact List.eq_nil_of_length_eq_zero (by omega)
  refine ⟨?_, ?_, ?_, ?_⟩
  · simp [next, LiteDRAMFIFOWriter.next, h]
  · intro a ha
    rw [hrest] at ha
    by_cases hone : C.ctrlDepth = 1
    · have hold : s.ctrl.writeAddress < 1 := hone ▸ hInv.ctrl.writeAddress_lt
      have hnew : (next s i).ctrl.writeAddress < 1 :=
        hone ▸ (ctrlInv_next i hInv).writeAddress_lt
      rw [hInv.writer.slot a (by rw [hwrites]; exact List.mem_cons_of_mem _ ha)]
      unfold writeSlot
      omega
    · rw [hnone hone] at ha
      cases ha
  · simp [next, LiteDRAMFIFOWriter.next, h]
  · intro hone
    rw [hrest, hnone hone]
    exact Nat.zero_le _

theorem writerInv_of_writeCmd {s : State C} {i : In C} (hInv : Inv s)
    (h : writeCmd s i = true) : WriterInv (next s i) := by
  obtain ⟨hsend, hwrite⟩ := of_writeCmd hInv h
  have hwrites : (next s i).ports.writes = s.ports.writes ++ [writeSlot s] := by
    simp [next, Ports.next, moves, h, hwrite, writeSlot]
  refine ⟨?_, ?_, ?_, ?_⟩
  · simp [next, LiteDRAMFIFOWriter.next, h, hwrite]
  · intro a ha
    rw [writeSlot_next_of_not_write hwrite]
    rw [hwrites, List.mem_append, List.mem_singleton] at ha
    rcases ha with ha | ha
    · exact hInv.writer.slot a ha
    · exact ha
  · simp [hwrites]
  · intro hone
    have := hInv.writer.single hone
    rw [hsend] at this
    simp only [Bool.false_eq_true, if_false] at this
    have hnext : (next s i).writer.senddata = true := by
      simp [next, LiteDRAMFIFOWriter.next, h, hwrite]
    rw [hwrites, hnext, List.length_append, List.length_singleton, if_pos rfl]
    omega

theorem writerInv_next {s : State C} (i : In C) (hInv : Inv s) : WriterInv (next s i) := by
  cases hwrite : write s i with
  | true => exact writerInv_of_write hInv hwrite
  | false =>
    cases hcmd : writeCmd s i with
    | true => exact writerInv_of_writeCmd hInv hcmd
    | false =>
      have hwriter : (next s i).writer = s.writer := by
        simp [next, LiteDRAMFIFOWriter.next, hwrite, hcmd]
      have hwrites : (next s i).ports.writes = s.ports.writes := by
        simp [next, Ports.next, moves, hwrite, hcmd]
      have hslot := writeSlot_next_of_not_write hwrite
      refine ⟨?_, ?_, ?_, ?_⟩
      · rw [hwriter]
        exact hInv.writer.sendcmd
      · rw [hwrites, hslot]
        exact hInv.writer.slot
      · rw [hwriter, hwrites]
        exact hInv.writer.commanded
      · rw [hwriter, hwrites]
        exact hInv.writer.single

/-! ## The reader -/

theorem overtaken_readSlot {s : State C} (i : In C) (hInv : Inv s) (h : 1 ≤ s.ctrl.level)
    (x : Option (Vector (BitVec dw) C.ratio)) :
    Ports.overtaken (Ports.written s.ports (moves s i)) (readSlot s, x) = (readSlot s, x) :=
  if_neg (written_ne_readSlot i hInv h)

theorem read_eq_false {s : State C} (i : In C) (h : convRValid s = false) :
    read s i = false := by
  simp [read, h]

/-- The reader's FIFO after a cycle in which no data comes back. -/
theorem readFifo_next {s : State C} {i : In C} (h : rdataValid s i = false) :
    readFifo (next s i) = if convRReady s i then (readFifo s).tail else readFifo s := by
  simp only [readFifo, next, LiteDRAMFIFOReader.next, C.ReadFifo.contents_next, h,
    beat_false_left, List.append_nil]

theorem rdataValid_of_nil {s : State C} (i : In C) (h : s.ports.reads = []) :
    rdataValid s i = false := by
  simp [rdataValid, Ports.rdataValid, h]

/-- The chunk counter after a cycle. -/
theorem pos_next (s : State C) (i : In C) :
    C.ConvR.pos (next s i).convR =
      if convRValid s && sink1Ready s i then
        (if C.ConvR.pos s.convR = C.ratio - 1 then 0 else C.ConvR.pos s.convR + 1)
      else C.ConvR.pos s.convR :=
  C.ConvR.pos_next _ _ _

/-- Without a block in the reader's FIFO the chunk counter rests at zero. -/
theorem pos_next_of_nil {s : State C} (i : In C) (hInv : Inv s) (h : readFifo s = []) :
    C.ConvR.pos (next s i).convR = 0 := by
  have hzero : C.ConvR.pos s.convR = 0 := by
    by_contra hne
    exact hInv.reader.started hne h
  rw [pos_next, convRValid_of_nil h, hzero]
  rfl

/-- The reads on the port after a cycle in which a block is in the memory. -/
theorem reads_next (s : State C) (i : In C) :
    (next s i).ports.reads =
      ((if rdataValid s i && LiteDRAMFIFOReader.rdataReady s.reader then s.ports.reads.tail
          else s.ports.reads) ++
        beat (readCmd s i) true (readSlot s, some (s.ports.mem (readSlot s)))).map
          (Ports.overtaken (Ports.written s.ports (moves s i))) :=
  rfl

/-- Nothing is read: the reader may send its command. -/
theorem readerInv_of_idle {s : State C} (i : In C) (hInv : Inv s)
    (hsend : s.reader.sendcmd = true) : ReaderInv (next s i) := by
  obtain ⟨hreads, hfifo⟩ := hInv.reader.idle hsend
  have hvalid := convRValid_of_nil hfifo
  have hread := read_eq_false i hvalid
  have hrdata := rdataValid_of_nil i hreads
  have hpos := pos_next_of_nil i hInv hfifo
  have hfifo' : readFifo (next s i) = [] := by
    rw [readFifo_next hrdata, hfifo]
    split_ifs <;> rfl
  have hsend' : (next s i).reader.sendcmd = !readCmd s i := by
    have : (LiteDRAMFIFOReader.sourceValid s.reader && convRReady s i) = false := hread
    simp only [next, LiteDRAMFIFOReader.next, this, hsend]
    cases readCmd s i <;> rfl
  refine ⟨fun h => ?_, fun h => ?_, by rw [hpos]; exact C.ratio_pos, fun h => absurd hpos h⟩
  · rw [hsend', Bool.not_eq_true'] at h
    exact ⟨by simp [reads_next, hrdata, hreads, h], hfifo'⟩
  · rw [hsend', Bool.not_eq_false'] at h
    have hlevel : 1 ≤ s.ctrl.level := by
      simp only [readCmd, LiteDRAMFIFOReader.cmdValid, Bool.and_eq_true] at h
      exact of_decide_eq_true h.1.1
    refine ⟨level_next_pos hInv hlevel hread, Or.inl ⟨?_, hfifo'⟩⟩
    rw [readSlot_next_of_not_read hread, mem_readSlot_next i hInv hlevel]
    simp [reads_next, hrdata, hreads, h, overtaken_readSlot i hInv hlevel]

/-- The command is out: the block may come back. -/
theorem readerInv_of_waiting {s : State C} (i : In C) (hInv : Inv s)
    (hsend : s.reader.sendcmd = false) (hlevel : 1 ≤ s.ctrl.level)
    (hreads : s.ports.reads = [(readSlot s, some (s.ports.mem (readSlot s)))])
    (hfifo : readFifo s = []) : ReaderInv (next s i) := by
  have hvalid := convRValid_of_nil hfifo
  have hread := read_eq_false i hvalid
  have hpos := pos_next_of_nil i hInv hfifo
  have hcontents : C.ReadFifo.contents s.reader.fifo = [] := hfifo
  have hlength : C.ReadFifo.level s.reader.fifo = 0 := by
    rw [C.ReadFifo.level_eq, hcontents]
    rfl
  have hready : LiteDRAMFIFOReader.rdataReady s.reader = true := by
    simp [LiteDRAMFIFOReader.rdataReady, SyncFIFO.writable, hlength]
  have hcmd : readCmd s i = false := by simp [readCmd, LiteDRAMFIFOReader.cmdValid, hsend]
  have hsend' : (next s i).reader.sendcmd = false := by
    have : (LiteDRAMFIFOReader.sourceValid s.reader && convRReady s i) = false := hread
    simp [next, LiteDRAMFIFOReader.next, this, hsend]
  refine ⟨fun h => ?_, fun _ => ?_, by rw [hpos]; exact C.ratio_pos,
    fun h => absurd hpos h⟩
  · rw [hsend'] at h
    cases h
  refine ⟨level_next_pos hInv hlevel hread, ?_⟩
  rw [readSlot_next_of_not_read hread, mem_readSlot_next i hInv hlevel]
  cases hrdata : rdataValid s i with
  | false =>
    left
    refine ⟨?_, ?_⟩
    · simp [reads_next, hrdata, hcmd, hreads, overtaken_readSlot i hInv hlevel]
    · rw [readFifo_next hrdata, hfifo]
      split_ifs <;> rfl
  | true =>
    right
    refine ⟨by simp [reads_next, hrdata, hready, hcmd, hreads], ?_⟩
    simp [readFifo, next, LiteDRAMFIFOReader.next, C.ReadFifo.contents_next, hcontents,
      hlength, hrdata, Ports.rdataData, hreads]

/-- The block is in the reader's FIFO until its last chunk leaves. -/
theorem readerInv_of_holding {s : State C} (i : In C) (hInv : Inv s)
    (hsend : s.reader.sendcmd = false) (hlevel : 1 ≤ s.ctrl.level)
    (hreads : s.ports.reads = []) (hfifo : readFifo s = [s.ports.mem (readSlot s)]) :
    ReaderInv (next s i) := by
  have hrdata := rdataValid_of_nil i hreads
  have hcmd : readCmd s i = false := by simp [readCmd, LiteDRAMFIFOReader.cmdValid, hsend]
  have hvalid : convRValid s = true := by
    rw [convRValid_iff, hfifo]
    exact List.cons_ne_nil _ _
  have hreads' : (next s i).ports.reads = [] := by simp [reads_next, hrdata, hcmd, hreads]
  have hread : read s i = convRReady s i := by simp [read, hvalid]
  have hsend' : (next s i).reader.sendcmd = read s i := by
    have : (LiteDRAMFIFOReader.sourceValid s.reader && convRReady s i) = read s i := rfl
    simp only [next, LiteDRAMFIFOReader.next, this, hcmd, hsend]
    cases read s i <;> rfl
  have hfifo' := readFifo_next hrdata
  rw [hfifo, ← hread] at hfifo'
  have hpos := pos_next s i
  have hlt := hInv.reader.pos_lt
  refine ⟨fun h => ?_, fun h => ?_, ?_, fun hne => ?_⟩
  · rw [hsend'] at h
    rw [h, if_pos rfl] at hfifo'
    exact ⟨hreads', hfifo'⟩
  · rw [hsend'] at h
    rw [h] at hfifo'
    refine ⟨level_next_pos hInv hlevel h, Or.inr ⟨hreads', ?_⟩⟩
    rw [readSlot_next_of_not_read h, mem_readSlot_next i hInv hlevel]
    exact hfifo'
  · rw [hpos]
    split_ifs <;> omega
  · cases h : read s i with
    | false =>
      rw [hfifo', h]
      exact List.cons_ne_nil _ _
    | true =>
      -- the block is taken with its last chunk
      refine absurd ?_ hne
      have hlast := h
      rw [hread, convRReady, Serializer.sinkReady, Bool.and_eq_true, beq_iff_eq] at hlast
      rw [hpos, hvalid, hlast.2, Bool.and_self, if_pos rfl, if_pos hlast.1]

theorem readerInv_next {s : State C} (i : In C) (hInv : Inv s) : ReaderInv (next s i) := by
  cases hsend : s.reader.sendcmd with
  | true => exact readerInv_of_idle i hInv hsend
  | false =>
    obtain ⟨hlevel, ⟨hreads, hfifo⟩ | ⟨hreads, hfifo⟩⟩ := hInv.reader.busy hsend
    · exact readerInv_of_waiting i hInv hsend hlevel hreads hfifo
    · exact readerInv_of_holding i hInv hsend hlevel hreads hfifo

/-! ## The router -/

/-- The words that a block brings to the memory, or none. -/
def written (s : State C) (i : In C) : List (BitVec dw) :=
  (beat (write s i) true (writeData s)).flatMap Vector.toList

theorem written_of_not_write {s : State C} {i : In C} (h : write s i = false) :
    written s i = [] := by
  simp [written, h]

theorem length_written (s : State C) (i : In C) :
    (written s i).length = if write s i then C.ratio else 0 := by
  unfold written
  cases write s i <;> simp

/-- The up-converter is a queue from the latch to the memory. -/
theorem convW_step {s : State C} (i : In C) (hInv : Inv s) :
    QueueStep (gathered s) (beat (source1Valid s) (source1Ready s i) (source1Data s))
      (written s i) (gathered (next s i)) := by
  have hstep := C.ConvW.held_next s.convW (source1Valid s) (source1Data s) (write s i)
  have hblock : beat (pending s) (write s i) (writeData s) =
      beat (write s i) true (writeData s) := by
    cases hwrite : write s i with
    | false => simp
    | true => rw [(of_write hInv hwrite).2.2.1]
  rw [show C.ConvW.sourceValid s.convW (source1Valid s) = pending s from rfl,
    show C.ConvW.sourceData s.convW (source1Data s) = writeData s from rfl, hblock] at hstep
  exact hstep

/-- In BYPASS nothing enters or leaves the way through the memory. -/
theorem of_bypass {s : State C} (i : In C) (hInv : Inv s) (h : s.fsm = .bypass) :
    write s i = false ∧ read s i = false ∧ gathered (next s i) = [] ∧
      (next s i).ctrl.level = 0 := by
  obtain ⟨hlevel, hgathered⟩ := hInv.bypass h
  have hstep := convW_step i hInv
  have hnone : source1Valid s = false := by simp [source1Valid, en, h]
  rw [hgathered, hnone, beat_false_left, QueueStep, List.append_nil, eq_comm,
    List.append_eq_nil_iff] at hstep
  have hwrite : write s i = false := by
    cases hwrite : write s i with
    | false => rfl
    | true =>
      have hlen := length_written s i
      rw [hstep.1, hwrite, List.length_nil, if_pos rfl] at hlen
      have := C.ratio_pos
      omega
  have hread := not_read_of_level i hInv hlevel
  refine ⟨hwrite, hread, hstep.2, ?_⟩
  rw [level_next i hInv, hwrite, hread, hlevel]
  rfl

/-- The counter of the latch says how far the block in the up-converter is. -/
theorem counted_next {s : State C} (i : In C) (hInv : Inv s) :
    (next s i).latch.counter = (gathered (next s i)).length % C.ratio := by
  cases hfsm : s.fsm with
  | bypass =>
    have hclosed : (en s && s.latch.opened) = false := by simp [en, hfsm]
    have hcounter := (LiteDRAMFIFOLatch.opened_next_closed hclosed i.sinkValid i.sinkData
      (latchReady s i)).2
    have hold := hInv.counted
    rw [(hInv.bypass hfsm).2] at hold
    rw [(of_bypass i hInv hfsm).2.2.1]
    exact hcounter.trans hold
  | dram =>
    have hen : en s = true := by simp [en, hfsm]
    have hcounter := LiteDRAMFIFOLatch.counter_next (hInv.grouped hfsm) i.sinkValid i.sinkData
      (latchReady s i)
    have hlen := congrArg List.length (convW_step i hInv)
    have hbeat : (beat (source1Valid s) (source1Ready s i) (source1Data s)).length =
        if LiteDRAMFIFOLatch.sourceValid s.latch true && latchReady s i then 1 else 0 := by
      unfold beat source1Valid latchValid latchReady
      rw [hen, hfsm, Bool.true_and]
      split_ifs <;> rfl
    rw [List.length_append, List.length_append, hbeat, length_written] at hlen
    have hnext : (next s i).latch.counter =
        (LiteDRAMFIFOLatch.next s.latch true i.sinkValid i.sinkData (latchReady s i)).counter := by
      simp only [next, hen]
    rw [hnext, hcounter, hInv.counted, Nat.mod_add_mod, hlen]
    cases write s i <;> simp

/-- A latch that offers no word has not begun a group. -/
theorem counter_of_not_valid {s : State C} (hInv : Inv s) (hfsm : s.fsm = .dram)
    (h : latchValid s = false) : s.latch.counter = 0 := by
  have hgrouped := hInv.grouped hfsm
  cases hopened : s.latch.opened with
  | false => exact hgrouped.closed hopened
  | true =>
    have hlt := hgrouped.counter_lt
    have hfull := hgrouped.opened hopened
    have hreadable : C.Latch.readable s.latch.fifo = false := by
      simpa [latchValid, LiteDRAMFIFOLatch.sourceValid, LiteDRAMFIFOLatch.passes, hopened]
        using h
    have hempty : (LiteDRAMFIFOLatch.contents s.latch).length = 0 := by
      rw [C.Latch.readable_eq, Bool.not_eq_false', List.isEmpty_iff] at hreadable
      rw [LiteDRAMFIFOLatch.contents, hreadable]
      rfl
    omega

/-- The router leaves DRAM only when no word is left on the way through the memory. -/
theorem of_leave {s : State C} (i : In C) (hInv : Inv s) (hfsm : s.fsm = .dram)
    (hlatch : latchValid s = false) (hpending : pending s = false)
    (hreadable : readable s = false) :
    gathered (next s i) = [] ∧ (next s i).ctrl.level = 0 := by
  have hlevel : s.ctrl.level = 0 := Nat.eq_zero_of_not_pos (of_decide_eq_false hreadable)
  have hwrite : write s i = false := by
    simp [write, LiteDRAMFIFOWriter.wdataValid, hpending]
  have hread := not_read_of_level i hInv hlevel
  have hsame : gathered (next s i) = gathered s := by
    have hstep := convW_step i hInv
    have hnone : source1Valid s = false := by simp [source1Valid, hlatch]
    rw [hnone, beat_false_left, written_of_not_write hwrite, QueueStep, List.append_nil,
      List.nil_append] at hstep
    exact hstep.symm
  have hshort : (gathered s).length < C.ratio := by
    by_contra hfull
    have hvalid := C.ConvW.valid_of_full s.convW (source1Valid s) (Nat.le_of_not_lt hfull)
    rw [show C.ConvW.sourceValid s.convW (source1Valid s) = pending s from rfl, hpending] at hvalid
    cases hvalid
  have hcounted := hInv.counted
  rw [counter_of_not_valid hInv hfsm hlatch, Nat.mod_eq_of_lt hshort] at hcounted
  refine ⟨?_, ?_⟩
  · rw [hsame]
    exact List.eq_nil_of_length_eq_zero hcounted.symm
  · rw [level_next i hInv, hwrite, hread, hlevel]
    rfl

theorem inv_next {s : State C} (i : In C) (hInv : Inv s) : Inv (next s i) := by
  refine ⟨ctrlInv_next i hInv, fun hdram => ?_, counted_next i hInv, fun hbypass => ?_,
    writerInv_next i hInv, readerInv_next i hInv⟩
  · cases hfsm : s.fsm with
    | bypass =>
      have hen : en s = false := by simp [en, hfsm]
      have hfull : LiteDRAMFIFOLatch.writable s.latch = false := by
        simp only [next, hfsm] at hdram
        cases hw : LiteDRAMFIFOLatch.writable s.latch with
        | false => rfl
        | true => simp [hw] at hdram
      have hcounter := hInv.counted
      rw [(hInv.bypass hfsm).2] at hcounter
      simp only [next, hen]
      exact LiteDRAMFIFOLatch.grouped_of_full C.ratio_pos (by simpa using hcounter) hfull _ _ _
    | dram =>
      have hen : en s = true := by simp [en, hfsm]
      simp only [next, hen]
      exact LiteDRAMFIFOLatch.grouped_next (hInv.grouped hfsm) _ _ _
  · cases hfsm : s.fsm with
    | bypass =>
      obtain ⟨-, -, hgathered, hlevel⟩ := of_bypass i hInv hfsm
      exact ⟨hlevel, hgathered⟩
    | dram =>
      simp only [next, hfsm] at hbypass
      cases hlatch : latchValid s with
      | true => simp [hlatch] at hbypass
      | false =>
        cases hpending : pending s with
        | true => simp [hpending] at hbypass
        | false =>
          cases hreadable : readable s with
          | true => simp [hreadable] at hbypass
          | false =>
            obtain ⟨hgathered, hlevel⟩ := of_leave i hInv hfsm hlatch hpending hreadable
            exact ⟨hlevel, hgathered⟩

end UsbSniffer.Dram.LiteDRAMFIFO
