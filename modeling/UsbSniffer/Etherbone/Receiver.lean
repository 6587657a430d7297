/-
  Etherbone/Receiver.lean --- the receiver of Etherbone records (gateware/etherbone.py).

  A record is a base address and the values to write, and then a base address for the
  reply and the addresses to read.  Its words come through a FIFO, each with the
  parameters of the record, and four states turn them into accesses.

  RECEIVE_BASE_RET_ADDR latches the word in front of the FIFO and leaves it there.
-/
import UsbSniffer.Sync.Stage
import UsbSniffer.Sync.Parts
import UsbSniffer.Sync.Bits

set_option autoImplicit false

namespace UsbSniffer.Etherbone

open UsbSniffer.Sync

/-- A word of a record with the parameters of its header. -/
structure RecordBeat where
  data : BitVec 32
  last : Bool
  byteEnable : BitVec 8
  wcount : BitVec 8
  rcount : BitVec 8
  deriving DecidableEq, Repr, Inhabited

/-- An access: one of `count` words, the last of them marked. -/
structure MmapBeat where
  we : Bool
  last : Bool
  count : BitVec 8
  baseAddr : BitVec 32
  be : BitVec 4
  addr : BitVec 32
  data : BitVec 32
  deriving DecidableEq, Repr, Inhabited

namespace EtherboneRecordReceiver

/-- The FIFO of the receiver. -/
structure Config where
  depth : Nat
  depth_pos : 0 < depth
  Fifo : BufferedFIFO RecordBeat depth

/-- The states of `EtherboneRecordReceiver`. -/
inductive Fsm
  | idle
  | receiveWrites
  | receiveBaseRetAddr
  | receiveReads
  deriving DecidableEq, Repr

/-- The registers of the receiver. -/
structure State (R : Config) where
  fifo : R.Fifo.State
  baseAddr : BitVec 32
  counter : BitVec 9
  fsm : Fsm

variable {R : Config} {ε : Type}

/-- No record is there. -/
def init : State R where
  fifo := R.Fifo.init
  baseAddr := 0
  counter := 0
  fsm := .idle

/-- `fifo.source.valid`. -/
def fifoValid (s : State R) : Bool := R.Fifo.readable s.fifo

/-- `fifo.source`. -/
def fifoSource (s : State R) : RecordBeat := R.Fifo.dout s.fifo

/-- `counter == count - 1`: the subtraction has the width of `counter`. -/
def isLast (counter : BitVec 9) (count : BitVec 8) : Bool := counter == count.setWidth 9 - 1

/-- `source` in RECEIVE_WRITES. -/
def writeBeat (baseAddr : BitVec 32) (counter : BitVec 9) (x : RecordBeat) : MmapBeat where
  we := true
  last := isLast counter x.wcount
  count := x.wcount
  baseAddr := 0
  be := x.byteEnable.setWidth 4
  addr := (slice baseAddr 2 32).setWidth 32 + counter.setWidth 32
  data := x.data

/-- `source` in RECEIVE_READS. -/
def readBeat (baseAddr : BitVec 32) (counter : BitVec 9) (x : RecordBeat) : MmapBeat where
  we := false
  last := isLast counter x.rcount
  count := x.rcount
  baseAddr := baseAddr
  be := 0
  addr := (slice x.data 2 32).setWidth 32
  data := 0

/-- `source.valid`. -/
def sourceValid (s : State R) : Bool :=
  match s.fsm with
  | .receiveWrites | .receiveReads => fifoValid s
  | _ => false

/-- `source`, with the beat of a write or of a read. -/
def source (s : State R) : MmapBeat :=
  match s.fsm with
  | .receiveWrites => writeBeat s.baseAddr s.counter (fifoSource s)
  | .receiveReads => readBeat s.baseAddr s.counter (fifoSource s)
  | _ => ⟨false, false, 0, 0, 0, 0, 0⟩

/-- `fifo.source.ready`. -/
def fifoReady (s : State R) (sourceReady : Bool) : Bool :=
  match s.fsm with
  | .idle => true
  | .receiveWrites | .receiveReads => sourceReady
  | .receiveBaseRetAddr => false

/-- The clock edge. -/
def next (s : State R) (sinkValid : Bool) (sink : RecordBeat) (sourceReady : Bool) : State R where
  fifo := R.Fifo.next s.fifo sinkValid sink (fifoReady s sourceReady)
  baseAddr :=
    match s.fsm with
    | .idle | .receiveBaseRetAddr => if fifoValid s then (fifoSource s).data else s.baseAddr
    | _ => s.baseAddr
  counter :=
    match s.fsm with
    | .idle | .receiveBaseRetAddr => 0
    | _ => if fifoValid s && sourceReady then s.counter + 1 else s.counter
  fsm :=
    match s.fsm with
    | .idle =>
        if fifoValid s then
          if (fifoSource s).wcount ≠ 0 then .receiveWrites
          else if (fifoSource s).rcount ≠ 0 then .receiveReads
          else .idle
        else .idle
    | .receiveWrites =>
        if fifoValid s && sourceReady && isLast s.counter (fifoSource s).wcount then
          if (fifoSource s).rcount ≠ 0 then .receiveBaseRetAddr else .idle
        else .receiveWrites
    | .receiveBaseRetAddr => if fifoValid s then .receiveReads else .receiveBaseRetAddr
    | .receiveReads =>
        if fifoValid s && sourceReady && isLast s.counter (fifoSource s).rcount then .idle
        else .receiveReads

/-- The receiver as a stage. -/
def stage (R : Config) (ε : Type) : Stage ε RecordBeat MmapBeat where
  State := State R
  init := init
  sourceValid s _ _ := sourceValid s
  source s _ := source s
  sinkReady s _ _ _ _ := R.Fifo.writable s.fifo
  next s _ := next s
  waits _ _ _ _ := false

/-! ## Words -/

/-- Where a record is, with the registers that matter there. -/
inductive Ctl
  | idle
  | writes (baseAddr : BitVec 32) (counter : BitVec 9)
  | baseRetAddr
  | reads (baseAddr : BitVec 32) (counter : BitVec 9)
  deriving DecidableEq, Repr

/-- A word popped in RECEIVE_READS. -/
def readWord (baseAddr : BitVec 32) (counter : BitVec 9) (x : RecordBeat) :
    Ctl × List MmapBeat :=
  (if isLast counter x.rcount then .idle else .reads baseAddr (counter + 1),
    [readBeat baseAddr counter x])

/-- What each word popped from the FIFO does.  The word that RECEIVE_BASE_RET_ADDR
latches is popped in RECEIVE_READS. -/
def feed : Ctl → RecordBeat → Ctl × List MmapBeat
  | .idle, x =>
      (if x.wcount ≠ 0 then .writes x.data 0 else if x.rcount ≠ 0 then .reads x.data 0 else .idle,
        [])
  | .writes baseAddr counter, x =>
      (if isLast counter x.wcount then (if x.rcount ≠ 0 then .baseRetAddr else .idle)
        else .writes baseAddr (counter + 1),
        [writeBeat baseAddr counter x])
  | .baseRetAddr, x => readWord x.data 0 x
  | .reads baseAddr counter, x => readWord baseAddr counter x

/-- The receiver as a machine on words. -/
def words : Machine Ctl RecordBeat (List MmapBeat) where
  out c x := (feed c x).2
  next c x := (feed c x).1

/-- What the state means for the words in front. -/
def ctl (s : State R) : Ctl :=
  match s.fsm with
  | .idle => .idle
  | .receiveWrites => .writes s.baseAddr s.counter
  | .receiveBaseRetAddr => .baseRetAddr
  | .receiveReads => .reads s.baseAddr s.counter

/-- A word leaves the FIFO in this cycle. -/
def pops (s : State R) (sourceReady : Bool) : Bool := fifoValid s && fifoReady s sourceReady

/-- The words that stay in the FIFO. -/
def left (s : State R) (sourceReady : Bool) : List RecordBeat :=
  if pops s sourceReady then (R.Fifo.contents s.fifo).tail else R.Fifo.contents s.fifo

theorem contents_next (s : State R) (sinkValid : Bool) (sink : RecordBeat) (sourceReady : Bool) :
    R.Fifo.contents (next s sinkValid sink sourceReady).fifo =
      left s sourceReady ++ beat sinkValid (R.Fifo.writable s.fifo) sink :=
  R.Fifo.contents_next _ _ _ _

theorem contents_of_pops {s : State R} {sourceReady : Bool} (h : pops s sourceReady = true) :
    R.Fifo.contents s.fifo = fifoSource s :: left s sourceReady := by
  unfold left
  rw [h, if_pos rfl]
  unfold pops at h
  exact R.Fifo.dout_eq s.fifo (Bool.and_eq_true_iff.mp h).1

theorem left_of_stay {s : State R} {sourceReady : Bool} (h : pops s sourceReady = false) :
    left s sourceReady = R.Fifo.contents s.fifo := by
  unfold left
  rw [h, if_neg Bool.false_ne_true]

/-- A cycle that pops no word gives out nothing, and at most latches the base address of
the reply. -/
theorem ctl_next_of_stay {s : State R} (sinkValid : Bool) (sink : RecordBeat)
    {sourceReady : Bool} (hpops : pops s sourceReady = false) :
    beat (sourceValid s) sourceReady (source s) = [] ∧
      (ctl (next s sinkValid sink sourceReady) = ctl s ∨
        ctl s = .baseRetAddr ∧ fifoValid s = true ∧
          ctl (next s sinkValid sink sourceReady) = .reads (fifoSource s).data 0) := by
  unfold pops fifoReady at hpops
  cases hfsm : s.fsm with
  | idle =>
    simp only [hfsm, Bool.and_true] at hpops
    simp [ctl, next, sourceValid, hfsm, hpops]
  | receiveBaseRetAddr =>
    cases hvalid : fifoValid s <;> simp [ctl, next, sourceValid, hfsm, hvalid]
  | receiveWrites =>
    simp only [hfsm] at hpops
    simp [ctl, next, sourceValid, beat, hfsm, hpops]
  | receiveReads =>
    simp only [hfsm] at hpops
    simp [ctl, next, sourceValid, beat, hfsm, hpops]

/-- A popped word is fed to the machine on words. -/
theorem ctl_next_of_pops {s : State R} (sinkValid : Bool) (sink : RecordBeat)
    {sourceReady : Bool} (hpops : pops s sourceReady = true) :
    feed (ctl s) (fifoSource s) =
      (ctl (next s sinkValid sink sourceReady), beat (sourceValid s) sourceReady (source s)) := by
  unfold pops fifoReady at hpops
  cases hfsm : s.fsm with
  | idle =>
    simp only [hfsm, Bool.and_true] at hpops
    simp only [ctl, next, feed, sourceValid, hfsm, hpops]
    split_ifs <;> simp_all
  | receiveBaseRetAddr => simp [hfsm] at hpops
  | receiveWrites =>
    simp only [hfsm, Bool.and_eq_true] at hpops
    simp only [ctl, next, feed, sourceValid, source, hfsm, hpops]
    split_ifs <;> simp_all
  | receiveReads =>
    simp only [hfsm, Bool.and_eq_true] at hpops
    simp only [ctl, next, feed, sourceValid, source, hfsm, hpops, readWord]
    split_ifs <;> simp_all

/-- A cycle gives out what the words that leave the FIFO make. -/
theorem ctl_next (s : State R) (sinkValid : Bool) (sink : RecordBeat) (sourceReady : Bool)
    (ws : List RecordBeat) :
    words.emits (ctl s) (R.Fifo.contents s.fifo ++ ws) =
      beat (sourceValid s) sourceReady (source s) ++
        words.emits (ctl (next s sinkValid sink sourceReady)) (left s sourceReady ++ ws) := by
  cases hpops : pops s sourceReady with
  | true =>
    have hfeed := ctl_next_of_pops sinkValid sink hpops
    have hout : words.out (ctl s) (fifoSource s) = _ := congrArg Prod.snd hfeed
    have hnext : words.next (ctl s) (fifoSource s) = _ := congrArg Prod.fst hfeed
    rw [contents_of_pops hpops, List.cons_append, Machine.emits_cons, hout, hnext]
  | false =>
    obtain ⟨hbeat, hctl⟩ := ctl_next_of_stay sinkValid sink hpops
    rw [hbeat, left_of_stay hpops, List.nil_append]
    rcases hctl with hctl | ⟨hret, hvalid, hctl⟩
    · rw [hctl]
    · -- the word that was latched is the next one to be popped
      rw [hret, hctl, R.Fifo.dout_eq s.fifo hvalid, List.cons_append]
      rfl

/-- The words popped so far bring the machine on words to where the receiver is, which
may have latched the word that comes next. -/
def Reached (popped ahead : List RecordBeat) (c : Ctl) : Prop :=
  words.run .idle popped = c ∨
    words.run .idle popped = .baseRetAddr ∧
      ∃ x xs, ahead = x :: xs ∧ c = .reads x.data 0

theorem Reached.feed_eq {popped ahead : List RecordBeat} {x : RecordBeat} {c : Ctl}
    (h : Reached popped (x :: ahead) c) : feed (words.run .idle popped) x = feed c x := by
  rcases h with h | ⟨h, y, ys, hahead, rfl⟩
  · rw [h]
  · obtain ⟨rfl, rfl⟩ := List.cons.inj hahead
    rw [h]
    rfl

theorem reached_next {s : State R} {popped ws : List RecordBeat}
    (h : Reached popped (R.Fifo.contents s.fifo ++ ws) (ctl s)) (sinkValid : Bool)
    (sink : RecordBeat) (sourceReady : Bool) :
    ∃ popped', popped' ++ (left s sourceReady ++ ws) =
        popped ++ (R.Fifo.contents s.fifo ++ ws) ∧
      Reached popped' (left s sourceReady ++ ws)
        (ctl (next s sinkValid sink sourceReady)) := by
  cases hpops : pops s sourceReady with
  | true =>
    have hcontents := contents_of_pops hpops
    rw [hcontents, List.cons_append] at h
    have hfeed := h.feed_eq.trans (ctl_next_of_pops sinkValid sink hpops)
    refine ⟨popped ++ [fifoSource s], ?_, Or.inl ?_⟩
    · rw [hcontents]
      simp
    · rw [Machine.run_append]
      exact congrArg Prod.fst hfeed
  | false =>
    obtain ⟨-, hctl⟩ := ctl_next_of_stay sinkValid sink hpops
    rw [left_of_stay hpops]
    refine ⟨popped, rfl, ?_⟩
    rcases hctl with hctl | ⟨hret, hvalid, hctl⟩
    · rw [hctl]
      exact h
    · right
      rcases h with h | ⟨-, x, xs, -, hreads⟩
      · have hfront : R.Fifo.contents s.fifo ++ ws =
            fifoSource s :: ((R.Fifo.contents s.fifo).tail ++ ws) :=
          congrArg (· ++ ws) (R.Fifo.dout_eq s.fifo hvalid)
        exact ⟨h.trans hret, _, _, hfront, hctl⟩
      · rw [hret] at hreads
        cases hreads

/-! ## Cycles -/

/-- A word that stays in the FIFO is readable in the next cycle. -/
theorem fifoValid_next {s : State R} {sourceReady : Bool} (hleft : left s sourceReady ≠ [])
    (sinkValid : Bool) (sink : RecordBeat) :
    fifoValid (next s sinkValid sink sourceReady) = true :=
  R.Fifo.readable_next _ _ _ _ hleft

/-- Without a word to read the receiver stays where it is. -/
theorem fsm_next_of_invalid {s : State R} (hvalid : fifoValid s = false) (sinkValid : Bool)
    (sink : RecordBeat) (sourceReady : Bool) :
    (next s sinkValid sink sourceReady).fsm = s.fsm := by
  cases hfsm : s.fsm <;> simp [next, hfsm, hvalid]

/-- So it does in front of a source that is not ready. -/
theorem fsm_next_of_stall {s : State R} (hoffer : sourceValid s = true) (sinkValid : Bool)
    (sink : RecordBeat) : (next s sinkValid sink false).fsm = s.fsm := by
  cases hfsm : s.fsm <;> simp [sourceValid, hfsm] at hoffer <;> simp [next, hfsm]

theorem sourceValid_next_of_stall {s : State R} {sourceReady : Bool}
    (h : (sourceValid s && !sourceReady) = true) (sinkValid : Bool) (sink : RecordBeat) :
    sourceValid (next s sinkValid sink sourceReady) = true := by
  rw [Bool.and_eq_true, Bool.not_eq_true'] at h
  obtain ⟨hoffer, rfl⟩ := h
  have hfsm := fsm_next_of_stall hoffer sinkValid sink
  cases hcase : s.fsm with
  | idle | receiveBaseRetAddr => simp [sourceValid, hcase] at hoffer
  | receiveWrites | receiveReads =>
    have hvalid : fifoValid s = true := by simpa [sourceValid, hcase] using hoffer
    have hleft : left s false ≠ [] := by
      have hpops : pops s false = false := by simp [pops, fifoReady, hcase]
      rw [left_of_stay hpops, R.Fifo.dout_eq s.fifo hvalid]
      exact List.cons_ne_nil _ _
    unfold sourceValid
    rw [hfsm, hcase]
    exact fifoValid_next hleft sinkValid sink

/-- The cycles to come before the word in front can be popped. -/
def slack (s : State R) : Nat :=
  (if fifoValid s then 0 else 1) + (if s.fsm = .receiveBaseRetAddr then 1 else 0)

theorem slack_le (s : State R) : slack s ≤ 2 := by
  unfold slack
  split_ifs <;> decide

/-- A word that waits in the FIFO comes closer to being popped, unless it waits for the
source. -/
theorem slack_next {s : State R} {sourceReady : Bool} (hpops : pops s sourceReady = false)
    (hleft : left s sourceReady ≠ []) (sinkValid : Bool) (sink : RecordBeat) :
    slack (next s sinkValid sink sourceReady) < slack s ∨
      slack (next s sinkValid sink sourceReady) = slack s ∧ sourceValid s = true ∧
        sourceReady = false := by
  have hvalid' := fifoValid_next hleft sinkValid sink
  cases hvalid : fifoValid s with
  | false =>
    have hfsm := fsm_next_of_invalid hvalid sinkValid sink sourceReady
    left
    unfold slack
    rw [hvalid', hvalid, hfsm]
    split_ifs <;> simp_all
  | true =>
    unfold pops at hpops
    rw [hvalid, Bool.true_and] at hpops
    cases hfsm : s.fsm with
    | idle => simp [fifoReady, hfsm] at hpops
    | receiveBaseRetAddr =>
      have hfsm' : (next s sinkValid sink sourceReady).fsm = .receiveReads := by
        simp [next, hfsm, hvalid]
      left
      unfold slack
      rw [hvalid', hvalid, hfsm, hfsm']
      decide
    | receiveWrites | receiveReads =>
      have hoffer : sourceValid s = true := by simp [sourceValid, hfsm, hvalid]
      have hready : sourceReady = false := by simpa [fifoReady, hfsm] using hpops
      subst hready
      refine Or.inr ⟨?_, hoffer, rfl⟩
      unfold slack
      rw [hvalid', hvalid, fsm_next_of_stall hoffer]

/-- A bound on the free cycles that `n` words to come and those in the FIFO take. -/
def cost (s : State R) (n : Nat) : Nat :=
  6 * n + if R.Fifo.contents s.fifo = [] then 0
    else 3 * (R.Fifo.contents s.fifo).length + slack s

theorem cost_of_cons {s : State R} (h : R.Fifo.contents s.fifo ≠ []) (n : Nat) :
    cost s n = 6 * n + (3 * (R.Fifo.contents s.fifo).length + slack s) := by
  rw [cost, if_neg h]

theorem cost_le (s : State R) (n : Nat) :
    cost s n ≤ 6 * n + (3 * (R.Fifo.contents s.fifo).length + slack s) := by
  unfold cost
  split_ifs <;> omega

/-- The bound pays for a cycle in which the receiver neither is starved nor stalls. -/
theorem cost_next (s : State R) {c : Chan RecordBeat} {sinkValid : Bool} {sink : RecordBeat}
    (hv : c.Offers sinkValid sink) (sourceReady : Bool) :
    let s' := next s sinkValid sink sourceReady
    let n' := (c.next sinkValid (R.Fifo.writable s.fifo)).rest.length
    cost s' n' ≤ cost s c.rest.length ∧
      (cost s' n' < cost s c.rest.length ∨ cost s c.rest.length = 0 ∨ c.Starved sinkValid ∨
        (sourceValid s = true ∧ sourceReady = false)) := by
  intro s' n'
  have hn : (beat sinkValid (R.Fifo.writable s.fifo) sink).length + n' = c.rest.length :=
    hv.length_next _
  have hlength : (R.Fifo.contents s'.fifo).length = (left s sourceReady).length +
      (beat sinkValid (R.Fifo.writable s.fifo) sink).length := by
    rw [contents_next, List.length_append]
  have hbound := cost_le s' n'
  have hslack := slack_le s'
  by_cases hcontents : R.Fifo.contents s.fifo = []
  · -- the FIFO has room
    have hcost : cost s c.rest.length = 6 * c.rest.length := by
      rw [cost, if_pos hcontents, Nat.add_zero]
    have hleft : left s sourceReady = [] := by
      unfold left
      rw [hcontents, List.tail_nil, ite_self]
    have hroom : R.Fifo.writable s.fifo = true :=
      R.Fifo.writable_of_lt s.fifo (by rw [hcontents]; exact R.depth_pos)
    rw [hleft, List.length_nil, Nat.zero_add] at hlength
    rw [hcost]
    cases hvalid : sinkValid with
    | true =>
      rw [hvalid, hroom, beat_true_true, List.length_singleton] at hlength hn
      omega
    | false =>
      rw [hvalid, beat_false_left, List.length_nil] at hlength hn
      have hcost' : cost s' n' = 6 * c.rest.length := by
        rw [cost, if_pos (List.length_eq_zero_iff.mp hlength)]
        omega
      have hquiet := Chan.zero_or_starved (Nat.sub_zero (6 * c.rest.length))
      rw [hcost']
      exact ⟨Nat.le_refl _, Or.inr (hquiet.imp_right Or.inl)⟩
  · rw [cost_of_cons hcontents]
    have hpos := List.length_pos_iff.mpr hcontents
    cases hpops : pops s sourceReady with
    | true =>
      have hleft : (left s sourceReady).length = (R.Fifo.contents s.fifo).length - 1 := by
        unfold left
        rw [hpops, if_pos rfl, List.length_tail]
      omega
    | false =>
      have hleft := left_of_stay hpops
      rw [hleft] at hlength
      rcases slack_next hpops (hleft ▸ hcontents) sinkValid sink with hlt | ⟨heq, hstall⟩
      · change slack s' < slack s at hlt
        omega
      · change slack s' = slack s at heq
        exact ⟨by omega, Or.inr (Or.inr (Or.inr hstall))⟩

/-- What is inside and still to come makes what is still to go out, and the receiver is
where the words of the stream popped so far bring it. -/
structure Rel (stream : List RecordBeat) (s : State R) (c : Chan RecordBeat)
    (d : Chan MmapBeat) (k : Nat) : Prop where
  emits : words.emits (ctl s) (R.Fifo.contents s.fifo ++ c.rest) = d.rest
  reached : ∃ popped, popped ++ (R.Fifo.contents s.fifo ++ c.rest) = stream ∧
    Reached popped (R.Fifo.contents s.fifo ++ c.rest) (ctl s)
  held : d.held = true → sourceValid s = true
  cost : cost s c.rest.length = k

namespace Rel

variable {stream : List RecordBeat} {s : State R} {c : Chan RecordBeat} {d : Chan MmapBeat} {k : Nat}

/-- Nothing is left when the bound is zero. -/
theorem contents_of_zero (h : Rel stream s c d 0) :
    c.rest = [] ∧ R.Fifo.contents s.fifo = [] := by
  have hcost := h.cost
  unfold EtherboneRecordReceiver.cost at hcost
  refine ⟨List.length_eq_zero_iff.mp (by omega), ?_⟩
  by_contra hne
  have hpos := List.length_pos_iff.mpr hne
  rw [if_neg hne] at hcost
  omega

theorem done (h : Rel stream s c d 0) : c.rest = [] ∧ d.rest = [] := by
  obtain ⟨hrest, hcontents⟩ := h.contents_of_zero
  have hemits := h.emits
  rw [hrest, hcontents] at hemits
  exact ⟨hrest, hemits.symm⟩

theorem offers (h : Rel stream s c d k) : d.Offers (sourceValid s) (source s) := by
  refine ⟨h.held, fun hvalid => ?_⟩
  rw [← h.emits, ctl_next s false default true c.rest, hvalid]
  rfl

theorem next (h : Rel stream s c d k) {sinkValid : Bool} {sink : RecordBeat}
    (hv : c.Offers sinkValid sink) (sourceReady : Bool) :
    ∃ k', Rel stream (next s sinkValid sink sourceReady)
        (c.next sinkValid (R.Fifo.writable s.fifo)) (d.next (sourceValid s) sourceReady) k' ∧
      k' ≤ k ∧ (k' < k ∨ k = 0 ∨ c.Starved sinkValid ∨
        (sourceValid s = true ∧ sourceReady = false) ∨ false = true) := by
  have hemits := ctl_next s sinkValid sink sourceReady c.rest
  obtain ⟨popped, hstream, hreached⟩ := h.reached
  obtain ⟨popped', hpopped, hreached'⟩ := reached_next hreached sinkValid sink sourceReady
  have hwords : R.Fifo.contents (EtherboneRecordReceiver.next s sinkValid sink sourceReady).fifo ++
      (c.next sinkValid (R.Fifo.writable s.fifo)).rest = left s sourceReady ++ c.rest := by
    rw [contents_next, List.append_assoc, hv.rest_next]
  obtain ⟨hle, hmove⟩ := cost_next s hv sourceReady
  rw [h.cost] at hle hmove
  refine ⟨_, ⟨?_, ?_, ?_, rfl⟩, hle, ?_⟩
  · have hrest := h.offers.rest_next sourceReady
    rw [← h.emits, hemits] at hrest
    rw [hwords]
    exact (List.append_cancel_left hrest).symm
  · rw [hwords]
    exact ⟨popped', hpopped.trans hstream, hreached'⟩
  · intro hstall
    exact sourceValid_next_of_stall hstall sinkValid sink
  · rcases hmove with hlt | hzero | hstarved | hstalled
    · exact Or.inl hlt
    · exact Or.inr (Or.inl hzero)
    · exact Or.inr (Or.inr (Or.inl hstarved))
    · exact Or.inr (Or.inr (Or.inr (Or.inl hstalled)))

/-- From reset. -/
theorem start (stream : List RecordBeat) :
    Rel stream (EtherboneRecordReceiver.init : State R) (Chan.start stream)
      (Chan.start (words.emits .idle stream)) (6 * stream.length) := by
  have hcontents : R.Fifo.contents (EtherboneRecordReceiver.init : State R).fifo = [] :=
    R.Fifo.contents_init
  refine ⟨?_, ⟨[], ?_, Or.inl rfl⟩, fun h => (by cases h), ?_⟩
  · rw [hcontents]
    rfl
  · rw [hcontents]
    rfl
  · rw [EtherboneRecordReceiver.cost, if_pos hcontents]
    rfl

end Rel

/-- The receiver turns its words into the beats of the machine on words. -/
def simulation (R : Config) (ε : Type) (stream : List RecordBeat) :
    Simulation (stage R ε) where
  rel := Rel stream
  done := Rel.done
  offers h _ := h.offers
  step _ ready h hv := h.next hv ready

/-- From reset, records are executed one after the other. -/
theorem starts {γ : Type} (R : Config) (ε : Type) {f : γ → List RecordBeat}
    {g : γ → List MmapBeat} {xs : List γ}
    (h : ∀ x ∈ xs, words.emits .idle (f x) = g x ∧ words.run .idle (f x) = .idle) :
    (simulation R ε (xs.flatMap f)).Starts (xs.flatMap f) (xs.flatMap g)
      (6 * (xs.flatMap f).length) := by
  rw [← (Machine.emits_flatMap h).1]
  exact Rel.start _

end EtherboneRecordReceiver

end UsbSniffer.Etherbone
