/-
  Etherbone/Sender.lean --- the sender of Etherbone records (gateware/etherbone.py).

  The answers of the bus wait in a FIFO.  A record is sent once the first of them is
  there: its base address, and then its data.
-/
import UsbSniffer.Etherbone.Receiver
import UsbSniffer.Sync.Packet

set_option autoImplicit false

namespace UsbSniffer.Etherbone.EtherboneRecordSender

open UsbSniffer.Sync

/-- The buffer of the sender. -/
structure Config where
  depth : Nat
  depth_pos : 0 < depth
  Buffer : SyncFIFO MmapBeat depth

/-- The states of `EtherboneRecordSender`. -/
inductive Fsm
  | idle
  | sendBaseAddress
  | sendData
  deriving DecidableEq, Repr

/-- The registers of the sender. -/
structure State (S : Config) where
  pbuffer : S.Buffer.State
  fsm : Fsm

variable {S : Config}

/-- Nothing is to be sent. -/
def init : State S := ⟨S.Buffer.init, .idle⟩

/-- `pbuffer.source.valid`. -/
def bufferValid (s : State S) : Bool := S.Buffer.readable s.pbuffer

/-- `pbuffer.source`. -/
def bufferSource (s : State S) : MmapBeat := S.Buffer.dout s.pbuffer

/-- The parameters of a record, from an access. -/
def record (x : MmapBeat) (data : BitVec 32) (last : Bool) : RecordBeat where
  data := data
  last := last
  byteEnable := x.be.setWidth 8
  wcount := if x.we then x.count else 0
  rcount := if x.we then 0 else x.count

/-- `source.valid`. -/
def sourceValid (s : State S) : Bool :=
  match s.fsm with
  | .idle => false
  | .sendBaseAddress | .sendData => bufferValid s

/-- `source`: the base address of the replies, and then the words. -/
def source (s : State S) : RecordBeat :=
  match s.fsm with
  | .idle => record (bufferSource s) 0 false
  | .sendBaseAddress => record (bufferSource s) (bufferSource s).baseAddr false
  | .sendData => record (bufferSource s) (bufferSource s).data (bufferSource s).last

/-- `pbuffer.source.ready`. -/
def bufferReady (s : State S) (sourceReady : Bool) : Bool :=
  match s.fsm with
  | .idle => !bufferValid s
  | .sendBaseAddress => false
  | .sendData => bufferValid s && sourceReady

/-- The clock edge. -/
def next (s : State S) (sinkValid : Bool) (sink : MmapBeat) (sourceReady : Bool) : State S where
  pbuffer := S.Buffer.next s.pbuffer sinkValid sink (bufferReady s sourceReady)
  fsm :=
    match s.fsm with
    | .idle => if bufferValid s then .sendBaseAddress else .idle
    | .sendBaseAddress => if sourceReady then .sendData else .sendBaseAddress
    | .sendData =>
        if bufferValid s && sourceReady && (bufferSource s).last then .idle else .sendData

/-- The sender as a stage. -/
def stage (S : Config) (ε : Type) : Stage ε MmapBeat RecordBeat where
  State := State S
  init := init
  sourceValid s _ _ := sourceValid s
  source s _ := source s
  sinkReady s _ _ _ _ := S.Buffer.writable s.pbuffer
  next s _ := next s
  waits _ _ _ _ := false

/-! ## Words -/

/-- An answer makes its data, and the first one of a record the base address as well. -/
def words : Machine Bool MmapBeat (List RecordBeat) where
  out first x :=
    (if first then [record x x.baseAddr false] else []) ++ [record x x.data x.last]
  next _ x := x.last

/-- The data of the answers to a record. -/
theorem words_data {xs : List MmapBeat} (h : IsPacket MmapBeat.last xs) :
    words.emits false xs = xs.map (fun x => record x x.data x.last) ∧
      words.run false xs = true := by
  refine Machine.emits_packet h (fun x _ => rfl) fun x _ => ?_
  cases hlast : x.last <;> simp [words, hlast]

/-- The answers to a record, with the base address in front. -/
theorem words_packet {x : MmapBeat} {xs : List MmapBeat} (h : IsPacket MmapBeat.last (x :: xs)) :
    words.emits true (x :: xs) = record x x.baseAddr false ::
        (x :: xs).map (fun y => record y y.data y.last) ∧
      words.run true (x :: xs) = true := by
  obtain ⟨hemits, hrun⟩ := words_data h
  refine ⟨?_, hrun⟩
  rw [← hemits]
  rfl

/-- The base address is still to be sent. -/
def first (s : State S) : Bool :=
  match s.fsm with
  | .idle | .sendBaseAddress => true
  | .sendData => false

/-- The steps taken for the answer in front. -/
def spent (s : State S) : Nat :=
  match s.fsm with
  | .idle => 0
  | .sendBaseAddress => 1
  | .sendData => 2

/-- A bound on the free cycles that `n` answers to come and those in the buffer take. -/
def cost (s : State S) (n : Nat) : Nat :=
  5 * n + (3 * (S.Buffer.contents s.pbuffer).length - spent s)

/-- The sender between its channels: it has still to give the records of what is in its buffer
and of what it has still to take. -/
structure Rel (s : State S) (c : Chan MmapBeat) (d : Chan RecordBeat) (bound : Nat) :
    Prop where
  emits : words.emits (first s) (S.Buffer.contents s.pbuffer ++ c.rest) = d.rest
  sending : s.fsm = .sendBaseAddress → S.Buffer.contents s.pbuffer ≠ []
  held : d.held = true → sourceValid s = true
  bound : cost s c.rest.length = bound

/-- The buffer after a cycle. -/
theorem contents_next (s : State S) (v : Bool) (x : MmapBeat) (ready : Bool) :
    S.Buffer.contents (next s v x ready).pbuffer =
      (if bufferReady s ready then (S.Buffer.contents s.pbuffer).tail
        else S.Buffer.contents s.pbuffer) ++ beat v (S.Buffer.writable s.pbuffer) x :=
  S.Buffer.contents_next _ _ _ _

theorem bufferValid_of_nil {s : State S} (h : S.Buffer.contents s.pbuffer = []) :
    bufferValid s = false := by
  unfold bufferValid
  rw [S.Buffer.readable_eq, h]
  rfl

theorem bufferValid_of_cons {s : State S} {y : MmapBeat} {ys : List MmapBeat}
    (h : S.Buffer.contents s.pbuffer = y :: ys) : bufferValid s = true ∧ bufferSource s = y := by
  unfold bufferValid
  rw [S.Buffer.readable_eq, h]
  exact ⟨rfl, S.Buffer.dout_eq _ _ _ h⟩

namespace Rel

variable {s : State S} {c : Chan MmapBeat} {d : Chan RecordBeat} {bound : Nat} {v : Bool}
  {x : MmapBeat}

theorem done (h : Rel s c d 0) : c.rest = [] ∧ d.rest = [] := by
  have hbound := h.bound
  unfold cost at hbound
  have hrest : c.rest = [] := List.length_eq_zero_iff.mp (by omega)
  have hcontents : S.Buffer.contents s.pbuffer = [] := by
    by_contra hne
    have hpos := List.length_pos_iff.mpr hne
    have hspent : spent s ≤ 2 := by
      unfold spent
      cases s.fsm <;> decide
    omega
  have hemits := h.emits
  rw [hrest, hcontents] at hemits
  exact ⟨hrest, hemits.symm⟩

/-- What is sent of the answer in front. -/
theorem rest_of_valid (h : Rel s c d bound) (hvalid : sourceValid s = true) :
    ∃ y ys, S.Buffer.contents s.pbuffer = y :: ys ∧
      d.rest = source s :: words.emits (if s.fsm = .sendBaseAddress then false else y.last)
        ((if s.fsm = .sendBaseAddress then y :: ys else ys) ++ c.rest) := by
  have hemits := h.emits
  cases hcontents : S.Buffer.contents s.pbuffer with
  | nil =>
    have hno := bufferValid_of_nil hcontents
    unfold sourceValid at hvalid
    cases hfsm : s.fsm <;> simp [hfsm, hno] at hvalid
  | cons y ys =>
    have hsource := (bufferValid_of_cons hcontents).2
    rw [hcontents] at hemits
    refine ⟨y, ys, rfl, hemits.symm.trans ?_⟩
    cases hfsm : s.fsm with
    | idle => simp [sourceValid, hfsm] at hvalid
    | sendBaseAddress => simp [first, words, source, hfsm, hsource]
    | sendData => simp [first, words, source, hfsm, hsource]

theorem offers (h : Rel s c d bound) : d.Offers (sourceValid s) (source s) := by
  refine ⟨h.held, fun hvalid => ?_⟩
  obtain ⟨y, ys, -, hrest⟩ := h.rest_of_valid hvalid
  rw [hrest]
  rfl

/-- The answers inside and to come after a cycle. -/
theorem answers_next (s : State S) (hv : c.Offers v x) (ready : Bool) :
    S.Buffer.contents (EtherboneRecordSender.next s v x ready).pbuffer ++
        (c.next v (S.Buffer.writable s.pbuffer)).rest =
      (if bufferReady s ready then (S.Buffer.contents s.pbuffer).tail
        else S.Buffer.contents s.pbuffer) ++ c.rest := by
  rw [contents_next, List.append_assoc, hv.rest_next]

/-- The bound after a cycle, from what stays in the buffer. -/
theorem cost_next (s : State S) (hv : c.Offers v x) (ready : Bool) :
    ∃ n, n ≤ 1 ∧
      (c.next v (S.Buffer.writable s.pbuffer)).rest.length + n = c.rest.length ∧
      (S.Buffer.contents (EtherboneRecordSender.next s v x ready).pbuffer).length =
        (if bufferReady s ready then (S.Buffer.contents s.pbuffer).tail
          else S.Buffer.contents s.pbuffer).length + n ∧
      (v = true → S.Buffer.writable s.pbuffer = true → n = 1) := by
  refine ⟨(beat v (S.Buffer.writable s.pbuffer) x).length, beat_length_le _ _ _, ?_, ?_, ?_⟩
  · rw [Nat.add_comm]
    exact hv.length_next _
  · rw [contents_next, List.length_append]
  · rintro rfl hroom
    rw [hroom]
    rfl

/-- A cycle in front of an empty buffer, which has room. -/
theorem next_empty (h : Rel s c d bound) (hnil : S.Buffer.contents s.pbuffer = [])
    (hv : c.Offers v x) (ready : Bool) :
    ∃ bound', Rel (next s v x ready) (c.next v (S.Buffer.writable s.pbuffer)) ⟨d.rest, false⟩
        bound' ∧ bound' ≤ bound ∧ (bound' < bound ∨ bound = 0 ∨ c.Starved v) := by
  have hvalid := bufferValid_of_nil hnil
  have hfsm : (EtherboneRecordSender.next s v x ready).fsm = s.fsm := by
    cases hfsm : s.fsm with
    | idle | sendData => simp [EtherboneRecordSender.next, hfsm, hvalid]
    | sendBaseAddress => exact absurd hnil (h.sending hfsm)
  have hroom : S.Buffer.writable s.pbuffer = true := by
    unfold SyncFIFO.writable
    rw [S.Buffer.level_eq, hnil]
    have := S.depth_pos
    simp
    omega
  have hanswers := answers_next s hv ready
  obtain ⟨n, hn, hrest, hlength, htaken⟩ := cost_next s hv ready
  have hbound := h.bound
  have hemits := h.emits
  unfold cost at hbound
  rw [hnil] at hanswers hlength hbound hemits
  rw [List.tail_nil, ite_self] at hanswers hlength
  refine ⟨_, ⟨?_, ?_, fun hheld => (by cases hheld), rfl⟩, ?_⟩
  · rw [hanswers]
    unfold first at hemits ⊢
    rw [hfsm]
    exact hemits
  · intro hbase
    rw [hfsm] at hbase
    exact absurd hnil (h.sending hbase)
  · unfold cost
    rw [hlength]
    unfold spent at hbound ⊢
    rw [hfsm]
    rw [List.length_nil] at hbound ⊢
    cases v with
    | true =>
      have hone := htaken rfl hroom
      exact ⟨by omega, Or.inl (by omega)⟩
    | false =>
      have hsame : n = 0 := by
        rw [Chan.next_false] at hrest
        change c.rest.length + n = c.rest.length at hrest
        omega
      refine ⟨by omega, Or.inr ?_⟩
      rcases c.empty_or_starved with hnone | hstarved
      · rw [hnone, List.length_nil] at hbound
        exact Or.inl (by omega)
      · exact Or.inr hstarved

/-- A record is started when its first answer is there. -/
theorem next_idle (h : Rel s c d bound) (hfsm : s.fsm = .idle) {y : MmapBeat}
    {ys : List MmapBeat} (hcons : S.Buffer.contents s.pbuffer = y :: ys) (hv : c.Offers v x)
    (ready : Bool) :
    ∃ bound', Rel (next s v x ready) (c.next v (S.Buffer.writable s.pbuffer)) ⟨d.rest, false⟩
        bound' ∧ bound' < bound := by
  have hvalid := (bufferValid_of_cons hcons).1
  have hready : bufferReady s ready = false := by simp [bufferReady, hfsm, hvalid]
  have hnext : (EtherboneRecordSender.next s v x ready).fsm = .sendBaseAddress := by
    simp [EtherboneRecordSender.next, hfsm, hvalid]
  have hanswers := answers_next s hv ready
  obtain ⟨n, hn, hrest, hlength, -⟩ := cost_next s hv ready
  have hbound := h.bound
  have hemits := h.emits
  rw [hready, if_neg Bool.false_ne_true, hcons] at hanswers hlength
  unfold cost spent at hbound
  rw [hfsm, hcons] at hbound
  unfold first at hemits
  rw [hfsm, hcons] at hemits
  refine ⟨_, ⟨?_, fun _ => ?_, fun hheld => (by cases hheld), rfl⟩, ?_⟩
  · rw [hanswers]
    unfold first
    rw [hnext]
    exact hemits
  · rw [← List.length_pos_iff, hlength, List.length_cons]
    omega
  · unfold cost spent
    rw [hnext, hlength]
    rw [List.length_cons] at hbound ⊢
    dsimp only at hbound ⊢
    omega

/-- A word that waits for the source. -/
theorem next_stall (h : Rel s c d bound) (hvalid : sourceValid s = true) (hv : c.Offers v x) :
    ∃ bound', Rel (next s v x false) (c.next v (S.Buffer.writable s.pbuffer)) ⟨d.rest, true⟩
        bound' ∧ bound' ≤ bound := by
  obtain ⟨y, ys, hcons, -⟩ := h.rest_of_valid hvalid
  have hready : bufferReady s false = false := by
    unfold bufferReady
    unfold sourceValid at hvalid
    cases hfsm : s.fsm <;> simp [hfsm] at hvalid ⊢
  have hnext : (EtherboneRecordSender.next s v x false).fsm = s.fsm := by
    unfold sourceValid at hvalid
    cases hfsm : s.fsm <;> simp [hfsm] at hvalid <;> simp [EtherboneRecordSender.next, hfsm]
  have hanswers := answers_next s hv false
  obtain ⟨n, hn, hrest, hlength, -⟩ := cost_next s hv false
  rw [hready, if_neg Bool.false_ne_true] at hanswers hlength
  have hne : S.Buffer.contents (EtherboneRecordSender.next s v x false).pbuffer ≠ [] := by
    rw [← List.length_pos_iff, hlength, hcons, List.length_cons]
    omega
  have hbound := h.bound
  have hemits := h.emits
  refine ⟨_, ⟨?_, fun _ => hne, fun _ => ?_, rfl⟩, ?_⟩
  · rw [hanswers]
    unfold first at hemits ⊢
    rw [hnext]
    exact hemits
  · obtain ⟨z, zs, hz⟩ := List.exists_cons_of_ne_nil hne
    have hvalid' := (bufferValid_of_cons hz).1
    unfold sourceValid at hvalid ⊢
    rw [hnext]
    cases hfsm : s.fsm <;> simp [hfsm] at hvalid ⊢ <;> exact hvalid'
  · unfold cost spent at hbound ⊢
    rw [hnext, hlength]
    rw [hcons, List.length_cons] at hbound ⊢
    omega

/-- A word that the source takes. -/
theorem next_given (h : Rel s c d bound) (hvalid : sourceValid s = true) (hv : c.Offers v x) :
    ∃ bound', Rel (next s v x true) (c.next v (S.Buffer.writable s.pbuffer))
        ⟨d.rest.tail, false⟩ bound' ∧ bound' < bound := by
  obtain ⟨y, ys, hcons, hrest'⟩ := h.rest_of_valid hvalid
  obtain ⟨hbuffer, hsource⟩ := bufferValid_of_cons hcons
  have hanswers := answers_next s hv true
  obtain ⟨n, hn, hrest, hlength, -⟩ := cost_next s hv true
  have hbound := h.bound
  unfold cost spent at hbound
  rw [hrest', List.tail_cons]
  cases hfsm : s.fsm with
  | idle => simp [sourceValid, hfsm] at hvalid
  | sendBaseAddress =>
    -- the answer in front stays for its data
    have hready : bufferReady s true = false := by simp [bufferReady, hfsm]
    have hnext : (EtherboneRecordSender.next s v x true).fsm = .sendData := by
      simp [EtherboneRecordSender.next, hfsm]
    rw [hready, if_neg Bool.false_ne_true, hcons] at hanswers hlength
    rw [hfsm, hcons, List.length_cons] at hbound
    refine ⟨_, ⟨?_, fun hbase => ?_, fun hheld => (by cases hheld), rfl⟩, ?_⟩
    · rw [hanswers, if_pos rfl, if_pos rfl]
      unfold first
      rw [hnext]
    · rw [hnext] at hbase
      cases hbase
    · unfold cost spent
      rw [hnext, hlength, List.length_cons]
      dsimp only at hbound ⊢
      omega
  | sendData =>
    have hready : bufferReady s true = true := by simp [bufferReady, hfsm, hbuffer]
    have hnext : (EtherboneRecordSender.next s v x true).fsm =
        if y.last then .idle else .sendData := by
      simp [EtherboneRecordSender.next, hfsm, hbuffer, hsource]
    rw [hready, if_pos rfl, hcons, List.tail_cons] at hanswers hlength
    rw [hfsm, hcons, List.length_cons] at hbound
    refine ⟨_, ⟨?_, fun hbase => ?_, fun hheld => (by cases hheld), rfl⟩, ?_⟩
    · rw [hanswers, if_neg Fsm.noConfusion, if_neg Fsm.noConfusion]
      unfold first
      rw [hnext]
      cases y.last <;> rfl
    · rw [hnext] at hbase
      split_ifs at hbase
    · unfold cost spent
      rw [hnext, hlength]
      dsimp only at hbound
      cases y.last <;> simp <;> omega

theorem next (h : Rel s c d bound) (hv : c.Offers v x) (ready : Bool) :
    ∃ bound', Rel (next s v x ready) (c.next v (S.Buffer.writable s.pbuffer))
        (d.next (sourceValid s) ready) bound' ∧ bound' ≤ bound ∧
      (bound' < bound ∨ bound = 0 ∨ c.Starved v ∨ (sourceValid s = true ∧ ready = false) ∨
        false = true) := by
  cases hvalid : sourceValid s with
  | true =>
    cases ready with
    | false =>
      obtain ⟨bound', hrel, hle⟩ := h.next_stall hvalid hv
      exact ⟨bound', hrel, hle, Or.inr (Or.inr (Or.inr (Or.inl ⟨rfl, rfl⟩)))⟩
    | true =>
      obtain ⟨bound', hrel, hlt⟩ := h.next_given hvalid hv
      exact ⟨bound', hrel, Nat.le_of_lt hlt, Or.inl hlt⟩
  | false =>
    cases hcontents : S.Buffer.contents s.pbuffer with
    | nil =>
      obtain ⟨bound', hrel, hle, hmove⟩ := h.next_empty hcontents hv ready
      refine ⟨bound', hrel, hle, ?_⟩
      rcases hmove with hlt | hzero | hstarved
      · exact Or.inl hlt
      · exact Or.inr (Or.inl hzero)
      · exact Or.inr (Or.inr (Or.inl hstarved))
    | cons y ys =>
      have hfsm : s.fsm = .idle := by
        have hbuffer := (bufferValid_of_cons hcontents).1
        unfold sourceValid at hvalid
        cases hfsm : s.fsm <;> simp [hfsm, hbuffer] at hvalid ⊢
      obtain ⟨bound', hrel, hlt⟩ := h.next_idle hfsm hcontents hv ready
      exact ⟨bound', hrel, Nat.le_of_lt hlt, Or.inl hlt⟩

/-- From reset. -/
theorem start (xs : List MmapBeat) :
    Rel (init : State S) (Chan.start xs) (Chan.start (words.emits true xs)) (5 * xs.length) := by
  have hcontents : S.Buffer.contents (init : State S).pbuffer = [] := S.Buffer.contents_init
  refine ⟨?_, fun h => (by cases h), fun h => (by cases h), ?_⟩
  · rw [hcontents]
    rfl
  · unfold cost
    rw [hcontents]
    rfl

end Rel

/-- The sender does what its words do. -/
def simulation (S : Config) (ε : Type) : Simulation (stage S ε) where
  rel := Rel
  done := Rel.done
  offers h _ := h.offers
  step _ ready h hv := h.next hv ready

end UsbSniffer.Etherbone.EtherboneRecordSender
