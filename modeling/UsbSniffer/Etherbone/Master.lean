/-
  Etherbone/Master.lean --- the Wishbone master (gateware/etherbone.py) and a bus.

  The bus acknowledges when it likes, and answers a read as it likes: with a function of
  all the accesses so far.  It keeps a log of them.
-/
import UsbSniffer.Etherbone.Receiver
import UsbSniffer.Sync.Packet

set_option autoImplicit false

namespace UsbSniffer.Etherbone

open UsbSniffer.Sync

/-- An acknowledged access of the bus. -/
structure Access where
  we : Bool
  adr : BitVec 30
  sel : BitVec 4
  datW : BitVec 32
  deriving DecidableEq, Repr

namespace EtherboneWishboneMaster

/-- The states of `EtherboneWishboneMaster`. -/
inductive Fsm
  | idle
  | writeData
  | readData
  | sendData
  deriving DecidableEq, Repr

/-- The word that has been read, and what the bus has seen. -/
structure State where
  data : BitVec 32
  fsm : Fsm
  /-- the accesses that the bus has acknowledged -/
  log : List Access
  deriving DecidableEq, Repr

/-- The bus has seen nothing. -/
def init : State := ⟨0, .idle, []⟩

/-- `bus` in WRITE_DATA. -/
def writeAccess (sink : MmapBeat) : Access := ⟨true, sink.addr.setWidth 30, sink.be, sink.data⟩

/-- `bus` in READ_DATA. -/
def readAccess (sink : MmapBeat) : Access := ⟨false, sink.addr.setWidth 30, sink.be, 0⟩

/-- `bus.stb`. -/
def stb (s : State) (sinkValid : Bool) : Bool :=
  match s.fsm with
  | .writeData | .readData => sinkValid
  | _ => false

/-- `sink.ready`. -/
def sinkReady (s : State) (ack sinkValid sourceReady : Bool) : Bool :=
  match s.fsm with
  | .idle => !sinkValid
  | .writeData => sinkValid && ack
  | .readData => false
  | .sendData => sinkValid && sourceReady

/-- `source.valid`. -/
def sourceValid (s : State) (sinkValid : Bool) : Bool :=
  match s.fsm with
  | .sendData => sinkValid
  | _ => false

/-- `source` for an access and the word read. -/
def reply (sink : MmapBeat) (data : BitVec 32) : MmapBeat where
  we := true
  last := sink.last
  count := sink.count
  baseAddr := sink.baseAddr
  be := sink.be
  addr := sink.addr
  data := data

/-- The master and the bus, which answers with `answer`. -/
def next (answer : List Access → BitVec 32) (s : State) (ack sinkValid : Bool)
    (sink : MmapBeat) (sourceReady : Bool) : State :=
  match s.fsm with
  | .idle =>
      { s with fsm := if sinkValid then (if sink.we then .writeData else .readData) else .idle }
  | .writeData =>
      if sinkValid && ack then
        { s with
          log := s.log ++ [writeAccess sink]
          fsm := if sink.last then .idle else .writeData }
      else s
  | .readData =>
      if sinkValid && ack then
        { data := answer (s.log ++ [readAccess sink])
          log := s.log ++ [readAccess sink]
          fsm := .sendData }
      else s
  | .sendData =>
      if sinkValid && sourceReady then
        { s with fsm := if sink.last then .idle else .readData }
      else s

/-- The master and the bus as a stage, which waits for the bus to acknowledge. -/
def stage (answer : List Access → BitVec 32) : Stage Bool MmapBeat MmapBeat where
  State := State
  init := init
  sourceValid s v _ := sourceValid s v
  source s x := reply x s.data
  sinkReady s ack v _ ready := sinkReady s ack v ready
  next := next answer
  waits s ack v _ := stb s v && !ack

/-! ## Words -/

/-- What a burst does, once it has begun. -/
inductive Mode
  | idle
  | writing
  | reading
  deriving DecidableEq, Repr

/-- The first word of a burst decides. -/
def Mode.begin (m : Mode) (x : MmapBeat) : Mode :=
  match m with
  | .idle => if x.we then .writing else .reading
  | m => m

/-- An access takes place, and a read makes a reply. -/
def serve (answer : List Access → BitVec 32) (m : Mode) (log : List Access) (x : MmapBeat) :
    List Access × List MmapBeat :=
  match m.begin x with
  | .reading =>
      (log ++ [readAccess x], [reply x (answer (log ++ [readAccess x]))])
  | _ => (log ++ [writeAccess x], [])

/-- The master as a machine on words: each beat makes an access, and a read gives a beat. -/
def words (answer : List Access → BitVec 32) :
    Machine (Mode × List Access) MmapBeat (List MmapBeat) where
  out p x := (serve answer p.1 p.2 x).2
  next p x := (if x.last then .idle else p.1.begin x, (serve answer p.1 p.2 x).1)

theorem length_words_le (answer : List Access → BitVec 32) (p : Mode × List Access)
    (xs : List MmapBeat) : ((words answer).emits p xs).length ≤ xs.length := by
  refine Machine.length_emits_le (fun p x => ?_) p xs
  change (serve answer p.1 p.2 x).2.length ≤ 1
  unfold serve
  split
  · exact Nat.le_refl 1
  · exact Nat.zero_le 1

/-- The words that the bus answers to some accesses, one after the other. -/
def answers (answer : List Access → BitVec 32) : List Access → List Access → List (BitVec 32)
  | _, [] => []
  | log, a :: accesses => answer (log ++ [a]) :: answers answer (log ++ [a]) accesses

@[simp] theorem length_answers (answer : List Access → BitVec 32) (log accesses : List Access) :
    (answers answer log accesses).length = accesses.length := by
  induction accesses generalizing log with
  | nil => rfl
  | cons a accesses ih => rw [answers, List.length_cons, ih, List.length_cons]

/-- A burst of writes makes no reply. -/
theorem words_writes (answer : List Access → BitVec 32) {m : Mode} (hm : m ≠ .reading)
    {log : List Access} {xs : List MmapBeat} (h : IsPacket MmapBeat.last xs)
    (hwe : ∀ x ∈ xs, x.we = true) :
    (words answer).emits (m, log) xs = [] ∧
      (words answer).run (m, log) xs = (.idle, log ++ xs.map writeAccess) := by
  induction xs generalizing m log with
  | nil => exact absurd rfl h.ne_nil
  | cons x xs ih =>
    have hbegin : m.begin x = .writing := by
      have hx := hwe x (List.mem_cons_self ..)
      cases m with
      | idle => simp [Mode.begin, hx]
      | writing => rfl
      | reading => exact absurd rfl hm
    rw [Machine.emits_cons, Machine.run_cons, List.map_cons, List.append_cons]
    simp only [words, serve, hbegin]
    cases xs with
    | nil =>
      have hlast : x.last = true := h
      simp [hlast]
    | cons y ys =>
      obtain ⟨hlast, hys⟩ := h
      obtain ⟨hemits, hrun⟩ := ih (m := .writing) (by decide) hys
        fun z hz => hwe z (List.mem_cons_of_mem x hz)
      simp only [hlast, Bool.false_eq_true, if_false]
      exact ⟨hemits, hrun⟩

/-- A burst of reads makes a reply to each. -/
theorem words_reads (answer : List Access → BitVec 32) {m : Mode} (hm : m ≠ .writing)
    {log : List Access} {xs : List MmapBeat} (h : IsPacket MmapBeat.last xs)
    (hwe : ∀ x ∈ xs, x.we = false) :
    (words answer).emits (m, log) xs =
        xs.zipWith reply (answers answer log (xs.map readAccess)) ∧
      (words answer).run (m, log) xs = (.idle, log ++ xs.map readAccess) := by
  induction xs generalizing m log with
  | nil => exact absurd rfl h.ne_nil
  | cons x xs ih =>
    have hbegin : m.begin x = .reading := by
      have hx := hwe x (List.mem_cons_self ..)
      cases m with
      | idle => simp [Mode.begin, hx]
      | reading => rfl
      | writing => exact absurd rfl hm
    rw [Machine.emits_cons, Machine.run_cons, List.map_cons, List.append_cons, answers,
      List.zipWith_cons_cons]
    simp only [words, serve, hbegin]
    cases xs with
    | nil =>
      have hlast : x.last = true := h
      simp [hlast]
    | cons y ys =>
      obtain ⟨hlast, hys⟩ := h
      obtain ⟨hemits, hrun⟩ := ih (m := .reading) (by decide) hys
        fun z hz => hwe z (List.mem_cons_of_mem x hz)
      simp only [hlast, Bool.false_eq_true, if_false]
      exact ⟨congrArg _ hemits, hrun⟩

/-- What the state takes the record for. -/
def mode (s : State) : Mode :=
  match s.fsm with
  | .idle => .idle
  | .writeData => .writing
  | .readData | .sendData => .reading

/-- The steps taken for the word in front. -/
def spent (s : State) : Nat :=
  match s.fsm with
  | .idle => 0
  | .writeData | .readData => 1
  | .sendData => 2

/-- Accesses are added to the log. -/
theorem log_prefix (answer : List Access → BitVec 32) (p : Mode × List Access)
    (xs : List MmapBeat) : p.2 <+: ((words answer).run p xs).2 := by
  induction xs generalizing p with
  | nil => exact List.prefix_rfl
  | cons x xs ih =>
    refine List.IsPrefix.trans ?_ (ih _)
    change p.2 <+: (serve answer p.1 p.2 x).1
    unfold serve
    split <;> exact List.prefix_append _ _

/-- The words to come and the log so far make what is to go out and the whole log. -/
structure Rel (answer : List Access → BitVec 32) (all : List Access) (s : State)
    (c : Chan MmapBeat) (d : Chan MmapBeat) (bound : Nat) : Prop where
  waiting : s.fsm ≠ .sendData →
    (words answer).emits (mode s, s.log) c.rest = d.rest ∧
      ((words answer).run (mode s, s.log) c.rest).2 = all
  sending : s.fsm = .sendData → c.held = true ∧ ∃ x xs, c.rest = x :: xs ∧
    d.rest = reply x s.data ::
      (words answer).emits (if x.last then .idle else .reading, s.log) xs ∧
    ((words answer).run (if x.last then .idle else .reading, s.log) xs).2 = all
  held : d.held = true → s.fsm = .sendData
  bound : 4 * c.rest.length - spent s = bound

namespace Rel

variable {answer : List Access → BitVec 32} {all : List Access} {s : State}
  {c d : Chan MmapBeat} {bound : Nat} {v : Bool} {x : MmapBeat}

theorem log_prefix (h : Rel answer all s c d bound) : s.log <+: all := by
  by_cases hfsm : s.fsm = .sendData
  · obtain ⟨-, y, ys, -, -, hall⟩ := h.sending hfsm
    exact hall ▸ EtherboneWishboneMaster.log_prefix answer (_, s.log) ys
  · obtain ⟨-, hall⟩ := h.waiting hfsm
    exact hall ▸ EtherboneWishboneMaster.log_prefix answer (_, s.log) c.rest

theorem rest_of_zero (h : Rel answer all s c d 0) : c.rest = [] := by
  have hspent : spent s < 4 := by
    unfold spent
    cases s.fsm <;> decide
  exact Chan.rest_of_zero h.bound hspent

/-- When nothing is to come the log is whole. -/
theorem done (h : Rel answer all s c d 0) : c.rest = [] ∧ d.rest = [] ∧ s.log = all := by
  have hrest := h.rest_of_zero
  by_cases hfsm : s.fsm = .sendData
  · obtain ⟨-, y, ys, hcons, -⟩ := h.sending hfsm
    rw [hrest] at hcons
    cases hcons
  · obtain ⟨hemits, hall⟩ := h.waiting hfsm
    rw [hrest] at hemits hall
    exact ⟨hrest, hemits.symm, hall⟩

theorem offers (h : Rel answer all s c d bound) (hv : c.Offers v x) :
    d.Offers (sourceValid s v) (reply x s.data) := by
  by_cases hfsm : s.fsm = .sendData
  · obtain ⟨hheld, y, ys, hrest, hfront, -⟩ := h.sending hfsm
    obtain rfl := hv.kept hheld
    obtain ⟨rfl, rfl⟩ := List.cons.inj (hv.rest_eq.symm.trans hrest)
    rw [sourceValid, hfsm]
    exact Chan.Offers.of_cons hfront
  · have hvalid : sourceValid s v = false := by
      unfold sourceValid
      cases hcase : s.fsm <;> first | rfl | exact absurd hcase hfsm
    rw [hvalid]
    exact Chan.Offers.of_false (fun hheld => hfsm (h.held hheld)) _

/-- A state other than SEND_DATA, with nothing on the source. -/
theorem mk_waiting (hfsm : s.fsm ≠ .sendData)
    (hemits : (words answer).emits (mode s, s.log) c.rest = d.rest)
    (hall : ((words answer).run (mode s, s.log) c.rest).2 = all)
    (hheld : d.held = false) : Rel answer all s c d (4 * c.rest.length - spent s) where
  waiting _ := ⟨hemits, hall⟩
  sending h := absurd h hfsm
  held h := by
    rw [hheld] at h
    cases h
  bound := rfl

/-- Without a word in front nothing happens. -/
theorem next_false (h : Rel answer all s c d bound) (hv : c.Offers false x) (ack ready : Bool) :
    Rel answer all (next answer s ack false x ready) ⟨c.rest, false⟩ ⟨d.rest, false⟩ bound := by
  have hfsm : s.fsm ≠ .sendData := by
    intro hfsm
    have := hv.kept (h.sending hfsm).1
    cases this
  have hsame : EtherboneWishboneMaster.next answer s ack false x ready = s := by
    unfold EtherboneWishboneMaster.next
    cases s with
    | mk data fsm log => cases fsm <;> rfl
  obtain ⟨hemits, hall⟩ := h.waiting hfsm
  rw [hsame, ← h.bound]
  exact mk_waiting hfsm hemits hall rfl

/-- A burst begins with the word in front. -/
theorem next_idle (h : Rel answer all s c d bound) (hfsm : s.fsm = .idle)
    (hv : c.Offers true x) (ack ready : Bool) :
    Rel answer all (next answer s ack true x ready) ⟨c.rest, true⟩ ⟨d.rest, false⟩
      (4 * c.rest.length - 1) := by
  obtain ⟨hemits, hall⟩ := h.waiting (by rw [hfsm]; decide)
  have hnext : EtherboneWishboneMaster.next answer s ack true x ready =
      { s with fsm := if x.we then .writeData else .readData } := by
    simp [EtherboneWishboneMaster.next, hfsm]
  have hmode : mode { s with fsm := if x.we then .writeData else .readData } =
      (mode s).begin x := by
    unfold mode Mode.begin
    rw [hfsm]
    cases x.we <;> rfl
  have hspent : spent { s with fsm := if x.we then Fsm.writeData else Fsm.readData } = 1 := by
    unfold spent
    cases x.we <;> rfl
  have hbegun : ((mode s).begin x).begin x = (mode s).begin x := by
    unfold Mode.begin
    cases mode s <;> cases x.we <;> rfl
  have hwords : ∀ log, (words answer).out ((mode s).begin x, log) x =
        (words answer).out (mode s, log) x ∧
      (words answer).next ((mode s).begin x, log) x = (words answer).next (mode s, log) x := by
    intro log
    simp only [words, serve, hbegun, and_self]
  rw [hv.rest_eq, Machine.emits_cons, ← (hwords s.log).1, ← (hwords s.log).2] at hemits
  rw [hv.rest_eq, Machine.run_cons, ← (hwords s.log).2] at hall
  rw [hnext, ← hspent]
  refine mk_waiting ?_ ?_ ?_ rfl
  · cases x.we <;> simp
  · rw [hmode, hv.rest_eq]
    exact hemits
  · rw [hmode, hv.rest_eq]
    exact hall

/-- The bus acknowledges a write. -/
theorem next_write (h : Rel answer all s c d bound) (hfsm : s.fsm = .writeData)
    (hv : c.Offers true x) (ready : Bool) :
    ∃ bound', Rel answer all (next answer s true true x ready) ⟨c.rest.tail, false⟩
        ⟨d.rest, false⟩ bound' ∧ bound' < bound := by
  obtain ⟨hemits, hall⟩ := h.waiting (by rw [hfsm]; decide)
  have hbound := h.bound
  have hnext : EtherboneWishboneMaster.next answer s true true x ready =
      { s with log := s.log ++ [writeAccess x], fsm := if x.last then .idle else .writeData } := by
    simp [EtherboneWishboneMaster.next, hfsm]
  have hmode : mode s = .writing := by
    unfold mode
    rw [hfsm]
  have hmode' : ∀ log, mode ⟨s.data, if x.last then .idle else .writeData, log⟩ =
      if x.last then .idle else .writing := by
    intro log
    cases x.last <;> rfl
  have hlength := hv.length_eq
  rw [hv.rest_eq, Machine.emits_cons, hmode] at hemits
  rw [hv.rest_eq, Machine.run_cons, hmode] at hall
  rw [hnext]
  refine ⟨_, mk_waiting ?_ ?_ ?_ rfl, ?_⟩
  · cases x.last <;> simp
  · rw [hmode']
    exact hemits
  · rw [hmode']
    exact hall
  · unfold spent at hbound
    rw [hfsm] at hbound
    dsimp only at hbound ⊢
    omega

/-- The bus acknowledges a read, and the word read is kept. -/
theorem next_read (h : Rel answer all s c d bound) (hfsm : s.fsm = .readData)
    (hv : c.Offers true x) (ready : Bool) :
    Rel answer all (next answer s true true x ready) ⟨c.rest, true⟩ ⟨d.rest, false⟩
      (4 * c.rest.length - 2) := by
  obtain ⟨hemits, hall⟩ := h.waiting (by rw [hfsm]; decide)
  have hnext : EtherboneWishboneMaster.next answer s true true x ready =
      ⟨answer (s.log ++ [readAccess x]), .sendData, s.log ++ [readAccess x]⟩ := by
    simp [EtherboneWishboneMaster.next, hfsm]
  have hmode : mode s = .reading := by
    unfold mode
    rw [hfsm]
  rw [hv.rest_eq, Machine.emits_cons, hmode] at hemits
  rw [hv.rest_eq, Machine.run_cons, hmode] at hall
  rw [hnext]
  exact ⟨fun hne => absurd rfl hne, fun _ => ⟨rfl, x, c.rest.tail, hv.rest_eq, hemits.symm, hall⟩,
    fun hheld => (by cases hheld), rfl⟩

/-- The bus does not acknowledge. -/
theorem next_wait (h : Rel answer all s c d bound) (hstb : stb s true = true) (ready : Bool) :
    Rel answer all (next answer s false true x ready) ⟨c.rest, true⟩ ⟨d.rest, false⟩ bound := by
  have hsame : EtherboneWishboneMaster.next answer s false true x ready = s := by
    unfold stb at hstb
    cases hfsm : s.fsm <;> simp [hfsm] at hstb <;> simp [EtherboneWishboneMaster.next, hfsm]
  have hfsm : s.fsm ≠ .sendData := by
    intro hfsm
    unfold stb at hstb
    rw [hfsm] at hstb
    cases hstb
  obtain ⟨hemits, hall⟩ := h.waiting hfsm
  rw [hsame, ← h.bound]
  exact mk_waiting hfsm hemits hall rfl

/-- The word read waits for the source. -/
theorem next_stall (h : Rel answer all s c d bound) (hfsm : s.fsm = .sendData) (ack : Bool) :
    Rel answer all (next answer s ack true x false) ⟨c.rest, true⟩ ⟨d.rest, true⟩ bound := by
  have hsame : EtherboneWishboneMaster.next answer s ack true x false = s := by
    simp [EtherboneWishboneMaster.next, hfsm]
  rw [hsame]
  exact ⟨fun hne => absurd hfsm hne, fun _ => ⟨rfl, (h.sending hfsm).2⟩, fun _ => hfsm, h.bound⟩

/-- The source takes the word read. -/
theorem next_send (h : Rel answer all s c d bound) (hfsm : s.fsm = .sendData)
    (hv : c.Offers true x) (ack : Bool) :
    ∃ bound', Rel answer all (next answer s ack true x true) ⟨c.rest.tail, false⟩
        ⟨d.rest.tail, false⟩ bound' ∧ bound' < bound := by
  obtain ⟨-, y, ys, hrest, hfront, hall⟩ := h.sending hfsm
  obtain ⟨rfl, rfl⟩ := List.cons.inj (hv.rest_eq.symm.trans hrest)
  have hbound := h.bound
  have hnext : EtherboneWishboneMaster.next answer s ack true x true =
      { s with fsm := if x.last then .idle else .readData } := by
    simp [EtherboneWishboneMaster.next, hfsm]
  have hmode : mode { s with fsm := if x.last then .idle else .readData } =
      if x.last then .idle else .reading := by
    unfold mode
    cases x.last <;> rfl
  have hlength := hv.length_eq
  rw [hnext, hfront, List.tail_cons]
  refine ⟨_, mk_waiting ?_ ?_ ?_ rfl, ?_⟩
  · cases x.last <;> simp
  · rw [hmode]
  · rw [hmode]
    exact hall
  · unfold spent at hbound
    rw [hfsm] at hbound
    dsimp only at hbound ⊢
    omega

theorem next (h : Rel answer all s c d bound) (hv : c.Offers v x) (ack ready : Bool) :
    ∃ bound', Rel answer all (next answer s ack v x ready)
        (c.next v (sinkReady s ack v ready)) (d.next (sourceValid s v) ready) bound' ∧
      bound' ≤ bound ∧ (bound' < bound ∨ bound = 0 ∨ c.Starved v ∨
        (sourceValid s v = true ∧ ready = false) ∨ (stb s v && !ack) = true) := by
  have hbound := h.bound
  cases v with
  | false =>
    have hvalid : sourceValid s false = false := by
      unfold sourceValid
      cases s.fsm <;> rfl
    rw [hvalid]
    refine ⟨bound, h.next_false hv ack ready, Nat.le_refl _, Or.inr ?_⟩
    exact (Chan.zero_or_starved hbound).imp_right Or.inl
  | true =>
    have hpos : 0 < c.rest.length := by
      rw [hv.rest_eq]
      exact Nat.succ_pos _
    unfold spent at hbound
    unfold sinkReady sourceValid stb
    cases hfsm : s.fsm with
    | idle =>
      simp only [hfsm] at hbound
      exact ⟨_, h.next_idle hfsm hv ack ready, by omega, Or.inl (by omega)⟩
    | writeData =>
      cases ack with
      | true =>
        obtain ⟨bound', hrel, hlt⟩ := h.next_write hfsm hv ready
        exact ⟨bound', hrel, Nat.le_of_lt hlt, Or.inl hlt⟩
      | false =>
        exact ⟨bound, h.next_wait (by rw [stb, hfsm]) ready, Nat.le_refl _,
          Or.inr (Or.inr (Or.inr (Or.inr rfl)))⟩
    | readData =>
      cases ack with
      | true =>
        simp only [hfsm] at hbound
        exact ⟨_, h.next_read hfsm hv ready, by omega, Or.inl (by omega)⟩
      | false =>
        exact ⟨bound, h.next_wait (by rw [stb, hfsm]) ready, Nat.le_refl _,
          Or.inr (Or.inr (Or.inr (Or.inr rfl)))⟩
    | sendData =>
      cases ready with
      | true =>
        obtain ⟨bound', hrel, hlt⟩ := h.next_send hfsm hv ack
        exact ⟨bound', hrel, Nat.le_of_lt hlt, Or.inl hlt⟩
      | false =>
        exact ⟨bound, h.next_stall hfsm ack, Nat.le_refl _,
          Or.inr (Or.inr (Or.inr (Or.inl ⟨rfl, rfl⟩)))⟩

/-- From reset. -/
theorem start (answer : List Access → BitVec 32) (xs : List MmapBeat) :
    Rel answer ((words answer).run (.idle, []) xs).2 init (Chan.start xs)
      (Chan.start ((words answer).emits (.idle, []) xs)) (4 * xs.length) where
  waiting _ := ⟨rfl, rfl⟩
  sending h := by cases h
  held h := by cases h
  bound := rfl

end Rel

/-- The master turns the accesses that come in into replies, and makes `all` of them on
the bus. -/
def simulation (answer : List Access → BitVec 32) (all : List Access) :
    Simulation (stage answer) where
  rel := Rel answer all
  done h := ⟨h.done.1, h.done.2.1⟩
  offers := Rel.offers
  step ack ready h hv := h.next hv ack ready

end EtherboneWishboneMaster

end UsbSniffer.Etherbone
