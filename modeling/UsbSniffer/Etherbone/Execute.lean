/-
  Etherbone/Execute.lean --- the receiver executes records.

  A record with writes only, or with reads only, is executed word by word.  In one
  with both, the base address of the reply is also taken for the first address to
  read, and the last address stays behind as the first word of the next record.
-/
import UsbSniffer.Etherbone.Receiver
import UsbSniffer.Sync.Packet

set_option autoImplicit false

namespace UsbSniffer.Etherbone

open UsbSniffer.Sync

/-- A record as its header and its body say. -/
structure Record where
  byteEnable : BitVec 8
  baseAddr : BitVec 32
  values : List (BitVec 32)
  baseRetAddr : BitVec 32
  addrs : List (BitVec 32)
  values_le : values.length ≤ 255
  addrs_le : addrs.length ≤ 255
  nonempty : values ≠ [] ∨ addrs ≠ []

namespace Record

/-- A base address and the words that go with it, if there are any. -/
def section_ (base : BitVec 32) (xs : List (BitVec 32)) : List (BitVec 32) :=
  if xs = [] then [] else base :: xs

/-- The body of the record. -/
def body (r : Record) : List (BitVec 32) :=
  section_ r.baseAddr r.values ++ section_ r.baseRetAddr r.addrs

/-- A word of the record with its parameters. -/
def word (r : Record) (x : BitVec 32 × Bool) : RecordBeat where
  data := x.1
  last := x.2
  byteEnable := r.byteEnable
  wcount := BitVec.ofNat 8 r.values.length
  rcount := BitVec.ofNat 8 r.addrs.length

/-- The beats of the record, the last one marked. -/
def words (r : Record) : List RecordBeat := (marked r.body).map r.word

/-- The `i`-th write. -/
def write (r : Record) (i : Nat) (value : BitVec 32) : MmapBeat where
  we := true
  last := i + 1 == r.values.length
  count := BitVec.ofNat 8 r.values.length
  baseAddr := 0
  be := r.byteEnable.setWidth 4
  addr := r.baseAddr >>> 2 + BitVec.ofNat 32 i
  data := value

/-- The `i`-th read, for a reply to the given base address. -/
def read (r : Record) (baseRetAddr : BitVec 32) (i : Nat) (addr : BitVec 32) : MmapBeat where
  we := false
  last := i + 1 == r.addrs.length
  count := BitVec.ofNat 8 r.addrs.length
  baseAddr := baseRetAddr
  be := 0
  addr := addr >>> 2
  data := 0

/-- The accesses that the record asks for. -/
def beats (r : Record) : List MmapBeat := r.values.mapIdx r.write ++ r.addrs.mapIdx (r.read r.baseRetAddr)

end Record

namespace EtherboneRecordReceiver

/-! ## Words of a record -/

theorem slice_addr (x : BitVec 32) : (slice x 2 32).setWidth 32 = x >>> 2 := by
  apply BitVec.eq_of_toNat_eq
  have hlt := x.isLt
  unfold slice
  simp [BitVec.extractLsb'_toNat, Nat.shiftRight_eq_div_pow]
  omega

theorem isLast_iff {n : Nat} {count : BitVec 8} (h : n < count.toNat) :
    isLast (BitVec.ofNat 9 n) count = (n + 1 == count.toNat) := by
  have hlt := count.isLt
  unfold isLast
  rw [Bool.eq_iff_iff, beq_iff_eq, beq_iff_eq, ← BitVec.toNat_inj]
  simp
  omega

theorem toNat_wcount (r : Record) (x : BitVec 32 × Bool) :
    (r.word x).wcount.toNat = r.values.length := by
  have := r.values_le
  unfold Record.word
  rw [BitVec.toNat_ofNat]
  omega

theorem toNat_rcount (r : Record) (x : BitVec 32 × Bool) :
    (r.word x).rcount.toNat = r.addrs.length := by
  have := r.addrs_le
  unfold Record.word
  rw [BitVec.toNat_ofNat]
  omega

theorem count_ne_zero_iff {count : BitVec 8} {xs : List (BitVec 32)}
    (h : count.toNat = xs.length) : count ≠ 0 ↔ xs ≠ [] := by
  rw [← List.length_pos_iff, ← h, Ne, ← BitVec.toNat_inj]
  exact Nat.pos_iff_ne_zero.symm

/-- The counter after a word. -/
theorem counter_succ (n : Nat) : BitVec.ofNat 9 n + 1 = BitVec.ofNat 9 (n + 1) := by
  apply BitVec.eq_of_toNat_eq
  simp

theorem addr_counter {n : Nat} (h : n < 256) :
    (BitVec.ofNat 9 n).setWidth 32 = BitVec.ofNat 32 n := by
  apply BitVec.eq_of_toNat_eq
  simp
  omega

theorem next_writes (r : Record) {n : Nat} (hn : n < r.values.length) (x : BitVec 32 × Bool) :
    feed (.writes r.baseAddr (BitVec.ofNat 9 n)) (r.word x) =
      (if n + 1 = r.values.length then (if r.addrs = [] then .idle else .baseRetAddr)
        else .writes r.baseAddr (BitVec.ofNat 9 (n + 1)), [r.write n x.1]) := by
  have hle := r.values_le
  have hw := toNat_wcount r x
  have hlast := isLast_iff (by omega : n < (r.word x).wcount.toNat)
  have hr := count_ne_zero_iff (toNat_rcount r x)
  have hbeat : writeBeat r.baseAddr (BitVec.ofNat 9 n) (r.word x) = r.write n x.1 := by
    unfold writeBeat Record.write
    rw [hlast, hw, slice_addr, addr_counter (by omega)]
    rfl
  simp only [feed, hlast, hw, hbeat, counter_succ, beq_iff_eq, hr, ite_not]

theorem next_reads (r : Record) (base : BitVec 32) {n : Nat} (hn : n < r.addrs.length)
    (x : BitVec 32 × Bool) :
    feed (.reads base (BitVec.ofNat 9 n)) (r.word x) =
      (if n + 1 = r.addrs.length then .idle else .reads base (BitVec.ofNat 9 (n + 1)),
        [r.read base n x.1]) := by
  have hr := toNat_rcount r x
  have hlast := isLast_iff (by omega : n < (r.word x).rcount.toNat)
  have hbeat : readBeat base (BitVec.ofNat 9 n) (r.word x) = r.read base n x.1 := by
    unfold readBeat Record.read
    rw [hlast, hr]
    simp only [Record.word, slice_addr]
  simp only [feed, readWord, hlast, hr, hbeat, counter_succ, beq_iff_eq]

/-- Words that each move the counter on by one, up to the last of them. -/
theorem counted_words (r : Record) (pos : Nat → Ctl) (access : Nat → BitVec 32 → MmapBeat)
    {total : Nat} {final : Ctl}
    (hfeed : ∀ n x, n < total → feed (pos n) (r.word x) =
      (if n + 1 = total then final else pos (n + 1), [access n x.1]))
    {xs : List (BitVec 32 × Bool)} {n : Nat} (hne : xs ≠ []) (hn : n + xs.length = total) :
    words.emits (pos n) (xs.map r.word) = (xs.map Prod.fst).mapIdx (fun i => access (n + i)) ∧
      words.run (pos n) (xs.map r.word) = final := by
  induction xs generalizing n with
  | nil => exact absurd rfl hne
  | cons x xs ih =>
    rw [List.length_cons] at hn
    have hout : words.out _ (r.word x) = _ := congrArg Prod.snd (hfeed n x (by omega))
    have hnext : words.next _ (r.word x) = _ := congrArg Prod.fst (hfeed n x (by omega))
    rw [List.map_cons, Machine.emits_cons, Machine.run_cons, hout, hnext]
    by_cases hxs : xs = []
    · subst hxs
      rw [if_pos (by simpa using hn)]
      exact ⟨by simp, rfl⟩
    · have hpos := List.length_pos_iff.mpr hxs
      obtain ⟨hemits, hrun⟩ := ih hxs (by omega : n + 1 + xs.length = total)
      rw [if_neg (by omega), hemits, hrun]
      refine ⟨?_, rfl⟩
      simp [List.mapIdx_cons, Nat.add_assoc, Nat.add_comm 1]

/-- The words of the values write them one after the other. -/
theorem writes_words (r : Record) {xs : List (BitVec 32 × Bool)}
    (hxs : xs.map Prod.fst = r.values) (hne : r.values ≠ []) :
    words.emits (.writes r.baseAddr 0) (xs.map r.word) = r.values.mapIdx r.write ∧
      words.run (.writes r.baseAddr 0) (xs.map r.word) =
        if r.addrs = [] then .idle else .baseRetAddr := by
  have hlength : xs.length = r.values.length := by rw [← hxs, List.length_map]
  have hpos : xs ≠ [] := by
    rintro rfl
    exact hne hxs.symm
  have h := counted_words r (fun n => .writes r.baseAddr (BitVec.ofNat 9 n)) r.write
    (fun n x hn => next_writes r hn x) hpos (by omega : 0 + xs.length = _)
  simpa [hxs] using h

/-- The words of the addresses read them one after the other. -/
theorem reads_words (r : Record) (base : BitVec 32) {xs : List (BitVec 32 × Bool)}
    (hlength : xs.length = r.addrs.length) (hne : r.addrs ≠ []) :
    words.emits (.reads base 0) (xs.map r.word) =
        (xs.map Prod.fst).mapIdx (r.read base) ∧
      words.run (.reads base 0) (xs.map r.word) = .idle := by
  have hpos : xs ≠ [] := by
    rintro rfl
    exact hne (List.length_eq_zero_iff.mp hlength.symm)
  have h := counted_words r (fun n => .reads base (BitVec.ofNat 9 n)) (r.read base)
    (fun n x hn => next_reads r base hn x) hpos (by omega : 0 + xs.length = _)
  simpa using h

/-! ## Whole records -/

theorem feed_base (r : Record) (x : BitVec 32 × Bool) : feed .idle (r.word x) =
    (if r.values ≠ [] then .writes x.1 0 else if r.addrs ≠ [] then .reads x.1 0 else .idle,
      []) := by
  unfold feed
  simp only [count_ne_zero_iff (toNat_wcount r x), count_ne_zero_iff (toNat_rcount r x)]
  rfl

/-- The base address in front makes nothing. -/
theorem words_behind_base {r : Record} {base : BitVec 32} {xs : List RecordBeat} {c : Ctl}
    (hwords : r.words = r.word (base, false) :: xs)
    (hfeed : feed .idle (r.word (base, false)) = (c, [])) :
    words.emits .idle r.words = words.emits c xs ∧ words.run .idle r.words = words.run c xs := by
  have hout : words.out .idle (r.word (base, false)) = [] := congrArg Prod.snd hfeed
  have hnext : words.next .idle (r.word (base, false)) = c := congrArg Prod.fst hfeed
  rw [hwords, Machine.emits_cons, Machine.run_cons, hout, hnext]
  exact ⟨rfl, rfl⟩

theorem words_of_writes {r : Record} (h : r.addrs = []) :
    words.emits .idle r.words = r.beats ∧ words.run .idle r.words = .idle := by
  have hvalues : r.values ≠ [] := r.nonempty.resolve_right (fun hne => hne h)
  have hwords : r.words = r.word (r.baseAddr, false) :: (marked r.values).map r.word := by
    unfold Record.words Record.body Record.section_
    rw [if_neg hvalues, if_pos h, List.append_nil, marked_cons hvalues, List.map_cons]
  have hfeed := feed_base r (r.baseAddr, false)
  rw [if_pos hvalues] at hfeed
  obtain ⟨hemits₀, hrun₀⟩ := words_behind_base hwords hfeed
  obtain ⟨hemits, hrun⟩ := writes_words r (marked_map_fst r.values) hvalues
  rw [if_pos h] at hrun
  rw [hemits₀, hrun₀, hemits, hrun]
  refine ⟨?_, rfl⟩
  unfold Record.beats
  rw [h]
  simp

theorem words_of_reads {r : Record} (h : r.values = []) :
    words.emits .idle r.words = r.beats ∧ words.run .idle r.words = .idle := by
  have haddrs : r.addrs ≠ [] := r.nonempty.resolve_left (fun hne => hne h)
  have hwords : r.words = r.word (r.baseRetAddr, false) :: (marked r.addrs).map r.word := by
    unfold Record.words Record.body Record.section_
    rw [if_neg haddrs, if_pos h, List.nil_append, marked_cons haddrs, List.map_cons]
  have hfeed := feed_base r (r.baseRetAddr, false)
  rw [if_neg (not_not.mpr h), if_pos haddrs] at hfeed
  obtain ⟨hemits₀, hrun₀⟩ := words_behind_base hwords hfeed
  obtain ⟨hemits, hrun⟩ := reads_words r r.baseRetAddr (length_marked r.addrs) haddrs
  rw [hemits₀, hrun₀, hemits, hrun, marked_map_fst]
  refine ⟨?_, rfl⟩
  unfold Record.beats
  rw [h]
  rfl

/-- The base address of the reply is popped as the first address, so that as many words as
there are addresses leave one of them behind. -/
theorem run_of_baseRetAddr {r : Record} (haddrs : r.addrs ≠ []) (hvalues : r.values ≠ [])
    {ws : List (BitVec 32 × Bool)} (hlength : ws.length = r.addrs.length + 1) :
    ∃ base, words.run .baseRetAddr (ws.map r.word) = .writes base 0 := by
  have hpos := List.length_pos_iff.mpr haddrs
  have hne : ws ≠ [] := List.length_pos_iff.mp (by omega)
  obtain ⟨y, ys, hinit⟩ := List.exists_cons_of_length_pos
    (by rw [List.length_dropLast]; omega : 0 < ws.dropLast.length)
  have hreads := (reads_words r y.1 (by rw [List.length_dropLast]; omega :
    ws.dropLast.length = r.addrs.length) haddrs).2
  have hlatched : words.run .baseRetAddr (ws.dropLast.map r.word) = .idle := by
    rw [hinit] at hreads ⊢
    exact hreads
  have hfeed := feed_base r (ws.getLast hne)
  rw [if_pos hvalues] at hfeed
  refine ⟨(ws.getLast hne).1, ?_⟩
  conv_lhs => rw [← List.dropLast_append_getLast hne, List.map_append, Machine.run_append]
  rw [hlatched]
  exact congrArg Prod.fst hfeed

/-- With writes and reads the last address is taken for a base address. -/
theorem run_of_both {r : Record} (hvalues : r.values ≠ []) (haddrs : r.addrs ≠ []) :
    words.run .idle r.words ≠ .idle := by
  obtain ⟨ws, hws⟩ : ∃ ws, ws = marked (r.baseRetAddr :: r.addrs) := ⟨_, rfl⟩
  have hlength : ws.length = r.addrs.length + 1 := by rw [hws, length_marked, List.length_cons]
  have hwords : r.words = r.word (r.baseAddr, false) ::
      ((r.values.map fun x => (x, false)).map r.word ++ ws.map r.word) := by
    unfold Record.words Record.body Record.section_
    rw [if_neg hvalues, if_neg haddrs, List.cons_append, marked_cons (by simp), List.map_cons,
      marked_append _ (List.cons_ne_nil _ _), List.map_append, hws]
  have hfeed := feed_base r (r.baseAddr, false)
  rw [if_pos hvalues] at hfeed
  have hfst : (r.values.map fun x => (x, false)).map Prod.fst = r.values := by
    rw [List.map_map]
    exact List.map_id _
  obtain ⟨-, hrun⟩ := writes_words r hfst hvalues
  rw [if_neg haddrs] at hrun
  obtain ⟨base, hbase⟩ := run_of_baseRetAddr haddrs hvalues hlength
  rw [(words_behind_base hwords hfeed).2, Machine.run_append, hrun, hbase]
  exact fun h => by cases h

/-! ## Runs -/

variable {R : Config}

/-- The receiver from reset, in front of the words of some records. -/
def fed (R : Config) (rs : List Record) : State R × Chan RecordBeat :=
  (init, Chan.start (rs.flatMap Record.words))

/-- The words that the receiver has not consumed. -/
def ahead (p : State R × Chan RecordBeat) : List RecordBeat := R.Fifo.contents p.1.fifo ++ p.2.rest

/-- In every run the beats given out are those of the records, in order; where the words
consumed are those of the first records, these are executed and the machine is in IDLE;
and the words are consumed when the source is ready often enough. -/
structure Executes (R : Config) (rs : List Record) : Prop where
  beats : ∀ is, moved Stage.given ((stage R Unit).driven.trace (fed R rs) is) <+:
    rs.flatMap Record.beats
  boundary : ∀ is before after, rs = before ++ after →
    ahead ((stage R Unit).driven.run (fed R rs) is) = after.flatMap Record.words →
      ((stage R Unit).driven.run (fed R rs) is).1.fsm = .idle ∧
        moved Stage.given ((stage R Unit).driven.trace (fed R rs) is) =
          before.flatMap Record.beats
  consumes : ∀ is, 6 * (rs.flatMap Record.words).length ≤
      ((stage R Unit).driven.trace (fed R rs) is).countP Stage.free →
    ahead ((stage R Unit).driven.run (fed R rs) is) = []

/-- What holds of every run, whatever the words are. -/
theorem fed_run (rs : List Record) (is : List (Stage.Drive Unit)) :
    ∃ d k, Rel (rs.flatMap Record.words) ((stage R Unit).driven.run (fed R rs) is).1
        ((stage R Unit).driven.run (fed R rs) is).2 d k ∧
      moved Stage.given ((stage R Unit).driven.trace (fed R rs) is) ++ d.rest =
        words.emits .idle (rs.flatMap Record.words) ∧
      (k = 0 ∨ ((stage R Unit).driven.trace (fed R rs) is).countP Stage.free + k ≤
        6 * (rs.flatMap Record.words).length) := by
  obtain ⟨d, k, hrel, -, hgiven, hcount⟩ :=
    (simulation R Unit (rs.flatMap Record.words)).run (Rel.start _) (fun h => by cases h) is
  exact ⟨d, k, hrel, hgiven, hcount⟩

theorem consumes (rs : List Record) (is : List (Stage.Drive Unit))
    (hfree : 6 * (rs.flatMap Record.words).length ≤
      ((stage R Unit).driven.trace (fed R rs) is).countP Stage.free) :
    ahead ((stage R Unit).driven.run (fed R rs) is) = [] := by
  obtain ⟨d, k, hrel, -, hcount⟩ := fed_run (R := R) rs is
  obtain rfl : k = 0 := by omega
  obtain ⟨hrest, hcontents⟩ := hrel.contents_of_zero
  unfold ahead
  rw [hrest, hcontents]
  rfl

/-- Records with writes only or reads only make their beats, and end where they start. -/
theorem words_of_records {rs : List Record} (h : ∀ r ∈ rs, r.values = [] ∨ r.addrs = []) :
    words.emits .idle (rs.flatMap Record.words) = rs.flatMap Record.beats ∧
      words.run .idle (rs.flatMap Record.words) = .idle := by
  refine Machine.emits_flatMap fun r hr => ?_
  rcases h r hr with hvalues | haddrs
  · exact words_of_reads hvalues
  · exact words_of_writes haddrs

/-- Where the consumed words end in IDLE the receiver is in IDLE. -/
theorem Reached.ctl_eq {popped ws : List RecordBeat} {c : Ctl} (h : Reached popped ws c)
    (hidle : words.run .idle popped = .idle) : c = .idle := by
  rcases h with h | ⟨h, -⟩
  · rw [← h, hidle]
  · rw [hidle] at h
    cases h

theorem fsm_of_ctl {s : State R} (h : ctl s = .idle) : s.fsm = .idle := by
  unfold ctl at h
  cases hfsm : s.fsm <;> rw [hfsm] at h <;> first | rfl | cases h

/-- After its words a record with writes and reads leaves the receiver outside IDLE. -/
theorem not_executes_of_both {r : Record} (hvalues : r.values ≠ []) (haddrs : r.addrs ≠ []) :
    ¬ Executes R [r] := by
  intro h
  obtain ⟨is, his⟩ : ∃ is, is = List.replicate (6 * ([r].flatMap Record.words).length)
    (Stage.eager ()) := ⟨_, rfl⟩
  have hfree := Stage.countP_eager (M := stage R Unit) (e := ()) (fun _ _ _ => rfl) (fed R [r])
    (6 * ([r].flatMap Record.words).length)
  rw [← his] at hfree
  have hahead := h.consumes is hfree.ge
  have hidle := (h.boundary is [r] [] rfl hahead).1
  obtain ⟨d, k, hrel, -, -⟩ := fed_run (R := R) [r] is
  obtain ⟨popped, hpopped, hreached⟩ := hrel.reached
  change popped ++ ahead _ = _ at hpopped
  change Reached popped (ahead _) _ at hreached
  rw [hahead] at hpopped hreached
  rw [List.append_nil, List.flatMap_singleton] at hpopped
  rcases hreached with hrun | ⟨-, x, xs, hnil, -⟩
  · apply run_of_both hvalues haddrs
    rw [← hpopped, hrun]
    unfold ctl
    rw [hidle]
  · cases hnil

/-- **A record is executed exactly when it does not both write and read, and then any
sequence of such records is.** -/
theorem record_executed_iff (R : Config) :
    (∀ r, Executes R [r] ↔ r.values = [] ∨ r.addrs = []) ∧
      ∀ rs, (∀ r ∈ rs, r.values = [] ∨ r.addrs = []) → Executes R rs := by
  have hrecords : ∀ rs : List Record, (∀ r ∈ rs, r.values = [] ∨ r.addrs = []) →
      Executes R rs := by
    intro rs hrs
    obtain ⟨hall, -⟩ := words_of_records hrs
    refine ⟨fun is => ?_, fun is before after hsplit hahead => ?_, consumes rs⟩
    · obtain ⟨d, -, -, hgiven, -⟩ := fed_run (R := R) rs is
      exact ⟨d.rest, hgiven.trans hall⟩
    · obtain ⟨d, k, hrel, hgiven, -⟩ := fed_run (R := R) rs is
      subst hsplit
      have hidle : words.run .idle (before.flatMap Record.words) = .idle :=
        (words_of_records fun r hr => hrs r (List.mem_append_left after hr)).2
      have hafter : words.emits .idle (after.flatMap Record.words) = after.flatMap Record.beats :=
        (words_of_records fun r hr => hrs r (List.mem_append_right before hr)).1
      obtain ⟨popped, hpopped, hreached⟩ := hrel.reached
      -- the words consumed are those of the first records
      have hwords : popped = before.flatMap Record.words := by
        rw [List.flatMap_append] at hpopped
        change popped ++ ahead _ = _ at hpopped
        rw [hahead] at hpopped
        exact List.append_cancel_right hpopped
      rw [hwords] at hreached
      have hctl := hreached.ctl_eq hidle
      refine ⟨fsm_of_ctl hctl, ?_⟩
      have hrest : d.rest = after.flatMap Record.beats := by
        rw [← hrel.emits, hctl, ← hafter]
        exact congrArg _ hahead
      rw [hall, List.flatMap_append, hrest] at hgiven
      exact List.append_cancel_right hgiven
  refine ⟨fun r => ⟨fun h => ?_, fun h => hrecords [r] (by simpa using h)⟩, hrecords⟩
  by_contra hboth
  obtain ⟨hvalues, haddrs⟩ := not_or.mp hboth
  exact not_executes_of_both hvalues haddrs h

/-- The receiver of the SoC. -/
def receiver : Config where
  depth := 256
  depth_pos := by decide
  Fifo := BufferedFIFO.registered RecordBeat 256

/-- A record that writes one word and reads another. -/
def writeAndRead : Record where
  byteEnable := 0xf
  baseAddr := 0x100
  values := [7]
  baseRetAddr := 0x200
  addrs := [0x300]
  values_le := by decide
  addrs_le := by decide
  nonempty := by decide

/-- The word at the base address of the reply is read, and not the one at the given
address, which becomes the base address of the next write. -/
theorem return_address_read :
    let is := List.replicate 24 (Stage.eager ())
    moved Stage.given ((stage receiver Unit).driven.trace (fed receiver [writeAndRead]) is) =
        [⟨true, true, 1, 0, 0xf, 0x40, 7⟩, ⟨false, true, 1, 0x200, 0, 0x80, 0⟩] ∧
      ¬ Executes receiver [writeAndRead] := by
  intro is
  have hgiven : moved Stage.given
      ((stage receiver Unit).driven.trace (fed receiver [writeAndRead]) is) =
        [⟨true, true, 1, 0, 0xf, 0x40, 7⟩, ⟨false, true, 1, 0x200, 0, 0x80, 0⟩] := by decide
  refine ⟨hgiven, fun h => ?_⟩
  have hbeats := h.beats is
  rw [hgiven] at hbeats
  revert hbeats
  decide

/-- A record that writes one word. -/
def writeOne : Record where
  byteEnable := 0xf
  baseAddr := 0x100
  values := [7]
  baseRetAddr := 0
  addrs := []
  values_le := by decide
  addrs_le := by decide
  nonempty := by decide

theorem records_executed_writes : Executes receiver [writeOne, writeOne] :=
  (record_executed_iff receiver).2 _ (fun r hr => by
    rcases List.mem_pair.mp hr with rfl | rfl <;> exact Or.inr rfl)

end EtherboneRecordReceiver

end UsbSniffer.Etherbone
