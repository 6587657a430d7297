/-
  Iti/Core.lean --- the capture core of gateware/iti.py.

  `ITICore` puts the packer and the start pattern generator on one source, with
  priority to the generator.  While the pattern is sent the packer sees neither a
  captured byte nor a ready source.
-/
import UsbSniffer.Iti.Mark
import UsbSniffer.Sync.Queue

set_option autoImplicit false

namespace UsbSniffer.Iti.ITICore

open UsbSniffer.Sync

/-! ## The module -/

/-- The registers of the pattern generator and of the packer. -/
structure State where
  pattern : ITIPattern.State
  packer : ITIPacker.State
  deriving DecidableEq, Repr

/-- The registers at a reset. -/
def init : State where
  pattern := ITIPattern.init
  packer := ITIPacker.init

/-- The registers written by the host, the byte offered, and the answer to the record. -/
structure In where
  /-- `packer.time.enable.storage`. -/
  enable : Bool
  eventRe : Bool
  eventR : BitVec 8
  /-- The strobe `start_pattern.re`. -/
  startPattern : Bool
  sinkValid : Bool
  sinkData : BitVec 8
  sinkCmd : Bool
  sourceReady : Bool
  deriving DecidableEq, Repr

/-- The answer to the byte, and the record offered. -/
structure Out where
  sinkReady : Bool
  sourceValid : Bool
  source : Beat
  /-- `pattern.source.valid`, which selects the generator. -/
  patternValid : Bool
  deriving DecidableEq, Repr

/-- `pattern.source.valid`. -/
def patternValid (s : State) : Bool := (ITIPattern.out corePattern s.pattern).sourceValid

/-- What the packer sees: its sink and its source are connected only while the
generator is not selected. -/
def packerIn (s : State) (i : In) : ITIPacker.In :=
  { enable := i.enable
    eventRe := i.eventRe
    eventR := i.eventR
    sinkValid := if patternValid s then false else i.sinkValid
    sinkData := if patternValid s then 0 else i.sinkData
    sinkCmd := if patternValid s then false else i.sinkCmd
    sourceReady := if patternValid s then false else i.sourceReady }

/-- The outputs in a cycle: the pattern goes before the records. -/
def out (s : State) (i : In) : Out :=
  if patternValid s then
    { sinkReady := false
      sourceValid := true
      source := (ITIPattern.out corePattern s.pattern).source
      patternValid := true }
  else
    let o := ITIPacker.out s.packer (packerIn s i)
    { sinkReady := o.sinkReady
      sourceValid := o.sourceValid
      source := o.source
      patternValid := false }

/-- The clock edge. -/
def next (s : State) (i : In) : State :=
  { pattern := ITIPattern.next corePattern s.pattern i.startPattern
      (patternValid s && i.sourceReady)
    packer := ITIPacker.next s.packer (packerIn s i) }

/-- `ITICore`. -/
def machine : Machine State In Out where
  out := out
  next := next

/-! ## What the interfaces carry -/

/-- The `(cmd, data)` beat accepted on `sink` in a cycle. -/
def sinkBeat (c : In × Out) : List (Bool × BitVec 8) :=
  beat c.1.sinkValid c.2.sinkReady (c.1.sinkCmd, c.1.sinkData)

/-- The beat accepted on `source` in a cycle. -/
def sourceBeat (c : In × Out) : List Beat :=
  beat c.2.sourceValid c.1.sourceReady c.2.source

/-- The `(cmd, data)` pair that a reader of the format gets out of a beat of type
RXCMD or DATA. -/
def captured (b : Beat) : List (Bool × BitVec 8) :=
  match readRecord b.bytes with
  | some ({ payloadType, diff := _, payload := some payload }, _) =>
      if payloadType = PAYLOAD_RXCMD then [(true, payload)]
      else if payloadType = PAYLOAD_DATA then [(false, payload)]
      else []
  | _ => []

/-- A strobe of `start_pattern` that the generator sees while it is idle. -/
def idleStrobe (c : In × Out) : List Unit :=
  if c.1.startPattern && !c.2.patternValid then [()] else []

/-! ## Captured bytes -/

theorem captured_record (r : Record) : captured r.beat =
    match r with
    | .item .rxcmd _ payload => [(true, payload)]
    | .item .data _ payload => [(false, payload)]
    | _ => [] := by
  have hread := reads_record r []
  rw [List.append_nil] at hread
  unfold captured
  rw [show r.beat.bytes = r.bytes from rfl, hread]
  cases r with
  | overflow => rfl
  | item kind diff payload => cases kind <;> rfl

theorem captured_pattern : captured corePattern.beat = [] := by
  decide

theorem patternValid_iff (s : State) :
    patternValid s = true ↔ s.pattern.fsm = .pattern := by
  unfold patternValid ITIPattern.out
  cases s.pattern.fsm <;> simp

/-- What the core drives while the pattern is sent. -/
theorem out_pattern {s : State} (h : s.pattern.fsm = .pattern) (i : In) :
    out s i = ⟨false, true, corePattern.beat, true⟩ := by
  have hvalid := (patternValid_iff s).mpr h
  simp only [out, hvalid, if_true, ITIPattern.out, h]

/-- What the core drives while the generator is idle: an overflow or an event,
which answer no captured byte, a captured byte, or nothing. -/
theorem out_idle {s : State} (h : s.pattern.fsm = .idle) (i : In) :
    (∃ r : Record, captured r.beat = [] ∧ out s i = ⟨false, true, r.beat, false⟩) ∨
    (i.sinkValid = true ∧
      out s i = ⟨i.sourceReady, true,
        (Record.item (if i.sinkCmd then .rxcmd else .data) s.packer.time.diff
          i.sinkData).beat, false⟩) ∨
    (i.sinkValid = false ∧ (out s i).sinkReady = false ∧ (out s i).sourceValid = false ∧
      (out s i).patternValid = false) := by
  have hvalid : patternValid s = false := by
    rw [← Bool.not_eq_true, patternValid_iff, h]
    simp
  have hout : out s i =
      { sinkReady := (ITIPacker.mux s.packer (packerIn s i)).sinkReady
        sourceValid := (ITIPacker.mux s.packer (packerIn s i)).sourceValid
        source := (ITIPacker.out s.packer (packerIn s i)).source
        patternValid := false } := by
    simp only [out, hvalid, Bool.false_eq_true, if_false]
    rfl
  have hsink : (packerIn s i).sinkValid = i.sinkValid := by simp [packerIn, hvalid]
  rw [hout]
  unfold ITIPacker.out
  rcases ITIPacker.mux_cases s.packer (packerIn s i) with
    ⟨-, hm⟩ | ⟨-, -, hm⟩ | ⟨-, -, hv, hm⟩ | ⟨-, -, hv, hm⟩ <;> rw [hm]
  · exact Or.inl ⟨.overflow, captured_record .overflow, rfl⟩
  · exact Or.inl ⟨.item .event s.packer.time.diff s.packer.ev.data,
      captured_record (.item .event s.packer.time.diff s.packer.ev.data), rfl⟩
  · refine Or.inr (Or.inl ⟨hsink ▸ hv, ?_⟩)
    simp only [packerIn, hvalid, Bool.false_eq_true, if_false]
    cases i.sinkCmd <;> rfl
  · exact Or.inr (Or.inr ⟨hsink ▸ hv, rfl, rfl, rfl⟩)

/-- In every cycle the records of type RXCMD or DATA accepted on source carry
exactly what is accepted on sink. -/
theorem captured_cycle (s : State) (i : In) :
    (sourceBeat (i, out s i)).flatMap captured = sinkBeat (i, out s i) := by
  unfold sourceBeat sinkBeat
  cases hfsm : s.pattern.fsm with
  | pattern =>
    rw [out_pattern hfsm]
    cases i.sourceReady <;> simp [captured_pattern]
  | idle =>
    rcases out_idle hfsm i with ⟨r, hnone, hout⟩ | ⟨hv, hout⟩ | ⟨hv, -, hsource, -⟩
    · rw [hout]
      cases i.sourceReady <;> simp [hnone]
    · rw [hout, hv]
      cases i.sourceReady <;> cases i.sinkCmd <;> simp [captured_record]
    · rw [hsource, hv]
      simp

/-! ## Pattern blocks -/

/-- Beats of the running block that are already out. -/
def patternSent (s : State) : Nat :=
  match s.pattern.fsm with
  | .idle => 0
  | .pattern => corePattern.repeats - s.pattern.count

/-- The block that is running, if there is one. -/
def running (s : State) : Nat :=
  match s.pattern.fsm with
  | .idle => 0
  | .pattern => 1

theorem patternSent_idle {s : State} (h : s.pattern.fsm = .idle) : patternSent s = 0 := by
  simp [patternSent, h]

theorem patternSent_pattern {s : State} (h : s.pattern.fsm = .pattern) :
    patternSent s = corePattern.repeats - s.pattern.count := by
  simp [patternSent, h]

theorem running_idle {s : State} (h : s.pattern.fsm = .idle) : running s = 0 := by
  simp [running, h]

theorem running_pattern {s : State} (h : s.pattern.fsm = .pattern) : running s = 1 := by
  simp [running, h]

/-- While a block runs, one to four of its beats are left. -/
def Inv (s : State) : Prop :=
  s.pattern.fsm = .pattern → 1 ≤ s.pattern.count ∧ s.pattern.count ≤ corePattern.repeats

/-- What a cycle does to the generator. -/
theorem pattern_next (s : State) (i : In) (hInv : Inv s) :
    (next s i).pattern =
      match s.pattern.fsm with
      | .idle =>
          if i.startPattern then { count := corePattern.repeats, fsm := .pattern }
          else s.pattern
      | .pattern =>
          if i.sourceReady then
            { count := s.pattern.count - 1
              fsm := if s.pattern.count = 1 then .idle else .pattern }
          else s.pattern := by
  simp only [next, ITIPattern.next]
  cases hfsm : s.pattern.fsm with
  | idle => rfl
  | pattern =>
    obtain ⟨hlow, hhigh⟩ := hInv hfsm
    have hwrap : (s.pattern.count + (2 ^ bitsFor corePattern.repeats - 1)) %
        2 ^ bitsFor corePattern.repeats = s.pattern.count - 1 := by
      have hbits : 2 ^ bitsFor corePattern.repeats = 8 := by decide
      have hfour : corePattern.repeats = 4 := rfl
      rw [hbits]
      omega
    simp only [(patternValid_iff s).mpr hfsm, Bool.true_and, hwrap]

theorem inv_init : Inv init := by
  intro h
  cases h

theorem inv_next (s : State) (i : In) (hInv : Inv s) : Inv (next s i) := by
  intro hrun
  rw [pattern_next s i hInv] at hrun ⊢
  cases hfsm : s.pattern.fsm with
  | idle =>
    simp only [hfsm] at hrun ⊢
    split at hrun
    · rename_i hstart
      rw [if_pos hstart]
      exact ⟨by decide, Nat.le_refl _⟩
    · rw [hfsm] at hrun
      cases hrun
  | pattern =>
    have hcount := hInv hfsm
    simp only [hfsm] at hrun ⊢
    split at hrun
    · rename_i hready
      rw [if_pos hready]
      simp only at hrun ⊢
      split at hrun
      · cases hrun
      · omega
    · rename_i hready
      rw [if_neg hready]
      exact hcount

/-- A record may be sent while the generator is idle; nothing else is. -/
theorem sourceBeat_idle {s : State} (h : s.pattern.fsm = .idle) (i : In) :
    ∃ items : List Item, items.count .block = 0 ∧
      sourceBeat (i, out s i) = items.flatMap Item.beats := by
  have hrecord : ∀ (r : Record) (valid ready : Bool), ∃ items : List Item,
      items.count .block = 0 ∧ beat valid ready r.beat = items.flatMap Item.beats := by
    intro r valid ready
    by_cases hfire : valid && ready
    · exact ⟨[.record r], by simp, by simp [beat, hfire, Item.beats]⟩
    · exact ⟨[], rfl, by simp [beat, hfire]⟩
  unfold sourceBeat
  rcases out_idle h i with ⟨r, -, hout⟩ | ⟨-, hout⟩ | ⟨-, -, hsource, -⟩
  · rw [hout]
    exact hrecord r _ _
  · rw [hout]
    exact hrecord _ _ _
  · rw [hsource]
    exact ⟨[], rfl, rfl⟩

/-- The beats sent so far are whole records and whole blocks, and then the first
beats of the block that runs; every strobe seen by the idle generator has its
block. -/
def Blocks (s : State) (tr : List (In × Out)) : Prop :=
  ∃ items : List Item,
    moved sourceBeat tr =
      items.flatMap Item.beats ++ List.replicate (patternSent s) corePattern.beat ∧
    items.count .block + running s = (moved idleStrobe tr).length

/-- A cycle of the idle generator: a record at most, and the block of a strobe
starts with no beat out. -/
theorem blocks_next_idle {s : State} {tr : List (In × Out)} (i : In) (hInv : Inv s)
    (hfsm : s.pattern.fsm = .idle) (h : Blocks s tr) :
    Blocks (next s i) (tr ++ [(i, out s i)]) := by
  obtain ⟨items, hbeats, hcount⟩ := h
  obtain ⟨more, hnone, hmore⟩ := sourceBeat_idle hfsm i
  rw [patternSent_idle hfsm] at hbeats
  rw [running_idle hfsm] at hcount
  have hpattern := pattern_next s i hInv
  simp only [hfsm] at hpattern
  have hvalid : (out s i).patternValid = false := by
    rcases out_idle hfsm i with ⟨r, -, hout⟩ | ⟨-, hout⟩ | ⟨-, -, -, hout⟩
    · rw [hout]
    · rw [hout]
    · exact hout
  have hafter : patternSent (next s i) = 0 ∧
      running (next s i) = (idleStrobe (i, out s i)).length := by
    unfold idleStrobe
    rw [hvalid]
    cases hstart : i.startPattern with
    | false =>
      have hstay : (next s i).pattern.fsm = .idle := by simp [hpattern, hstart, hfsm]
      simp [patternSent_idle hstay, running_idle hstay]
    | true =>
      have hgo : (next s i).pattern = ⟨corePattern.repeats, .pattern⟩ := by
        simp [hpattern, hstart]
      have hgo' : (next s i).pattern.fsm = .pattern := by rw [hgo]
      simp [patternSent_pattern hgo', running_pattern hgo', hgo]
  refine ⟨items ++ more, ?_, ?_⟩
  · rw [moved_append, moved_singleton, hbeats, hmore, hafter.1]
    simp
  · rw [moved_append, moved_singleton, List.length_append, List.count_append, hnone,
      hafter.2]
    omega

/-- A cycle of the running generator: at most one beat of its block, and the fourth
completes it. -/
theorem blocks_next_pattern {s : State} {tr : List (In × Out)} (i : In) (hInv : Inv s)
    (hfsm : s.pattern.fsm = .pattern) (h : Blocks s tr) :
    Blocks (next s i) (tr ++ [(i, out s i)]) := by
  obtain ⟨items, hbeats, hcount⟩ := h
  obtain ⟨hlow, hhigh⟩ := hInv hfsm
  rw [patternSent_pattern hfsm] at hbeats
  rw [running_pattern hfsm] at hcount
  have hpattern := pattern_next s i hInv
  simp only [hfsm] at hpattern
  have hstrobe : idleStrobe (i, out s i) = [] := by
    simp [idleStrobe, out_pattern hfsm]
  unfold Blocks
  rw [moved_append, moved_append, moved_singleton, moved_singleton, hstrobe, hbeats,
    List.append_nil, sourceBeat, out_pattern hfsm]
  cases hready : i.sourceReady with
  | false =>
    rw [hready, if_neg Bool.false_ne_true] at hpattern
    have hstay : (next s i).pattern.fsm = .pattern := by rw [hpattern, hfsm]
    refine ⟨items, ?_, ?_⟩
    · rw [patternSent_pattern hstay, hpattern]
      simp
    · rw [running_pattern hstay, hcount]
  | true =>
    rw [hready, if_pos rfl] at hpattern
    by_cases hlast : s.pattern.count = 1
    · have hidle : (next s i).pattern.fsm = .idle := by rw [hpattern, if_pos hlast]
      refine ⟨items ++ [.block], ?_, ?_⟩
      · rw [patternSent_idle hidle, hlast, List.flatMap_append]
        simp [Item.beats, blockBeats, show corePattern.repeats = 3 + 1 from rfl,
          List.replicate_succ']
      · rw [running_idle hidle, List.count_append, ← hcount]
        rfl
    · have hstay : (next s i).pattern.fsm = .pattern := by rw [hpattern, if_neg hlast]
      have hmore : corePattern.repeats - (next s i).pattern.count =
          corePattern.repeats - s.pattern.count + 1 := by
        rw [hpattern]
        simp only
        omega
      refine ⟨items, ?_, ?_⟩
      · rw [patternSent_pattern hstay, hmore, List.replicate_succ', beat_true_true,
          List.append_assoc]
      · rw [running_pattern hstay, hcount]

theorem blocks_next {s : State} {tr : List (In × Out)} (i : In) (hInv : Inv s)
    (h : Blocks s tr) : Blocks (next s i) (tr ++ [(i, out s i)]) := by
  cases hfsm : s.pattern.fsm with
  | idle => exact blocks_next_idle i hInv hfsm h
  | pattern => exact blocks_next_pattern i hInv hfsm h

theorem blocks_run (is : List In) : Inv (machine.run init is) ∧
    Blocks (machine.run init is) (machine.trace init is) :=
  machine.history_induction_always (fun s tr => Inv s ∧ Blocks s tr)
    ⟨inv_init, [], rfl, rfl⟩
    (fun s _ i h => ⟨inv_next s i h.1, blocks_next i h.1 h.2⟩) is

/-- While the generator runs, every cycle with a ready source takes one of its
beats, and no other beat, up to the last one. -/
theorem pattern_beats_taken (js : List In) :
    ∀ (s : State) (count : Nat), s.pattern = ⟨count, .pattern⟩ → 1 ≤ count →
      count ≤ corePattern.repeats →
      (moved sourceBeat (machine.trace s js)).take count =
        List.replicate (min count (js.countP (·.sourceReady))) corePattern.beat := by
  induction js with
  | nil => intro s count _ _ _; simp
  | cons j js ih =>
    intro s count hs hlow hhigh
    have hfsm : s.pattern.fsm = .pattern := by rw [hs]
    have hInv : Inv s := fun _ => by rw [hs]; exact ⟨hlow, hhigh⟩
    have hpattern := pattern_next s j hInv
    simp only [hs] at hpattern
    have hmoved : moved sourceBeat (machine.trace s (j :: js)) =
        sourceBeat (j, out s j) ++ moved sourceBeat (machine.trace (next s j) js) :=
      List.flatMap_cons
    rw [hmoved, sourceBeat, out_pattern hfsm, List.countP_cons]
    cases hready : j.sourceReady with
    | false =>
      rw [hready, if_neg Bool.false_ne_true] at hpattern
      simpa using ih (next s j) count hpattern hlow hhigh
    | true =>
      rw [hready, if_pos rfl] at hpattern
      obtain ⟨rest, rfl⟩ : ∃ rest, count = rest + 1 := ⟨count - 1, by omega⟩
      rcases Nat.eq_zero_or_pos rest with rfl | hpos
      · simp
      · rw [if_neg (by omega), Nat.add_sub_cancel] at hpattern
        have htail := ih (next s j) rest hpattern hpos (by omega)
        rw [beat_true_true, List.singleton_append, List.take_succ_cons, htail, if_pos rfl,
          Nat.add_min_add_right, List.replicate_succ]

/-- **The core neither loses nor invents a captured byte, and a start pattern is
never broken.**  In each cycle the RXCMD and DATA records accepted on source carry
the beat accepted on sink; the beats accepted so far are records and whole blocks
of four pattern beats, one for each strobe seen by the idle generator, the last of
them possibly still running; and after such a strobe the next four beats accepted,
as soon as the source has been ready four times, are the pattern. -/
theorem captured_and_blocks (is : List In) :
    ((machine.trace init is).map fun c => (sourceBeat c).flatMap captured) =
        (machine.trace init is).map sinkBeat ∧
      Blocks (machine.run init is) (machine.trace init is) ∧
      ∀ (i : In) (js : List In), i.startPattern = true →
        patternValid (machine.run init is) = false →
        (moved sourceBeat (machine.trace (next (machine.run init is) i) js)).take 4 =
          List.replicate (min 4 (js.countP (·.sourceReady))) corePattern.beat := by
  obtain ⟨hInv, hblocks⟩ := blocks_run is
  refine ⟨?_, hblocks, ?_⟩
  · apply List.map_congr_left
    exact machine.trace_forall captured_cycle init is
  · intro i js hstart hidle
    have hfsm : (machine.run init is).pattern.fsm = .idle := by
      cases hf : (machine.run init is).pattern.fsm with
      | idle => rfl
      | pattern => rw [(patternValid_iff _).mpr hf] at hidle; cases hidle
    have hpattern := pattern_next (machine.run init is) i hInv
    simp only [hfsm, hstart, if_true] at hpattern
    exact pattern_beats_taken js _ 4 hpattern (by decide) (Nat.le_refl _)

/-- A cycle with nothing but a ready source. -/
def readyCycle : In where
  enable := true
  eventRe := false
  eventR := 0
  startPattern := false
  sinkValid := false
  sinkData := 0
  sinkCmd := false
  sourceReady := true

/-- The pattern after a strobe in the first cycle. -/
theorem pattern_after_strobe :
    (moved sourceBeat (machine.trace (next init { readyCycle with startPattern := true })
      (List.replicate 5 readyCycle))).take 4 = List.replicate 4 corePattern.beat :=
  (captured_and_blocks []).2.2 { readyCycle with startPattern := true }
    (List.replicate 5 readyCycle) rfl rfl

end UsbSniffer.Iti.ITICore
