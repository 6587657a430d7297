/-
  Ulpi/Read.lean --- which byte a register read returns (gateware/ulpi.py, ULPICore and
  ULPIPHY).

  Nothing on the way from the pads to `reg_dat_r` looks at a byte, so that each may carry
  the instant at which it was on the pads.  The byte that is latched is the one in front of
  the receive path when the command word of the read is accepted, if there is one.
-/
import UsbSniffer.Ulpi.Core

set_option autoImplicit false

namespace UsbSniffer.Ulpi

open UsbSniffer.Sync

namespace ULPIPHY

variable {δ : Type} {F : Config δ}

/-! ## The receive path -/

/-- The words in both FIFOs, oldest first. -/
def fifos (s : State F) : List (RxBeat δ) :=
  F.fifoSource.contents s.fifoSource ++ F.phy.rxFifo.contents s.phy.rx

/-- The byte in the input registers. -/
def inputs (s : State F) : List δ := if s.phy.rxValid then [s.phy.dataI] else []

/-- The bytes between the pads and the core, oldest first. -/
def path (s : State F) : List δ := (fifos s).map RxBeat.data ++ inputs s

/-- The core takes a byte at an edge of its clock. -/
def takes (s : State F) (e : Edges δ) : Bool :=
  F.fifoSource.readable s.fifoSource && (e.sys.map (ULPICore.phySourceReady s.core)).getD false

/-- What `rx_fifo` takes from the input registers at an edge of the transceiver's clock. -/
def entering (s : State F) (e : Edges δ) : List (RxBeat δ) :=
  e.ulpi.elim [] fun pads =>
    beat s.phy.rxValid (F.phy.rxFifo.writable s.phy.rx) (ULPIPHYS7.rxSink s.phy pads)

theorem fifos_init [Inhabited δ] : fifos (init : State F) = [] :=
  List.append_eq_nil_iff.mpr ⟨F.fifoSource.contents_init, F.phy.rxFifo.contents_init⟩

/-- In front of the path is what the core sees. -/
theorem fifos_of_readable {s : State F} (h : F.fifoSource.readable s.fifoSource = true) :
    fifos s = F.fifoSource.dout s.fifoSource :: (fifos s).tail := by
  unfold fifos
  rw [F.fifoSource.dout_eq _ h]
  rfl

/-- The two FIFOs are one queue. -/
theorem fifos_next (s : State F) (e : Edges δ) :
    fifos (next s e) = (if takes s e then (fifos s).tail else fifos s) ++ entering s e := by
  have hfront : (if takes s e then (fifos s).tail else fifos s) =
      (if takes s e then (F.fifoSource.contents s.fifoSource).tail
        else F.fifoSource.contents s.fifoSource) ++ F.phy.rxFifo.contents s.phy.rx := by
    cases htakes : takes s e with
    | false => rfl
    | true =>
      have hreadable := (Bool.and_eq_true_iff.mp htakes).1
      unfold fifos
      rw [F.fifoSource.dout_eq _ hreadable]
      rfl
  rw [hfront]
  cases hulpi : e.ulpi with
  | none => simp [fifos, next, entering, takes, F.fifoSource.contents_next, hulpi]
  | some pads =>
    have hpop := F.phy.rxFifo.popped_eq s.phy.rx (F.fifoSource.writable s.fifoSource)
    unfold fifos next entering
    simp only [hulpi, Option.elim_some, Option.map_some, F.fifoSource.contents_next]
    change _ ++ beat (F.phy.rxFifo.readable s.phy.rx) (F.fifoSource.writable s.fifoSource)
        (F.phy.rxFifo.dout s.phy.rx) ++
      F.phy.rxFifo.contents (F.phy.rxFifo.next s.phy.rx s.phy.rxValid
        (ULPIPHYS7.rxSink s.phy pads) (F.fifoSource.writable s.fifoSource)) = _
    rw [F.phy.rxFifo.contents_next, List.append_assoc, ← List.append_assoc (beat _ _ _), hpop,
      ← List.append_assoc]
    rfl

/-- The byte of the input registers after the edges of an instant. -/
theorem inputs_next (s : State F) (e : Edges δ) :
    inputs (next s e) = e.ulpi.elim (inputs s) fun pads =>
      if s.phy.odir && pads.dir then [pads.data] else [] := by
  cases hulpi : e.ulpi with
  | none => simp [inputs, next, hulpi]
  | some pads =>
    unfold inputs next
    simp only [hulpi, Option.elim_some]
    rfl

/-- Every byte of the path was in it before, or was on the pads. -/
theorem mem_path_next {s : State F} {e : Edges δ} {x : δ} (h : x ∈ path (next s e)) :
    x ∈ path s ∨ ∃ pads, e.ulpi = some pads ∧ x = pads.data := by
  unfold path at h ⊢
  rw [fifos_next, inputs_next, List.map_append, List.append_assoc, List.mem_append,
    List.mem_append] at h
  rcases h with h | h | h
  · -- in the FIFOs
    refine Or.inl (List.mem_append_left _ ?_)
    cases htakes : takes s e with
    | false =>
      rw [htakes] at h
      exact h
    | true =>
      rw [htakes] at h
      exact List.map_subset _ (List.tail_sublist _).subset h
  · -- from the input registers into `rx_fifo`
    obtain ⟨b, hb, rfl⟩ := List.mem_map.mp h
    refine Or.inl (List.mem_append_right _ ?_)
    unfold entering at hb
    cases hulpi : e.ulpi with
    | none => simp [hulpi] at hb
    | some pads =>
      rw [hulpi, Option.elim_some] at hb
      cases hvalid : s.phy.rxValid with
      | false => simp [hvalid] at hb
      | true =>
        rw [hvalid] at hb
        cases hw : F.phy.rxFifo.writable s.phy.rx with
        | false => simp [hw] at hb
        | true =>
          rw [hw, beat_true_true, List.mem_singleton] at hb
          simp [inputs, hvalid, hb, ULPIPHYS7.rxSink]
  · -- in the input registers
    cases hulpi : e.ulpi with
    | none =>
      rw [hulpi, Option.elim_none] at h
      exact Or.inl (List.mem_append_right _ h)
    | some pads =>
      rw [hulpi, Option.elim_some] at h
      refine Or.inr ⟨pads, rfl, ?_⟩
      split_ifs at h
      · exact List.mem_singleton.mp h
      · cases h

/-- A byte that the core does not take stays in front: `rx_fifo` refuses one only when it is
full. -/
theorem head_path_next {s : State F} {e : Edges δ} {x : δ} (htakes : takes s e = false)
    (h : (path s).head? = some x) : (path (next s e)).head? = some x := by
  have hfifos := fifos_next s e
  rw [htakes, if_neg Bool.false_ne_true] at hfifos
  unfold path at h ⊢
  rw [hfifos, inputs_next]
  cases hs : fifos s with
  | cons b q =>
    rw [hs] at h
    exact h
  | nil =>
    -- the byte is in the input registers, and `rx_fifo` is empty
    rw [hs, List.map_nil, List.nil_append] at h
    rw [List.nil_append]
    cases hulpi : e.ulpi with
    | none =>
      simp only [entering, hulpi, Option.elim_none, List.map_nil, List.nil_append]
      exact h
    | some pads =>
      have hvalid : s.phy.rxValid = true := by
        by_contra hvalid
        simp [inputs, hvalid] at h
      have hempty : F.phy.rxFifo.contents s.phy.rx = [] := (List.append_eq_nil_iff.mp hs).2
      have hwritable : F.phy.rxFifo.writable s.phy.rx = true := by
        simp [SyncFIFO.writable, F.phy.rxFifo.level_eq, hempty]
      simp only [entering, hulpi, Option.elim_some, hvalid, hwritable, beat_true_true]
      simpa [inputs, hvalid, ULPIPHYS7.rxSink] using h

/-! ## Reads -/

/-- The command word of a read is accepted. -/
def accepts (s : State F) (e : Edges δ) : Bool :=
  e.sys.isSome && s.core.fsm == .readRegAdr && F.fifoSink.writable s.fifoSink

/-- A byte is latched. -/
def latches (s : State F) (e : Edges δ) : Bool :=
  e.sys.isSome && s.core.fsm == .readRegDat && F.fifoSource.readable s.fifoSource

theorem fsm_of_accepts {s : State F} {e : Edges δ} (h : accepts s e = true) :
    (next s e).core.fsm = .readRegDat := by
  unfold accepts at h
  rw [Bool.and_eq_true, Bool.and_eq_true, beq_iff_eq] at h
  obtain ⟨⟨hsys, hfsm⟩, hwritable⟩ := h
  obtain ⟨i, hi⟩ := Option.isSome_iff_exists.mp hsys
  simp [next, hi, ULPICore.next, ULPICore.nextFsm, hfsm, hwritable]

/-- The core waits, and takes no byte. -/
theorem fsm_of_not_latches {s : State F} {e : Edges δ} (hfsm : s.core.fsm = .readRegDat)
    (h : latches s e = false) : (next s e).core.fsm = .readRegDat ∧ takes s e = false := by
  unfold latches at h
  cases hsys : e.sys with
  | none => exact ⟨by simpa [next, hsys] using hfsm, by simp [takes, hsys]⟩
  | some i =>
    have hreadable : F.fifoSource.readable s.fifoSource = false := by
      simpa [hsys, hfsm] using h
    exact ⟨by simp [next, hsys, ULPICore.next, ULPICore.nextFsm, hfsm, hreadable],
      by simp [takes, hreadable]⟩

/-- What is latched is in front of the path. -/
theorem latched {s : State F} {e : Edges δ} (h : latches s e = true) :
    (path s).head? = some (next s e).core.regDatR := by
  unfold latches at h
  rw [Bool.and_eq_true, Bool.and_eq_true, beq_iff_eq] at h
  obtain ⟨⟨hsys, hfsm⟩, hreadable⟩ := h
  obtain ⟨i, hi⟩ := Option.isSome_iff_exists.mp hsys
  unfold path
  rw [fifos_of_readable hreadable]
  simp [next, hi, ULPICore.next, hfsm, hreadable]

/-! ## The age of a byte -/

/-- A byte with the instant at which it was on the pads. -/
structure Stamped where
  time : Nat
  data : BitVec 8
  deriving DecidableEq, Repr, Inhabited

/-- The edges of an instant, with the time beside the byte on the pads. -/
def Edges.stamp (time : Nat) (e : Edges (BitVec 8)) : Edges Stamped where
  sys := e.sys
  ulpi := e.ulpi.map fun pads => ⟨pads.dir, pads.nxt, ⟨time, pads.data⟩⟩

/-- The design, and the number of the instant. -/
def timed (F : Config Stamped) : Machine (Nat × State F) (Edges (BitVec 8)) (Bool × Bool) where
  out s e := (accepts s.2 (e.stamp s.1), latches s.2 (e.stamp s.1))
  next s e := (s.1 + 1, next s.2 (e.stamp s.1))

variable {F : Config Stamped}

/-- From reset. -/
def start : Nat × State F := (0, init)

theorem time_run (is : List (Edges (BitVec 8))) (s : Nat × State F) :
    ((timed F).run s is).1 = s.1 + is.length := by
  induction is generalizing s with
  | nil => rfl
  | cons e is ih =>
    rw [Machine.run_cons, ih, List.length_cons]
    change s.1 + 1 + is.length = s.1 + (is.length + 1)
    omega

/-- A byte that comes into the path has the number of the instant. -/
theorem time_of_mem_path_next {s : Nat × State F} {e : Edges (BitVec 8)} {x : Stamped}
    (h : x ∈ path ((timed F).next s e).2) : x ∈ path s.2 ∨ x.time = s.1 := by
  refine (mem_path_next h).imp_right ?_
  rintro ⟨pads, hpads, rfl⟩
  obtain ⟨raw, -, rfl⟩ := Option.map_eq_some_iff.mp hpads
  rfl

/-- The bytes of the path are of the past. -/
theorem time_lt_of_mem_path (is : List (Edges (BitVec 8))) :
    ∀ x ∈ path ((timed F).run start is).2, x.time < is.length := by
  have hinit : ∀ x ∈ path (start : Nat × State F).2, x.time < (start : Nat × State F).1 := by
    intro x hx
    change x ∈ path (init : State F) at hx
    have hphy : (init : State F).phy.rxValid = false := rfl
    simp [path, inputs, fifos_init, hphy] at hx
  have hrun := (timed F).history_induction_always (fun s _ => ∀ x ∈ path s.2, x.time < s.1) hinit
    (by
      intro s _ e h x hx
      rcases time_of_mem_path_next hx with hold | hnew
      · exact Nat.lt_succ_of_lt (h x hold)
      · exact hnew ▸ Nat.lt_succ_self _)
    is
  intro x hx
  have htime := hrun x hx
  rw [time_run] at htime
  exact (Nat.zero_add is.length).symm ▸ htime

/-- A step of a read in which the core waits. -/
def Waits (s : Nat × State F) (e : Edges (BitVec 8)) : Prop := latches s.2 (e.stamp s.1) = false

instance (s : Nat × State F) (e : Edges (BitVec 8)) : Decidable (Waits s e) :=
  inferInstanceAs (Decidable (_ = false))

/-- While the core waits, the byte in front stays there. -/
theorem waits_head {s : Nat × State F} {x : Stamped} {is : List (Edges (BitVec 8))}
    (hfsm : s.2.core.fsm = .readRegDat) (hx : (path s.2).head? = some x)
    (hwaits : (timed F).AllSteps Waits s is) :
    (path ((timed F).run s is).2).head? = some x := by
  have hstep : ∀ (s : Nat × State F) e, Waits s e →
      s.2.core.fsm = .readRegDat ∧ (path s.2).head? = some x →
        ((timed F).next s e).2.core.fsm = .readRegDat ∧
          (path ((timed F).next s e).2).head? = some x := by
    intro s e hwait h
    obtain ⟨hfsm, htakes⟩ := fsm_of_not_latches h.1 hwait
    exact ⟨hfsm, head_path_next htakes h.2⟩
  exact ((timed F).invariant_run hstep ⟨hfsm, hx⟩ is hwaits).2

/-- What comes into an empty path is younger. -/
theorem time_of_empty {s : Nat × State F} (hempty : path s.2 = []) (is : List (Edges (BitVec 8))) :
    ∀ x ∈ path ((timed F).run s is).2, s.1 ≤ x.time := by
  have hinit : s.1 ≤ s.1 ∧ ∀ x ∈ path s.2, s.1 ≤ x.time :=
    ⟨Nat.le_refl _, fun x hx => by rw [hempty] at hx; cases hx⟩
  have hrun := (timed F).history_induction_always
    (fun s' _ => s.1 ≤ s'.1 ∧ ∀ x ∈ path s'.2, s.1 ≤ x.time) hinit
    (by
      rintro s' _ e ⟨hle, h⟩
      refine ⟨Nat.le_succ_of_le hle, fun x hx => ?_⟩
      rcases time_of_mem_path_next hx with hold | hnew
      · exact h x hold
      · exact hnew ▸ hle)
    is
  exact hrun.2

/-- **A read returns a fresh byte exactly if nothing was received before.**  The byte that is
latched was on the pads after the instant in which the command word was accepted if and only
if the receive path was empty behind the clock edges of that instant. -/
theorem read_fresh_iff {earlier waiting : List (Edges (BitVec 8))} {request answer : Edges (BitVec 8)}
    {s s' : Nat × State F} (hs : (timed F).run start earlier = s)
    (haccepts : accepts s.2 (request.stamp s.1) = true)
    (hs' : (timed F).run ((timed F).next s request) waiting = s')
    (hwaits : (timed F).AllSteps Waits ((timed F).next s request) waiting)
    (hlatches : latches s'.2 (answer.stamp s'.1) = true) :
    earlier.length < ((timed F).next s' answer).2.core.regDatR.time ↔
      path ((timed F).next s request).2 = [] := by
  have htime : s.1 = earlier.length := by
    rw [← hs, time_run]
    exact Nat.zero_add _
  have hlatched := latched hlatches
  constructor
  · intro hfresh
    by_contra hne
    -- the byte in front is of the past, and it is the one that is latched
    obtain ⟨x, q, hpath⟩ := List.exists_cons_of_ne_nil hne
    have hhead : (path ((timed F).next s request).2).head? = some x := by rw [hpath]; rfl
    have hstale := waits_head (fsm_of_accepts haccepts) hhead hwaits
    rw [hs', hlatched] at hstale
    have hold := time_lt_of_mem_path (F := F) (earlier ++ [request]) x (by
      rw [Machine.run_append, hs]
      exact List.mem_of_mem_head? hhead)
    rw [List.length_append, List.length_singleton, ← Option.some.inj hstale] at hold
    change earlier.length < (next s'.2 (answer.stamp s'.1)).core.regDatR.time at hfresh
    omega
  · intro hempty
    have hyoung := time_of_empty hempty waiting
    rw [hs'] at hyoung
    have hle := hyoung _ (List.mem_of_mem_head? hlatched)
    change s.1 + 1 ≤ _ at hle
    rwa [htime] at hle

/-- Crossings with two synchronizers, and FIFOs that are lists. -/
def Config.synchronized (δ : Type) [Inhabited δ] : Config δ where
  fifoSink := AsyncFIFO.synchronized TxBeat 4
  fifoSource := AsyncFIFO.synchronized (RxBeat δ) 4
  phy := ULPIPHYS7.Config.queues δ

/-- An instant with an edge of both clocks, while the capture is stalled. -/
def stalled (read dir : Bool) (data : BitVec 8) : Edges (BitVec 8) where
  sys := some { (default : ULPICore.In) with regAdr := 4, regRead := read, enableSource := true }
  ulpi := some ⟨dir, true, data⟩

/-- A read is strobed, and four bytes are flushed. -/
def readStrobe : List (Edges (BitVec 8)) :=
  stalled true false 0 :: List.replicate 4 (stalled false false 0)

/-- Nobody takes the twelve bytes that are received before the read. -/
def readBehindCapture : List (Edges (BitVec 8)) :=
  List.replicate 13 (stalled false true 0xaa) ++ stalled false false 0 :: readStrobe

/-- The fifth of them is latched in the instant after the command word is accepted. -/
theorem read_stale :
    accepts ((timed (Config.synchronized Stamped)).run start readBehindCapture).2
        ((stalled false false 0).stamp 19) = true ∧
      latches ((timed (Config.synchronized Stamped)).run start
        (readBehindCapture ++ [stalled false false 0])).2 ((stalled false true 0x3c).stamp 20) = true ∧
      ((timed (Config.synchronized Stamped)).run start
        (readBehindCapture ++ [stalled false false 0, stalled false true 0x3c])).2.core.regDatR =
          ⟨5, 0xaa⟩ ∧
      5 < readBehindCapture.length := by
  decide +kernel

/-- With nothing received before, the answer is latched. -/
theorem read_fresh_iff_answer :
    readStrobe.length < ((timed (Config.synchronized Stamped)).run start
      (readStrobe ++ stalled false false 0 ::
        List.replicate 7 (stalled false true 0x3c))).2.core.regDatR.time := by
  have h := @read_fresh_iff (Config.synchronized Stamped) readStrobe
    (List.replicate 6 (stalled false true 0x3c)) (stalled false false 0) (stalled false true 0x3c)
    _ _ rfl (by decide +kernel) rfl (by decide +kernel) (by decide +kernel)
  exact h.mpr (by decide +kernel)

end ULPIPHY

end UsbSniffer.Ulpi
