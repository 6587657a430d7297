/-
  Usb/Depacketizer.lean --- the depacketizer of gateware/usb.py.

  In IDLE it drops words up to the preamble.  The two header words that follow go
  into a packer of their own, whose handshake is not the one of the sink: it is
  offered every word of RECEIVE_HEADER and is emptied in IDLE.  In COPY `cnt`
  counts the beats of the payload, and the last one is where `cnt` meets the
  length.  A timer that runs outside IDLE brings it back there.

  The word on the packer is looked at in COPY only, where it is whole.
-/
import UsbSniffer.Usb.Packetizer

set_option autoImplicit false

namespace UsbSniffer.Usb.USBDepacketizer

open UsbSniffer.Sync

/-- The library blocks. -/
structure Config where
  HeaderPack : Pack (BitVec 32) 2
  Timer : ReloadTimer

/-- The states of `USBDepacketizer`. -/
inductive Fsm
  | idle
  | receiveHeader
  | copy
  deriving DecidableEq, Repr

/-- The registers of the depacketizer. -/
structure State (D : Config) where
  headerPack : D.HeaderPack.State
  timer : D.Timer.State
  cnt : BitVec 32
  fsm : Fsm

/-- The word offered, and the answer to the beat. -/
structure In where
  sinkValid : Bool
  sinkData : BitVec 32
  sourceReady : Bool
  deriving DecidableEq, Repr

/-- The answer to the word, and the beat. -/
structure Out where
  sinkReady : Bool
  source : UserSource
  /-- `fsm.ongoing("IDLE")`. -/
  idle : Bool
  deriving DecidableEq, Repr

variable {D : Config}

/-- No packet is there. -/
def init : State D where
  headerPack := D.HeaderPack.init
  timer := D.Timer.init
  cnt := 0
  fsm := .idle

/-- The chunks in `header_pack`. -/
def loaded (s : State D) : List (BitVec 32) := D.HeaderPack.loaded s.headerPack

/-- `header_pack.source.valid`. -/
def full (s : State D) : Bool := D.HeaderPack.full s.headerPack

/-- `timer.done`. -/
def done (s : State D) : Bool := D.Timer.done s.timer

/-- `source.dst`. -/
def dst (s : State D) : BitVec 8 := ((loaded s).getD 0 0).setWidth 8

/-- `source.length`. -/
def length (s : State D) : BitVec 32 := (loaded s).getD 1 0

/-- `last`: the subtraction has the width of `cnt`. -/
def last (s : State D) : Bool := s.cnt == (slice (length s) 2 32).setWidth 32 - 1

/-- `sink.ready`. -/
def sinkReady (s : State D) (sourceReady : Bool) : Bool :=
  match s.fsm with
  | .idle => true
  | .receiveHeader => !done s && !full s
  | .copy => sourceReady

/-- `source.valid`. -/
def sourceValid (s : State D) (sinkValid : Bool) : Bool :=
  match s.fsm with
  | .copy => sinkValid
  | _ => false

/-- `source`. -/
def source (s : State D) (i : In) : UserSource where
  valid := sourceValid s i.sinkValid
  last := s.fsm == .copy && last s
  dst := dst s
  length := length s
  data := if s.fsm = .copy then i.sinkData else 0

/-- The outputs in a cycle. -/
def out (s : State D) (i : In) : Out where
  sinkReady := sinkReady s i.sourceReady
  source := source s i
  idle := s.fsm == .idle

/-- The clock edge. -/
def next (s : State D) (i : In) : State D :=
  let packed := D.HeaderPack.next s.headerPack (s.fsm == .receiveHeader && i.sinkValid) i.sinkData
    (s.fsm == .idle)
  { -- the packer is reset by the timer
    headerPack := if done s then D.HeaderPack.clear packed else packed
    timer := D.Timer.next s.timer (s.fsm != .idle)
    cnt :=
      if s.fsm = .idle then 0
      else if sourceValid s i.sinkValid && i.sourceReady then s.cnt + 1 else s.cnt
    fsm :=
      match s.fsm with
      | .idle => if i.sinkData == preamble && i.sinkValid then .receiveHeader else .idle
      | .receiveHeader => if done s then .idle else if full s then .copy else .receiveHeader
      | .copy =>
          if (sourceValid s i.sinkValid && i.sourceReady && last s) || done s then .idle
          else .copy }

/-- `USBDepacketizer`. -/
def machine (D : Config) : Machine (State D) In Out where
  out := out
  next := next

/-- The word accepted on `sink` in a cycle. -/
def sinkWord (c : In × Out) : List (BitVec 32) :=
  beat c.1.sinkValid c.2.sinkReady c.1.sinkData

/-- The beat accepted on `source` in a cycle. -/
def sourceBeat (c : In × Out) : List UserSource :=
  beat c.2.source.valid c.1.sourceReady c.2.source

/-- The timer is not done. -/
def NoExpiry (s : State D) (_ : In) : Prop := done s = false

instance (s : State D) (i : In) : Decidable (NoExpiry s i) :=
  inferInstanceAs (Decidable (_ = _))

/-! ## What a cycle does -/

/-- The packer outside its reset. -/
theorem loaded_next (s : State D) (i : In) : loaded (next s i) =
    if done s then []
    else if full s then
      (if s.fsm = .idle then [] else loaded s)
    else loaded s ++ beat (s.fsm == .receiveHeader && i.sinkValid) true i.sinkData := by
  unfold next loaded
  dsimp only
  by_cases hdone : done s = true
  · rw [if_pos hdone, if_pos hdone, D.HeaderPack.loaded_clear]
  · rw [if_neg hdone, if_neg hdone, D.HeaderPack.loaded_next]
    unfold full Pack.full
    have hidle : (Fsm.idle == Fsm.receiveHeader) = false := rfl
    cases s.fsm <;> simp [hidle]

/-- IDLE drops words up to the preamble, and empties the packer. -/
theorem next_idle {s : State D} (hfsm : s.fsm = .idle) (i : In) :
    (next s i).cnt = 0 ∧ (next s i).timer = D.Timer.init ∧
      (loaded (next s i) = if done s || full s then [] else loaded s) ∧
      (next s i).fsm =
        if i.sinkData == preamble && i.sinkValid then .receiveHeader else .idle := by
  refine ⟨by simp [next, hfsm], ?_, ?_, by simp [next, hfsm]⟩
  · simp [next, hfsm, D.Timer.next_low]
  · have hidle : (Fsm.idle == Fsm.receiveHeader) = false := rfl
    rw [loaded_next, hfsm]
    cases done s <;> cases full s <;> simp [hidle]

/-- RECEIVE_HEADER fills the packer and leaves for COPY once it is full. -/
theorem next_header {s : State D} (hfsm : s.fsm = .receiveHeader) (hdone : done s = false)
    (i : In) :
    (next s i).cnt = s.cnt ∧
      (loaded (next s i) =
        if full s then loaded s else loaded s ++ beat i.sinkValid true i.sinkData) ∧
      (next s i).fsm = if full s then .copy else .receiveHeader := by
  refine ⟨by simp [next, hfsm, sourceValid], ?_, by simp [next, hfsm, hdone]⟩
  rw [loaded_next, hfsm, hdone]
  simp

/-- COPY counts the beats up to the last one. -/
theorem next_copy {s : State D} (hfsm : s.fsm = .copy) (hdone : done s = false)
    (hfull : full s = true) (i : In) :
    (next s i).cnt = (if i.sinkValid && i.sourceReady then s.cnt + 1 else s.cnt) ∧
      loaded (next s i) = loaded s ∧
      (next s i).fsm = if i.sinkValid && i.sourceReady && last s then .idle else .copy := by
  refine ⟨by simp [next, hfsm, sourceValid], ?_, by simp [next, hfsm, hdone, sourceValid]⟩
  rw [loaded_next, hfsm, hdone, hfull]
  simp

/-- The timer brings RECEIVE_HEADER and COPY back to IDLE with an empty packer. -/
theorem next_done {s : State D} (hfsm : s.fsm ≠ .idle) (hdone : done s = true) (i : In) :
    (next s i).fsm = .idle ∧ loaded (next s i) = [] := by
  constructor
  · unfold next
    cases hf : s.fsm with
    | idle => exact absurd hf hfsm
    | receiveHeader => simp [hdone]
    | copy => simp [hdone]
  · rw [loaded_next, if_pos hdone]

/-- The beat is the last one when, counted in, it makes the beats a quarter of the
length, as numbers of 32 bits. -/
theorem last_iff (s : State D) :
    last s = true ↔ (s.cnt.toNat + 1) % 2 ^ 32 = (length s).toNat / 4 := by
  have hlt := (length s).isLt
  have hquarter : ((slice (length s) 2 32).setWidth 32).toNat = (length s).toNat / 4 := by
    simp [slice, BitVec.extractLsb'_toNat, Nat.shiftRight_eq_div_pow]
    omega
  have hcnt := s.cnt.isLt
  unfold last
  rw [beq_iff_eq, ← BitVec.toNat_inj, BitVec.toNat_sub, hquarter]
  simp
  omega

/-! ## The invariant -/

/-- The packer holds no single chunk in IDLE and a whole word in COPY, and the beats are
counted from the header on. -/
structure Inv (s : State D) : Prop where
  idle : s.fsm = .idle → loaded s = [] ∨ full s = true
  header : s.fsm = .receiveHeader → s.cnt = 0
  copy : s.fsm = .copy → full s = true

theorem inv_init : Inv (init : State D) where
  idle := fun _ => Or.inl D.HeaderPack.loaded_init
  header := by simp [init]
  copy := by simp [init]

/-- A full packer holds its chunks until IDLE. -/
theorem full_of_loaded_eq {s s' : State D} (h : loaded s' = loaded s) : full s' = full s := by
  unfold full Pack.full
  unfold loaded at h
  rw [h]

theorem inv_next {s : State D} (i : In) (hInv : Inv s) : Inv (next s i) := by
  by_cases hfsm : s.fsm = .idle
  · obtain ⟨hcnt, -, hloaded, hnext⟩ := next_idle hfsm i
    have hempty : loaded (next s i) = [] := by
      rw [hloaded]
      rcases hInv.idle hfsm with h | h
      · simp [h]
      · simp [h]
    refine ⟨fun _ => Or.inl hempty, fun _ => hcnt, fun h => ?_⟩
    rw [hnext] at h
    split_ifs at h
  · cases hdone : done s with
    | true =>
      obtain ⟨hidle, hempty⟩ := next_done hfsm hdone i
      exact ⟨fun _ => Or.inl hempty, fun h => by simp [hidle] at h, fun h => by simp [hidle] at h⟩
    | false =>
      cases hf : s.fsm with
      | idle => exact absurd hf hfsm
      | receiveHeader =>
        obtain ⟨hcnt, hloaded, hnext⟩ := next_header hf hdone i
        refine ⟨fun h => ?_, fun _ => hcnt.trans (hInv.header hf), fun h => ?_⟩
        · rw [hnext] at h
          split_ifs at h
        · cases hfull : full s with
          | true =>
            rw [hfull, if_pos rfl] at hloaded
            rw [full_of_loaded_eq hloaded, hfull]
          | false => simp [hnext, hfull] at h
      | copy =>
        have hfull := hInv.copy hf
        obtain ⟨-, hloaded, hnext⟩ := next_copy hf hdone hfull i
        have hfull' : full (next s i) = true := (full_of_loaded_eq hloaded).trans hfull
        refine ⟨fun _ => Or.inr hfull', fun h => ?_, fun _ => hfull'⟩
        rw [hnext] at h
        split_ifs at h

theorem inv_run (is : List In) : Inv ((machine D).run init is) :=
  (machine D).history_induction_always (fun s _ => Inv s) inv_init
    (fun _ _ i hInv => inv_next i hInv) is

/-! ## The length delimits the payload -/

/-- COPY is left with the word that makes the words consumed a quarter of the length;
they are the beats of the packet, and a preamble in the next word is taken up. -/
def Delimits (s : State D) : Prop :=
  ∀ is, (machine D).AllSteps NoExpiry s is →
    let tr := (machine D).trace s is
    let s' := (machine D).run s is
    (moved sinkWord tr).length ≤ (length s).toNat / 4 →
      (moved sourceBeat tr).map UserSource.data = moved sinkWord tr ∧
        s'.fsm = (if (moved sinkWord tr).length = (length s).toNat / 4 then .idle else .copy) ∧
        ((moved sinkWord tr).length = (length s).toNat / 4 →
          ∀ i, i.sinkValid = true → i.sinkData = preamble → (next s' i).fsm = .receiveHeader)

/-- Where the payload of the packet with header `s₀` stands. -/
structure Payload (s₀ s : State D) (words : List (BitVec 32)) (beats : List UserSource) :
    Prop where
  data : words.length ≤ (length s₀).toNat / 4 → beats.map UserSource.data = words
  open_of_lt : words.length < (length s₀).toNat / 4 →
    s.fsm = .copy ∧ full s = true ∧ length s = length s₀ ∧ s.cnt.toNat = words.length
  closed_of_eq : words.length = (length s₀).toNat / 4 → s.fsm = .idle

/-- A cycle in COPY: a word consumed is a beat, and the last one leaves the state. -/
theorem payload_copy {s₀ s : State D} {words : List (BitVec 32)} {beats : List UserSource}
    (i : In) (hdone : done s = false) (h : Payload s₀ s words beats)
    (hlen : words.length < (length s₀).toNat / 4) :
    Payload s₀ (next s i) (words ++ sinkWord (i, out s i)) (beats ++ sourceBeat (i, out s i)) := by
  have hlt := (length s₀).isLt
  obtain ⟨hfsm, hfull, hlength, hcnt⟩ := h.open_of_lt hlen
  obtain ⟨hcnt', hloaded, hnext⟩ := next_copy hfsm hdone hfull i
  have hsink : sinkWord (i, out s i) = beat i.sinkValid i.sourceReady i.sinkData := by
    simp [sinkWord, out, sinkReady, hfsm]
  have hsource : (sourceBeat (i, out s i)).map UserSource.data =
      beat i.sinkValid i.sourceReady i.sinkData := by
    simp only [sourceBeat, out, source, sourceValid, hfsm]
    cases i.sinkValid <;> cases i.sourceReady <;> simp
  have hlength' : length (next s i) = length s₀ := by
    rw [← hlength, length, length, hloaded]
  have hfull' : full (next s i) = true := (full_of_loaded_eq hloaded).trans hfull
  have hlast := last_iff s
  rw [hlength, hcnt] at hlast
  rw [hsink]
  have hdata : (beats ++ sourceBeat (i, out s i)).map UserSource.data =
      words ++ beat i.sinkValid i.sourceReady i.sinkData := by
    rw [List.map_append, h.data (Nat.le_of_lt hlen), hsource]
  cases hfire : i.sinkValid && i.sourceReady with
  | false =>
    rw [hfire] at hcnt' hnext
    rw [beat_of_quiet hfire, List.append_nil] at hdata ⊢
    exact ⟨fun _ => hdata, fun _ => ⟨hnext, hfull', hlength', by rw [hcnt', ← hcnt]; rfl⟩,
      fun heq => by omega⟩
  | true =>
    rw [hfire] at hcnt' hnext
    rw [beat_of_fire hfire] at hdata ⊢
    have hgrow : (words ++ [i.sinkData]).length = words.length + 1 := by simp
    rw [Nat.mod_eq_of_lt (by omega)] at hlast
    refine ⟨fun _ => hdata, fun hmore => ⟨?_, hfull', hlength', ?_⟩, fun heq => ?_⟩
    · have hnot : last s = false := by
        rw [← Bool.not_eq_true, hlast]
        omega
      rw [hnext, hnot]
      rfl
    · rw [hcnt', if_pos rfl, BitVec.toNat_add, hcnt, hgrow]
      simp
      omega
    · have hyes : last s = true := hlast.mpr (by omega)
      rw [hnext, hyes]
      rfl

/-- A cycle in IDLE behind the payload. -/
theorem payload_idle {s₀ s : State D} {words : List (BitVec 32)} {beats : List UserSource}
    (i : In) (h : Payload s₀ s words beats) (hlen : words.length = (length s₀).toNat / 4) :
    Payload s₀ (next s i) (words ++ sinkWord (i, out s i)) (beats ++ sourceBeat (i, out s i)) := by
  have hfsm := h.closed_of_eq hlen
  have hsource : sourceBeat (i, out s i) = [] := by
    simp [sourceBeat, out, source, sourceValid, hfsm]
  have hsink : sinkWord (i, out s i) = beat i.sinkValid true i.sinkData := by
    simp [sinkWord, out, sinkReady, hfsm]
  obtain ⟨-, -, -, hnext⟩ := next_idle hfsm i
  rw [hsource, hsink, List.append_nil]
  cases hvalid : i.sinkValid with
  | false =>
    -- nothing is offered in IDLE
    rw [hvalid, Bool.and_false] at hnext
    rw [beat_false_left, List.append_nil]
    exact ⟨h.data, fun hmore => by omega, fun _ => hnext⟩
  | true =>
    have hgrow : (words ++ [i.sinkData]).length = words.length + 1 := by simp
    rw [beat_true_true]
    exact ⟨fun hle => by omega, fun hmore => by omega, fun heq => by omega⟩

theorem payload_next {s₀ s : State D} {words : List (BitVec 32)} {beats : List UserSource}
    (i : In) (hdone : done s = false) (h : Payload s₀ s words beats) :
    Payload s₀ (next s i) (words ++ sinkWord (i, out s i)) (beats ++ sourceBeat (i, out s i)) := by
  rcases Nat.lt_trichotomy words.length ((length s₀).toNat / 4) with hlen | hlen | hlen
  · exact payload_copy i hdone h hlen
  · exact payload_idle i h hlen
  · have hgrow : (length s₀).toNat / 4 < (words ++ sinkWord (i, out s i)).length := by
      rw [List.length_append]
      omega
    exact ⟨fun h => by omega, fun h => by omega, fun h => by omega⟩

theorem delimits_of_le {s : State D} (hfsm : s.fsm = .copy) (hfull : full s = true)
    (hcnt : s.cnt = 0) (hlen : 4 ≤ (length s).toNat) : Delimits s := by
  intro is hok tr s' hle
  have hrun := (machine D).history_induction NoExpiry
    (fun t tr => Payload s t (moved sinkWord tr) (moved sourceBeat tr))
    ⟨fun _ => rfl, fun _ => ⟨hfsm, hfull, rfl, by simp [hcnt]⟩, fun h => by simp at h; omega⟩
    (by
      intro t tr i hdone h
      rw [moved_append, moved_append, moved_singleton, moved_singleton]
      exact payload_next i hdone h)
    is hok
  refine ⟨hrun.data hle, ?_, ?_⟩
  · split_ifs with heq
    · exact hrun.closed_of_eq heq
    · exact (hrun.open_of_lt (Nat.lt_of_le_of_ne hle heq)).1
  · intro heq i hvalid hdata
    rw [(next_idle (hrun.closed_of_eq heq) i).2.2.2, hvalid, hdata]
    rfl

/-- **A header with a length of at least four delimits its packet, and no other does.** -/
theorem delimits_iff (is : List In) (i : In)
    (hheader : ((machine D).run init is).fsm = .receiveHeader)
    (hcopy : (next ((machine D).run init is) i).fsm = .copy) :
    Delimits (next ((machine D).run init is) i) ↔
      4 ≤ (length (next ((machine D).run init is) i)).toNat := by
  have hInv := inv_run (D := D) is
  have hInv' := inv_next i hInv
  constructor
  · intro h
    by_contra hshort
    -- no word is left to consume, but the machine is in COPY
    have hzero : (length (next ((machine D).run init is) i)).toNat / 4 = 0 := by omega
    have hidle := (h [] trivial (Nat.zero_le _)).2.1
    rw [hzero] at hidle
    rw [show (machine D).run (next ((machine D).run init is) i) [] =
      next ((machine D).run init is) i from rfl, hcopy] at hidle
    cases hidle
  · intro hlen
    have hcnt : (next ((machine D).run init is) i).cnt = 0 := by
      unfold next
      simp [hheader, sourceValid, hInv.header hheader]
    exact delimits_of_le hcopy (hInv'.copy hcopy) hcnt hlen

/-- The depacketizer with a timer of the given period. -/
def withPeriod (period : Nat) (hperiod : 0 < period) : Config where
  HeaderPack := Pack.chunks (BitVec 32) 2 (by decide)
  Timer := ReloadTimer.counter period hperiod

/-- A cycle in which a word is offered to a ready source. -/
def wordCycle (sinkData : BitVec 32) : In := ⟨true, sinkData, true⟩

/-- A header that announces no payload: the machine waits for a payload all the same,
and takes the next packet for it. -/
theorem empty_packet_not_delimited :
    let s := next ((machine (withPeriod 1000 (by decide))).run init
      [wordCycle preamble, wordCycle 0, wordCycle 0]) (wordCycle preamble)
    (length s).toNat / 4 = 0 ∧ ¬ Delimits s ∧
      ((machine (withPeriod 1000 (by decide))).run s
        [wordCycle preamble, wordCycle 0, wordCycle 4]).fsm = .copy := by
  refine ⟨by decide, fun h => ?_, by decide⟩
  have hidle := (h [] trivial (by decide)).2.1
  revert hidle
  decide

theorem delimits_four :
    let t := (machine (withPeriod 1000 (by decide))).run init
      [wordCycle preamble, wordCycle 0, wordCycle 4]
    Delimits (next t (wordCycle 7)) ↔ 4 ≤ (length (next t (wordCycle 7))).toNat :=
  delimits_iff (D := withPeriod 1000 (by decide)) _ (wordCycle 7) (by decide) (by decide)

end UsbSniffer.Usb.USBDepacketizer
