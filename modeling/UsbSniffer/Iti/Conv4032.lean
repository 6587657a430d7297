/-
  Iti/Conv4032.lean --- the byte repacker of gateware/iti.py.

  `Conv4032` takes beats of two to five bytes (`len + 2` low bytes of a 40 bit
  word) and gives 32 bit words.  Bytes that do not fill a word wait in `tmp`, of
  which only the low `remain` bytes are current; the others are stale.  When
  three waiting bytes meet a beat of five the cycle fills two words, and the
  second one is sent from the extra state.

  The module shows that it is a queue of bytes.
-/
import Mathlib.Data.BitVec
import UsbSniffer.Sync.Bits
import UsbSniffer.Sync.Queue

set_option autoImplicit false

namespace UsbSniffer.Iti.Conv4032

open UsbSniffer.Sync

/-! ## The module -/

/-- The states of `Conv4032`. -/
inductive Fsm
  | normal
  | sendExtra
  deriving DecidableEq, Repr

/-- The bytes kept, their number, and the state. -/
structure State where
  tmp : BitVec 32
  remain : BitVec 2
  fsm : Fsm
  deriving DecidableEq, Repr

/-- The beat offered, with its number of bytes less two, and the answer to the word. -/
structure In where
  sinkValid : Bool
  sinkData : BitVec 40
  sinkLen : BitVec 2
  sourceReady : Bool
  deriving DecidableEq, Repr

/-- The answer to the beat, and the word offered. -/
structure Out where
  sinkReady : Bool
  sourceValid : Bool
  sourceData : BitVec 32
  deriving DecidableEq, Repr

/-- The numbers computed for one entry of `cases_comb`: `a` bytes wait, the beat
has `b + 2`, `tmp[d:f]` is loaded from `sink.data[e:(b+2)*8]`, and `v` tells
whether the cycle fills a word. -/
structure CaseBounds where
  a : Nat
  b : Nat
  c : Nat
  d : Nat
  e : Nat
  f : Nat
  v : Bool
  deriving DecidableEq, Repr

/-- The body of the loop over the sixteen values of `Cat(sink.len, remain)`. -/
def caseBounds (i : Nat) : CaseBounds :=
  let a := (i &&& 0xc) >>> 2
  let b := i &&& 3
  let c := a + b + 2
  let short := a + b + 2 < 4
  let f := c * 8
  { a, b, c
    d := if short then a * 8 else 0
    e := if short then 0 else (4 - a) * 8
    f := if f > 32 then f - 32 else f
    v := !decide short }

/-- What the selected case drives on `source.data` while `sink.valid`. -/
def mergedData (k : CaseBounds) (tmp : BitVec 32) (sinkData : BitVec 40) : BitVec 32 :=
  if k.a ≠ 0 then
    (cat (slice tmp 0 (k.a * 8)) (slice sinkData 0 ((4 - k.a) * 8))).setWidth 32
  else (slice sinkData 0 ((4 - k.a) * 8)).setWidth 32

/-- What the selected case leaves in `tmp` when the beat is taken. -/
def loadedTmp (k : CaseBounds) (tmp : BitVec 32) (sinkData : BitVec 40) : BitVec 32 :=
  if k.e ≠ (k.b + 2) * 8 then
    assign tmp k.d k.f (slice sinkData k.e ((k.b + 2) * 8))
  else tmp

/-- The case that `Cat(sink.len, remain)` selects. -/
def selected (s : State) (i : In) : CaseBounds :=
  caseBounds (cat i.sinkLen s.remain).toNat

/-- Case 15 brings the module to sending the last `tmp`. -/
def sendNext (s : State) (i : In) : Bool := (cat i.sinkLen s.remain).toNat == 15

/-- The outputs in a cycle. -/
def out (s : State) (i : In) : Out :=
  match s.fsm with
  | .normal =>
      let k := selected s i
      let sourceValid := k.v && i.sinkValid
      { sinkReady := (sourceValid && i.sourceReady) || !sourceValid
        sourceValid
        sourceData := if i.sinkValid then mergedData k s.tmp i.sinkData else 0 }
  | .sendExtra =>
      { sinkReady := false
        sourceValid := true
        sourceData := s.tmp }

/-- The clock edge. -/
def next (s : State) (i : In) : State :=
  match s.fsm with
  | .normal =>
      let k := selected s i
      let o := out s i
      let taken := i.sinkValid && o.sinkReady
      { tmp := if taken then loadedTmp k s.tmp i.sinkData else s.tmp
        remain := if taken then BitVec.ofNat 2 (k.c &&& 3) else s.remain
        fsm :=
          if sendNext s i && i.sinkValid && o.sourceValid && i.sourceReady then
            .sendExtra
          else .normal }
  | .sendExtra =>
      { s with fsm := if i.sourceReady then .normal else .sendExtra }

/-- `Conv4032`. -/
def machine : Machine State In Out where
  out := out
  next := next

/-- No byte is kept. -/
def init : State where
  tmp := 0
  remain := 0
  fsm := .normal

/-! ## The bytes on the two interfaces and inside -/

/-- The low `len + 2` bytes of the beat accepted on `sink`. -/
def sinkBytes (c : In × Out) : List (BitVec 8) :=
  (beat c.1.sinkValid c.2.sinkReady c.1.sinkData).flatMap
    (bytes (c.1.sinkLen.toNat + 2))

/-- The word accepted on `source`, low byte first. -/
def sourceBytes (c : In × Out) : List (BitVec 8) :=
  (beat c.2.sourceValid c.1.sourceReady c.2.sourceData).flatMap (bytes 4)

/-- The bytes still inside. -/
def held (s : State) : List (BitVec 8) :=
  match s.fsm with
  | .normal => bytes s.remain.toNat s.tmp
  | .sendExtra => bytes 4 s.tmp

/-- The bounds of a case, in terms of the waiting bytes and the bytes of the
beat. -/
theorem selected_eq (s : State) (i : In) :
    (selected s i).a = s.remain.toNat ∧ (selected s i).b = i.sinkLen.toNat ∧
      (selected s i).c = s.remain.toNat + i.sinkLen.toNat + 2 ∧
      (selected s i).v = !decide (s.remain.toNat + i.sinkLen.toNat + 2 < 4) := by
  unfold selected
  generalize s.remain = remain
  generalize i.sinkLen = len
  revert remain len
  decide

/-- Where a beat that fills no word is loaded. -/
theorem selected_short (s : State) (i : In) :
    (selected s i).a + (selected s i).b + 2 < 4 →
      (selected s i).d = (selected s i).a * 8 ∧ (selected s i).e = 0 ∧
        (selected s i).f = ((selected s i).a + (selected s i).b + 2) * 8 := by
  unfold selected
  generalize s.remain = remain
  generalize i.sinkLen = len
  revert remain len
  decide

/-- Where the tail of a beat that fills a word is loaded. -/
theorem selected_full (s : State) (i : In) :
    4 ≤ (selected s i).a + (selected s i).b + 2 →
      (selected s i).d = 0 ∧ (selected s i).e = (4 - (selected s i).a) * 8 ∧
        ((selected s i).a + (selected s i).b + 2 ≠ 4 →
          (selected s i).f = ((selected s i).a + (selected s i).b - 2) * 8) := by
  unfold selected
  generalize s.remain = remain
  generalize i.sinkLen = len
  revert remain len
  decide

theorem sendNext_eq (s : State) (i : In) :
    sendNext s i = decide (s.remain.toNat + i.sinkLen.toNat = 6) := by
  unfold sendNext
  generalize s.remain = remain
  generalize i.sinkLen = len
  revert remain len
  decide

/-! ## One cycle -/

/-- A beat that fills no word is appended to the waiting bytes. -/
theorem append_short (tmp : BitVec 32) (data : BitVec 40) {k : CaseBounds}
    (hshort : k.a + k.b + 2 < 4) (hd : k.d = k.a * 8) (he : k.e = 0)
    (hf : k.f = (k.a + k.b + 2) * 8) :
    bytes k.a tmp ++ bytes (k.b + 2) data =
      bytes (k.a + k.b + 2) (loadedTmp k tmp data) := by
  have hload : loadedTmp k tmp data = assign tmp (k.a * 8) ((k.a + k.b + 2) * 8)
      (slice data 0 ((k.b + 2) * 8)) := by
    rw [loadedTmp, if_pos (by omega), hd, he, hf]
  apply List.ext_getElem
  · simp; omega
  · intro j hj _
    simp only [List.length_append, length_bytes] at hj
    simp only [List.getElem_append, length_bytes, getElem_bytes, hload]
    split_ifs with hja
    · exact (byte_assign_of_disjoint _ _ (by omega) (by omega) (by omega)).symm
    · rw [byte_assign_of_mem _ _ rfl (by omega) (by omega) (by omega) (by omega),
        byte_slice data (Nat.zero_mul 8).symm (by omega), Nat.zero_add]

/-- The merged word: the waiting bytes and then bytes of the beat. -/
theorem byte_mergedData {k : CaseBounds} (tmp : BitVec 32) (data : BitVec 40) {j : Nat}
    (ha : k.a < 4) (hj : j < 4) :
    byte (mergedData k tmp data) j =
      if j < k.a then byte tmp j else byte data (j - k.a) := by
  unfold mergedData
  split_ifs with hzero hlt hlt
  · rw [byte_setWidth _ (by omega), byte_cat_of_lt _ _ (by omega),
      byte_slice tmp (Nat.zero_mul 8).symm (by omega), Nat.zero_add]
  · rw [byte_setWidth _ (by omega), byte_cat_of_ge _ _ (Nat.sub_zero _) (by omega),
      byte_slice data (Nat.zero_mul 8).symm (by omega), Nat.zero_add]
  · omega
  · rw [byte_setWidth _ (by omega),
      byte_slice data (Nat.zero_mul 8).symm (by omega), Nat.zero_add,
      show j - k.a = j by omega]

/-- A beat that fills a word gives it, and its last bytes become the waiting
ones. -/
theorem append_full (tmp : BitVec 32) (data : BitVec 40) {k : CaseBounds}
    (ha : k.a < 4) (hb : k.b < 4) (hfull : 4 ≤ k.a + k.b + 2) (hd : k.d = 0)
    (he : k.e = (4 - k.a) * 8) (hf : k.a + k.b + 2 ≠ 4 → k.f = (k.a + k.b - 2) * 8) :
    bytes k.a tmp ++ bytes (k.b + 2) data =
      bytes 4 (mergedData k tmp data) ++ bytes (k.a + k.b - 2) (loadedTmp k tmp data) := by
  apply List.ext_getElem
  · simp; omega
  · intro j hj _
    simp only [List.length_append, length_bytes] at hj
    simp only [List.getElem_append, length_bytes, getElem_bytes]
    by_cases hword : j < 4
    · rw [dif_pos hword, byte_mergedData tmp data ha hword]
      split_ifs <;> rfl
    · have hne : k.e ≠ (k.b + 2) * 8 := by omega
      have hload : loadedTmp k tmp data = assign tmp 0 ((k.a + k.b - 2) * 8)
          (slice data ((4 - k.a) * 8) ((k.b + 2) * 8)) := by
        rw [loadedTmp, if_pos hne, hd, hf (by omega), he]
      rw [dif_neg (by omega), dif_neg hword, hload,
        byte_assign_of_mem _ _ (Nat.zero_mul 8).symm (by omega) (by omega) (by omega)
          (by omega),
        byte_slice data rfl (by omega)]
      congr 1
      omega

/-- While the extra word waits, no other byte does. -/
def Inv (s : State) : Prop := s.fsm = .sendExtra → s.remain = 0

theorem inv_init : Inv init := by
  intro h
  cases h

theorem inv_next (s : State) (i : In) (h : Inv s) : Inv (next s i) := by
  intro hextra
  cases hfsm : s.fsm with
  | sendExtra =>
    simp only [next, hfsm]
    exact h hfsm
  | normal =>
    simp only [next, hfsm, sendNext_eq] at hextra ⊢
    have hgo : s.remain.toNat + i.sinkLen.toNat = 6 ∧ i.sinkValid = true ∧
        (out s i).sinkReady = true := by
      split at hextra
      · rename_i hcond
        simp only [Bool.and_eq_true, decide_eq_true_eq] at hcond
        obtain ⟨⟨⟨hsix, hvalid⟩, hsource⟩, hready⟩ := hcond
        refine ⟨hsix, hvalid, ?_⟩
        simp only [out, hfsm] at hsource ⊢
        simp [hsource, hready]
      · cases hextra
    obtain ⟨hsix, hvalid, hready⟩ := hgo
    obtain ⟨-, -, hc, -⟩ := selected_eq s i
    simp only [hvalid, hready, Bool.and_self, if_true, hc, hsix]
    rfl

/-- A cycle in which no beat is offered moves nothing. -/
theorem step_idle {s : State} {i : In} (hfsm : s.fsm = .normal)
    (hvalid : i.sinkValid = false) :
    QueueStep (held s) (sinkBytes (i, out s i)) (sourceBytes (i, out s i))
      (held (next s i)) := by
  have hsink : sinkBytes (i, out s i) = [] := by simp [sinkBytes, hvalid]
  have hsource : sourceBytes (i, out s i) = [] := by
    simp [sourceBytes, out, hfsm, hvalid]
  have hnext : next s i = s := by
    cases s
    simp only at hfsm
    subst hfsm
    simp [next, hvalid]
  rw [hsink, hsource, hnext]
  exact List.append_nil _

/-- A beat that fills no word is taken at once. -/
theorem step_short {s : State} {i : In} (hfsm : s.fsm = .normal)
    (hvalid : i.sinkValid = true) (hshort : s.remain.toNat + i.sinkLen.toNat + 2 < 4) :
    QueueStep (held s) (sinkBytes (i, out s i)) (sourceBytes (i, out s i))
      (held (next s i)) := by
  obtain ⟨ha, hb, hc, hv⟩ := selected_eq s i
  rw [decide_eq_true hshort, Bool.not_true] at hv
  obtain ⟨hd, he, hf⟩ := selected_short s i (by omega)
  have hnext : next s i =
      { tmp := loadedTmp (selected s i) s.tmp i.sinkData
        remain := BitVec.ofNat 2 ((selected s i).c &&& 3)
        fsm := .normal } := by
    simp [next, hfsm, out, hvalid, hv]
  have hsink : sinkBytes (i, out s i) = bytes (i.sinkLen.toNat + 2) i.sinkData := by
    simp [sinkBytes, out, hfsm, hvalid, hv]
  have hsource : sourceBytes (i, out s i) = [] := by
    simp [sourceBytes, out, hfsm, hv]
  have hremain : (BitVec.ofNat 2 ((selected s i).c &&& 3)).toNat =
      (selected s i).a + (selected s i).b + 2 := by
    rw [hc, show (3 : Nat) = 2 ^ 2 - 1 from rfl, Nat.and_two_pow_sub_one_eq_mod,
      BitVec.toNat_ofNat]
    omega
  have happend := append_short s.tmp i.sinkData (by omega) hd he hf
  unfold QueueStep
  rw [hnext, hsink, hsource, List.nil_append]
  simp only [held, hfsm, hremain]
  rw [← happend, ha, hb]

/-- A beat that fills a word is taken when the word is, and not before. -/
theorem step_full {s : State} {i : In} (hfsm : s.fsm = .normal)
    (hvalid : i.sinkValid = true)
    (hfull : 4 ≤ s.remain.toNat + i.sinkLen.toNat + 2) :
    QueueStep (held s) (sinkBytes (i, out s i)) (sourceBytes (i, out s i))
      (held (next s i)) := by
  obtain ⟨ha, hb, hc, hv⟩ := selected_eq s i
  rw [decide_eq_false (by omega), Bool.not_false] at hv
  obtain ⟨hd, he, hf⟩ := selected_full s i (by omega)
  cases hready : i.sourceReady with
  | false =>
    have hsink : sinkBytes (i, out s i) = [] := by
      simp [sinkBytes, out, hfsm, hvalid, hv, hready]
    have hsource : sourceBytes (i, out s i) = [] := by simp [sourceBytes, hready]
    have hnext : next s i = s := by
      cases s
      simp only at hfsm
      subst hfsm
      simp [next, out, hvalid, hv, hready]
    rw [hsink, hsource, hnext]
    exact List.append_nil _
  | true =>
    have hsink : sinkBytes (i, out s i) = bytes (i.sinkLen.toNat + 2) i.sinkData := by
      simp [sinkBytes, out, hfsm, hvalid, hready]
    have hsource : sourceBytes (i, out s i) =
        bytes 4 (mergedData (selected s i) s.tmp i.sinkData) := by
      simp [sourceBytes, out, hfsm, hvalid, hv, hready]
    have hbounds : s.remain.toNat < 4 ∧ i.sinkLen.toNat < 4 :=
      ⟨s.remain.isLt, i.sinkLen.isLt⟩
    -- the bytes left over wait in `tmp`, all four of them after case 15
    have hheld : held (next s i) = bytes ((selected s i).a + (selected s i).b - 2)
        (loadedTmp (selected s i) s.tmp i.sinkData) := by
      by_cases hsix : s.remain.toNat + i.sinkLen.toNat = 6
      · have hfsm' : (next s i).fsm = .sendExtra := by
          simp [next, out, hfsm, hvalid, hv, hready, sendNext_eq, hsix]
        have htmp : (next s i).tmp = loadedTmp (selected s i) s.tmp i.sinkData := by
          simp [next, out, hfsm, hvalid, hready]
        rw [held, hfsm', htmp, ha, hb, hsix]
      · have hfsm' : (next s i).fsm = .normal := by
          simp [next, out, hfsm, hvalid, hv, hready, sendNext_eq, hsix]
        have htmp : (next s i).tmp = loadedTmp (selected s i) s.tmp i.sinkData := by
          simp [next, out, hfsm, hvalid, hready]
        have hremain : (next s i).remain.toNat =
            (selected s i).a + (selected s i).b - 2 := by
          have hrem : (next s i).remain = BitVec.ofNat 2 ((selected s i).c &&& 3) := by
            simp [next, out, hfsm, hvalid, hready]
          rw [hrem, hc, show (3 : Nat) = 2 ^ 2 - 1 from rfl,
            Nat.and_two_pow_sub_one_eq_mod, BitVec.toNat_ofNat]
          omega
        rw [held, hfsm', htmp, hremain]
    have happend := append_full s.tmp i.sinkData (k := selected s i)
      (by omega) (by omega) (by omega) hd he hf
    unfold QueueStep
    rw [hheld, hsink, hsource, ← happend]
    simp only [held, hfsm, ha, hb]

/-- The extra word leaves when it is taken. -/
theorem step_sendExtra {s : State} {i : In} (hInv : Inv s) (hfsm : s.fsm = .sendExtra) :
    QueueStep (held s) (sinkBytes (i, out s i)) (sourceBytes (i, out s i))
      (held (next s i)) := by
  have hremain : s.remain = 0 := hInv hfsm
  have hsink : sinkBytes (i, out s i) = [] := by simp [sinkBytes, out, hfsm]
  unfold QueueStep
  rw [hsink, List.append_nil]
  cases hready : i.sourceReady <;>
    simp [held, sourceBytes, out, next, hfsm, hready, hremain]

/-- The module is a queue of bytes. -/
theorem refinesQueue :
    RefinesQueue machine (fun _ _ => True) Inv held sinkBytes sourceBytes where
  inv s i _ h := inv_next s i h
  step s i _ h := by
    cases hfsm : s.fsm with
    | sendExtra => exact step_sendExtra h hfsm
    | normal =>
      cases hvalid : i.sinkValid with
      | false => exact step_idle hfsm hvalid
      | true =>
        rcases Nat.lt_or_ge (s.remain.toNat + i.sinkLen.toNat + 2) 4 with hshort | hfull
        · exact step_short hfsm hvalid hshort
        · exact step_full hfsm hvalid hfull

/-- At every cycle the bytes given so far and the bytes still inside are the bytes
taken so far. -/
theorem bytes_conserved (is : List In) :
    moved sourceBytes (machine.trace init is) ++ held (machine.run init is) =
      moved sinkBytes (machine.trace init is) := by
  have hrun := refinesQueue.run inv_init is
    (machine.allSteps_of_forall (fun _ _ => trivial) init is)
  rw [← hrun]
  rfl

end UsbSniffer.Iti.Conv4032
