/-
  Ft601/Counters.lean --- the counters that share the bus out (gateware/ft601.py, FT601Sync).

  `cnt_write` counts the cycles of WRITE in which there is a word to read, `cnt_read` those
  of READ in which there is one to write, and past `timeout` of them the bus is turned
  round.  Both are `Signal(max=timeout+1)`, which has the bits for `timeout`: if these are
  all ones the counter never passes it, and wraps round instead.
-/
import UsbSniffer.Ft601.Fsm
import UsbSniffer.Sync.Burst

set_option autoImplicit false

namespace UsbSniffer.FT601Sync

open UsbSniffer.Sync

variable {dw timeout : Nat}

/-! ## One cycle -/

/-- WRITE is entered with `cnt_write` at zero, and nothing else outside WRITE moves it. -/
theorem cntWrite_other {s : State dw timeout} (i : In dw) (hfsm : s.fsm ≠ .write) :
    (next s i).cntWrite = if (next s i).fsm = .write then 0 else s.cntWrite := by
  cases hf : s.fsm with
  | write => exact absurd hf hfsm
  | idle => cases hwrite : wantsWrite s i <;> cases hread : wantsRead s i <;>
      simp [next, hf, hwrite, hread]
  | rdwait => simp [next, hf]
  | read =>
    by_cases htimeout : s.cntRead.toNat > timeout <;> cases hrxf : i.rxfN <;>
      cases hready : i.readReady <;> simp [next, hf, htimeout, hrxf, hready]

/-- In WRITE a cycle with a word to read is counted, whatever the cycle does. -/
theorem cntWrite_write {s : State dw timeout} (i : In dw) (hfsm : s.fsm = .write) :
    (next s i).cntWrite = if wantsRead s i then s.cntWrite + 1 else s.cntWrite := by
  simp only [next, hfsm]
  split_ifs <;> rfl

/-- WRITE goes on when a kept word is sent again, or when the counter has not run out. -/
theorem write_goesOn {s : State dw timeout} {i : In dw} (hfsm : s.fsm = .write)
    (hnext : (next s i).fsm = .write) :
    (s.temptosend = true ∨ s.cntWrite.toNat ≤ timeout) ∧ (next s i).temptosend = false := by
  simp only [next, hfsm] at hnext ⊢
  cases htxe : i.txeN with
  | true => simp [htxe] at hnext
  | false =>
    cases hsend : s.temptosend with
    | true => simp
    | false =>
      by_cases htimeout : s.cntWrite.toNat > timeout
      · simp [htxe, hsend, htimeout] at hnext
      · refine ⟨Or.inr (Nat.not_lt.mp htimeout), ?_⟩
        cases hvalid : i.writeValid <;> simp [htimeout]

/-- READ is entered with `cnt_read` at zero, and nothing else outside READ moves it. -/
theorem cntRead_other {s : State dw timeout} (i : In dw) (hfsm : s.fsm ≠ .read) :
    (next s i).cntRead = if (next s i).fsm = .read then 0 else s.cntRead := by
  cases hf : s.fsm with
  | read => exact absurd hf hfsm
  | idle => cases hwrite : wantsWrite s i <;> cases hread : wantsRead s i <;>
      simp [next, hf, hwrite, hread]
  | rdwait => simp [next, hf]
  | write =>
    by_cases htimeout : s.cntWrite.toNat > timeout <;> cases htxe : i.txeN <;>
      cases hsend : s.temptosend <;> cases hvalid : i.writeValid <;>
        simp [next, hf, htimeout, htxe, hsend, hvalid]

/-- In READ a cycle with a word to write is counted, whatever the cycle does. -/
theorem cntRead_read {s : State dw timeout} (i : In dw) (hfsm : s.fsm = .read) :
    (next s i).cntRead = if wantsWrite s i then s.cntRead + 1 else s.cntRead := by
  simp only [next, hfsm]
  split_ifs <;> rfl

/-- READ goes on when the counter has not run out. -/
theorem read_goesOn {s : State dw timeout} {i : In dw} (hfsm : s.fsm = .read)
    (hnext : (next s i).fsm = .read) : s.cntRead.toNat ≤ timeout := by
  simp only [next, hfsm] at hnext
  by_contra htimeout
  cases hrxf : i.rxfN <;> simp [hrxf, Nat.not_le.mp htimeout] at hnext

/-! ## Bursts -/

/-- `cnt_write`; the cycle in which a kept word is sent again does not look at it. -/
def writeBurst (s : State dw timeout) : BurstReg (bitsFor timeout) :=
  ⟨s.fsm == .write, s.temptosend, s.cntWrite⟩

/-- `cnt_read`. -/
def readBurst (s : State dw timeout) : BurstReg (bitsFor timeout) :=
  ⟨s.fsm == .read, false, s.cntRead⟩

theorem writeBurst_step (s : State dw timeout) (i : In dw) :
    BurstReg.Step timeout (writeBurst s) (wantsRead s i) (writeBurst (next s i)) where
  begins hactive hactive' := by
    have hcnt := cntWrite_other i (beq_eq_false_iff_ne.mp hactive)
    rwa [if_pos (beq_iff_eq.mp hactive')] at hcnt
  waits hactive hactive' := by
    have hcnt := cntWrite_other i (beq_eq_false_iff_ne.mp hactive)
    rwa [if_neg (beq_eq_false_iff_ne.mp hactive')] at hcnt
  counts hactive := cntWrite_write i (beq_iff_eq.mp hactive)
  goesOn hactive hactive' := write_goesOn (beq_iff_eq.mp hactive) (beq_iff_eq.mp hactive')

theorem readBurst_step (s : State dw timeout) (i : In dw) :
    BurstReg.Step timeout (readBurst s) (wantsWrite s i) (readBurst (next s i)) where
  begins hactive hactive' := by
    have hcnt := cntRead_other i (beq_eq_false_iff_ne.mp hactive)
    rwa [if_pos (beq_iff_eq.mp hactive')] at hcnt
  waits hactive hactive' := by
    have hcnt := cntRead_other i (beq_eq_false_iff_ne.mp hactive)
    rwa [if_neg (beq_eq_false_iff_ne.mp hactive')] at hcnt
  counts hactive := cntRead_read i (beq_iff_eq.mp hactive)
  goesOn hactive hactive' :=
    ⟨Or.inr (read_goesOn (beq_iff_eq.mp hactive) (beq_iff_eq.mp hactive')), rfl⟩

/-! ## The cycles counted -/

/-- The cycles of the current burst of WRITE in which there was a word to read, and of READ in
which there was one to write. -/
structure Wanted where
  write : Nat
  read : Nat
  deriving DecidableEq, Repr

/-- The counts after a cycle. -/
def Wanted.next (n : Wanted) (s : State dw timeout) (i : In dw) : Wanted where
  write := (writeBurst s).count (wantsRead s i) (writeBurst (FT601Sync.next s i)) n.write
  read := (readBurst s).count (wantsWrite s i) (readBurst (FT601Sync.next s i)) n.read

/-- The machine, and what its counters are to show. -/
def watched (dw timeout : Nat) : Machine (State dw timeout × Wanted) (In dw) (Out dw) where
  out s i := out s.1 i
  next s i := (next s.1 i, s.2.next s.1 i)

/-- From reset. -/
def start : State dw timeout × Wanted := (init, ⟨0, 0⟩)

/-- In a burst its counter shows the number of these cycles, and once they are more than
`timeout`, WRITE is left in the next cycle without `txe_n` and `temptosend`, and READ in the
next one without `rxf_n`. -/
structure Arbitrates (s : State dw timeout × Wanted) : Prop where
  cntWrite : s.1.fsm = .write → s.1.cntWrite.toNat = s.2.write
  cntRead : s.1.fsm = .read → s.1.cntRead.toNat = s.2.read
  leavesWrite : ∀ i : In dw, s.1.fsm = .write → timeout < s.2.write → i.txeN = false →
    s.1.temptosend = false → (next s.1 i).fsm ≠ .write
  leavesRead : ∀ i : In dw, s.1.fsm = .read → timeout < s.2.read → i.rxfN = false →
    (next s.1 i).fsm ≠ .read

/-- The counters show these numbers behind a burst as well. -/
structure Keeps (s : State dw timeout × Wanted) : Prop where
  cntWrite : s.1.cntWrite.toNat = s.2.write
  cntRead : s.1.cntRead.toNat = s.2.read

/-- The counters hold the numbers as far as their bits go. -/
structure Counted (s : State dw timeout × Wanted) : Prop where
  write : (writeBurst s.1).cnt.toNat = s.2.write % 2 ^ bitsFor timeout
  read : (readBurst s.1).cnt.toNat = s.2.read % 2 ^ bitsFor timeout

theorem Counted.step {s : State dw timeout × Wanted} (h : Counted s) (i : In dw) :
    Counted ((watched dw timeout).next s i) where
  write := (writeBurst_step s.1 i).toNat_cnt h.write
  read := (readBurst_step s.1 i).toNat_cnt h.read

theorem counted_run (timeout : Nat) (is : List (In dw)) :
    Counted ((watched dw timeout).run start is) := by
  have hinit : Counted (start : State dw timeout × Wanted) :=
    ⟨(Nat.zero_mod _).symm, (Nat.zero_mod _).symm⟩
  exact (watched dw timeout).history_induction_always (fun s _ => Counted s) hinit
    (fun _ _ i h => h.step i) is

/-- How far the numbers go. -/
structure Bounded (s : State dw timeout × Wanted) : Prop where
  write : (writeBurst s.1).Bounded timeout s.2.write
  read : (readBurst s.1).Bounded timeout s.2.read

theorem Bounded.step (hbits : timeout + 1 < 2 ^ bitsFor timeout) {s : State dw timeout × Wanted}
    (h : Bounded s) (hs : Counted s) (i : In dw) :
    Bounded ((watched dw timeout).next s i) where
  write := h.write.step hbits (writeBurst_step s.1 i) hs.write
  read := h.read.step hbits (readBurst_step s.1 i) hs.read

theorem bounded_run (hbits : timeout + 1 < 2 ^ bitsFor timeout) (is : List (In dw)) :
    Bounded ((watched dw timeout).run start is) := by
  have hinit : Bounded (start : State dw timeout × Wanted) :=
    ⟨⟨fun _ => Nat.zero_le _, fun _ _ => rfl, Nat.zero_le _⟩,
      ⟨fun _ => Nat.zero_le _, fun _ _ => rfl, Nat.zero_le _⟩⟩
  have hrun := (watched dw timeout).history_induction_always (fun s _ => Counted s ∧ Bounded s)
    ⟨counted_run timeout [], hinit⟩
    (by
      rintro s _ i ⟨hs, hb⟩
      exact ⟨hs.step i, hb.step hbits hs i⟩)
    is
  exact hrun.2

/-- Counters that can pass `timeout` arbitrate. -/
theorem arbitrates_of_lt (hbits : timeout + 1 < 2 ^ bitsFor timeout) (is : List (In dw)) :
    Arbitrates ((watched dw timeout).run start is) := by
  have hs := counted_run timeout is
  have hb := bounded_run hbits is
  refine ⟨fun hfsm => ?_, fun hfsm => ?_, fun i hfsm hover htxe hsend => ?_,
    fun i hfsm hover hrxf => ?_⟩
  · exact hb.write.toNat_cnt hbits hs.write (beq_iff_eq.mpr hfsm)
  · exact hb.read.toNat_cnt hbits hs.read (beq_iff_eq.mpr hfsm)
  · exact beq_eq_false_iff_ne.mp
      (hb.write.ends hbits hs.write (writeBurst_step _ i) (beq_iff_eq.mpr hfsm) hsend hover)
  · exact beq_eq_false_iff_ne.mp
      (hb.read.ends hbits hs.read (readBurst_step _ i) (beq_iff_eq.mpr hfsm) rfl hover)

/-- Counters that can pass `timeout` by two are kept behind a burst. -/
theorem keeps_of_lt (hbits : timeout + 2 < 2 ^ bitsFor timeout) (is : List (In dw)) :
    Keeps ((watched dw timeout).run start is) := by
  have hs := counted_run timeout is
  have hpasses : timeout + 1 < 2 ^ bitsFor timeout := by omega
  have hb := bounded_run hpasses is
  have hwrite := hb.write.behind
  have hread := hb.read.behind
  exact ⟨hs.write.trans (Nat.mod_eq_of_lt (by omega)), hs.read.trans (Nat.mod_eq_of_lt (by omega))⟩

/-! ## Counters that wrap -/

/-- Words wait in both directions all the time, and both sides take them. -/
def contended (dw : Nat) : In dw := ⟨false, false, 0, true, 0, true⟩

/-- A burst of WRITE under contention, after some counted cycles. -/
structure Contended (n : Nat) (s : State dw timeout × Wanted) : Prop where
  fsm : s.1.fsm = .write
  temptosend : s.1.temptosend = false
  temptoread : s.1.temptoread = false
  wanted : s.2.write = n

/-- A cycle under contention is counted, whether or not the burst ends with it. -/
theorem Contended.wanted_next {n : Nat} {s : State dw timeout × Wanted} (h : Contended n s) :
    ((watched dw timeout).next s (contended dw)).2.write = n + 1 := by
  have hwant : wantsRead s.1 (contended dw) = true := by
    simp [wantsRead, contended, h.temptoread]
  have hactive : (writeBurst s.1).active = true := beq_iff_eq.mpr h.fsm
  simp [watched, Wanted.next, BurstReg.count, hactive, hwant, h.wanted]

/-- The burst goes on for as long as the counter is not past `timeout`. -/
theorem Contended.step {n : Nat} {s : State dw timeout × Wanted} (h : Contended n s)
    (hcnt : s.1.cntWrite.toNat ≤ timeout) :
    Contended (n + 1) ((watched dw timeout).next s (contended dw)) := by
  have hgoesOn : (next s.1 (contended dw)).fsm = .write ∧
      (next s.1 (contended dw)).temptosend = false ∧
      (next s.1 (contended dw)).temptoread = false := by
    simp [next, h.fsm, h.temptosend, h.temptoread, contended, Nat.not_lt.mpr hcnt]
  exact ⟨hgoesOn.1, hgoesOn.2.1, hgoesOn.2.2, h.wanted_next⟩

/-- The burst that begins at reset, if the counter is not past `timeout` in its first `n`
cycles. -/
theorem contended_run (dw timeout : Nat) {n : Nat}
    (hcnt : ∀ m < n, m % 2 ^ bitsFor timeout ≤ timeout) :
    Contended n ((watched dw timeout).run start (List.replicate (n + 1) (contended dw))) := by
  induction n with
  | zero => exact ⟨rfl, rfl, rfl, rfl⟩
  | succ n ih =>
    have hlast := ih fun m hm => hcnt m (by omega)
    have hs := (counted_run timeout (List.replicate (n + 1) (contended dw))).write
    rw [hlast.wanted] at hs
    rw [List.replicate_succ', Machine.run_append]
    exact hlast.step (hs.trans_le (hcnt n (by omega)))

/-- It lasts for `timeout + 1` counted cycles at least. -/
theorem contended_limit (dw timeout : Nat) :
    Contended (timeout + 1) ((watched dw timeout).run start
      (List.replicate (timeout + 2) (contended dw))) := by
  apply contended_run
  intro m hm
  exact (Nat.mod_le _ _).trans (by omega)

/-- If the counters are just wide enough for `timeout`, it has no end. -/
theorem contended_forever (dw : Nat) {timeout : Nat} (hbits : 2 ^ bitsFor timeout = timeout + 1)
    (n : Nat) :
    Contended n ((watched dw timeout).run start (List.replicate (n + 1) (contended dw))) := by
  apply contended_run
  intro m _
  have hlt := Nat.mod_lt m (Nat.two_pow_pos (bitsFor timeout))
  omega

/-- For `cnt_write` is zero again where the burst should end. -/
theorem cntWrite_wraps (dw : Nat) {timeout : Nat} (hbits : 2 ^ bitsFor timeout = timeout + 1) :
    ((watched dw timeout).run start
      (List.replicate (timeout + 2) (contended dw))).1.cntWrite.toNat = 0 := by
  have hs := (counted_run timeout (List.replicate (timeout + 2) (contended dw))).write
  rw [(contended_limit dw timeout).wanted, hbits, Nat.mod_self] at hs
  exact hs

theorem write_wraps (dw : Nat) {timeout : Nat} (hbits : 2 ^ bitsFor timeout = timeout + 1) :
    (next ((watched dw timeout).run start
      (List.replicate (timeout + 2) (contended dw))).1 (contended dw)).fsm = .write := by
  have hnext := (contended_forever dw hbits (timeout + 2)).fsm
  rw [List.replicate_succ', Machine.run_append] at hnext
  exact hnext

/-- The number of cycles is lost there. -/
theorem not_arbitrates (dw : Nat) {timeout : Nat} (hbits : 2 ^ bitsFor timeout = timeout + 1) :
    ¬ Arbitrates ((watched dw timeout).run start
      (List.replicate (timeout + 2) (contended dw))) := by
  intro harbitrates
  have hlast := contended_limit dw timeout
  have hexact := harbitrates.cntWrite hlast.fsm
  rw [cntWrite_wraps dw hbits, hlast.wanted] at hexact
  omega

/-- If they are wide enough for `timeout + 1` only, `cnt_write` is zero again behind it. -/
theorem not_keeps (dw : Nat) {timeout : Nat} (hbits : 2 ^ bitsFor timeout = timeout + 2) :
    ¬ Keeps ((watched dw timeout).run start
      (List.replicate (timeout + 3) (contended dw))) := by
  intro hkeeps
  rw [List.replicate_succ', Machine.run_append] at hkeeps
  have hwanted := (contended_limit dw timeout).wanted_next
  have hs := (counted_run timeout (List.replicate (timeout + 2) (contended dw))).step (contended dw)
  have hzero := hs.write
  rw [hwanted, hbits, Nat.mod_self] at hzero
  have hexact : 0 = timeout + 2 := hzero.symm.trans (hkeeps.cntWrite.trans hwanted)
  omega

/-! ## The timeouts that fit -/

theorem succ_lt_two_pow_bitsFor (hpow : ∀ k, timeout + 1 ≠ 2 ^ k) :
    timeout + 1 < 2 ^ bitsFor timeout :=
  lt_of_le_of_ne (lt_two_pow_bitsFor timeout) (hpow _)

/-- **The counters are exact unless `timeout` fills its bits.**  In every run they show the
cycles of the burst that were to be counted, and the bus is turned round once these are more
than `timeout`, exactly when `timeout` is not one less than a power of two.  They show
them behind a burst as well exactly when it is not two less either. -/
theorem counters_exact_iff (dw : Nat) {timeout : Nat} (htimeout : 1 ≤ timeout) :
    ((∀ is : List (In dw), Arbitrates ((watched dw timeout).run start is)) ↔
      ∀ k, timeout + 1 ≠ 2 ^ k) ∧
    ((∀ is : List (In dw), Arbitrates ((watched dw timeout).run start is) ∧
        Keeps ((watched dw timeout).run start is)) ↔
      ∀ k, timeout + 1 ≠ 2 ^ k ∧ timeout + 2 ≠ 2 ^ k) := by
  have harbitrates : (∀ is : List (In dw), Arbitrates ((watched dw timeout).run start is)) →
      ∀ k, timeout + 1 ≠ 2 ^ k := by
    intro hall k hpow
    exact not_arbitrates dw (two_pow_bitsFor Nat.one_pos htimeout hpow) (hall _)
  refine ⟨⟨harbitrates, fun hpow => arbitrates_of_lt (succ_lt_two_pow_bitsFor hpow)⟩,
    fun hall k => ⟨harbitrates (fun is => (hall is).1) k, fun hpow => ?_⟩,
    fun hpow is => ?_⟩
  · -- three is no power of two
    have heven : 2 ≤ timeout := by
      cases k with
      | zero => omega
      | succ k => omega
    exact not_keeps dw (two_pow_bitsFor Nat.two_pos heven hpow) (hall _).2
  · have hfirst := succ_lt_two_pow_bitsFor fun k => (hpow k).1
    have hsecond := (hpow (bitsFor timeout)).2
    have hpasses : timeout + 2 < 2 ^ bitsFor timeout := by omega
    exact ⟨arbitrates_of_lt hfirst is, keeps_of_lt hpasses is⟩

/-- The 1024 cycles of the SoC fit, here where a burst under contention ends. -/
theorem counters_exact_iff_soc :
    let s := (watched 32 1024).run start (List.replicate (1024 + 2) (contended 32))
    Arbitrates s ∧ Keeps s := by
  have hsucc : ∀ k, 1024 + 1 ≠ 2 ^ k := ne_two_pow (j := 10) (by decide) (by decide)
  have hadd : ∀ k, 1024 + 2 ≠ 2 ^ k := ne_two_pow (j := 10) (by decide) (by decide)
  exact (counters_exact_iff 32 (by decide)).2.mpr (fun k => ⟨hsucc k, hadd k⟩) _

/-- Those of a timeout of 1023 do not: under contention the 1024 cycles that should turn the
bus round read as none, and WRITE goes on. -/
theorem counters_wrap :
    let s := (watched 32 1023).run start (List.replicate (1023 + 2) (contended 32))
    s.1.fsm = .write ∧ s.2.write = 1024 ∧ s.1.cntWrite.toNat = 0 ∧ s.1.temptosend = false ∧
      (contended 32).txeN = false ∧ (next s.1 (contended 32)).fsm = .write ∧ ¬ Arbitrates s := by
  have hbits : 2 ^ bitsFor 1023 = 1023 + 1 := two_pow_bitsFor (k := 10) (by decide) (by decide) rfl
  have hlast := contended_limit 32 1023
  exact ⟨hlast.fsm, hlast.wanted, cntWrite_wraps 32 hbits, hlast.temptosend, rfl,
    write_wraps 32 hbits, not_arbitrates 32 hbits⟩

end UsbSniffer.FT601Sync
