/-
  Ft601/Strobes.lean --- the strobes and the direction of the FT601 bus.

  `wr_n` and `rd_n` are low when a branch does not assign them.  The branch in which
  WRITE times out turns the bus round with `wr_n` low and no word on it, and the one
  in which READ times out drives the bus from here with `rd_n` low.  In every other
  branch the strobes agree with the direction of the bus.
-/
import UsbSniffer.Ft601.Transmit

set_option autoImplicit false

namespace UsbSniffer.FT601Sync

open UsbSniffer.Sync

variable {dw timeout : Nat}

/-- The strobes of a cycle are safe: `wr_n` is low only with the bus driven from here
and a word on it that `write_fifo` gives in this cycle or that is kept to be sent
again, `rd_n` is low only with the bus driven by the chip, and not both are low. -/
structure StrobesSafe (s : State dw timeout) (i : In dw) : Prop where
  write : (out s i).wrN = false → (out s i).oeN = true ∧
    (poppedWord (i, out s i) = [(out s i).dataW] ∨
      s.temptosend = true ∧ (out s i).dataW = s.tempsendval)
  read : (out s i).rdN = false → (out s i).oeN = false
  exclusive : ¬ ((out s i).rdN = false ∧ (out s i).wrN = false)

/-- After a cycle with `wr_n` low, whose word is on the output register, the bus is
still driven from here. -/
def TurnsSafely (c c' : In dw × Out dw) : Prop := c.2.wrN = false → c'.2.oeN = true

/-- Every cycle of a run from reset has safe strobes, and every turn of the bus is safe. -/
def BusSafe (dw timeout : Nat) (is : List (In dw)) : Prop :=
  (machine dw timeout).AllSteps StrobesSafe init is ∧
    List.IsChain TurnsSafely ((machine dw timeout).trace init is)

/-- WRITE does not time out in this cycle, nor does READ. -/
structure NoTimeout (s : State dw timeout) (i : In dw) : Prop where
  write : s.fsm = .write → i.txeN = false → s.temptosend = false → s.cntWrite.toNat ≤ timeout
  read : s.fsm = .read → i.rxfN = false → s.cntRead.toNat ≤ timeout

instance (s : State dw timeout) (i : In dw) : Decidable (NoTimeout s i) :=
  decidable_of_iff
    ((s.fsm = .write → i.txeN = false → s.temptosend = false → s.cntWrite.toNat ≤ timeout) ∧
      (s.fsm = .read → i.rxfN = false → s.cntRead.toNat ≤ timeout))
    ⟨fun h => ⟨h.1, h.2⟩, fun h => ⟨h.write, h.read⟩⟩

/-! ## One cycle -/

/-- Outside WRITE and READ the strobes are safe, and `wr_n` is high. -/
theorem strobes_other {s : State dw timeout} (i : In dw) (hwrite : s.fsm ≠ .write)
    (hread : s.fsm ≠ .read) :
    (out s i).wrN = true ∧ ((out s i).rdN = false → (out s i).oeN = false) := by
  unfold out drive
  cases hfsm : s.fsm with
  | write => exact absurd hfsm hwrite
  | read => exact absurd hfsm hread
  | idle => simp
  | rdwait => simp

/-- In WRITE `rd_n` is high, and without a time-out the bus is driven from here.  When
`wr_n` is low WRITE goes on. -/
theorem strobes_write {s : State dw timeout} {i : In dw} (hfsm : s.fsm = .write)
    (hok : NoTimeout s i) :
    (out s i).rdN = true ∧ (out s i).oeN = true ∧
      ((out s i).wrN = false → (next s i).fsm = .write ∧
        (poppedWord (i, out s i) = [(out s i).dataW] ∨
          s.temptosend = true ∧ (out s i).dataW = s.tempsendval)) := by
  have htimeout := hok.write hfsm
  unfold poppedWord out next drive
  simp only [hfsm]
  cases htxe : i.txeN with
  | true => simp
  | false =>
    cases hsend : s.temptosend with
    | true => simp
    | false =>
      have hcount : ¬ s.cntWrite.toNat > timeout := Nat.not_lt.mpr (htimeout htxe hsend)
      cases hvalid : i.writeValid <;> simp [hcount]

/-- In READ `wr_n` is high, and without a time-out the bus is driven by the chip. -/
theorem strobes_read {s : State dw timeout} {i : In dw} (hfsm : s.fsm = .read)
    (hok : NoTimeout s i) : (out s i).wrN = true ∧ (out s i).oeN = false := by
  have htimeout := hok.read hfsm
  unfold out drive
  simp only [hfsm]
  cases hrxf : i.rxfN with
  | true => simp
  | false =>
    have hcount : ¬ s.cntRead.toNat > timeout := Nat.not_lt.mpr (htimeout hrxf)
    simp [hcount]

/-- A cycle without a time-out has safe strobes. -/
theorem strobesSafe_of_noTimeout {s : State dw timeout} {i : In dw} (hok : NoTimeout s i) :
    StrobesSafe s i := by
  by_cases hwrite : s.fsm = .write
  · obtain ⟨hrd, hoe, hword⟩ := strobes_write hwrite hok
    exact ⟨fun hwr => ⟨hoe, (hword hwr).2⟩, by simp [hrd], by simp [hrd]⟩
  · by_cases hread : s.fsm = .read
    · obtain ⟨hwr, hoe⟩ := strobes_read hread hok
      exact ⟨by simp [hwr], fun _ => hoe, by simp [hwr]⟩
    · obtain ⟨hwr, hrd⟩ := strobes_other i hwrite hread
      exact ⟨by simp [hwr], hrd, by simp [hwr]⟩

/-- Without time-outs `wr_n` is low only in WRITE, and WRITE leaves it low only to go on. -/
theorem turnsSafely_of_noTimeout {s : State dw timeout} {i j : In dw} (hi : NoTimeout s i)
    (hj : NoTimeout (next s i) j) : TurnsSafely (i, out s i) (j, out (next s i) j) := by
  intro hwr
  have hwrite : s.fsm = .write := by
    by_contra hwrite
    by_cases hread : s.fsm = .read
    · rw [(strobes_read hread hi).1] at hwr
      cases hwr
    · rw [(strobes_other i hwrite hread).1] at hwr
      cases hwr
  obtain ⟨hnext, -⟩ := (strobes_write hwrite hi).2.2 hwr
  exact (strobes_write hnext hj).2.1

/-- Both time-outs leave a strobe low against the direction of the bus. -/
theorem noTimeout_of_strobesSafe {s : State dw timeout} {i : In dw} (h : StrobesSafe s i) :
    NoTimeout s i := by
  constructor
  · intro hfsm htxe hsend
    by_contra hcount
    have hout : (out s i).wrN = false ∧ (out s i).oeN = false := by
      simp [out, drive, hfsm, htxe, hsend, Nat.not_le.mp hcount]
    rw [(h.write hout.1).1] at hout
    cases hout.2
  · intro hfsm hrxf
    by_contra hcount
    have hout : (out s i).rdN = false ∧ (out s i).oeN = true := by
      simp [out, drive, hfsm, hrxf, Nat.not_le.mp hcount]
    rw [h.read hout.1] at hout
    cases hout.2

/-! ## Runs -/

/-- **The bus is safe exactly in the runs without a time-out.** -/
theorem busSafe_iff (is : List (In dw)) :
    BusSafe dw timeout is ↔ (machine dw timeout).AllSteps NoTimeout init is := by
  constructor
  · rintro ⟨hsafe, -⟩
    exact hsafe.imp fun s i => noTimeout_of_strobesSafe
  · intro hok
    exact ⟨hok.imp fun s i => strobesSafe_of_noTimeout,
      hok.isChain fun s i j => turnsSafely_of_noTimeout⟩

/-- The chip has a word to read all the while: WRITE times out after 1025 words. -/
def writeContention : List (In 32) := List.replicate 1027 (transmitCycle false false true 7)

/-- A word to send comes when READ has begun: READ times out after 1025 words. -/
def readContention : List (In 32) :=
  List.replicate 2 (transmitCycle true false false 0) ++
    List.replicate 1026 (transmitCycle false false true 7)

/-- Both time-outs break the bus, with the time-out of the SoC. -/
theorem timeout_drives_strobe :
    ¬ BusSafe 32 1024 writeContention ∧ ¬ BusSafe 32 1024 readContention := by
  have hbroken : ∀ is : List (In 32), ¬ (machine 32 1024).AllSteps NoTimeout init is →
      ¬ BusSafe 32 1024 is :=
    fun is hok h => hok (h.1.imp fun s i => noTimeout_of_strobesSafe)
  exact ⟨hbroken _ (by decide +kernel), hbroken _ (by decide +kernel)⟩

end UsbSniffer.FT601Sync
