/-
  Spi/Transfer.lean --- one transfer of the SPI master (gateware/spi.py, SPIMaster).

  A transfer waits for the end of a period of the divider, sends a bit in each of the
  following periods, and ends half a period later.  In the cycle in which it is noticed
  that all bits are sent the clock is still let out: a divider whose first cycle is that
  of `set_clk` lets one clock too many through.
-/
import Mathlib.Data.List.Forall2
import UsbSniffer.Spi.Master
import UsbSniffer.Sync.Bits

set_option autoImplicit false

namespace UsbSniffer.Spi

open UsbSniffer.Sync

namespace SPIMaster

variable {div width : Nat} {s : State width} {is : List (In width)}

/-! ## Cycles without a strobe -/

/-- Some cycles later. -/
def State.advance (s : State width) (n : Nat) : State width := { s with i := s.i + n }

/-- Nothing but the divider moves in this cycle: where the clock would be set, no bit is
being sent. -/
structure Quiet (div : Nat) (s : State width) : Prop where
  clr : s.i + 1 ≠ div
  set : s.i + 1 = div / 2 → s.enableShift = false ∧ s.clk = false
  busy : s.fsm = .shift → s.count ≠ s.length

@[simp] theorem advance_i (s : State width) (n : Nat) : (s.advance n).i = s.i + n := rfl

@[simp] theorem advance_fsm (s : State width) (n : Nat) : (s.advance n).fsm = s.fsm := rfl

/-- The cycles up to a strobe. -/
theorem quiet_advance {n : Nat} (hclr : s.i + n < div)
    (hset : ∀ k < n, s.i + k + 1 = div / 2 → s.enableShift = false ∧ s.clk = false)
    (hbusy : s.fsm = .shift → s.count ≠ s.length) : ∀ k < n, Quiet div (s.advance k) :=
  fun k hk => ⟨by rw [advance_i]; omega, hset k hk, hbusy⟩

theorem start_eq_false {x : In width} (hre : x.re = false) : x.start = false := by
  simp [In.start, hre]

theorem next_quiet (h : Quiet div s) {x : In width} (hre : x.re = false) :
    next div s x = s.advance 1 := by
  have hclr : s.clrClk div = false := State.clrClk_eq_false_iff.mpr h.clr
  have hshifts : s.shiftsMiso div = false := by simp [State.shiftsMiso, hclr]
  have hstart := start_eq_false hre
  have hfsm : nextFsm div s x = s.fsm := by
    cases hs : s.fsm with
    | idle => simp [nextFsm, hs, hstart]
    | waitClk => simp [nextFsm, hs, hclr]
    | shift => simp [nextFsm, hs, h.busy hs]
    | «end» =>
      have hset : s.setClk div = false := by
        refine State.setClk_eq_false_iff.mpr fun hset => ?_
        have henable := (h.set hset).1
        simp [State.enableShift, hs] at henable
      simp [nextFsm, hs, hset]
  have hcount : nextCount div s x = s.count := by
    cases hs : s.fsm <;> simp [nextCount, hs, hstart, hclr]
  cases hset : s.setClk div with
  | false => simp [next, State.advance, hset, hclr, hshifts, hstart, hre, hfsm, hcount]
  | true =>
    obtain ⟨henable, hclk⟩ := h.set (State.setClk_iff.mp hset)
    have hcs : s.enableCs = false := by
      simp only [State.enableShift, Bool.or_eq_false_iff] at henable
      exact henable.1
    simp [next, State.advance, hset, hclr, hshifts, hstart, hre, hfsm, hcount, henable, hcs, hclk]

/-- What the cycles of a run let out: the rising clock edges, and the shifts of `sr_miso`. -/
def edges (div : Nat) (s : State width) (is : List (In width)) : List (In width × Edge width) :=
  ((machine div width).trace s is).filter rises

/-- The cycles of a run in which a bit is shifted in. -/
def shiftCount (div : Nat) (s : State width) (is : List (In width)) : Nat :=
  ((machine div width).trace s is).countP shifts

/-- `done` is low in every cycle of the run. -/
def Busy (div : Nat) (s : State width) (is : List (In width)) : Prop :=
  ∀ c ∈ (machine div width).trace s is, c.2.before.done = false

theorem edges_append (s : State width) (is js : List (In width)) :
    edges div s (is ++ js) = edges div s is ++ edges div ((machine div width).run s is) js := by
  unfold edges
  rw [Machine.trace_append, List.filter_append]

theorem shiftCount_append (s : State width) (is js : List (In width)) :
    shiftCount div s (is ++ js) =
      shiftCount div s is + shiftCount div ((machine div width).run s is) js := by
  unfold shiftCount
  rw [Machine.trace_append, List.countP_append]

theorem Busy.append {js : List (In width)} (h : Busy div s is)
    (hjs : Busy div ((machine div width).run s is) js) : Busy div s (is ++ js) := by
  unfold Busy
  rw [Machine.trace_append]
  intro c hc
  exact (List.mem_append.mp hc).elim (h c) (hjs c)

/-! ## From strobe to strobe -/

/-- The edge at the end of a cycle, with its input. -/
def edgeOf (div : Nat) (s : State width) (x : In width) : In width × Edge width :=
  (x, (machine div width).out s x)

theorem edges_singleton (s : State width) (x : In width) :
    edges div s [x] = if rises (edgeOf div s x) then [edgeOf div s x] else [] := by
  unfold edges
  rw [Machine.trace_cons, Machine.trace_nil, List.filter_singleton, Bool.cond_eq_ite]
  rfl

theorem shiftCount_singleton (s : State width) (x : In width) :
    shiftCount div s [x] = (s.shiftsMiso div).toNat := by
  unfold shiftCount
  rw [Machine.trace_cons, Machine.trace_nil, List.countP_singleton]
  exact Bool.cond_eq_ite .. |>.symm

/-- What a run does that is as good as its last cycle. -/
structure Reaches (div : Nat) (s : State width) (is : List (In width)) (t : State width)
    (x : In width) : Prop where
  run : (machine div width).run s is = next div t x
  edges : edges div s is = if rises (edgeOf div t x) then [edgeOf div t x] else []
  shiftCount : shiftCount div s is = (t.shiftsMiso div).toNat
  busy : s.done = false → Busy div s is

/-- Quiet cycles are counted, up to the cycle of the next strobe. -/
theorem reaches_strobe {n : Nat} (hlen : is.length = n + 1) (hre : ∀ x ∈ is, x.re = false)
    (hquiet : ∀ k < n, Quiet div (s.advance k)) : ∃ x ∈ is, Reaches div s is (s.advance n) x := by
  induction n generalizing s is with
  | zero =>
    obtain ⟨x, rfl⟩ := List.length_eq_one_iff.mp hlen
    refine ⟨x, List.mem_singleton_self x, rfl, edges_singleton s x, shiftCount_singleton s x, ?_⟩
    intro hdone c hc
    obtain rfl := List.mem_singleton.mp hc
    exact hdone
  | succ n ih =>
    obtain ⟨y, is, rfl⟩ := List.exists_cons_of_length_eq_add_one hlen
    have h0 : Quiet div s := hquiet 0 (Nat.succ_pos n)
    have hnext : next div s y = s.advance 1 := next_quiet h0 (hre y (List.mem_cons_self ..))
    have hadvance : ∀ k, (s.advance 1).advance k = s.advance (k + 1) := fun k => by
      simp only [State.advance, Nat.add_assoc, Nat.add_comm k 1]
    obtain ⟨x, hx, hrun, hedges, hshifts, hbusy⟩ := @ih (s.advance 1) is (Nat.succ.inj hlen)
      (fun x hx => hre x (List.mem_cons_of_mem y hx))
      (fun k hk => hadvance k ▸ hquiet (k + 1) (Nat.succ_lt_succ hk))
    have hclr : s.clrClk div = false := State.clrClk_eq_false_iff.mpr h0.clr
    have hquietEdge : rises (edgeOf div s y) = false := by
      simp [rises, edgeOf, machine, wires, hnext, State.advance]
    rw [hadvance] at hrun hedges hshifts
    refine ⟨x, List.mem_cons_of_mem y hx, ?_, ?_, ?_, fun hdone => ?_⟩
    · exact (congrArg (fun t => (machine div width).run t is) hnext).trans hrun
    · rw [← List.singleton_append, edges_append, edges_singleton, hquietEdge]
      exact (congrArg (fun t => SPIMaster.edges div t is) hnext).trans hedges
    · rw [← List.singleton_append, shiftCount_append, shiftCount_singleton]
      have hshift : s.shiftsMiso div = false := by simp [State.shiftsMiso, hclr]
      rw [hshift, Bool.toNat_false, Nat.zero_add]
      exact (congrArg (fun t => SPIMaster.shiftCount div t is) hnext).trans hshifts
    · have htail : Busy div (next div s y) is := hnext ▸ hbusy hdone
      intro c hc
      rcases List.mem_cons.mp hc with rfl | hc
      · exact hdone
      · exact htail c hc

/-! ## One bit -/

/-- The clock rises while the chip is selected, with this bit on `mosi` before and behind
the edge. -/
structure Sends (c : In width × Edge width) (bit : Bool) : Prop where
  selected : c.2.before.csN = false ∧ c.2.after.csN = false
  mosi : c.2.before.mosi = bit ∧ c.2.after.mosi = bit

/-- A period begins in which the bit on `mosi` is sent. -/
structure Ready (s : State width) : Prop where
  fsm : s.fsm = .shift
  i : s.i = 0
  clk : s.clk = false
  mosi : s.mosi = s.srMosi.msb

/-- Behind the edge at which the clock rises. -/
def State.high (s : State width) (div : Nat) (miso : Bool) : State width :=
  { s with i := div / 2, clk := true, miso := miso, srMosi := s.srMosi.shiftConcat false }

/-- Behind the edge at which the clock falls. -/
def State.low (s : State width) : State width :=
  { s with
    i := 0
    clk := false
    count := s.count + 1
    srMiso := s.srMiso.shiftConcat s.miso
    mosi := s.srMosi.msb }

/-- The clock rises, and `miso` is captured. -/
theorem next_high (hdiv : 2 ≤ div) (hfsm : s.fsm = .shift) (hcount : s.count ≠ s.length)
    (hi : s.i + 1 = div / 2) {x : In width} (hre : x.re = false) :
    next div s x = s.high div x.miso := by
  have hset : s.setClk div = true := State.setClk_iff.mpr hi
  have hclr : s.clrClk div = false := State.clrClk_eq_false_iff.mpr (by omega)
  simp [next, nextFsm, nextCount, State.shiftsMiso, State.enableCs, State.enableShift, State.high,
    hfsm, hset, hclr, start_eq_false hre, hre, hi, hcount]

/-- The clock falls, the captured bit is shifted in, and the next one goes to `mosi`. -/
theorem next_low (hdiv : 2 ≤ div) (hfsm : s.fsm = .shift) (hcount : s.count ≠ s.length)
    (hi : s.i + 1 = div) {x : In width} (hre : x.re = false) : next div s x = s.low := by
  have hset : s.setClk div = false := State.setClk_eq_false_iff.mpr (by omega)
  have hclr : s.clrClk div = true := State.clrClk_iff.mpr hi
  simp [next, nextFsm, nextCount, State.shiftsMiso, State.enableShift, State.low, hfsm, hset, hclr,
    start_eq_false hre, hre, hcount]

/-- The first half of a period. -/
theorem reaches_high (hdiv : 2 ≤ div) (h : Ready s) (hcount : s.count ≠ s.length)
    (hlen : is.length = div / 2) (hre : ∀ x ∈ is, x.re = false) :
    ∃ x : In width, (machine div width).run s is = s.high div x.miso ∧
      edges div s is = [(x, ⟨wires s, wires (s.high div x.miso), false⟩)] ∧
      shiftCount div s is = 0 ∧ Busy div s is := by
  have hi := h.i
  have hquiet : ∀ k < div / 2 - 1, Quiet div (s.advance k) :=
    quiet_advance (by omega) (fun k hk hset => by omega) fun _ => hcount
  obtain ⟨x, hx, hrun, hedges, hshifts, hbusy⟩ :=
    reaches_strobe (n := div / 2 - 1) (by omega) hre hquiet
  have hi' : (s.advance (div / 2 - 1)).i + 1 = div / 2 := by
    rw [advance_i]
    omega
  have hnext : next div (s.advance (div / 2 - 1)) x = s.high div x.miso :=
    next_high (s := s.advance (div / 2 - 1)) hdiv h.fsm hcount hi' (hre x hx)
  have hshift : (s.advance (div / 2 - 1)).shiftsMiso div = false := by
    have hclr : (s.advance (div / 2 - 1)).clrClk div = false :=
      State.clrClk_eq_false_iff.mpr (by omega)
    simp [State.shiftsMiso, hclr]
  have hedge : edgeOf div (s.advance (div / 2 - 1)) x =
      (x, ⟨wires s, wires (s.high div x.miso), false⟩) := by
    rw [← hnext, ← hshift]
    rfl
  refine ⟨x, hrun.trans hnext, ?_, ?_, hbusy (by simp [State.done, h.fsm])⟩
  · rw [hedges, hedge]
    simp [rises, wires, h.clk, State.high]
  · rw [hshifts, hshift]
    rfl

/-- The second half of a period. -/
theorem reaches_low (hdiv : 2 ≤ div) (hfsm : s.fsm = .shift) (hi : s.i = div / 2)
    (hclk : s.clk = true) (hcount : s.count ≠ s.length) (hlen : is.length = div - div / 2)
    (hre : ∀ x ∈ is, x.re = false) :
    (machine div width).run s is = s.low ∧ edges div s is = [] ∧
      shiftCount div s is = 1 ∧ Busy div s is := by
  have hquiet : ∀ k < div - div / 2 - 1, Quiet div (s.advance k) :=
    quiet_advance (by omega) (fun k hk hset => by omega) fun _ => hcount
  obtain ⟨x, hx, hrun, hedges, hshifts, hbusy⟩ :=
    reaches_strobe (n := div - div / 2 - 1) (by omega) hre hquiet
  have hi' : (s.advance (div - div / 2 - 1)).i + 1 = div := by
    rw [advance_i]
    omega
  have hnext : next div (s.advance (div - div / 2 - 1)) x = s.low :=
    next_low (s := s.advance (div - div / 2 - 1)) hdiv hfsm hcount hi' (hre x hx)
  have hshift : (s.advance (div - div / 2 - 1)).shiftsMiso div = true := by
    have hset : (s.advance (div - div / 2 - 1)).setClk div = false :=
      State.setClk_eq_false_iff.mpr (by omega)
    have hclr : (s.advance (div - div / 2 - 1)).clrClk div = true := State.clrClk_iff.mpr hi'
    have henable : (s.advance (div - div / 2 - 1)).enableShift = true := by
      simp [State.enableShift, hfsm]
    simp [State.shiftsMiso, henable, hset, hclr]
  refine ⟨hrun.trans hnext, ?_, ?_, hbusy (by simp [State.done, hfsm])⟩
  · rw [hedges]
    simp [rises, edgeOf, machine, wires, State.advance, hclk]
  · rw [hshifts, hshift]
    rfl

/-! ## All bits -/

/-- What a run does that sends some bits and stands in front of the next period. -/
structure Sent (div n : Nat) (s : State width) (is : List (In width)) : Prop where
  ready : Ready ((machine div width).run s is)
  length : ((machine div width).run s is).length = s.length
  srMosi : ((machine div width).run s is).srMosi = s.srMosi <<< n
  count : ((machine div width).run s is).count.toNat = s.count.toNat + n
  sends : List.Forall₂ Sends (edges div s is)
    ((List.range n).map fun j => (s.srMosi <<< j).msb)
  srMiso : ((machine div width).run s is).srMiso =
    (edges div s is).foldl (fun sr c => sr.shiftConcat c.1.miso) s.srMiso
  shiftCount : shiftCount div s is = n
  busy : Busy div s is

/-- One period sends one bit. -/
theorem sent_one (hdiv : 2 ≤ div) (h : Ready s) (hcount : s.count.toNat < s.length.toNat)
    (hlen : is.length = div) (hre : ∀ x ∈ is, x.re = false) : Sent div 1 s is := by
  have hne : s.count ≠ s.length := fun heq => Nat.ne_of_lt hcount (congrArg BitVec.toNat heq)
  obtain ⟨x, hrun₁, hedges₁, hshifts₁, hbusy₁⟩ :=
    @reaches_high div width s (is.take (div / 2)) hdiv h hne (by rw [List.length_take]; omega)
      fun y hy => hre y (List.mem_of_mem_take hy)
  obtain ⟨hrun₂, hedges₂, hshifts₂, hbusy₂⟩ :=
    @reaches_low div width (s.high div x.miso) (is.drop (div / 2)) hdiv h.fsm rfl rfl hne
      (by rw [List.length_drop]; omega) fun y hy => hre y (List.mem_of_mem_drop hy)
  rw [← hrun₁] at hrun₂ hedges₂ hshifts₂ hbusy₂
  have hrun : (machine div width).run s is = (s.high div x.miso).low := by
    rw [← List.take_append_drop (div / 2) is, Machine.run_append, hrun₂, hrun₁]
  have hedges : edges div s is = [(x, ⟨wires s, wires (s.high div x.miso), false⟩)] := by
    rw [← List.take_append_drop (div / 2) is, edges_append, hedges₁, hedges₂, List.append_nil]
  have hsends : Sends (x, ⟨wires s, wires (s.high div x.miso), false⟩) s.srMosi.msb := by
    have hcs : s.enableCs = true := by simp [State.enableCs, h.fsm]
    have hcs' : (s.high div x.miso).enableCs = true := hcs
    exact ⟨⟨by simp [wires, hcs], by simp [wires, hcs']⟩, h.mosi, h.mosi⟩
  have hlt := s.length.isLt
  refine ⟨?_, ?_, ?_, ?_, ?_, ?_, ?_, ?_⟩
  · rw [hrun]
    exact ⟨h.fsm, rfl, rfl, rfl⟩
  · rw [hrun]
    rfl
  · rw [hrun]
    exact shiftConcat_false s.srMosi
  · rw [hrun]
    change (s.count + 1).toNat = s.count.toNat + 1
    rw [BitVec.toNat_add]
    exact Nat.mod_eq_of_lt (by simp; omega)
  · rw [hedges]
    change List.Forall₂ Sends _ [(s.srMosi <<< 0).msb]
    rw [BitVec.shiftLeft_zero]
    exact .cons hsends .nil
  · rw [hrun, hedges]
    rfl
  · rw [← List.take_append_drop (div / 2) is, shiftCount_append, hshifts₁, hshifts₂]
  · rw [← List.take_append_drop (div / 2) is]
    exact hbusy₁.append hbusy₂

/-- As many periods send as many bits. -/
theorem sent_many (hdiv : 2 ≤ div) {n : Nat} (h : Ready s)
    (hcount : s.count.toNat + n ≤ s.length.toNat) (hlen : is.length = n * div)
    (hre : ∀ x ∈ is, x.re = false) : Sent div n s is := by
  induction n generalizing s is with
  | zero =>
    obtain rfl := List.eq_nil_of_length_eq_zero (hlen.trans (Nat.zero_mul div))
    exact ⟨h, rfl, (BitVec.shiftLeft_zero s.srMosi).symm, rfl, .nil, rfl, rfl, fun c hc => by cases hc⟩
  | succ n ih =>
    rw [Nat.succ_mul] at hlen
    have hone : Sent div 1 s (is.take div) :=
      sent_one hdiv h (by omega) (by rw [List.length_take]; omega)
        fun x hx => hre x (List.mem_of_mem_take hx)
    have hmany : Sent div n ((machine div width).run s (is.take div)) (is.drop div) :=
      ih hone.ready (by rw [hone.count, hone.length]; omega)
        (by rw [List.length_drop]; omega) fun x hx => hre x (List.mem_of_mem_drop hx)
    rw [← List.take_append_drop div is]
    refine ⟨?_, ?_, ?_, ?_, ?_, ?_, ?_, hone.busy.append hmany.busy⟩
    · rw [Machine.run_append]
      exact hmany.ready
    · rw [Machine.run_append, hmany.length, hone.length]
    · rw [Machine.run_append, hmany.srMosi, hone.srMosi, ← BitVec.shiftLeft_add, Nat.add_comm 1 n]
    · rw [Machine.run_append, hmany.count, hone.count, Nat.add_assoc, Nat.add_comm 1 n]
    · rw [edges_append, Nat.add_comm n 1, List.range_add, List.map_append, List.map_map]
      have hsends := hmany.sends
      rw [hone.srMosi] at hsends
      refine List.rel_append hone.sends ?_
      simpa only [Function.comp_def, BitVec.shiftLeft_add] using hsends
    · rw [Machine.run_append, edges_append, List.foldl_append, hmany.srMiso, hone.srMiso]
    · rw [shiftCount_append, hmany.shiftCount, hone.shiftCount, Nat.add_comm]

/-! ## The ends of a transfer -/

/-- The clock rises where it is set while the chip is selected. -/
theorem rises_edgeOf (s : State width) (x : In width) :
    rises (edgeOf div s x) = (!s.clk && (!s.clrClk div && s.setClk div && s.enableCs)) := by
  simp only [rises, edgeOf, machine, wires, next]
  cases s.clrClk div <;> cases s.setClk div <;> simp

theorem edges_of_not_rises {t : State width} {x : In width} (h : Reaches div s is t x)
    (ht : t.clk = true ∨ t.enableCs = false) : edges div s is = [] := by
  rw [h.edges, rises_edgeOf]
  rcases ht with ht | ht <;> simp [ht]

/-- Behind the end of the period in which the transfer was started. -/
def State.begin (s : State width) : State width :=
  { s with i := 0, clk := false, fsm := .shift, mosi := s.srMosi.msb }

/-- The strobes in the last cycle of a period. -/
theorem strobes_last (hphase : s.i < div) :
    (s.advance (div - s.i - 1)).setClk div = false ∧
      (s.advance (div - s.i - 1)).clrClk div = true :=
  ⟨State.setClk_eq_false_iff.mpr (by rw [advance_i]; omega),
    State.clrClk_iff.mpr (by rw [advance_i]; omega)⟩

/-- The first bit waits for the beginning of a period. -/
theorem reaches_begin (hfsm : s.fsm = .waitClk) (hphase : s.i < div)
    (hclk : s.clk = false) (hlen : is.length = div - s.i) (hre : ∀ x ∈ is, x.re = false) :
    (machine div width).run s is = s.begin ∧ edges div s is = [] ∧ shiftCount div s is = 0 ∧
      Busy div s is := by
  have henable : s.enableShift = false := by simp [State.enableShift, hfsm]
  have hcs : s.enableCs = false := by simp [State.enableCs, hfsm]
  have hquiet : ∀ k < div - s.i - 1, Quiet div (s.advance k) :=
    quiet_advance (by omega) (fun _ _ _ => ⟨henable, hclk⟩)
      fun hshift => absurd (hfsm.symm.trans hshift) (by decide)
  obtain ⟨x, hx, hreaches⟩ := reaches_strobe (n := div - s.i - 1) (by omega) hre hquiet
  obtain ⟨hset, hclr⟩ := strobes_last hphase
  have hshift : (s.advance (div - s.i - 1)).shiftsMiso div = false := by
    have henable' : (s.advance (div - s.i - 1)).enableShift = false := henable
    simp [State.shiftsMiso, henable']
  have hnext : next div (s.advance (div - s.i - 1)) x = s.begin := by
    simp [next, nextFsm, nextCount, hfsm, hset, hclr, hshift, start_eq_false (hre x hx), hre x hx]
    rfl
  refine ⟨hreaches.run.trans hnext, edges_of_not_rises hreaches (Or.inr hcs), ?_,
    hreaches.busy (by simp [State.done, hfsm])⟩
  rw [hreaches.shiftCount, hshift]
  rfl

theorem busy_singleton {x : In width} (hdone : s.done = false) : Busy div s [x] := by
  intro c hc
  obtain rfl := List.mem_singleton.mp hc
  exact hdone

/-- The cycle in which it is noticed that all bits are sent: if the clock would be set in it,
it is. -/
theorem next_notice (hdiv : 2 ≤ div) (h : Ready s) (hcount : s.count = s.length) (x : In width) :
    (next div s x).fsm = .end ∧ (next div s x).i = 1 ∧ (next div s x).srMiso = s.srMiso ∧
      (edges div s [x]).length = (div / 2 == 1).toNat ∧ shiftCount div s [x] = 0 ∧
      Busy div s [x] := by
  have hclr : s.clrClk div = false := State.clrClk_eq_false_iff.mpr (by rw [h.i]; omega)
  have hset : s.setClk div = (div / 2 == 1) := by
    simp only [State.setClk, h.i, Nat.zero_add]
    exact Bool.beq_comm ..
  have hshift : s.shiftsMiso div = false := by simp [State.shiftsMiso, hclr]
  have hcs : s.enableCs = true := by simp [State.enableCs, h.fsm]
  refine ⟨by simp [next, nextFsm, h.fsm, hcount], by simp [next, hclr, h.i],
    by simp [next, hshift], ?_, ?_, busy_singleton (by simp [State.done, h.fsm])⟩
  · rw [edges_singleton, rises_edgeOf, h.clk, hclr, hset, hcs]
    cases div / 2 == 1 <;> rfl
  · rw [shiftCount_singleton, hshift]
    rfl

/-- In END, up to the cycle of `set_clk`. -/
theorem reaches_idle (hdiv : 2 ≤ div) (hfsm : s.fsm = .end) (hi : s.i < div / 2)
    (hlen : is.length = div / 2 - s.i) (hre : ∀ x ∈ is, x.re = false) :
    ((machine div width).run s is).fsm = .idle ∧
      ((machine div width).run s is).srMiso = s.srMiso ∧ edges div s is = [] ∧
      shiftCount div s is = 0 ∧ Busy div s is := by
  have hquiet : ∀ k < div / 2 - s.i - 1, Quiet div (s.advance k) :=
    quiet_advance (by omega) (fun k hk hset => by omega)
      fun hbusy => absurd (hfsm.symm.trans hbusy) (by decide)
  obtain ⟨x, hx, hreaches⟩ := reaches_strobe (n := div / 2 - s.i - 1) (by omega) hre hquiet
  have hset : (s.advance (div / 2 - s.i - 1)).setClk div = true :=
    State.setClk_iff.mpr (by rw [advance_i]; omega)
  have hshift : (s.advance (div / 2 - s.i - 1)).shiftsMiso div = false := by
    simp [State.shiftsMiso, hset]
  refine ⟨?_, ?_, edges_of_not_rises hreaches (Or.inr (by simp [State.enableCs, hfsm])), ?_,
    hreaches.busy (by simp [State.done, hfsm])⟩
  · rw [hreaches.run]
    simp [next, nextFsm, hfsm, hset]
  · rw [hreaches.run]
    simp only [next, hshift, if_neg Bool.false_ne_true]
    rfl
  · rw [hreaches.shiftCount, hshift]
    rfl

/-- In END with the clock high, up to the cycle of `clr_clk`: `sr_miso` is shifted. -/
theorem reaches_late (hfsm : s.fsm = .end) (hi : div / 2 ≤ s.i) (hphase : s.i < div)
    (hlen : is.length = div - s.i) (hre : ∀ x ∈ is, x.re = false) :
    ((machine div width).run s is).fsm = .end ∧ ((machine div width).run s is).i = 0 ∧
      edges div s is = [] ∧ shiftCount div s is = 1 ∧ Busy div s is := by
  have hquiet : ∀ k < div - s.i - 1, Quiet div (s.advance k) :=
    quiet_advance (by omega) (fun k hk hset => by omega)
      fun hbusy => absurd (hfsm.symm.trans hbusy) (by decide)
  obtain ⟨x, hx, hreaches⟩ := reaches_strobe (n := div - s.i - 1) (by omega) hre hquiet
  obtain ⟨hset, hclr⟩ := strobes_last hphase
  have hshift : (s.advance (div - s.i - 1)).shiftsMiso div = true := by
    simp [State.shiftsMiso, State.enableShift, hfsm, hset, hclr]
  refine ⟨?_, ?_, edges_of_not_rises hreaches (Or.inr (by simp [State.enableCs, hfsm])), ?_,
    hreaches.busy (by simp [State.done, hfsm])⟩
  · rw [hreaches.run]
    simp [next, nextFsm, hfsm, hset]
  · rw [hreaches.run]
    simp [next, hclr]
  · rw [hreaches.shiftCount, hshift]
    rfl

/-- The cycles from the one in which all bits are sent. -/
def tail (div : Nat) : Nat := if div / 2 = 1 then div + 1 else div / 2

/-- A divider of at least 4 ends the transfer without another clock. -/
theorem reaches_end (hdiv : 4 ≤ div) (h : Ready s) (hcount : s.count = s.length)
    (hlen : is.length = tail div) (hre : ∀ x ∈ is, x.re = false) :
    ((machine div width).run s is).fsm = .idle ∧
      ((machine div width).run s is).srMiso = s.srMiso ∧ edges div s is = [] ∧
      shiftCount div s is = 0 ∧ Busy div s is := by
  have hne : div / 2 ≠ 1 := by omega
  have hdiv' : 2 ≤ div := by omega
  rw [tail, if_neg hne] at hlen
  obtain ⟨y, is, rfl⟩ := List.exists_cons_of_length_pos (by omega : 0 < is.length)
  rw [List.length_cons] at hlen
  obtain ⟨hfsm, hi, hsr, hedges, hshifts, hbusy⟩ := next_notice hdiv' h hcount y
  rw [beq_eq_false_iff_ne.mpr hne] at hedges
  obtain ⟨hidle, hsr', hedges', hshifts', hbusy'⟩ :=
    @reaches_idle div width (next div s y) is hdiv' hfsm (by omega) (by omega)
      fun x hx => hre x (List.mem_cons_of_mem y hx)
  rw [← List.singleton_append]
  refine ⟨hidle, hsr'.trans hsr, ?_, ?_, hbusy.append hbusy'⟩
  · rw [edges_append, List.eq_nil_of_length_eq_zero hedges]
    exact hedges'
  · rw [shiftCount_append, hshifts]
    exact (Nat.zero_add _).trans hshifts'

/-- A divider of 2 or 3 lets out another clock, and shifts another bit in. -/
theorem reaches_end_late (hdiv : 2 ≤ div) (hsmall : div < 4) (h : Ready s)
    (hcount : s.count = s.length) (hlen : is.length = tail div) (hre : ∀ x ∈ is, x.re = false) :
    ((machine div width).run s is).fsm = .idle ∧ (edges div s is).length = 1 ∧
      shiftCount div s is = 1 ∧ Busy div s is := by
  have heq : div / 2 = 1 := by omega
  rw [tail, if_pos heq] at hlen
  obtain ⟨y, is, rfl⟩ := List.exists_cons_of_length_pos (by omega : 0 < is.length)
  rw [List.length_cons] at hlen
  obtain ⟨hfsm, hi, -, hedges, hshifts, hbusy⟩ := next_notice hdiv h hcount y
  rw [beq_iff_eq.mpr heq] at hedges
  obtain ⟨hfsm', hi', hedges', hshifts', hbusy'⟩ :=
    @reaches_late div width (next div s y) (is.take (div - 1)) hfsm (by omega) (by omega)
      (by rw [List.length_take]; omega)
      fun x hx => hre x (List.mem_cons_of_mem y (List.mem_of_mem_take hx))
  obtain ⟨hidle, -, hedges'', hshifts'', hbusy''⟩ :=
    @reaches_idle div width _ (is.drop (div - 1)) hdiv hfsm' (by omega)
      (by rw [List.length_drop]; omega)
      fun x hx => hre x (List.mem_cons_of_mem y (List.mem_of_mem_drop hx))
  rw [← List.take_append_drop (div - 1) is, ← List.singleton_append]
  refine ⟨?_, ?_, ?_, hbusy.append (hbusy'.append hbusy'')⟩
  · rw [Machine.run_append, Machine.run_append]
    exact hidle
  · have hrest : edges div (next div s y) (is.take (div - 1) ++ is.drop (div - 1)) = [] := by
      rw [edges_append, hedges', hedges'', List.append_nil]
    rw [edges_append, List.length_append, hedges]
    exact congrArg (1 + List.length ·) hrest
  · have hrest : shiftCount div (next div s y) (is.take (div - 1) ++ is.drop (div - 1)) = 1 := by
      rw [shiftCount_append, hshifts', hshifts'']
    rw [shiftCount_append, hshifts]
    exact (Nat.zero_add _).trans hrest

/-! ## A transfer -/

/-- The cycles of a transfer that was started in the cycle before. -/
def duration (div : Nat) (s : State width) : Nat := div - s.i + s.length.toNat * div + tail div

/-- The cycle of the write that starts a transfer. -/
theorem next_start (h : Inv div s) (hidle : s.fsm = .idle) {x : In width} (hx : x.start = true) :
    (next div s x).fsm = .waitClk ∧ (next div s x).clk = false ∧ (next div s x).count = 0 ∧
      (next div s x).length = x.r.extractLsb' 8 8 ∧ (next div s x).srMosi = x.storage ∧
      edges div s [x] = [] ∧ shiftCount div s [x] = 0 := by
  have hre : x.re = true := by
    unfold In.start at hx
    exact (Bool.and_eq_true_iff.mp hx).1
  have hclk : s.clk = false := h.low (Or.inl hidle)
  have hcs : s.enableCs = false := by simp [State.enableCs, hidle]
  have hshift : s.shiftsMiso div = false := by simp [State.shiftsMiso, State.enableShift, hidle]
  refine ⟨by simp [next, nextFsm, hidle, hx], by simp [next, hclk, hcs],
    by simp [next, nextCount, hidle, hx], by simp [next, hre], by simp [next, hx], ?_, ?_⟩
  · rw [edges_singleton, rises_edgeOf, hcs, Bool.and_false, Bool.and_false]
    rfl
  · rw [shiftCount_singleton, hshift]
    rfl

/-- A transfer up to the cycle in which it is noticed that all bits are sent. -/
theorem transfer_bits (hdiv : 2 ≤ div) (hfsm : s.fsm = .waitClk) (hphase : s.i < div)
    (hclk : s.clk = false) (hcount : s.count = 0)
    (hlen : is.length = div - s.i + s.length.toNat * div) (hre : ∀ x ∈ is, x.re = false) :
    Sent div s.length.toNat s is := by
  obtain ⟨hrun, hedges, hshifts, hbusy⟩ :=
    @reaches_begin div width s (is.take (div - s.i)) hfsm hphase hclk
      (by rw [List.length_take]; omega) fun x hx => hre x (List.mem_of_mem_take hx)
  have hsent : Sent div s.length.toNat s.begin (is.drop (div - s.i)) :=
    sent_many hdiv ⟨rfl, rfl, rfl, rfl⟩ (by simp [State.begin, hcount])
      (by rw [List.length_drop]; omega) fun x hx => hre x (List.mem_of_mem_drop hx)
  rw [← List.take_append_drop (div - s.i) is]
  refine ⟨?_, ?_, ?_, ?_, ?_, ?_, ?_, hbusy.append (hrun ▸ hsent.busy)⟩
  · rw [Machine.run_append, hrun]
    exact hsent.ready
  · rw [Machine.run_append, hrun]
    exact hsent.length
  · rw [Machine.run_append, hrun]
    exact hsent.srMosi
  · rw [Machine.run_append, hrun]
    exact hsent.count
  · rw [edges_append, hedges, hrun]
    exact hsent.sends
  · rw [Machine.run_append, edges_append, hedges, hrun]
    exact hsent.srMiso
  · rw [shiftCount_append, hshifts, hrun, hsent.shiftCount, Nat.zero_add]

/-- The cycles of a transfer: those up to the one in which it is noticed that all bits are
sent, and those that end it. -/
structure Parts (div : Nat) (s : State width) (x : In width) (js ks : List (In width)) : Prop where
  sent : Sent div (x.r.extractLsb' 8 8).toNat (next div s x) js
  count : ((machine div width).run (next div s x) js).count =
    ((machine div width).run (next div s x) js).length
  tail : ks.length = tail div
  edges : edges div s (x :: (js ++ ks)) =
    SPIMaster.edges div (next div s x) js ++
      SPIMaster.edges div ((machine div width).run (next div s x) js) ks
  shiftCount : shiftCount div s (x :: (js ++ ks)) = (x.r.extractLsb' 8 8).toNat +
      SPIMaster.shiftCount div ((machine div width).run (next div s x) js) ks

theorem parts (hdiv : 2 ≤ div) (h : Inv div s) (hidle : s.fsm = .idle) {x : In width}
    (hx : x.start = true) (hlen : is.length = duration div (next div s x))
    (hre : ∀ y ∈ is, y.re = false) :
    ∃ js ks, is = js ++ ks ∧ Parts div s x js ks := by
  obtain ⟨hfsm, hclk, hcount, hlength, -, hedges, hshifts⟩ := next_start h hidle hx
  rw [duration] at hlen
  have hsent : Sent div (next div s x).length.toNat (next div s x)
      (is.take (is.length - tail div)) :=
    transfer_bits hdiv hfsm (h.next x).phase hclk hcount (by rw [List.length_take]; omega)
      fun y hy => hre y (List.mem_of_mem_take hy)
  refine ⟨_, _, (List.take_append_drop (is.length - tail div) is).symm, hlength ▸ hsent,
    BitVec.eq_of_toNat_eq ?_, by rw [List.length_drop]; omega, ?_, ?_⟩
  · rw [hsent.count, hsent.length, hcount]
    exact Nat.zero_add _
  · rw [← List.singleton_append, edges_append, hedges, ← edges_append]
    rfl
  · rw [← List.singleton_append, shiftCount_append, hshifts, Nat.zero_add, ← hlength,
      ← hsent.shiftCount, ← shiftCount_append]
    rfl

/-- A transfer of so many bits of a word: the clock rises as often, each time with the
next bit of the word on `mosi`, and what was on `miso` at these edges is read behind it. -/
structure Exact (div : Nat) (s : State width) (x : In width) (is : List (In width)) : Prop where
  busy : Busy div (next div s x) is
  done : (wires ((machine div width).run s (x :: is))).done = true
  clocks : (edges div s (x :: is)).length = (x.r.extractLsb' 8 8).toNat
  sends : ∀ (j : Nat) (h : j < (edges div s (x :: is)).length),
    Sends (edges div s (x :: is))[j] (x.storage.getLsbD (width - 1 - j))
  captures : ∀ (j : Nat) (h : j < (edges div s (x :: is)).length),
    (wires ((machine div width).run s (x :: is))).miso.getLsbD
      ((x.r.extractLsb' 8 8).toNat - 1 - j) = (edges div s (x :: is))[j].1.miso

/-- **A transfer is exact** for every divider of at least 4, whatever the state of the
divider when it is started. -/
theorem transfer_exact (hdiv : 4 ≤ div) {earlier : List (In width)}
    (hs : (machine div width).run init earlier = s) (hidle : s.fsm = .idle) {x : In width}
    (hx : x.start = true) (hwidth : (x.r.extractLsb' 8 8).toNat ≤ width)
    (hlen : is.length = duration div (next div s x)) (hre : ∀ y ∈ is, y.re = false) :
    Exact div s x is := by
  have hdiv' : 2 ≤ div := Nat.le_trans (by decide) hdiv
  have hInv : Inv div s := hs ▸ inv_run (by omega) earlier
  obtain ⟨-, -, -, -, hword, -⟩ := next_start hInv hidle hx
  obtain ⟨js, ks, rfl, h⟩ := parts hdiv' hInv hidle hx hlen hre
  obtain ⟨hidle', hsr, hnone, -, hbusy⟩ := reaches_end hdiv h.sent.ready h.count h.tail
    fun y hy => hre y (List.mem_append_right js hy)
  rw [← Machine.run_append] at hidle' hsr
  have hedges : edges div s (x :: (js ++ ks)) = edges div (next div s x) js := by
    rw [h.edges, hnone, List.append_nil]
  have hclocks : (edges div s (x :: (js ++ ks))).length = (x.r.extractLsb' 8 8).toNat := by
    rw [hedges, h.sent.sends.length_eq, List.length_map, List.length_range]
  refine ⟨h.sent.busy.append hbusy, ?_, hclocks, fun j hj => ?_, fun j hj => ?_⟩
  · change State.done ((machine div width).run (next div s x) (js ++ ks)) = true
    simp [State.done, hidle']
  · have hj' : j < width := by omega
    have hsends := h.sent.sends.get (i := j) (hedges ▸ hj) (by simpa [← hclocks] using hj)
    simp only [List.get_eq_getElem, List.getElem_map, List.getElem_range, hword,
      msb_shiftLeft_of_lt _ hj', ← hedges] at hsends
    exact hsends
  · have hbits := getLsbD_foldl_shiftConcat (next div s x).srMiso
      ((edges div s (x :: (js ++ ks))).map fun c => c.1.miso) (j := j) (by simpa using hj)
      (by rw [List.length_map, hclocks]; exact hwidth)
    simp only [List.foldl_map, List.length_map, List.getElem_map, hclocks] at hbits
    rw [← hbits, hedges, ← h.sent.srMiso, ← hsr]
    rfl

/-- A write to `_ctrl` that starts a transfer of 8 bits of a word. -/
def startCycle (storage : BitVec 40) : In 40 := ⟨true, 0x801, storage, false⟩

/-- A cycle without a write. -/
def quietCycle (miso : Bool) : In 40 := ⟨false, 0, 0, miso⟩

/-- A command byte for the flash, with the divider in the last cycle of its period when the
transfer is started. -/
theorem transfer_exact_flash :
    Exact 4 ((machine 4 40).run init (List.replicate 3 (quietCycle false)))
      (startCycle 0x9f00000000) (List.replicate 38 (quietCycle true)) :=
  transfer_exact (by decide) rfl (by decide) (by decide) (by decide) (by decide)
    fun y hy => (List.eq_of_mem_replicate hy).symm ▸ rfl

/-! ## The number of clocks -/

/-- **The number of clocks.**  A transfer lets out as many clocks as bits were asked for, and
shifts as many bits in, if and only if the divider is at least 4. -/
theorem clocks_exact_iff (hdiv : 2 ≤ div) {earlier : List (In width)}
    (hs : (machine div width).run init earlier = s) (hidle : s.fsm = .idle) {x : In width}
    (hx : x.start = true) (hlen : is.length = duration div (next div s x))
    (hre : ∀ y ∈ is, y.re = false) :
    Busy div (next div s x) is ∧ (wires ((machine div width).run s (x :: is))).done = true ∧
      ((edges div s (x :: is)).length = (x.r.extractLsb' 8 8).toNat ∧
        shiftCount div s (x :: is) = (x.r.extractLsb' 8 8).toNat ↔ 4 ≤ div) := by
  have hInv : Inv div s := hs ▸ inv_run (by omega) earlier
  obtain ⟨js, ks, rfl, h⟩ := parts hdiv hInv hidle hx hlen hre
  have hclocks : (edges div (next div s x) js).length = (x.r.extractLsb' 8 8).toNat := by
    rw [h.sent.sends.length_eq, List.length_map, List.length_range]
  have hks : ∀ y ∈ ks, y.re = false := fun y hy => hre y (List.mem_append_right js hy)
  have hdone : ((machine div width).run ((machine div width).run (next div s x) js) ks).fsm = .idle →
      (wires ((machine div width).run s (x :: (js ++ ks)))).done = true := by
    rw [← Machine.run_append]
    intro hfsm
    change State.done ((machine div width).run (next div s x) (js ++ ks)) = true
    simp [State.done, hfsm]
  rw [h.edges, h.shiftCount, List.length_append, hclocks]
  rcases Nat.lt_or_ge div 4 with hsmall | hlarge
  · obtain ⟨hfsm, hedges, -, hbusy⟩ := reaches_end_late hdiv hsmall h.sent.ready h.count h.tail hks
    exact ⟨h.sent.busy.append hbusy, hdone hfsm, by omega⟩
  · obtain ⟨hfsm, -, hedges, hshifts, hbusy⟩ :=
      reaches_end hlarge h.sent.ready h.count h.tail hks
    rw [hedges, hshifts]
    exact ⟨h.sent.busy.append hbusy, hdone hfsm, fun _ => hlarge, fun _ => ⟨rfl, rfl⟩⟩

/-- With a divider of 2, a transfer of 8 bits lets out 9 clocks and shifts 9 bits in. -/
theorem clocks_one_too_many :
    Busy 2 (next 2 init (startCycle 0)) (List.replicate 20 (quietCycle false)) ∧
      (wires ((machine 2 40).run init
        (startCycle 0 :: List.replicate 20 (quietCycle false)))).done = true ∧
      (edges 2 init (startCycle 0 :: List.replicate 20 (quietCycle false))).length = 9 ∧
      shiftCount 2 init (startCycle 0 :: List.replicate 20 (quietCycle false)) = 9 := by
  unfold Busy
  decide +kernel

/-- With a divider of 4 there are 8. -/
theorem clocks_exact_iff_flash :
    Busy 4 (next 4 init (startCycle 0)) (List.replicate 37 (quietCycle false)) ∧
      (wires ((machine 4 40).run init
        (startCycle 0 :: List.replicate 37 (quietCycle false)))).done = true ∧
      ((edges 4 init (startCycle 0 :: List.replicate 37 (quietCycle false))).length = 8 ∧
        shiftCount 4 init (startCycle 0 :: List.replicate 37 (quietCycle false)) = 8 ↔ 4 ≤ 4) :=
  @clocks_exact_iff 4 40 init _ (by decide) [] rfl rfl _ (by decide) (by decide)
    fun y hy => (List.eq_of_mem_replicate hy).symm ▸ rfl

end SPIMaster

end UsbSniffer.Spi
