/-
  Ulpi/Bursts.lean --- what the transceiver sends is framed burst by burst
  (gateware/ulpi.py, ULPIPHYS7).

  A burst is a run of cycles in which the transceiver drives the bus.  Its first cycle
  turns the bus and carries nothing.  The other cycles are offered to `rx_fifo` one
  cycle later, so that the mark of the last one, which is not delayed, can tell that the
  burst is over.
-/
import UsbSniffer.Ulpi.Phy

set_option autoImplicit false

namespace UsbSniffer.Ulpi

open UsbSniffer.Sync

variable {δ : Type}

/-! ## Bursts -/

/-- The bursts of a sequence of cycles: those that are over, and the cycles of the one
that goes on. -/
structure Bursts (δ : Type) where
  ended : List (List (Pads δ))
  current : List (Pads δ)

namespace Bursts

/-- One more cycle: it belongs to the burst that goes on, or ends it. -/
def add (b : Bursts δ) (p : Pads δ) : Bursts δ :=
  if p.dir then { b with current := b.current ++ [p] }
  else if b.current.isEmpty then b
  else { ended := b.ended ++ [b.current], current := [] }

/-- The bursts of a sequence of cycles. -/
def of (ps : List (Pads δ)) : Bursts δ := ps.foldl add ⟨[], []⟩

@[simp] theorem of_nil : of ([] : List (Pads δ)) = ⟨[], []⟩ := rfl

theorem of_concat (ps : List (Pads δ)) (p : Pads δ) : of (ps ++ [p]) = (of ps).add p := by
  unfold of
  rw [List.foldl_append]
  rfl

/-- Cycles of a burst are added to it. -/
theorem of_append_high (ps : List (Pads δ)) {qs : List (Pads δ)} (h : ∀ q ∈ qs, q.dir = true) :
    of (ps ++ qs) = { of ps with current := (of ps).current ++ qs } := by
  induction qs generalizing ps with
  | nil => rw [List.append_nil, List.append_nil]
  | cons q qs ih =>
    rw [List.append_cons, ih (ps ++ [q]) fun r hr => h r (List.mem_cons_of_mem q hr), of_concat, add,
      if_pos (h q (List.mem_cons_self ..)), List.append_assoc]
    rfl

/-- A maximal run of cycles with `dir` high is a burst. -/
theorem of_burst {ps qs : List (Pads δ)} {r : Pads δ} (hps : ∀ p ∈ ps.getLast?, p.dir = false)
    (hne : qs ≠ []) (hqs : ∀ q ∈ qs, q.dir = true) (hr : r.dir = false) :
    of (ps ++ qs ++ [r]) = ⟨(of ps).ended ++ [qs], []⟩ := by
  have hcurrent : (of ps).current = [] := by
    rcases List.eq_nil_or_concat ps with rfl | ⟨ps, p, rfl⟩
    · rfl
    · rw [List.concat_eq_append] at hps ⊢
      rw [of_concat, add, hps p (by simp), if_neg Bool.false_ne_true]
      cases hc : (of ps).current <;> simp [hc]
  rw [of_concat, of_append_high ps hqs, hcurrent, add, hr, if_neg Bool.false_ne_true,
    List.nil_append, if_neg (by simpa using hne)]

end Bursts

/-- The beat of a cycle of a burst. -/
def receive (p : Pads δ) (last : Bool) : RxBeat δ := ⟨p.data, !p.nxt, last⟩

/-- The beats of a burst that is over: all its cycles but the first, the last one marked. -/
def endedBeats (b : List (Pads δ)) : List (RxBeat δ) :=
  (marked b.tail).map fun x => receive x.1 x.2

/-- The beats of a burst that goes on: its last cycle waits for its mark. -/
def currentBeats (b : List (Pads δ)) : List (RxBeat δ) :=
  b.tail.dropLast.map fun p => receive p false

/-- The beats of a sequence of cycles. -/
def framed (b : Bursts δ) : List (RxBeat δ) := b.ended.flatMap endedBeats ++ currentBeats b.current

/-- The last cycle of a burst, unless it is the first one too. -/
def pending (c : List (Pads δ)) (p : Pads δ) (last : Bool) : List (RxBeat δ) :=
  if c.isEmpty then [] else [receive p last]

theorem currentBeats_concat (c : List (Pads δ)) (p : Pads δ) :
    currentBeats (c ++ [p]) = c.tail.map fun q => receive q false := by
  unfold currentBeats
  cases c with
  | nil => rfl
  | cons q c => rw [List.cons_append, List.tail_cons, List.dropLast_concat, List.tail_cons]

/-- The last cycle goes out with its mark when the burst is over. -/
theorem endedBeats_concat (c : List (Pads δ)) (p : Pads δ) :
    endedBeats (c ++ [p]) = currentBeats (c ++ [p]) ++ pending c p true := by
  rw [currentBeats_concat]
  unfold endedBeats pending
  cases c with
  | nil => rfl
  | cons q c =>
    rw [List.cons_append, List.tail_cons, marked_append c (List.cons_ne_nil p []),
      List.map_append, List.map_map]
    rfl

/-- The last cycle goes out without a mark when the burst goes on. -/
theorem currentBeats_concat_concat (c : List (Pads δ)) (p q : Pads δ) :
    currentBeats (c ++ [p] ++ [q]) = currentBeats (c ++ [p]) ++ pending c p false := by
  rw [currentBeats_concat, currentBeats_concat]
  unfold pending
  cases c with
  | nil => rfl
  | cons r c => simp

/-! ## The registers -/

namespace ULPIPHYS7

variable {F : Config δ}

/-- The beat offered to `rx_fifo` in a cycle. -/
def offered (c : In δ × Out δ) : List (RxBeat δ) := if c.2.rxValid then [c.2.rxSink] else []

/-- The registers show whether a burst goes on, and its last cycle. -/
structure Tracks (s : State F) (current : List (Pads δ)) : Prop where
  odir : s.odir = !current.isEmpty
  valid : s.rxValid = decide (2 ≤ current.length)
  data : ∀ c p, current = c ++ [p] → s.dataI = p.data ∧ s.rxCmd = !p.nxt

theorem tracks_init [Inhabited δ] : Tracks (init : State F) [] where
  odir := rfl
  valid := rfl
  data c p h := absurd h.symm (List.append_ne_nil_of_right_ne_nil c (List.cons_ne_nil p []))

/-- The registers follow a cycle. -/
theorem Tracks.next {s : State F} {b : Bursts δ} (h : Tracks s b.current) (i : In δ) :
    Tracks (next s i) (b.add i.pads).current := by
  unfold Bursts.add
  cases hdir : i.pads.dir with
  | true =>
    refine ⟨by simp [ULPIPHYS7.next, hdir], ?_, fun c p hcp => ?_⟩
    · change (s.odir && i.pads.dir) = decide (2 ≤ (b.current ++ [i.pads]).length)
      rw [h.odir, hdir, List.length_append]
      cases b.current <;> simp
    · obtain ⟨-, hp⟩ := List.append_inj' hcp rfl
      obtain rfl := List.head_eq_of_cons_eq hp
      exact ⟨rfl, rfl⟩
  | false =>
    have hempty : (if b.current.isEmpty then b else ⟨b.ended ++ [b.current], []⟩).current = [] := by
      cases hb : b.current <;> simp [hb]
    rw [if_neg Bool.false_ne_true, hempty]
    refine ⟨hdir, ?_, fun c p hcp => absurd hcp (by simp)⟩
    change (s.odir && i.pads.dir) = false
    rw [hdir, Bool.and_false]

/-- What is offered in a cycle is the last cycle of the burst that goes on. -/
theorem Tracks.framed_add {s : State F} {b : Bursts δ} (h : Tracks s b.current) (i : In δ) :
    framed b ++ offered (i, out s i) = framed (b.add i.pads) := by
  rcases List.eq_nil_or_concat b.current with hb | ⟨c, p, hb⟩
  · have hvalid : s.rxValid = false := by
      rw [h.valid, hb]
      rfl
    have hoffered : offered (i, out s i) = [] := by
      simp [offered, out, hvalid]
    rw [hoffered, List.append_nil]
    unfold framed Bursts.add
    cases hdir : i.pads.dir <;> simp [hb, currentBeats]
  · rw [List.concat_eq_append] at hb
    have hoffered : offered (i, out s i) = pending c p (!i.pads.dir) := by
      obtain ⟨hdata, hcmd⟩ := h.data c p hb
      have hodir : s.odir = true := by
        rw [h.odir, hb]
        simp
      unfold offered pending out rxSink receive
      simp only [h.valid, hb, hdata, hcmd, hodir, Bool.true_and]
      cases c <;> simp
    rw [hoffered]
    unfold framed Bursts.add
    cases hdir : i.pads.dir with
    | true =>
      -- the burst goes on
      rw [if_pos rfl, hb, currentBeats_concat_concat, Bool.not_true, List.append_assoc]
    | false =>
      -- the burst is over
      have hne : b.current.isEmpty = false := by simp [hb]
      rw [if_neg Bool.false_ne_true, hne, if_neg Bool.false_ne_true, Bool.not_false, hb,
        List.append_assoc, ← endedBeats_concat, List.flatMap_append]
      simp [currentBeats]

/-- **Receive framing is exact.**  What is offered to `rx_fifo` in a run from reset is what
the bursts of its cycles make. -/
theorem offered_framed [Inhabited δ] (is : List (In δ)) :
    moved offered ((machine F).trace init is) = framed (Bursts.of (is.map In.pads)) := by
  have hrun := (machine F).history_induction_always
    (fun s tr => Tracks s (Bursts.of (tr.map fun c => c.1.pads)).current ∧
      moved offered tr = framed (Bursts.of (tr.map fun c => c.1.pads)))
    ⟨tracks_init, rfl⟩
    (by
      rintro s tr i ⟨htracks, hmoved⟩
      rw [List.map_append, List.map_singleton, Bursts.of_concat]
      refine ⟨htracks.next i, ?_⟩
      rw [moved_append, moved_singleton, hmoved]
      exact htracks.framed_add i)
    is
  have hpads : ((machine F).trace init is).map (fun c => c.1.pads) = is.map In.pads :=
    List.map_map.symm.trans (congrArg (List.map In.pads) ((machine F).map_fst_trace init is))
  rw [hrun.2, hpads]

end ULPIPHYS7

end UsbSniffer.Ulpi
