/-
  Sync/Ring.lean --- a ring of slots in a memory, and wide words read out in chunks.

  A ring buffer keeps its words in the `size` slots from `base` on; `first` is the
  slot of the oldest one and `n` the number of words.  Writing the slot behind the
  last word appends to the list of words as long as there is a free slot, and
  moving `first` on takes the oldest one.

  When the words are wide ones that leave chunk by chunk, the chunks still inside
  are those of all words but the first `pos`.
-/
import Mathlib.Data.Vector.Basic
import Mathlib.Data.List.GetD
import Mathlib.Logic.Function.Basic
import UsbSniffer.Sync.Queue

set_option autoImplicit false

namespace UsbSniffer.Sync

variable {α : Type}

/-! ## The ring -/

/-- The words of a ring, oldest first. -/
def ring (mem : Nat → α) (base size first n : Nat) : List α :=
  (List.range n).map fun k => mem (base + (first + k) % size)

@[simp] theorem length_ring (mem : Nat → α) (base size first n : Nat) :
    (ring mem base size first n).length = n := by
  simp [ring]

@[simp] theorem ring_zero (mem : Nat → α) (base size first : Nat) :
    ring mem base size first 0 = [] := rfl

/-- Different offsets below the size are different slots. -/
theorem slot_ne (first : Nat) {size j k : Nat} (hj : j < k) (hk : k < j + size) :
    (first + j) % size ≠ (first + k) % size := by
  intro heq
  have hdvd : size ∣ (first + k) - (first + j) :=
    Nat.dvd_of_mod_eq_zero (Nat.sub_mod_eq_zero_of_mod_eq heq.symm)
  have hle := Nat.le_of_dvd (by omega) hdvd
  omega

/-- Writing the slot behind the last word leaves the words alone. -/
theorem ring_update (mem : Nat → α) (base : Nat) {size first n : Nat} (h : n < size) (x : α) :
    ring (Function.update mem (base + (first + n) % size) x) base size first n =
      ring mem base size first n := by
  unfold ring
  apply List.map_congr_left
  intro k hk
  have hlt : k < n := List.mem_range.mp hk
  have hne : base + (first + k) % size ≠ base + (first + n) % size := by
    have := slot_ne first hlt (by omega : n < k + size)
    omega
  exact Function.update_of_ne hne x mem

/-- Writing the slot behind the last word appends to a ring that has a free slot. -/
theorem ring_push (mem : Nat → α) (base : Nat) {size first n : Nat} (h : n < size) (x : α) :
    ring (Function.update mem (base + (first + n) % size) x) base size first (n + 1) =
      ring mem base size first n ++ [x] := by
  have hlast : ring (Function.update mem (base + (first + n) % size) x) base size first (n + 1) =
      ring (Function.update mem (base + (first + n) % size) x) base size first n ++ [x] := by
    simp [ring, List.range_succ]
  rw [hlast, ring_update mem base h x]

/-- The oldest word and the rest. -/
theorem ring_pop (mem : Nat → α) (base : Nat) {size first : Nat} (n : Nat) (h : first < size) :
    ring mem base size first (n + 1) =
      mem (base + first) :: ring mem base size ((first + 1) % size) n := by
  unfold ring
  rw [List.range_succ_eq_map, List.map_cons, List.map_map, Nat.add_zero, Nat.mod_eq_of_lt h]
  congr 1
  apply List.map_congr_left
  intro k _
  simp only [Function.comp_apply, Nat.mod_add_mod]
  congr 3
  omega

/-- A ring is a queue: a write needs a free slot and a read a word. -/
theorem ring_step (mem : Nat → α) (base : Nat) {size first n : Nat} (hfirst : first < size)
    {write read : Bool} (hwrite : write = true → n < size) (hread : read = true → 1 ≤ n)
    (x : α) :
    QueueStep (ring mem base size first n) (beat write true x)
      (beat read true (mem (base + first)))
      (ring (if write then Function.update mem (base + (first + n) % size) x else mem) base
        size (if read then (first + 1) % size else first)
        (n + (if write then 1 else 0) - (if read then 1 else 0))) := by
  have hpushed : ring mem base size first n ++ beat write true x =
      ring (if write then Function.update mem (base + (first + n) % size) x else mem) base
        size first (n + (if write then 1 else 0)) := by
    cases write with
    | false => simp
    | true => simp [ring_push mem base (hwrite rfl) x]
  have hhead : read = true →
      (if write then Function.update mem (base + (first + n) % size) x else mem)
        (base + first) = mem (base + first) := by
    intro hr
    cases write with
    | false => rfl
    | true =>
      have hslot : first ≠ (first + n) % size := by
        have := slot_ne first (hread hr) (by simpa using hwrite rfl)
        rwa [Nat.add_zero, Nat.mod_eq_of_lt hfirst] at this
      have hne : base + first ≠ base + (first + n) % size := by omega
      exact Function.update_of_ne hne x mem
  unfold QueueStep
  rw [hpushed]
  cases read with
  | false => simp
  | true =>
    have hn : n + (if write then 1 else 0) = n + (if write then 1 else 0) - 1 + 1 := by
      have := hread rfl
      omega
    rw [hn, ring_pop _ base _ hfirst, hhead rfl]
    simp

/-! ## Chunks -/

variable {n : Nat}

/-- The chunks of wide words, without the first `pos`. -/
def chunks (q : List (Vector α n)) (pos : Nat) : List α := (q.flatMap Vector.toList).drop pos

theorem length_flatMap_toList (q : List (Vector α n)) :
    (q.flatMap Vector.toList).length = q.length * n := by
  induction q with
  | nil => simp
  | cons w q ih =>
    rw [List.flatMap_cons, List.length_append, ih, Vector.length_toList, List.length_cons]
    rw [Nat.succ_mul, Nat.add_comm]

@[simp] theorem chunks_nil (pos : Nat) : chunks ([] : List (Vector α n)) pos = [] := by
  simp [chunks]

/-- Words are appended behind the chunks. -/
theorem chunks_append (q ins : List (Vector α n)) {pos : Nat} (h : pos ≤ q.length * n) :
    chunks (q ++ ins) pos = chunks q pos ++ ins.flatMap Vector.toList := by
  unfold chunks
  rw [List.flatMap_append, List.drop_append_of_le_length]
  rw [length_flatMap_toList]
  exact h

/-- The chunk on offer and the rest. -/
theorem chunks_cons (w : Vector α n) (q : List (Vector α n)) {pos : Nat} (h : pos < n) (d : α) :
    chunks (w :: q) pos = w.toList.getD pos d :: chunks (w :: q) (pos + 1) := by
  have hlen : pos < w.toList.length := by rw [Vector.length_toList]; exact h
  unfold chunks
  rw [List.flatMap_cons, List.drop_append_of_le_length (by omega),
    List.drop_append_of_le_length (by omega), List.drop_eq_getElem_cons hlen,
    List.getD_eq_getElem _ _ hlen, List.cons_append]

/-- After its last chunk a word is gone. -/
theorem chunks_last (w : Vector α n) (q : List (Vector α n)) :
    chunks (w :: q) n = chunks q 0 := by
  unfold chunks
  rw [List.flatMap_cons, List.drop_append_of_le_length (by rw [Vector.length_toList])]
  rw [List.drop_eq_nil_of_le (by rw [Vector.length_toList])]
  rfl

/-- A queue of wide words whose head leaves in chunks is a queue of their chunks.  The
head `w` is taken with its last chunk; `fire` says that a chunk of it leaves. -/
theorem chunks_step {q q' ins : List (Vector α n)} {w : Vector α n} {pos : Nat} {fire : Bool}
    (hpos : pos < n) (hstarted : pos ≠ 0 → q ≠ [])
    (hhead : fire = true → ∃ rest, q = w :: rest)
    (hstep : QueueStep q ins (beat (fire && pos == n - 1) true w) q') (d : α) :
    QueueStep (chunks q pos) (ins.flatMap Vector.toList)
      (beat fire true (w.toList.getD pos d))
      (chunks q' (if fire then (if pos = n - 1 then 0 else pos + 1) else pos)) := by
  unfold QueueStep at hstep ⊢
  cases fire with
  | false =>
    simp only [Bool.false_and, beat_false_left, List.nil_append] at hstep
    have hle : pos ≤ q.length * n := by
      by_cases hzero : pos = 0
      · omega
      · have hlen := List.length_pos_of_ne_nil (hstarted hzero)
        have := Nat.le_mul_of_pos_left n hlen
        omega
    rw [← hstep, beat_false_left, ← chunks_append q ins hle]
    rfl
  | true =>
    obtain ⟨rest, rfl⟩ := hhead rfl
    rw [chunks_cons w rest hpos d, beat_true_true]
    by_cases hlast : pos = n - 1
    · rw [hlast, Bool.true_and, beq_self_eq_true, beat_true_true] at hstep
      have hq : rest ++ ins = q' := List.cons.inj hstep |>.2
      rw [if_pos rfl, if_pos hlast, show pos + 1 = n by omega, chunks_last, ← hq,
        chunks_append rest ins (Nat.zero_le _)]
      rfl
    · have hmore : (pos == n - 1) = false := beq_false_of_ne hlast
      rw [hmore, Bool.and_false, beat_false_left, List.nil_append] at hstep
      have hle : pos + 1 ≤ (w :: rest).length * n := by
        rw [List.length_cons, Nat.succ_mul]
        omega
      rw [if_pos rfl, if_neg hlast, ← hstep, chunks_append (w :: rest) ins hle]
      rfl

end UsbSniffer.Sync
