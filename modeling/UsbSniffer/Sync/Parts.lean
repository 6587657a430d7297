/-
  Sync/Parts.lean --- stream building blocks, by what they promise.

  Designs are put together from blocks of a gateware library: a synchronous
  first-word-fall-through FIFO, a wait timer, a serializer that offers the chunks
  of a wide word one after the other (`Unpack` and the down-converter are the
  same block) and the up-converter that gathers them.  Each is given here by its
  interface and by the laws that its users rely on, so a design is modelled over
  any implementation of them.  Below each contract stands an implementation that
  meets it.
-/
import Mathlib.Data.List.Basic
import Mathlib.Data.Vector.Basic
import UsbSniffer.Sync.Queue

set_option autoImplicit false

namespace UsbSniffer.Sync

/-! ## The synchronous FIFO -/

/-- A synchronous FIFO of `depth` words.  The word at the front is on `dout`
without a read; a write in a cycle in which the FIFO is full is not taken, even
when that cycle also reads. -/
structure SyncFIFO (α : Type) (depth : Nat) where
  /-- Memory, pointers and level counter. -/
  State : Type
  init : State
  /-- The pointers after a reset; the memory keeps its words. -/
  clear : State → State
  /-- The words inside, oldest first. -/
  contents : State → List α
  level : State → Nat
  dout : State → α
  /-- The edge of a cycle with write enable, write data and read enable. -/
  next : State → Bool → α → Bool → State
  contents_init : contents init = []
  contents_clear : ∀ s, contents (clear s) = []
  level_eq : ∀ s, level s = (contents s).length
  dout_eq : ∀ s x q, contents s = x :: q → dout s = x
  contents_next : ∀ s we din re, contents (next s we din re) =
    (if re then (contents s).tail else contents s) ++ beat we (level s != depth) din

namespace SyncFIFO

variable {α : Type} {depth : Nat} (F : SyncFIFO α depth)

/-- The FIFO takes a word in this cycle if it is offered one. -/
def writable (s : F.State) : Bool := F.level s != depth

/-- The FIFO has a word on `dout`. -/
def readable (s : F.State) : Bool := F.level s != 0

theorem readable_eq (s : F.State) : F.readable s = !(F.contents s).isEmpty := by
  unfold readable
  rw [F.level_eq]
  cases F.contents s <;> simp

theorem readable_iff (s : F.State) : F.readable s = true ↔ F.contents s ≠ [] := by
  rw [readable_eq]
  cases F.contents s <;> simp

/-- What a read enable takes out of the FIFO in a cycle. -/
theorem popped_eq (s : F.State) (re : Bool) :
    beat (F.readable s) re (F.dout s) ++
        (if re then (F.contents s).tail else F.contents s) = F.contents s := by
  rw [readable_eq]
  cases hc : F.contents s with
  | nil => cases re <;> simp
  | cons x q => cases re <;> simp [F.dout_eq s x q hc]

/-- A FIFO is a queue. -/
theorem queueStep (s : F.State) (we : Bool) (din : α) (re : Bool) :
    QueueStep (F.contents s) (beat we (F.writable s) din)
      (beat (F.readable s) re (F.dout s)) (F.contents (F.next s we din re)) := by
  unfold QueueStep writable
  rw [F.contents_next, ← List.append_assoc, F.popped_eq]

theorem length_next (s : F.State) (we : Bool) (din : α) (re : Bool) :
    (F.contents (F.next s we din re)).length + (beat (F.readable s) re (F.dout s)).length =
      (F.contents s).length + (beat we (F.writable s) din).length := by
  have h := congrArg List.length (F.queueStep s we din re)
  simp only [List.length_append] at h
  omega

/-- A FIFO never holds more than its depth. -/
theorem length_next_le (s : F.State) (we : Bool) (din : α) (re : Bool)
    (h : (F.contents s).length ≤ depth) :
    (F.contents (F.next s we din re)).length ≤ depth := by
  have hlen := F.length_next s we din re
  have hwrite : (beat we (F.writable s) din).length + (F.contents s).length ≤ depth := by
    unfold writable
    rw [F.level_eq]
    by_cases hfull : (F.contents s).length = depth
    · simp [hfull]
    · have := beat_length_le we ((F.contents s).length != depth) din
      omega
  omega

/-- The list itself, as a FIFO. -/
def queue (α : Type) [Inhabited α] (depth : Nat) : SyncFIFO α depth where
  State := List α
  init := []
  clear _ := []
  contents s := s
  level s := s.length
  dout s := s.headD default
  next s we din re := (if re then s.tail else s) ++ beat we (s.length != depth) din
  contents_init := rfl
  contents_clear _ := rfl
  level_eq _ := rfl
  dout_eq s x q h := by subst h; rfl
  contents_next _ _ _ _ := rfl

end SyncFIFO

/-! ## The buffered FIFO -/

/-- The FIFO with a register behind it (`SyncFIFOBuffered`).  A word reaches the
register one cycle after it has come to the front, and is readable there. -/
structure BufferedFIFO (α : Type) (depth : Nat) where
  State : Type
  init : State
  /-- The words inside, oldest first. -/
  contents : State → List α
  writable : State → Bool
  readable : State → Bool
  dout : State → α
  /-- The edge of a cycle with write enable, write data and read enable. -/
  next : State → Bool → α → Bool → State
  contents_init : contents init = []
  dout_eq : ∀ s, readable s = true → contents s = dout s :: (contents s).tail
  contents_next : ∀ s we din re, contents (next s we din re) =
    (if readable s && re then (contents s).tail else contents s) ++ beat we (writable s) din
  writable_of_lt : ∀ s, (contents s).length < depth → writable s = true
  readable_next : ∀ s we din re,
    (if readable s && re then (contents s).tail else contents s) ≠ [] →
      readable (next s we din re) = true

namespace BufferedFIFO

variable {α : Type}

/-- The list behind the register, and the register. -/
def registered (α : Type) [Inhabited α] (depth : Nat) : BufferedFIFO α depth where
  State := List α × Option α
  init := ([], none)
  contents s := s.2.toList ++ s.1
  writable s := s.1.length != depth
  readable s := s.2.isSome
  dout s := s.2.getD default
  next s we din re :=
    let load := !s.1.isEmpty && (s.2.isNone || re)
    ((if load then s.1.tail else s.1) ++ beat we (s.1.length != depth) din,
      if load then s.1.head? else if re then none else s.2)
  contents_init := rfl
  dout_eq s h := by
    obtain ⟨inner, out⟩ := s
    cases out with
    | none => cases h
    | some x => rfl
  contents_next s we din re := by
    obtain ⟨inner, out⟩ := s
    cases inner <;> cases out <;> cases re <;> simp
  writable_of_lt s h := by
    rw [List.length_append] at h
    rw [bne_iff_ne]
    omega
  readable_next s we din re h := by
    obtain ⟨inner, out⟩ := s
    cases inner <;> cases out <;> cases re <;> simp_all

end BufferedFIFO

/-! ## The asynchronous FIFO -/

/-- A FIFO between two clock domains.  An edge of the write clock comes with a write enable
and a word, one of the read clock with a read enable; both may come at once.  A word is
seen on the other side, and so is the place that a read makes, whenever the pointers have
crossed. -/
structure AsyncFIFO (α : Type) (depth : Nat) where
  State : Type
  init : State
  /-- The words inside, oldest first. -/
  contents : State → List α
  writable : State → Bool
  readable : State → Bool
  dout : State → α
  /-- The edges of an instant. -/
  next : State → Option (Bool × α) → Option Bool → State
  contents_init : contents init = []
  length_lt : ∀ s, writable s = true → (contents s).length < depth
  dout_eq : ∀ s, readable s = true → contents s = dout s :: (contents s).tail
  contents_next : ∀ s write read, contents (next s write read) =
    (if readable s && read.getD false then (contents s).tail else contents s) ++
      write.elim [] fun w => beat w.1 (writable s) w.2

namespace AsyncFIFO

variable {α : Type} {depth : Nat}

/-- The pointers of both sides, each with two registers on the other side, and the words
between them.  A pointer counts on without end. -/
structure Pointers (α : Type) (depth : Nat) where
  words : List α
  consumed : Nat
  /-- the write pointer as the read clock has seen it last, and before -/
  produced₁ : Nat
  produced₂ : Nat
  /-- the read pointer as the write clock has seen it last, and before -/
  consumed₁ : Nat
  consumed₂ : Nat
  seen_produced : consumed ≤ produced₂ ∧ produced₂ ≤ produced₁ ∧
    produced₁ ≤ consumed + words.length
  seen_consumed : consumed₂ ≤ consumed₁ ∧ consumed₁ ≤ consumed
  room : consumed + words.length ≤ consumed₂ + depth

namespace Pointers

/-- There is room, as far as the write clock has seen. -/
def writable (s : Pointers α depth) : Bool := s.consumed + s.words.length != s.consumed₂ + depth

/-- There is a word, as far as the read clock has seen. -/
def readable (s : Pointers α depth) : Bool := s.consumed != s.produced₂

theorem words_ne_nil {s : Pointers α depth} (h : s.readable = true) : s.words ≠ [] := by
  have hseen := s.seen_produced
  have hne : s.consumed ≠ s.produced₂ := bne_iff_ne.mp h
  exact List.ne_nil_of_length_pos (by omega)

/-- An edge of the read clock. -/
def read (s : Pointers α depth) (re : Bool) : Pointers α depth where
  words := if s.readable && re then s.words.tail else s.words
  consumed := if s.readable && re then s.consumed + 1 else s.consumed
  produced₁ := s.consumed + s.words.length
  produced₂ := s.produced₁
  consumed₁ := s.consumed₁
  consumed₂ := s.consumed₂
  seen_produced := by
    have hseen := s.seen_produced
    cases hre : s.readable && re with
    | false => simp; omega
    | true =>
      have hreadable := (Bool.and_eq_true_iff.mp hre).1
      have hne : s.consumed ≠ s.produced₂ := bne_iff_ne.mp hreadable
      simp; omega
  seen_consumed := by
    have hseen := s.seen_consumed
    split_ifs <;> omega
  room := by
    have hseen := s.seen_produced
    have hroom := s.room
    cases hre : s.readable && re with
    | false => simpa using hroom
    | true =>
      have hne : s.consumed ≠ s.produced₂ := bne_iff_ne.mp (Bool.and_eq_true_iff.mp hre).1
      simp; omega

/-- An edge of the write clock. -/
def write (s : Pointers α depth) (we : Bool) (din : α) : Pointers α depth where
  words := s.words ++ beat we s.writable din
  consumed := s.consumed
  produced₁ := s.produced₁
  produced₂ := s.produced₂
  consumed₁ := s.consumed
  consumed₂ := s.consumed₁
  seen_produced := by
    have hseen := s.seen_produced
    rw [List.length_append]
    omega
  seen_consumed := ⟨s.seen_consumed.2, Nat.le_refl _⟩
  room := by
    have hseen := s.seen_consumed
    have hroom := s.room
    have hbeat := beat_length_le we s.writable din
    rw [List.length_append]
    cases hw : s.writable with
    | false => simp; omega
    | true =>
      have hne : s.consumed + s.words.length ≠ s.consumed₂ + depth := bne_iff_ne.mp hw
      rw [hw] at hbeat
      omega

@[simp] theorem writable_read (s : Pointers α depth) (re : Bool) :
    (s.read re).writable = s.writable := by
  have hproduced : (s.read re).consumed + (s.read re).words.length =
      s.consumed + s.words.length := by
    simp only [read]
    cases hre : s.readable && re with
    | false => rfl
    | true =>
      have hpos := List.length_pos_iff.mpr (words_ne_nil (Bool.and_eq_true_iff.mp hre).1)
      simp
      omega
  unfold writable
  rw [hproduced]
  rfl

end Pointers

/-- The FIFO with two pointers and their synchronizers. -/
def synchronized (α : Type) [Inhabited α] (depth : Nat) : AsyncFIFO α depth where
  State := Pointers α depth
  init := ⟨[], 0, 0, 0, 0, 0, by simp, by simp, by simp⟩
  contents := Pointers.words
  writable := Pointers.writable
  readable := Pointers.readable
  dout s := s.words.headD default
  next s write read :=
    let s' := read.elim s s.read
    write.elim s' fun w => s'.write w.1 w.2
  contents_init := rfl
  length_lt s h := by
    have hroom := s.room
    have hseen := s.seen_consumed
    have hne : s.consumed + s.words.length ≠ s.consumed₂ + depth := bne_iff_ne.mp h
    omega
  dout_eq s h := by
    obtain ⟨x, q, hwords⟩ := List.exists_cons_of_ne_nil (Pointers.words_ne_nil h)
    rw [hwords]
    rfl
  contents_next s write read := by
    cases read with
    | none => cases write <;> simp [Pointers.write]
    | some re => cases write <;> simp [Pointers.write] <;> simp [Pointers.read]

end AsyncFIFO

/-! ## The wait timer -/

/-- A timer that is done when `wait` has been high for its whole period, and
starts over in every cycle in which `wait` is low.  The period is not zero. -/
structure WaitTimer where
  State : Type
  init : State
  done : State → Bool
  next : State → Bool → State
  done_init : done init = false
  done_restart : ∀ s, done (next s false) = false

/-- The down-counter from `period`. -/
def WaitTimer.counter (period : Nat) (hperiod : 0 < period) : WaitTimer where
  State := Nat
  init := period
  done s := s == 0
  next s wait := if wait then s - 1 else period
  done_init := by simp; omega
  done_restart _ := by simp; omega

/-- A wait timer that is in its reset state after every cycle in which `wait` is low. -/
structure ReloadTimer extends WaitTimer where
  next_low : ∀ s, next s false = init

/-- The down-counter from `period` reloads. -/
def ReloadTimer.counter (period : Nat) (hperiod : 0 < period) : ReloadTimer where
  toWaitTimer := WaitTimer.counter period hperiod
  next_low _ := rfl

/-! ## The serializer -/

/-- The block that offers the `n` chunks of the word on its sink one after the
other.  `pos` is the chunk on offer; the word is taken with its last chunk. -/
structure Serializer (n : Nat) where
  State : Type
  init : State
  pos : State → Nat
  /-- The edge of a cycle with `sink.valid` and `source.ready`. -/
  next : State → Bool → Bool → State
  pos_init : pos init = 0
  pos_next : ∀ s valid ready, pos (next s valid ready) =
    if valid && ready then (if pos s = n - 1 then 0 else pos s + 1) else pos s

namespace Serializer

variable {n : Nat} (S : Serializer n)

/-- The sink is taken when the last chunk is. -/
def sinkReady (s : S.State) (ready : Bool) : Bool := S.pos s == n - 1 && ready

/-- The chunk counter. -/
def mux (n : Nat) : Serializer n where
  State := Nat
  init := 0
  pos s := s
  next s valid ready := if valid && ready then (if s = n - 1 then 0 else s + 1) else s
  pos_init := rfl
  pos_next _ _ _ := rfl

end Serializer

/-! ## The packer -/

/-- The block that gathers `n` chunks into a word (`Pack`) and holds the word, with no
room for another chunk, until it is taken.  `loaded` are the chunks taken in. -/
structure Pack (α : Type) (n : Nat) where
  State : Type
  init : State
  /-- The registers after a reset. -/
  clear : State → State
  loaded : State → List α
  /-- The edge of a cycle with `sink.valid`, the chunk on the sink and `source.ready`. -/
  next : State → Bool → α → Bool → State
  length_loaded : ∀ s, (loaded s).length ≤ n
  loaded_init : loaded init = []
  loaded_clear : ∀ s, loaded (clear s) = []
  loaded_next : ∀ s valid x ready, loaded (next s valid x ready) =
    if (loaded s).length = n then (if ready then beat valid true x else loaded s)
    else loaded s ++ beat valid true x

namespace Pack

variable {α : Type} {n : Nat} (K : Pack α n)

/-- `source.valid`. -/
def full (s : K.State) : Bool := (K.loaded s).length == n

/-- The chunks loaded, as a packer. -/
def chunks (α : Type) (n : Nat) (hn : 0 < n) : Pack α n where
  State := { words : List α // words.length ≤ n }
  init := ⟨[], Nat.zero_le _⟩
  clear _ := ⟨[], Nat.zero_le _⟩
  loaded s := s.1
  next s valid x ready :=
    if hfull : s.1.length = n then
      if ready then ⟨beat valid true x, by have := beat_length_le valid true x; omega⟩ else s
    else ⟨s.1 ++ beat valid true x, by
      have := beat_length_le valid true x
      have := s.2
      simp only [List.length_append]; omega⟩
  length_loaded s := s.2
  loaded_init := rfl
  loaded_clear _ := rfl
  loaded_next s valid x ready := by
    by_cases hfull : s.1.length = n
    · cases ready <;> simp [hfull]
    · simp [hfull]

end Pack

/-! ## The up-converter -/

/-- The block that gathers `ratio` words into a wide one.  It neither loses nor
reorders words, and once it holds a whole wide word it offers it. -/
structure UpConverter (α : Type) (ratio : Nat) where
  State : Type
  init : State
  /-- The words taken in and not yet given out, oldest first. -/
  held : State → List α
  /-- `sink.ready`, from `source.ready`. -/
  sinkReady : State → Bool → Bool
  /-- `source.valid`, from `sink.valid`. -/
  sourceValid : State → Bool → Bool
  /-- `source.data`, from `sink.data`. -/
  sourceData : State → α → Vector α ratio
  /-- The edge of a cycle with `sink.valid`, `sink.data` and `source.ready`. -/
  next : State → Bool → α → Bool → State
  held_init : held init = []
  held_next : ∀ s valid data ready,
    QueueStep (held s) (beat valid (sinkReady s ready) data)
      ((beat (sourceValid s valid) ready (sourceData s data)).flatMap Vector.toList)
      (held (next s valid data ready))
  valid_of_full : ∀ s valid, ratio ≤ (held s).length → sourceValid s valid = true

namespace UpConverter

variable {α : Type}

/-- The words loaded so far as a wide word, once they are all there. -/
def wide [Inhabited α] (ratio : Nat) (words : List α) : Vector α ratio :=
  if h : words.length = ratio then ⟨words.toArray, by simpa using h⟩
  else Vector.replicate ratio default

theorem toList_wide [Inhabited α] {ratio : Nat} {words : List α}
    (h : words.length = ratio) : (wide ratio words).toList = words := by
  simp [wide, h, Vector.toList]

/-- The converter with a register for the wide word.  While the word waits, a new
one is started only in the cycle in which it leaves. -/
def register (α : Type) [Inhabited α] (ratio : Nat) (hratio : 0 < ratio) :
    UpConverter α ratio where
  State := { words : List α // words.length ≤ ratio }
  init := ⟨[], Nat.zero_le _⟩
  held s := s.1
  sinkReady s ready := s.1.length != ratio || ready
  sourceValid s _ := s.1.length == ratio
  sourceData s _ := wide ratio s.1
  next s valid data ready :=
    if hfull : s.1.length = ratio then
      if ready then ⟨beat valid true data, by
        have := beat_length_le valid true data; omega⟩ else s
    else ⟨s.1 ++ beat valid true data, by
      have := beat_length_le valid true data
      have := s.2
      simp only [List.length_append]; omega⟩
  held_init := rfl
  held_next s valid data ready := by
    unfold QueueStep
    by_cases hfull : s.1.length = ratio
    · cases ready <;> simp [hfull, toList_wide hfull]
    · have hshort : (s.1.length == ratio) = false := by simpa using hfull
      simp [hfull, bne, hshort]
  valid_of_full s _ h := by
    have := s.2
    simp only [beq_iff_eq]
    omega

end UpConverter

end UsbSniffer.Sync
