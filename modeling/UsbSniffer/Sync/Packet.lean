/-
  Sync/Packet.lean --- words framed as packets.

  A packet on a stream is a list of words of which the last one is marked.
-/
import UsbSniffer.Sync.Stage

set_option autoImplicit false

namespace UsbSniffer.Sync

variable {α β γ : Type}

/-- The words of a packet, each with its mark. -/
def marked : List α → List (α × Bool)
  | [] => []
  | [x] => [(x, true)]
  | x :: y :: xs => (x, false) :: marked (y :: xs)

@[simp] theorem marked_nil : marked ([] : List α) = [] := rfl

@[simp] theorem marked_singleton (x : α) : marked [x] = [(x, true)] := rfl

theorem marked_cons {xs : List α} (h : xs ≠ []) (x : α) :
    marked (x :: xs) = (x, false) :: marked xs := by
  cases xs with
  | nil => exact absurd rfl h
  | cons y ys => rfl

/-- Only the last word of a packet is marked. -/
theorem marked_append (xs : List α) {ys : List α} (h : ys ≠ []) :
    marked (xs ++ ys) = (xs.map fun x => (x, false)) ++ marked ys := by
  induction xs with
  | nil => rfl
  | cons x xs ih =>
    rw [List.cons_append, marked_cons (List.append_ne_nil_of_right_ne_nil xs h), ih,
      List.map_cons, List.cons_append]

@[simp] theorem marked_map_fst (xs : List α) : (marked xs).map Prod.fst = xs := by
  induction xs with
  | nil => rfl
  | cons x xs ih =>
    cases xs with
    | nil => rfl
    | cons y ys => exact congrArg (x :: ·) ih

@[simp] theorem length_marked (xs : List α) : (marked xs).length = xs.length := by
  have h := congrArg List.length (marked_map_fst xs)
  rwa [List.length_map] at h

theorem marked_map (f : α → β) (xs : List α) :
    marked (xs.map f) = (marked xs).map fun x => (f x.1, x.2) := by
  induction xs with
  | nil => rfl
  | cons x xs ih =>
    cases xs with
    | nil => rfl
    | cons y ys => exact congrArg ((f x, false) :: ·) ih

/-- A word is marked by its place. -/
theorem marked_eq_mapIdx (xs : List α) :
    marked xs = xs.mapIdx fun i x => (x, i + 1 == xs.length) := by
  induction xs with
  | nil => rfl
  | cons x xs ih =>
    cases xs with
    | nil => rfl
    | cons y ys =>
      rw [marked_cons (List.cons_ne_nil y ys), ih, List.mapIdx_cons]
      simp [@eq_comm _ 0]

/-- Words of which the last one, and no other, is marked. -/
def IsPacket (isLast : α → Bool) : List α → Prop
  | [] => False
  | [x] => isLast x = true
  | x :: y :: xs => isLast x = false ∧ IsPacket isLast (y :: xs)

namespace IsPacket

variable {isLast : α → Bool}

theorem ne_nil {xs : List α} (h : IsPacket isLast xs) : xs ≠ [] := by
  rintro rfl
  exact h

theorem cons_iff {xs : List α} (h : xs ≠ []) (x : α) :
    IsPacket isLast (x :: xs) ↔ isLast x = false ∧ IsPacket isLast xs := by
  cases xs with
  | nil => exact absurd rfl h
  | cons y ys => rfl

theorem append_iff (hs : List α) {xs : List α} (h : xs ≠ []) :
    IsPacket isLast (hs ++ xs) ↔ (∀ x ∈ hs, isLast x = false) ∧ IsPacket isLast xs := by
  induction hs with
  | nil => simp
  | cons x hs ih =>
    rw [List.cons_append, cons_iff (List.append_ne_nil_of_right_ne_nil hs h), ih,
      List.forall_mem_cons, and_assoc]

/-- The marks of the words of a packet are kept by what keeps them of each word. -/
theorem map {isLast' : β → Bool} {f : α → β} {xs : List α} (h : IsPacket isLast xs)
    (hf : ∀ x, isLast' (f x) = isLast x) : IsPacket isLast' (xs.map f) := by
  induction xs with
  | nil => exact h
  | cons x xs ih =>
    cases xs with
    | nil => exact (hf x).trans h
    | cons y ys => exact ⟨(hf x).trans h.1, ih h.2⟩

theorem marked {xs : List α} (h : xs ≠ []) : IsPacket Prod.snd (marked xs) := by
  induction xs with
  | nil => exact absurd rfl h
  | cons x xs ih =>
    cases xs with
    | nil => rfl
    | cons y ys =>
      have hys := ih (List.cons_ne_nil y ys)
      exact (cons_iff hys.ne_nil (x, false)).mpr ⟨rfl, hys⟩

/-- Words marked by their places. -/
theorem mapIdx {isLast' : β → Bool} {f : Nat → α → β} {xs : List α} (h : xs ≠ [])
    (hf : ∀ i x, isLast' (f i x) = (i + 1 == xs.length)) : IsPacket isLast' (xs.mapIdx f) := by
  induction xs generalizing f with
  | nil => exact absurd rfl h
  | cons x xs ih =>
    rw [List.mapIdx_cons]
    cases xs with
    | nil => exact hf 0 x
    | cons y ys =>
      refine (cons_iff (by simp) _).mpr ⟨hf 0 x, ih (List.cons_ne_nil y ys) fun i z => ?_⟩
      rw [hf (i + 1) z, List.length_cons (a := x)]
      simp

end IsPacket

/-- A machine that makes one word of each word of a packet, and moves on at its end. -/
theorem Machine.emits_packet {σ : Type} {T : Machine σ α (List β)} {isLast : α → Bool}
    {s s' : σ} {f : α → β} {xs : List α} (h : IsPacket isLast xs)
    (hout : ∀ x ∈ xs, T.out s x = [f x])
    (hnext : ∀ x ∈ xs, T.next s x = if isLast x then s' else s) :
    T.emits s xs = xs.map f ∧ T.run s xs = s' := by
  induction xs with
  | nil => exact absurd rfl h.ne_nil
  | cons x xs ih =>
    rw [emits_cons, run_cons, hout x (List.mem_cons_self ..), hnext x (List.mem_cons_self ..),
      List.map_cons]
    cases xs with
    | nil =>
      have hlast : isLast x = true := h
      rw [if_pos hlast]
      exact ⟨rfl, rfl⟩
    | cons y ys =>
      obtain ⟨hlast, hys⟩ := h
      obtain ⟨hemits, hrun⟩ := ih hys (fun z hz => hout z (List.mem_cons_of_mem x hz))
        fun z hz => hnext z (List.mem_cons_of_mem x hz)
      rw [if_neg (by rw [hlast]; exact Bool.false_ne_true), hemits, hrun]
      exact ⟨rfl, rfl⟩

/-! ## Headers off -/

/-- The block that takes the first `k` words of each packet for its header and passes the
words after them (`Depacketizer`).  `header` are the header words taken in. -/
structure Depacketizer (k : Nat) where
  State : Type
  init : State
  header : State → List (BitVec 32)
  /-- `sink.ready`, from `sink.valid` and `source.ready`. -/
  sinkReady : State → Bool → Bool → Bool
  sourceValid : State → Bool → Bool
  sourceLast : State → Bool → Bool
  /-- The edge of a cycle with `sink.valid`, `sink.data`, `sink.last` and `source.ready`. -/
  next : State → Bool → BitVec 32 → Bool → Bool → State
  length_header : ∀ s, (header s).length ≤ k
  header_init : header init = []
  taking : ∀ s v ready, (header s).length < k →
    sinkReady s v ready = true ∧ sourceValid s v = false
  header_next : ∀ s v x last ready, (header s).length < k → (v && last) = false →
    header (next s v x last ready) = header s ++ beat v true x
  copying : ∀ s v last ready, (header s).length = k →
    sinkReady s v ready = ready ∧ sourceValid s v = v ∧ sourceLast s last = last
  header_copy : ∀ s v x last ready, (header s).length = k →
    header (next s v x last ready) = if v && ready && last then [] else header s

namespace Depacketizer

variable {k : Nat} {ε : Type} (K : Depacketizer k)

/-- The depacketizer as a stage: what it gives out of a word that it passes is made from
the header and the mark. -/
def stage (ε : Type) (word : α → BitVec 32) (isLast : α → Bool)
    (emit : List (BitVec 32) → Bool → α → β) : Stage ε α β where
  State := K.State
  init := K.init
  sourceValid s v _ := K.sourceValid s v
  source s x := emit (K.header s) (K.sourceLast s (isLast x)) x
  sinkReady s _ v _ ready := K.sinkReady s v ready
  next s _ v x ready := K.next s v (word x) (isLast x) ready
  waits _ _ _ _ := false

variable (k) in
/-- Header words make nothing, the others what is given out of them. -/
def words (word : α → BitVec 32) (isLast : α → Bool)
    (emit : List (BitVec 32) → Bool → α → β) : Machine (List (BitVec 32)) α (List β) where
  out header x := if header.length < k then [] else [emit header (isLast x) x]
  next header x :=
    if header.length < k then header ++ [word x] else if isLast x then [] else header

variable (k) in
/-- No packet ends within its header. -/
def Framed (word : α → BitVec 32) (isLast : α → Bool) : List (BitVec 32) → List α → Prop
  | _, [] => True
  | header, x :: xs =>
      if header.length < k then isLast x = false ∧ Framed word isLast (header ++ [word x]) xs
      else Framed word isLast (if isLast x then [] else header) xs

/-- What the words still to come make is still to go out. -/
structure Rel (word : α → BitVec 32) (isLast : α → Bool)
    (emit : List (BitVec 32) → Bool → α → β) (s : K.State) (c : Chan α) (d : Chan β)
    (bound : Nat) : Prop where
  emits : (words k word isLast emit).emits (K.header s) c.rest = d.rest
  framed : Framed k word isLast (K.header s) c.rest
  held : d.held = true → (K.header s).length = k ∧ c.held = true
  bound : c.rest.length = bound

variable {K} {word : α → BitVec 32} {isLast : α → Bool}
  {emit : List (BitVec 32) → Bool → α → β} {s : K.State} {c : Chan α} {d : Chan β}
  {bound : Nat} {v : Bool} {x : α}

theorem Rel.done (h : Rel K word isLast emit s c d 0) : c.rest = [] ∧ d.rest = [] := by
  have hrest : c.rest = [] := List.length_eq_zero_iff.mp h.bound
  have hemits := h.emits
  rw [hrest] at hemits
  exact ⟨hrest, hemits.symm⟩

/-- Behind its header a word is given out when it is taken. -/
theorem Rel.rest_of_copying (h : Rel K word isLast emit s c d bound)
    (hfull : (K.header s).length = k) (hv : c.Offers true x) :
    d.rest = emit (K.header s) (isLast x) x ::
      (words k word isLast emit).emits (if isLast x then [] else K.header s) c.rest.tail := by
  have hemits := h.emits
  rw [hv.rest_eq, Machine.emits_cons] at hemits
  simp only [words, hfull, Nat.lt_irrefl, if_false] at hemits
  exact hemits.symm

theorem Rel.offers (h : Rel K word isLast emit s c d bound) (hv : c.Offers v x) :
    d.Offers (K.sourceValid s v) (emit (K.header s) (K.sourceLast s (isLast x)) x) := by
  rcases Nat.lt_or_ge (K.header s).length k with hlt | hge
  · rw [(K.taking s v true hlt).2]
    exact Chan.Offers.of_false (fun hheld => by have := (h.held hheld).1; omega) _
  · have hfull := Nat.le_antisymm (K.length_header s) hge
    obtain ⟨-, hvalid, hlast⟩ := K.copying s v (isLast x) true hfull
    rw [hvalid, hlast]
    refine hv.pass (fun hheld => (h.held hheld).2) ?_
    rintro rfl
    exact ⟨_, h.rest_of_copying hfull hv⟩

/-- A cycle in which a header word may come. -/
theorem Rel.next_taking (h : Rel K word isLast emit s c d bound) (hv : c.Offers v x)
    (hlt : (K.header s).length < k) (ready : Bool) :
    Rel K word isLast emit (K.next s v (word x) (isLast x) ready) (c.next v true)
      (d.next false ready) (c.next v true).rest.length := by
  have hframed := h.framed
  have hemits := h.emits
  cases v with
  | false =>
    have hheader := K.header_next s false (word x) (isLast x) ready hlt rfl
    rw [beat_false_left, List.append_nil] at hheader
    exact ⟨by rw [hheader]; exact hemits, by rw [hheader]; exact hframed, (fun hheld => by cases hheld), rfl⟩
  | true =>
    rw [hv.rest_eq] at hframed hemits
    rw [Framed, if_pos hlt] at hframed
    rw [Machine.emits_cons] at hemits
    simp only [words, if_pos hlt, List.nil_append] at hemits
    have hheader := K.header_next s true (word x) (isLast x) ready hlt (by rw [hframed.1]; rfl)
    rw [beat_true_true] at hheader
    exact ⟨by rw [hheader]; exact hemits, by rw [hheader]; exact hframed.2,
      (fun hheld => by cases hheld), rfl⟩

/-- A cycle in which a word may be passed. -/
theorem Rel.next_copying (h : Rel K word isLast emit s c d bound) (hv : c.Offers v x)
    (hfull : (K.header s).length = k) (ready : Bool) :
    Rel K word isLast emit (K.next s v (word x) (isLast x) ready) (c.next v ready)
      (d.next v ready) (c.next v ready).rest.length := by
  have hheader := K.header_copy s v (word x) (isLast x) ready hfull
  have hstay : (v && ready) = false →
      K.header (K.next s v (word x) (isLast x) ready) = K.header s := by
    intro hno
    rw [hheader, hno, Bool.false_and, if_neg Bool.false_ne_true]
  cases v with
  | false =>
    have hsame := hstay rfl
    exact ⟨by rw [hsame]; exact h.emits, by rw [hsame]; exact h.framed, (fun hheld => by cases hheld), rfl⟩
  | true =>
    cases ready with
    | false =>
      have hsame := hstay rfl
      exact ⟨by rw [hsame]; exact h.emits, by rw [hsame]; exact h.framed,
        fun _ => ⟨by rw [hsame]; exact hfull, rfl⟩, rfl⟩
    | true =>
      have hframed := h.framed
      rw [hv.rest_eq, Framed, if_neg (by omega)] at hframed
      rw [Bool.true_and, Bool.true_and] at hheader
      refine ⟨?_, by rw [hheader]; exact hframed, (fun hheld => by cases hheld), rfl⟩
      rw [hheader, Chan.next_take, Chan.next_take, h.rest_of_copying hfull hv]
      rfl

theorem Rel.next (h : Rel K word isLast emit s c d bound) (hv : c.Offers v x) (ready : Bool) :
    ∃ bound', Rel K word isLast emit (K.next s v (word x) (isLast x) ready)
        (c.next v (K.sinkReady s v ready)) (d.next (K.sourceValid s v) ready) bound' ∧
      bound' ≤ bound ∧ (bound' < bound ∨ bound = 0 ∨ c.Starved v ∨
        (K.sourceValid s v = true ∧ ready = false) ∨ false = true) := by
  rw [← h.bound]
  rcases Nat.lt_or_ge (K.header s).length k with hlt | hge
  · -- a header word is always taken
    obtain ⟨hready, hvalid⟩ := K.taking s v ready hlt
    rw [hready, hvalid]
    obtain ⟨hle, hmove⟩ := hv.moves true
    refine ⟨_, h.next_taking hv hlt ready, hle, hmove.imp_right ?_⟩
    rintro (hzero | hstarved | ⟨-, hno⟩)
    · exact Or.inl hzero
    · exact Or.inr (Or.inl hstarved)
    · cases hno
  · have hfull := Nat.le_antisymm (K.length_header s) hge
    obtain ⟨hready, hvalid, -⟩ := K.copying s v (isLast x) ready hfull
    rw [hready, hvalid]
    obtain ⟨hle, hmove⟩ := hv.moves ready
    refine ⟨_, h.next_copying hv hfull ready, hle, hmove.imp_right ?_⟩
    exact Or.imp_right (Or.imp_right Or.inl)

/-- The depacketizer takes the header off each packet. -/
def simulation (K : Depacketizer k) (ε : Type) (word : α → BitVec 32) (isLast : α → Bool)
    (emit : List (BitVec 32) → Bool → α → β) : Simulation (K.stage ε word isLast emit) where
  rel := Rel K word isLast emit
  done := Rel.done
  offers := Rel.offers
  step _ ready h hv := h.next hv ready

/-- From reset, in front of packets that do not end within their headers. -/
theorem Rel.start {xs : List α} (h : Framed k word isLast [] xs) :
    Rel K word isLast emit K.init (Chan.start xs)
      (Chan.start ((words k word isLast emit).emits [] xs)) xs.length where
  emits := by
    rw [K.header_init]
    rfl
  framed := by
    rw [K.header_init]
    exact h
  held hheld := by cases hheld
  bound := rfl

variable (emit) in
theorem framed_append (header : List (BitVec 32)) (xs ys : List α) :
    Framed k word isLast header (xs ++ ys) ↔
      Framed k word isLast header xs ∧
        Framed k word isLast ((words k word isLast emit).run header xs) ys := by
  induction xs generalizing header with
  | nil => simp [Framed]
  | cons x xs ih =>
    rw [List.cons_append, Framed, Framed, Machine.run_cons]
    simp only [words]
    split_ifs <;> rw [ih] <;> tauto

variable (emit) in
/-- Packets one after the other. -/
theorem framed_flatMap {f : γ → List α} {xs : List γ}
    (h : ∀ x ∈ xs, (words k word isLast emit).run [] (f x) = [] ∧
      Framed k word isLast [] (f x)) : Framed k word isLast [] (xs.flatMap f) := by
  induction xs with
  | nil => exact trivial
  | cons x xs ih =>
    obtain ⟨hrun, hframed⟩ := h x (List.mem_cons_self ..)
    rw [List.flatMap_cons, framed_append emit, hrun]
    exact ⟨hframed, ih fun y hy => h y (List.mem_cons_of_mem x hy)⟩

/-- From reset, packets are turned one after the other into what is made of each. -/
theorem starts (K : Depacketizer k) (ε : Type) {f : γ → List α} {g : γ → List β} {xs : List γ}
    (h : ∀ x ∈ xs, (words k word isLast emit).emits [] (f x) = g x ∧
      (words k word isLast emit).run [] (f x) = [] ∧ Framed k word isLast [] (f x)) :
    (K.simulation ε word isLast emit).Starts (xs.flatMap f) (xs.flatMap g)
      (xs.flatMap f).length := by
  have hemits := (Machine.emits_flatMap fun x hx => ⟨(h x hx).1, (h x hx).2.1⟩).1
  have hframed := framed_flatMap emit fun x hx => (h x hx).2
  rw [← hemits]
  exact Rel.start hframed

/-- The words in front of a header that is not whole are taken into it. -/
theorem words_header {hs : List α} (header : List (BitVec 32)) (hle : header.length + hs.length ≤ k)
    (hlast : ∀ x ∈ hs, isLast x = false) :
    (words k word isLast emit).emits header hs = [] ∧
      (words k word isLast emit).run header hs = header ++ hs.map word ∧
      Framed k word isLast header hs := by
  induction hs generalizing header with
  | nil => exact ⟨rfl, by simp, trivial⟩
  | cons x hs ih =>
    rw [List.length_cons] at hle
    have hlt : header.length < k := by omega
    obtain ⟨hemits, hrun, hframed⟩ := ih (header ++ [word x])
      (by rw [List.length_append, List.length_singleton]; omega)
      fun y hy => hlast y (List.mem_cons_of_mem x hy)
    refine ⟨?_, ?_, ?_⟩
    · rw [Machine.emits_cons]
      simp only [words, if_pos hlt] at hemits ⊢
      exact hemits
    · rw [Machine.run_cons]
      simp only [words, if_pos hlt] at hrun ⊢
      rw [hrun, List.map_cons, List.append_assoc, List.singleton_append]
    · rw [Framed, if_pos hlt]
      exact ⟨hlast x (List.mem_cons_self ..), hframed⟩

theorem framed_body {xs : List α} {header : List (BitVec 32)} (hfull : header.length = k)
    (hxs : IsPacket isLast xs) : Framed k word isLast header xs := by
  have hlt : ¬ header.length < k := by omega
  induction xs with
  | nil => exact absurd rfl hxs.ne_nil
  | cons x xs ih =>
    rw [Framed, if_neg hlt]
    cases xs with
    | nil => exact trivial
    | cons y ys =>
      obtain ⟨hlast, hys⟩ := hxs
      rw [if_neg (by rw [hlast]; exact Bool.false_ne_true)]
      exact ih hys

/-- The words behind a whole header are passed. -/
theorem words_body {xs : List α} {header : List (BitVec 32)} (hfull : header.length = k)
    (hxs : IsPacket isLast xs) :
    (words k word isLast emit).emits header xs =
        xs.map (fun x => emit header (isLast x) x) ∧
      (words k word isLast emit).run header xs = [] := by
  have hlt : ¬ header.length < k := by omega
  refine Machine.emits_packet hxs (fun x _ => ?_) fun x _ => ?_
  · simp only [words, if_neg hlt]
  · simp only [words, if_neg hlt]

/-- The words of a packet behind its header. -/
theorem words_packet {hs xs : List α} (hk : hs.length = k) (hne : xs ≠ [])
    (h : IsPacket isLast (hs ++ xs)) :
    (words k word isLast emit).emits [] (hs ++ xs) =
        xs.map (fun x => emit (hs.map word) (isLast x) x) ∧
      (words k word isLast emit).run [] (hs ++ xs) = [] ∧
      Framed k word isLast [] (hs ++ xs) := by
  obtain ⟨hhs, hxs⟩ := (IsPacket.append_iff hs hne).mp h
  obtain ⟨hemits, hrun, hframed⟩ : (words k word isLast emit).emits [] hs = [] ∧
      (words k word isLast emit).run [] hs = [] ++ hs.map word ∧ Framed k word isLast [] hs :=
    words_header [] (by rw [List.length_nil]; omega) hhs
  have hfull : ([] ++ hs.map word).length = k := by
    rw [List.nil_append, List.length_map]
    exact hk
  obtain ⟨hemits', hrun'⟩ : (words k word isLast emit).emits ([] ++ hs.map word) xs = _ ∧ _ :=
    words_body hfull hxs
  rw [Machine.emits_append, Machine.run_append, framed_append emit, hemits, hrun, hemits', hrun']
  exact ⟨rfl, rfl, hframed, framed_body hfull hxs⟩

variable (word isLast emit) in
/-- The words of a packet behind its header, which are marked as they came. -/
theorem words_marked (f : BitVec 32 × Bool → α) (hword : ∀ p, word (f p) = p.1)
    (hlast : ∀ p, isLast (f p) = p.2) {hs xs : List (BitVec 32)} (hk : hs.length = k)
    (hne : xs ≠ []) :
    (words k word isLast emit).emits [] ((marked (hs ++ xs)).map f) =
        (marked xs).map (fun p => emit hs p.2 (f p)) ∧
      (words k word isLast emit).run [] ((marked (hs ++ xs)).map f) = [] ∧
      Framed k word isLast [] ((marked (hs ++ xs)).map f) := by
  have hpacket : IsPacket isLast ((marked (hs ++ xs)).map f) :=
    (IsPacket.marked (List.append_ne_nil_of_right_ne_nil hs hne)).map hlast
  rw [marked_append hs hne, List.map_append] at hpacket ⊢
  have hhs : (((hs.map fun x => (x, false)).map f).map word) = hs := by
    simp [Function.comp_def, hword]
  have hbody : (marked xs).map f ≠ [] := by
    rw [← List.length_pos_iff, List.length_map, length_marked]
    exact List.length_pos_iff.mpr hne
  obtain ⟨hemits, hrun, hframed⟩ := words_packet (by simpa using hk) hbody hpacket
  rw [hhs] at hemits
  refine ⟨?_, hrun, hframed⟩
  rw [hemits, List.map_map]
  exact List.map_congr_left fun p _ => congrArg (emit hs · (f p)) (hlast p)

/-- The header words themselves, as a depacketizer. -/
def shiftRegister (k : Nat) : Depacketizer k where
  State := { header : List (BitVec 32) // header.length ≤ k }
  init := ⟨[], Nat.zero_le k⟩
  header s := s.1
  sinkReady s _ ready := decide (s.1.length < k) || ready
  sourceValid s v := !decide (s.1.length < k) && v
  sourceLast _ last := last
  next s v x last ready :=
    if h : s.1.length < k then
      ⟨s.1 ++ beat v true x, by
        have := beat_length_le v true x
        rw [List.length_append]
        omega⟩
    else if v && ready && last then ⟨[], Nat.zero_le k⟩ else s
  length_header s := s.2
  header_init := rfl
  taking s v ready h := by simp [h]
  header_next s v x last ready h _ := by simp [h]
  copying s v last ready h := by simp [h]
  header_copy s v x last ready h := by
    rw [dif_neg (by omega)]
    split_ifs <;> rfl

end Depacketizer

/-! ## Headers on -/

/-- The block that puts a header in front of each packet and passes its words
(`Packetizer`).  The first header word is made from the packet's first word while that
is on offer, the others from what was loaded then.  `toSend` is `none` in IDLE, and then
the header words still to be sent. -/
structure Packetizer where
  State : Type
  init : State
  toSend : State → Option (List (BitVec 32))
  /-- `sink.ready`, from `sink.valid` and `source.ready`. -/
  sinkReady : State → Bool → Bool → Bool
  sourceValid : State → Bool → Bool
  sourceLast : State → Bool → Bool
  /-- `source.data`, from the words of `header` and `sink.data`. -/
  sourceData : State → List (BitVec 32) → BitVec 32 → BitVec 32
  /-- The edge of a cycle with `sink.valid`, the words of `header`, `sink.last` and
  `source.ready`. -/
  next : State → Bool → List (BitVec 32) → Bool → Bool → State
  toSend_init : toSend init = none
  idle : ∀ s v header x last ready, toSend s = none →
    sinkReady s v ready = !v ∧ sourceValid s v = v ∧ sourceLast s last = false ∧
      sourceData s header x = header.headD 0 ∧
      toSend (next s v header last ready) = if v && ready then some header.tail else none
  sending : ∀ s v header x last ready w ws, toSend s = some (w :: ws) →
    sinkReady s v ready = false ∧ sourceValid s v = true ∧ sourceLast s last = false ∧
      sourceData s header x = w ∧
      toSend (next s v header last ready) = some (if ready then ws else w :: ws)
  copying : ∀ s v header x last ready, toSend s = some [] →
    sinkReady s v ready = (v && ready) ∧ sourceValid s v = v ∧ sourceLast s last = last ∧
      sourceData s header x = x ∧
      toSend (next s v header last ready) = if v && ready && last then none else some []

namespace Packetizer

variable {ε : Type} (K : Packetizer)

/-- What a packetizer is put in front of, and what its words become. -/
structure Format (α β : Type) where
  header : α → List (BitVec 32)
  word : α → BitVec 32
  isLast : α → Bool
  emit : BitVec 32 → Bool → α → β

/-- The packetizer as a stage. -/
def stage (ε : Type) (f : Format α β) : Stage ε α β where
  State := K.State
  init := K.init
  sourceValid s v _ := K.sourceValid s v
  source s x := f.emit (K.sourceData s (f.header x) (f.word x)) (K.sourceLast s (f.isLast x)) x
  sinkReady s _ v _ ready := K.sinkReady s v ready
  next s _ v x ready := K.next s v (f.header x) (f.isLast x) ready
  waits _ _ _ _ := false

variable {K} {f : Format α β}

/-- A word makes itself, and the first one of a packet the header as well. -/
def words (f : Format α β) : Machine Bool α (List β) where
  out copying x :=
    (if copying then [] else (f.header x).map fun w => f.emit w false x) ++
      [f.emit (f.word x) (f.isLast x) x]
  next _ x := !f.isLast x

/-- The words of a packet behind its header. -/
theorem words_body {xs : List α} (h : IsPacket f.isLast xs) :
    (words f).emits true xs = xs.map (fun x => f.emit (f.word x) (f.isLast x) x) ∧
      (words f).run true xs = false := by
  refine Machine.emits_packet h (fun x _ => rfl) fun x _ => ?_
  cases hlast : f.isLast x <;> simp [words, hlast]

/-- A packet with its header in front. -/
theorem words_packet {x : α} {xs : List α} (h : IsPacket f.isLast (x :: xs)) :
    (words f).emits false (x :: xs) = ((f.header x).map fun w => f.emit w false x) ++
        (x :: xs).map (fun y => f.emit (f.word y) (f.isLast y) y) ∧
      (words f).run false (x :: xs) = false := by
  obtain ⟨hemits, hrun⟩ := words_body h
  refine ⟨?_, hrun⟩
  rw [← hemits, Machine.emits_cons, Machine.emits_cons, ← List.append_assoc]
  rfl

/-- A packet of words with the same parameters, with its header in front. -/
theorem words_marked (f : Format α β) (g : γ × Bool → α) (header : List (BitVec 32))
    (word : γ → BitVec 32) (emit : BitVec 32 × Bool → β) (hlast : ∀ p, f.isLast (g p) = p.2)
    (hheader : ∀ p, f.header (g p) = header) (hword : ∀ p, f.word (g p) = word p.1)
    (hemit : ∀ w last p, f.emit w last (g p) = emit (w, last)) {xs : List γ} (hne : xs ≠ []) :
    (words f).emits false ((marked xs).map g) = (marked (header ++ xs.map word)).map emit ∧
      (words f).run false ((marked xs).map g) = false := by
  have hpacket : IsPacket f.isLast ((marked xs).map g) := (IsPacket.marked hne).map hlast
  obtain ⟨p, ps, hps⟩ := List.exists_cons_of_length_pos
    (by rw [length_marked]; exact List.length_pos_iff.mpr hne : 0 < (marked xs).length)
  have hne' : xs.map word ≠ [] := by simpa using hne
  rw [hps, List.map_cons] at hpacket
  obtain ⟨hemits, hrun⟩ := words_packet hpacket
  rw [← List.map_cons, ← hps] at hemits hrun
  refine ⟨?_, hrun⟩
  rw [hemits, marked_append _ hne', marked_map, List.map_append, hheader]
  simp [Function.comp_def, hlast, hword, hemit]

/-- What the words to come make when these header words are still to be sent. -/
def made (f : Format α β) : Option (List (BitVec 32)) → List α → List β
  | none, xs => (words f).emits false xs
  | some _, [] => []
  | some ws, x :: xs => (ws.map fun w => f.emit w false x) ++ (words f).emits true (x :: xs)

theorem made_none (x : α) (xs : List α) :
    made f none (x :: xs) = made f (some (f.header x)) (x :: xs) := by
  simp [made, words]

theorem made_sending (w : BitVec 32) (ws : List (BitVec 32)) (x : α) (xs : List α) :
    made f (some (w :: ws)) (x :: xs) = f.emit w false x :: made f (some ws) (x :: xs) := rfl

theorem made_copying (x : α) (xs : List α) :
    made f (some []) (x :: xs) =
      f.emit (f.word x) (f.isLast x) x :: made f (if f.isLast x then none else some []) xs := by
  cases hlast : f.isLast x with
  | true => simp [made, words, hlast]
  | false => cases xs <;> simp [made, words, hlast]

/-- A bound on the cycles that `n` words to come take. -/
def cost (k : Nat) (toSend : Option (List (BitVec 32))) (n : Nat) : Nat :=
  (k + 1) * n - (toSend.elim 0 fun ws => k - ws.length)

/-- What the words still to come make is still to go out. -/
structure Rel (f : Format α β) (k : Nat) (s : K.State) (c : Chan α) (d : Chan β)
    (bound : Nat) : Prop where
  made : made f (K.toSend s) c.rest = d.rest
  short : ∀ ws, K.toSend s = some ws → ws.length < k
  sending : ∀ w ws, K.toSend s = some (w :: ws) → c.held = true ∧ c.rest ≠ []
  held : d.held = true → c.held = true
  bound : cost k (K.toSend s) c.rest.length = bound

variable {k : Nat} {s : K.State} {c : Chan α} {d : Chan β} {bound : Nat} {v : Bool} {x : α}

theorem Rel.done (h : Rel f k s c d 0) : c.rest = [] ∧ d.rest = [] := by
  have hspent : (K.toSend s).elim 0 (fun ws => k - ws.length) < k + 1 := by
    cases K.toSend s with
    | none => exact Nat.succ_pos k
    | some ws => exact Nat.lt_succ_of_le (Nat.sub_le k ws.length)
  have hrest : c.rest = [] := Chan.rest_of_zero h.bound hspent
  have hmade := h.made
  rw [hrest] at hmade
  refine ⟨hrest, hmade.symm.trans ?_⟩
  cases K.toSend s <;> rfl

/-- What is on the source is in front of what is still to go out. -/
theorem Rel.offers (h : Rel f k s c d bound) (hk : ∀ x, (f.header x).length = k) (hpos : 0 < k)
    (hv : c.Offers v x) :
    K.sourceValid s v = v ∧
      d.Offers v (f.emit (K.sourceData s (f.header x) (f.word x)) (K.sourceLast s (f.isLast x)) x) := by
  have hmade := h.made
  cases htoSend : K.toSend s with
  | none =>
    obtain ⟨-, hvalid, hlast, hdata, -⟩ :=
      K.idle s v (f.header x) (f.word x) (f.isLast x) true htoSend
    rw [hlast, hdata]
    refine ⟨hvalid, hv.pass h.held ?_⟩
    rintro rfl
    obtain ⟨w, ws, hheader⟩ := List.exists_cons_of_length_pos (by rw [hk x]; exact hpos)
    rw [htoSend, hv.rest_eq, made_none, hheader, made_sending] at hmade
    rw [hheader]
    exact ⟨_, hmade.symm⟩
  | some ws =>
    cases ws with
    | nil =>
      obtain ⟨-, hvalid, hlast, hdata, -⟩ :=
        K.copying s v (f.header x) (f.word x) (f.isLast x) true htoSend
      rw [hlast, hdata]
      refine ⟨hvalid, hv.pass h.held ?_⟩
      rintro rfl
      rw [htoSend, hv.rest_eq, made_copying] at hmade
      exact ⟨_, hmade.symm⟩
    | cons w ws =>
      obtain ⟨-, hvalid, hlast, hdata, -⟩ :=
        K.sending s v (f.header x) (f.word x) (f.isLast x) true w ws htoSend
      obtain rfl := hv.kept (h.sending w ws htoSend).1
      rw [hlast, hdata]
      refine ⟨hvalid, hv.pass h.held fun _ => ?_⟩
      rw [htoSend, hv.rest_eq, made_sending] at hmade
      exact ⟨_, hmade.symm⟩

/-- A cycle in which nothing is given out. -/
theorem Rel.next_quiet (h : Rel f k s c d bound) (hv : c.Offers v x) {ready : Bool}
    (hquiet : (v && ready) = false) :
    Rel f k (K.next s v (f.header x) (f.isLast x) ready) (c.next v (K.sinkReady s v ready))
      (d.next v ready) bound := by
  have hsame : K.toSend (K.next s v (f.header x) (f.isLast x) ready) = K.toSend s ∧
      c.next v (K.sinkReady s v ready) = ⟨c.rest, v⟩ := by
    cases htoSend : K.toSend s with
    | none =>
      obtain ⟨hready, -, -, -, hnext⟩ :=
        K.idle s v (f.header x) (f.word x) (f.isLast x) ready htoSend
      rw [hquiet, if_neg Bool.false_ne_true] at hnext
      rw [hready]
      exact ⟨hnext, by cases v <;> rfl⟩
    | some ws =>
      cases ws with
      | nil =>
        obtain ⟨hready, -, -, -, hnext⟩ :=
          K.copying s v (f.header x) (f.word x) (f.isLast x) ready htoSend
        rw [hquiet, Bool.false_and, if_neg Bool.false_ne_true] at hnext
        rw [hready, hquiet]
        exact ⟨hnext, by cases v <;> rfl⟩
      | cons w ws =>
        obtain ⟨hready, -, -, -, hnext⟩ :=
          K.sending s v (f.header x) (f.word x) (f.isLast x) ready w ws htoSend
        obtain rfl := hv.kept (h.sending w ws htoSend).1
        rw [Bool.true_and] at hquiet
        rw [hquiet, if_neg Bool.false_ne_true] at hnext
        rw [hready, hquiet]
        exact ⟨hnext, rfl⟩
  have hd : d.next v ready = ⟨d.rest, v⟩ := by
    cases v <;> cases ready <;> first | rfl | cases hquiet
  rw [hsame.2, hd]
  exact ⟨by rw [hsame.1]; exact h.made, by rw [hsame.1]; exact h.short,
    fun w ws hw => ⟨hv.kept (h.sending w ws (hsame.1 ▸ hw)).1, (h.sending w ws (hsame.1 ▸ hw)).2⟩,
    fun hheld => hheld, by rw [hsame.1]; exact h.bound⟩

/-- Behind a header word the ones still to be sent wait for the word in front. -/
theorem Rel.of_sending {ws : List (BitVec 32)} (hsending : K.toSend s = some ws)
    (hshort : ws.length < k) (hv : c.Offers true x) :
    Rel f k s ⟨c.rest, true⟩ ⟨Packetizer.made f (some ws) c.rest, false⟩
      (cost k (some ws) c.rest.length) where
  made := by rw [hsending]
  short us hus := by
    rw [hsending] at hus
    cases hus
    exact hshort
  sending _ _ _ := ⟨rfl, by rw [hv.rest_eq]; exact List.cons_ne_nil _ _⟩
  held hheld := by cases hheld
  bound := by rw [hsending]

/-- The first header word is given out, and the others are loaded. -/
theorem Rel.next_first (h : Rel f k s c d bound) (hk : ∀ x, (f.header x).length = k)
    (hpos : 0 < k) (hv : c.Offers true x) (htoSend : K.toSend s = none) :
    ∃ bound', Rel f k (K.next s true (f.header x) (f.isLast x) true)
        (c.next true (K.sinkReady s true true)) (d.next true true) bound' ∧ bound' < bound := by
  have hmade := h.made
  have hbound := h.bound
  obtain ⟨hready, -, -, -, hnext⟩ :=
    K.idle s true (f.header x) (f.word x) (f.isLast x) true htoSend
  rw [Bool.true_and, if_pos rfl] at hnext
  obtain ⟨w, ws, hheader⟩ := List.exists_cons_of_length_pos (by rw [hk x]; exact hpos)
  have hws := hk x
  rw [hheader, List.length_cons] at hws
  rw [hheader, List.tail_cons] at hnext
  rw [htoSend, hv.rest_eq, made_none, hheader, made_sending, ← hv.rest_eq] at hmade
  rw [cost, htoSend, Option.elim_none] at hbound
  rw [hready, hheader, Bool.not_true, Chan.next_stall, Chan.next_take, ← hmade]
  refine ⟨_, Rel.of_sending hnext (by omega) hv, ?_⟩
  have hcost := hv.mul_length_eq (k + 1)
  rw [cost, Option.elim_some]
  omega

/-- Another header word is given out. -/
theorem Rel.next_sending (h : Rel f k s c d bound) (hv : c.Offers true x) {w : BitVec 32}
    {ws : List (BitVec 32)} (htoSend : K.toSend s = some (w :: ws)) :
    ∃ bound', Rel f k (K.next s true (f.header x) (f.isLast x) true)
        (c.next true (K.sinkReady s true true)) (d.next true true) bound' ∧ bound' < bound := by
  have hmade := h.made
  have hbound := h.bound
  have hshort := h.short (w :: ws) htoSend
  obtain ⟨hready, -, -, -, hnext⟩ :=
    K.sending s true (f.header x) (f.word x) (f.isLast x) true w ws htoSend
  rw [if_pos rfl] at hnext
  rw [htoSend, hv.rest_eq, made_sending, ← hv.rest_eq] at hmade
  rw [cost, htoSend, Option.elim_some, List.length_cons] at hbound
  rw [List.length_cons] at hshort
  rw [hready, Chan.next_stall, Chan.next_take, ← hmade]
  refine ⟨_, Rel.of_sending hnext (by omega) hv, ?_⟩
  have hcost := hv.mul_length_eq (k + 1)
  rw [cost, Option.elim_some]
  omega

/-- A word of the packet is given out. -/
theorem Rel.next_copying (h : Rel f k s c d bound) (hpos : 0 < k) (hv : c.Offers true x)
    (htoSend : K.toSend s = some []) :
    ∃ bound', Rel f k (K.next s true (f.header x) (f.isLast x) true)
        (c.next true (K.sinkReady s true true)) (d.next true true) bound' ∧ bound' < bound := by
  have hmade := h.made
  have hbound := h.bound
  obtain ⟨hready, -, -, -, hnext⟩ :=
    K.copying s true (f.header x) (f.word x) (f.isLast x) true htoSend
  rw [Bool.true_and, Bool.true_and] at hnext
  rw [htoSend, hv.rest_eq, made_copying] at hmade
  rw [cost, htoSend, Option.elim_some, List.length_nil] at hbound
  rw [hready, Bool.true_and, Chan.next_take, Chan.next_take, ← hmade]
  refine ⟨_, ⟨by rw [hnext]; rfl, ?_, ?_, (fun hheld => by cases hheld), rfl⟩, ?_⟩
  · intro us hus
    rw [hnext] at hus
    split_ifs at hus
    cases hus
    exact hpos
  · intro w us hus
    rw [hnext] at hus
    split_ifs at hus
    cases hus
  · have hcost := hv.mul_length_eq (k + 1)
    rw [cost, hnext]
    change (k + 1) * c.rest.tail.length - _ < bound
    split_ifs
    · rw [Option.elim_none]
      omega
    · rw [Option.elim_some, List.length_nil]
      omega

/-- A cycle in which a word is given out. -/
theorem Rel.next_given (h : Rel f k s c d bound) (hk : ∀ x, (f.header x).length = k)
    (hpos : 0 < k) (hv : c.Offers true x) :
    ∃ bound', Rel f k (K.next s true (f.header x) (f.isLast x) true)
        (c.next true (K.sinkReady s true true)) (d.next true true) bound' ∧ bound' < bound := by
  cases htoSend : K.toSend s with
  | none => exact h.next_first hk hpos hv htoSend
  | some ws =>
    cases ws with
    | nil => exact h.next_copying hpos hv htoSend
    | cons w ws => exact h.next_sending hv htoSend

theorem Rel.next (h : Rel f k s c d bound) (hk : ∀ x, (f.header x).length = k) (hpos : 0 < k)
    (hv : c.Offers v x) (ready : Bool) :
    ∃ bound', Rel f k (K.next s v (f.header x) (f.isLast x) ready)
        (c.next v (K.sinkReady s v ready)) (d.next v ready) bound' ∧ bound' ≤ bound ∧
      (bound' < bound ∨ bound = 0 ∨ c.Starved v ∨ (v = true ∧ ready = false) ∨ false = true) := by
  cases v with
  | false =>
    refine ⟨bound, h.next_quiet hv rfl, Nat.le_refl _, Or.inr ?_⟩
    exact (Chan.zero_or_starved h.bound).imp_right Or.inl
  | true =>
    cases ready with
    | false =>
      exact ⟨bound, h.next_quiet hv rfl, Nat.le_refl _, Or.inr (Or.inr (Or.inr (Or.inl ⟨rfl, rfl⟩)))⟩
    | true =>
      obtain ⟨bound', hrel, hlt⟩ := h.next_given hk hpos hv
      exact ⟨bound', hrel, Nat.le_of_lt hlt, Or.inl hlt⟩

/-- The packetizer puts its header in front of each packet. -/
def simulation (K : Packetizer) (ε : Type) (f : Format α β) {k : Nat}
    (hk : ∀ x, (f.header x).length = k) (hpos : 0 < k) : Simulation (K.stage ε f) where
  rel := Rel f k
  done := Rel.done
  offers {s c d bound v x} h hv := by
    obtain ⟨hvalid, hoffers⟩ := h.offers hk hpos hv
    change d.Offers (K.sourceValid s v) _
    rw [hvalid]
    exact hoffers
  step {s c d bound v x} _ ready h hv := by
    obtain ⟨hvalid, -⟩ := h.offers hk hpos hv
    change ∃ bound', Rel f k (K.next s v (f.header x) (f.isLast x) ready)
      (c.next v (K.sinkReady s v ready)) (d.next (K.sourceValid s v) ready) bound' ∧ _ ∧
        (_ ∨ _ ∨ _ ∨ (K.sourceValid s v = true ∧ _) ∨ _)
    rw [hvalid]
    exact h.next hk hpos hv ready

/-- From reset. -/
theorem Rel.start (xs : List α) :
    Rel f k K.init (Chan.start xs) (Chan.start ((words f).emits false xs))
      ((k + 1) * xs.length) where
  made := by
    rw [K.toSend_init]
    rfl
  short ws hws := by
    rw [K.toSend_init] at hws
    cases hws
  sending w ws hws := by
    rw [K.toSend_init] at hws
    cases hws
  held hheld := by cases hheld
  bound := by
    rw [K.toSend_init]
    rfl

/-- From reset, packets are turned one after the other into what is made of each. -/
theorem starts (K : Packetizer) (ε : Type) (hk : ∀ x, (f.header x).length = k) (hpos : 0 < k)
    {g : γ → List α} {h : γ → List β} {xs : List γ}
    (hwords : ∀ x ∈ xs, (words f).emits false (g x) = h x ∧ (words f).run false (g x) = false) :
    (K.simulation ε f hk hpos).Starts (xs.flatMap g) (xs.flatMap h)
      ((k + 1) * (xs.flatMap g).length) := by
  rw [← (Machine.emits_flatMap hwords).1]
  exact Rel.start _

/-- The header words still to be sent, as a packetizer. -/
def shiftRegister : Packetizer where
  State := Option (List (BitVec 32))
  init := none
  toSend s := s
  sinkReady
    | none, v, _ => !v
    | some [], v, ready => v && ready
    | some (_ :: _), _, _ => false
  sourceValid
    | some (_ :: _), _ => true
    | _, v => v
  sourceLast
    | some [], last => last
    | _, _ => false
  sourceData
    | none, header, _ => header.headD 0
    | some [], _, x => x
    | some (w :: _), _, _ => w
  next
    | none, v, header, _, ready => if v && ready then some header.tail else none
    | some [], v, _, last, ready => if v && ready && last then none else some []
    | some (w :: ws), _, _, _, ready => some (if ready then ws else w :: ws)
  toSend_init := rfl
  idle := by
    rintro s v header x last ready rfl
    exact ⟨rfl, rfl, rfl, rfl, rfl⟩
  sending := by
    rintro s v header x last ready w ws rfl
    exact ⟨rfl, rfl, rfl, rfl, rfl⟩
  copying := by
    rintro s v header x last ready rfl
    exact ⟨rfl, rfl, rfl, rfl, rfl⟩

end Packetizer

end UsbSniffer.Sync
