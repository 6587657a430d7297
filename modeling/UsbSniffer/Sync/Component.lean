/-
  Sync/Component.lean --- modules inside a larger design, and queues in a row.

  A module of a design steps on its own registers, with inputs that the wires of the
  design give it.  When each of its cycles can be read off the wires, its runs and its
  traces are those of the module on its own, and what was shown of the module holds of
  it in the design.  Queues that hand their words on to each other are one queue.
-/
import UsbSniffer.Sync.Parts

set_option autoImplicit false

namespace UsbSniffer.Sync

variable {σ ι ω σ' ι' ω' α β : Type}

/-- `N` is a part of `M`: `proj` are its registers, and `view` its cycle among the wires. -/
structure Component (M : Machine σ ι ω) (N : Machine σ' ι' ω') where
  proj : σ → σ'
  view : ι × ω → ι' × ω'
  out_eq : ∀ s i, (view (i, M.out s i)).2 = N.out (proj s) (view (i, M.out s i)).1
  next_eq : ∀ s i, proj (M.next s i) = N.next (proj s) (view (i, M.out s i)).1

namespace Component

variable {M : Machine σ ι ω} {N : Machine σ' ι' ω'} (K : Component M N)

/-- What the design gives the part in a cycle. -/
def input (s : σ) (i : ι) : ι' := (K.view (i, M.out s i)).1

/-- The inputs of the part in the cycles of a run. -/
def inputs (s : σ) (is : List ι) : List ι' := (M.trace s is).map fun c => (K.view c).1

theorem view_eq (s : σ) (i : ι) :
    K.view (i, M.out s i) = (K.input s i, N.out (K.proj s) (K.input s i)) :=
  Prod.ext rfl (K.out_eq s i)

theorem proj_next (s : σ) (i : ι) : K.proj (M.next s i) = N.next (K.proj s) (K.input s i) :=
  K.next_eq s i

/-- The registers of the part after a run of the design. -/
theorem proj_run (s : σ) (is : List ι) :
    K.proj (M.run s is) = N.run (K.proj s) (K.inputs s is) := by
  induction is generalizing s with
  | nil => rfl
  | cons i is ih =>
    rw [Machine.run_cons, ih, K.proj_next]
    rfl

/-- A condition that the design meets at a part is met by the part in its own run. -/
theorem allSteps {ok : σ → ι → Prop} {ok' : σ' → ι' → Prop}
    (h : ∀ s i, ok s i → ok' (K.proj s) (K.input s i)) {s : σ} {is : List ι}
    (hok : M.AllSteps ok s is) : N.AllSteps ok' (K.proj s) (K.inputs s is) := by
  induction is generalizing s with
  | nil => exact trivial
  | cons i is ih =>
    refine ⟨h s i hok.1, ?_⟩
    have hrest := ih hok.2
    rw [K.proj_next] at hrest
    exact hrest

/-- The trace of the part is what is seen of it in the trace of the design. -/
theorem trace_eq (s : σ) (is : List ι) :
    N.trace (K.proj s) (K.inputs s is) = (M.trace s is).map K.view := by
  induction is generalizing s with
  | nil => rfl
  | cons i is ih =>
    have hrest : N.trace (N.next (K.proj s) (K.input s i)) (K.inputs (M.next s i) is) =
        (M.trace (M.next s i) is).map K.view := by
      rw [← ih (M.next s i), ← K.proj_next]
    rw [Machine.trace_cons, List.map_cons, K.view_eq, ← hrest]
    rfl

/-- What an interface of the part moves is moved in the design. -/
theorem moved_view (port : ι' × ω' → List α) (s : σ) (is : List ι) :
    moved port (N.trace (K.proj s) (K.inputs s is)) =
      moved (fun c => port (K.view c)) (M.trace s is) := by
  rw [K.trace_eq]
  exact List.flatMap_map ..

/-- A part of a part. -/
def trans {σ'' ι'' ω'' : Type} {P : Machine σ'' ι'' ω''} (L : Component N P) : Component M P where
  proj s := L.proj (K.proj s)
  view c := L.view (K.view c)
  out_eq s i := by
    rw [K.view_eq]
    exact L.out_eq (K.proj s) (K.input s i)
  next_eq s i := by
    rw [K.proj_next, K.view_eq]
    exact L.next_eq (K.proj s) (K.input s i)

end Component

namespace RefinesQueue

variable {M : Machine σ ι ω} {ok : σ → ι → Prop}

/-- A queue that is a part of a design is one in the design. -/
theorem component {N : Machine σ' ι' ω'} {ok' : σ' → ι' → Prop} {Inv : σ' → Prop}
    {held : σ' → List α} {ins outs : ι' × ω' → List α}
    (h : RefinesQueue N ok' Inv held ins outs) (K : Component M N)
    (hok : ∀ s i, ok s i → ok' (K.proj s) (K.input s i)) :
    RefinesQueue M ok (fun s => Inv (K.proj s)) (fun s => held (K.proj s))
      (fun c => ins (K.view c)) (fun c => outs (K.view c)) where
  inv s i hi hInv := by
    rw [K.proj_next]
    exact h.inv (K.proj s) (K.input s i) (hok s i hi) hInv
  step s i hi hInv := by
    rw [K.proj_next, K.view_eq]
    exact h.step (K.proj s) (K.input s i) (hok s i hi) hInv

/-- A part that is a queue in every step is one in every step of the design. -/
theorem part {N : Machine σ' ι' ω'} {Inv : σ' → Prop} {held : σ' → List α}
    {ins outs : ι' × ω' → List α} (h : RefinesQueue N (fun _ _ => True) Inv held ins outs)
    (K : Component M N) :
    RefinesQueue M (fun _ _ => True) (fun s => Inv (K.proj s)) (fun s => held (K.proj s))
      (fun c => ins (K.view c)) (fun c => outs (K.view c)) :=
  h.component K fun _ _ _ => trivial

/-- Two queues, of which the second takes in what the first gives out. -/
theorem chain {InvQ InvP : σ → Prop} {heldQ heldP : σ → List α}
    {ins mid mid' outs : ι × ω → List α} (hq : RefinesQueue M ok InvQ heldQ ins mid)
    (hp : RefinesQueue M ok InvP heldP mid' outs)
    (hmid : ∀ s i, mid (i, M.out s i) = mid' (i, M.out s i)) :
    RefinesQueue M ok (fun s => InvQ s ∧ InvP s) (fun s => heldP s ++ heldQ s) ins outs where
  inv s i hi hInv := ⟨hq.inv s i hi hInv.1, hp.inv s i hi hInv.2⟩
  step s i hi hInv := by
    have hfirst := hq.step s i hi hInv.1
    rw [hmid] at hfirst
    exact hfirst.chain (hp.step s i hi hInv.2)

/-- The words that go in may be watched at another port. -/
theorem ins_eq {Inv : σ → Prop} {held : σ → List α} {ins ins' outs : ι × ω → List α}
    (h : RefinesQueue M ok Inv held ins outs)
    (hins : ∀ s i, ins (i, M.out s i) = ins' (i, M.out s i)) :
    RefinesQueue M ok Inv held ins' outs where
  inv := h.inv
  step s i hi hInv := hins s i ▸ h.step s i hi hInv

/-- A queue of words is a queue of what the words are made of. -/
theorem flatMap {Inv : σ → Prop} {held : σ → List α} {ins outs : ι × ω → List α}
    (h : RefinesQueue M ok Inv held ins outs) (f : α → List β) :
    RefinesQueue M ok Inv (fun s => (held s).flatMap f) (fun c => (ins c).flatMap f)
      (fun c => (outs c).flatMap f) where
  inv := h.inv
  step s i hi hInv := by
    have hstep := h.step s i hi hInv
    unfold QueueStep at hstep ⊢
    rw [← List.flatMap_append, ← List.flatMap_append, hstep]

end RefinesQueue

/-! ## Clocks

Where there are several clocks, an instant has an edge of some of them.  A machine at an
instant without an edge of its clock keeps its registers. -/

namespace Machine

/-- The machine at those instants that have an edge of its clock. -/
def gated (M : Machine σ ι ω) : Machine σ (Option ι) (Option ω) where
  out s i := i.map (M.out s)
  next s i := i.elim s (M.next s)

/-- What an interface moves at an edge. -/
def atEdge (port : ι × ω → List α) : Option ι × Option ω → List α
  | (some i, some o) => port (i, o)
  | _ => []

/-- A condition on the steps at an edge. -/
def whenEdge (ok : σ → ι → Prop) (s : σ) (i : Option ι) : Prop := ∀ j, i = some j → ok s j

instance (ok : σ → ι → Prop) [∀ s i, Decidable (ok s i)] (s : σ) (i : Option ι) :
    Decidable (whenEdge ok s i) :=
  match i with
  | none => .isTrue fun _ h => by cases h
  | some j => decidable_of_iff (ok s j)
      ⟨fun h _ hj => Option.some.inj hj ▸ h, fun h => h j rfl⟩

end Machine

/-- A queue rests between the edges of its clock. -/
theorem RefinesQueue.gated {M : Machine σ ι ω} {ok : σ → ι → Prop} {Inv : σ → Prop}
    {held : σ → List α} {ins outs : ι × ω → List α} (h : RefinesQueue M ok Inv held ins outs) :
    RefinesQueue M.gated (Machine.whenEdge ok) Inv held (Machine.atEdge ins)
      (Machine.atEdge outs) where
  inv s i hi hInv := by
    cases i with
    | none => exact hInv
    | some i => exact h.inv s i (hi i rfl) hInv
  step s i hi hInv := by
    cases i with
    | none => exact List.append_nil _
    | some i => exact h.step s i (hi i rfl) hInv

/-! ## The asynchronous FIFO as a machine -/

namespace AsyncFIFO

variable {depth : Nat}

/-- The edges of an instant: `sink.valid` and `sink.data`, and `source.ready`. -/
structure In (α : Type) where
  write : Option (Bool × α)
  read : Option Bool
  deriving DecidableEq, Repr

/-- `sink.ready`, `source.valid` and `source.data`. -/
structure Out (α : Type) where
  writable : Bool
  readable : Bool
  dout : α
  deriving DecidableEq, Repr

/-- What both sides are shown. -/
def out (F : AsyncFIFO α depth) (s : F.State) : Out α where
  writable := F.writable s
  readable := F.readable s
  dout := F.dout s

/-- The FIFO alone. -/
def machine (F : AsyncFIFO α depth) : Machine F.State (In α) (Out α) where
  out s _ := F.out s
  next s i := F.next s i.write i.read

/-- The word accepted by the FIFO at an instant. -/
def sinkWord (c : In α × Out α) : List α :=
  c.1.write.elim [] fun w => beat w.1 c.2.writable w.2

/-- The word taken from it. -/
def sourceWord (c : In α × Out α) : List α := beat c.2.readable (c.1.read.getD false) c.2.dout

/-- The FIFO never holds more than its depth. -/
def Bounded (F : AsyncFIFO α depth) (s : F.State) : Prop := (F.contents s).length ≤ depth

theorem bounded_init (F : AsyncFIFO α depth) : F.Bounded F.init := by
  unfold Bounded
  rw [F.contents_init]
  exact Nat.zero_le _

theorem bounded_next (F : AsyncFIFO α depth) (s : F.State) (i : In α) (h : F.Bounded s) :
    F.Bounded (F.next s i.write i.read) := by
  have hpopped : (if F.readable s && i.read.getD false then (F.contents s).tail
      else F.contents s).length ≤ (F.contents s).length := by
    split_ifs
    · rw [List.length_tail]
      omega
    · exact Nat.le_refl _
  unfold Bounded at h ⊢
  rw [F.contents_next, List.length_append]
  cases i.write with
  | none =>
    simp only [Option.elim_none, List.length_nil]
    omega
  | some w =>
    simp only [Option.elim_some]
    cases hw : F.writable s with
    | false =>
      simp only [beat_false_right, List.length_nil]
      omega
    | true =>
      have hlt := F.length_lt s hw
      have := beat_length_le w.1 true w.2
      omega

/-- The FIFO is a queue, at every instant. -/
theorem queueStep (F : AsyncFIFO α depth) (s : F.State) (i : In α) :
    QueueStep (F.contents s) (sinkWord (i, F.out s)) (sourceWord (i, F.out s))
      (F.contents (F.next s i.write i.read)) := by
  change F.contents s ++ sinkWord (i, F.out s) =
    beat (F.readable s) (i.read.getD false) (F.dout s) ++ F.contents (F.next s i.write i.read)
  rw [F.contents_next, ← List.append_assoc]
  refine congrArg (· ++ _) ?_
  cases hfire : F.readable s && i.read.getD false with
  | false => rw [beat_of_quiet hfire]; rfl
  | true =>
    rw [beat_of_fire hfire]
    exact F.dout_eq s (Bool.and_eq_true_iff.mp hfire).1

theorem refinesQueue (F : AsyncFIFO α depth) :
    RefinesQueue F.machine (fun _ _ => True) F.Bounded F.contents sinkWord sourceWord where
  inv s i _ h := F.bounded_next s i h
  step s i _ _ := F.queueStep s i

end AsyncFIFO

/-! ## The synchronous FIFO as a machine -/

namespace SyncFIFO

variable {depth : Nat}

/-- `sink.valid`, `sink.data` and `source.ready`. -/
structure In (α : Type) where
  we : Bool
  din : α
  re : Bool
  deriving DecidableEq, Repr

/-- `sink.ready`, `source.valid` and `source.data`. -/
structure Out (α : Type) where
  writable : Bool
  readable : Bool
  dout : α
  deriving DecidableEq, Repr

/-- What both sides are shown. -/
def out (F : SyncFIFO α depth) (s : F.State) : Out α where
  writable := F.writable s
  readable := F.readable s
  dout := F.dout s

/-- The FIFO alone. -/
def machine (F : SyncFIFO α depth) : Machine F.State (In α) (Out α) where
  out s _ := F.out s
  next s i := F.next s i.we i.din i.re

/-- The word accepted by the FIFO in a cycle. -/
def sinkWord (c : In α × Out α) : List α := beat c.1.we c.2.writable c.1.din

/-- The word taken from it. -/
def sourceWord (c : In α × Out α) : List α := beat c.2.readable c.1.re c.2.dout

/-- The FIFO never holds more than its depth. -/
def Bounded (F : SyncFIFO α depth) (s : F.State) : Prop := (F.contents s).length ≤ depth

theorem bounded_init (F : SyncFIFO α depth) : F.Bounded F.init := by
  unfold Bounded
  rw [F.contents_init]
  exact Nat.zero_le _

theorem refinesQueue (F : SyncFIFO α depth) :
    RefinesQueue F.machine (fun _ _ => True) F.Bounded F.contents sinkWord sourceWord where
  inv s i _ h := F.length_next_le s i.we i.din i.re h
  step s i _ _ := F.queueStep s i.we i.din i.re

end SyncFIFO

end UsbSniffer.Sync
