/-
  Sync/Stage.lean --- stages of a pipeline, and what it means for one to turn a
  stream into another whatever the handshakes do.

  A stage takes beats from a sink and gives beats on a source, and may look at a
  beat that is offered before it takes it.  What is said of it is a relation
  between its registers, what is still to come in, what is still to go out, and a
  bound on the cycles that this takes when nobody waits.  Such relations compose:
  two stages in a row are a stage, and the bounds add.
-/
import UsbSniffer.Sync.Queue

set_option autoImplicit false

namespace UsbSniffer.Sync

variable {ε σ α β γ : Type}

/-! ## Words in, words out -/

/-- What a machine that answers each word with some words makes of a list. -/
def Machine.emits (T : Machine σ α (List β)) : σ → List α → List β
  | _, [] => []
  | s, x :: xs => T.out s x ++ emits T (T.next s x) xs

@[simp] theorem Machine.emits_nil (T : Machine σ α (List β)) (s : σ) : T.emits s [] = [] := rfl

@[simp] theorem Machine.emits_cons (T : Machine σ α (List β)) (s : σ) (x : α) (xs : List α) :
    T.emits s (x :: xs) = T.out s x ++ T.emits (T.next s x) xs := rfl

theorem Machine.emits_append (T : Machine σ α (List β)) (s : σ) (xs ys : List α) :
    T.emits s (xs ++ ys) = T.emits s xs ++ T.emits (T.run s xs) ys := by
  induction xs generalizing s with
  | nil => rfl
  | cons x xs ih => rw [List.cons_append, emits_cons, emits_cons, run_cons, ih, List.append_assoc]

/-- A machine that makes at most one word of each. -/
theorem Machine.length_emits_le {T : Machine σ α (List β)} (h : ∀ s x, (T.out s x).length ≤ 1)
    (s : σ) (xs : List α) : (T.emits s xs).length ≤ xs.length := by
  induction xs generalizing s with
  | nil => exact Nat.le_refl 0
  | cons x xs ih =>
    have hout := h s x
    have hxs := ih (T.next s x)
    rw [emits_cons, List.length_append, List.length_cons]
    omega

/-- Pieces after each of which the machine is where it was before are one after the other. -/
theorem Machine.emits_flatMap {T : Machine σ α (List β)} {s : σ} {f : γ → List α}
    {g : γ → List β} {xs : List γ}
    (h : ∀ x ∈ xs, T.emits s (f x) = g x ∧ T.run s (f x) = s) :
    T.emits s (xs.flatMap f) = xs.flatMap g ∧ T.run s (xs.flatMap f) = s := by
  induction xs with
  | nil => exact ⟨rfl, rfl⟩
  | cons x xs ih =>
    obtain ⟨hemits, hrun⟩ := h x (List.mem_cons_self ..)
    obtain ⟨hemits', hrun'⟩ := ih fun y hy => h y (List.mem_cons_of_mem x hy)
    rw [List.flatMap_cons, List.flatMap_cons, emits_append, run_append, hemits, hrun, hemits',
      hrun']
    exact ⟨rfl, rfl⟩

/-! ## Channels -/

/-- What is still to pass through an interface, and whether the front of it was on
offer in the last cycle and was not taken. -/
structure Chan (α : Type) where
  rest : List α
  held : Bool

namespace Chan

/-- The stream itself, before anything is offered. -/
def start (xs : List α) : Chan α := ⟨xs, false⟩

/-- What is held stays on offer, and what is on offer is the front. -/
structure Offers (c : Chan α) (valid : Bool) (x : α) : Prop where
  kept : c.held = true → valid = true
  front : valid = true → c.rest.head? = some x

/-- The edge of a cycle with these handshake wires. -/
def next (c : Chan α) (valid ready : Bool) : Chan α where
  rest := if valid && ready then c.rest.tail else c.rest
  held := valid && !ready

/-- Something is to come, and nothing is offered. -/
def Starved (c : Chan α) (valid : Bool) : Prop := c.rest ≠ [] ∧ valid = false

@[simp] theorem next_false (c : Chan α) (ready : Bool) :
    c.next false ready = ⟨c.rest, false⟩ := rfl

@[simp] theorem next_stall (c : Chan α) : c.next true false = ⟨c.rest, true⟩ := rfl

@[simp] theorem next_take (c : Chan α) : c.next true true = ⟨c.rest.tail, false⟩ := rfl

theorem Offers.rest_eq {c : Chan α} {x : α} (h : c.Offers true x) :
    c.rest = x :: c.rest.tail :=
  (List.cons_head?_tail (h.front rfl)).symm

theorem Offers.length_eq {c : Chan α} {x : α} (h : c.Offers true x) :
    c.rest.length = c.rest.tail.length + 1 :=
  congrArg List.length h.rest_eq

theorem Offers.mul_length_eq {c : Chan α} {x : α} (h : c.Offers true x) (n : Nat) :
    n * c.rest.length = n * c.rest.tail.length + n := by
  rw [h.length_eq, Nat.mul_succ]

/-- What goes through the interface in a cycle and what is left are what there was. -/
theorem Offers.rest_next {c : Chan α} {valid : Bool} {x : α} (h : c.Offers valid x)
    (ready : Bool) : beat valid ready x ++ (c.next valid ready).rest = c.rest := by
  cases valid with
  | false => rfl
  | true =>
    cases ready with
    | false => rfl
    | true => exact h.rest_eq.symm

theorem Offers.length_next {c : Chan α} {valid : Bool} {x : α} (h : c.Offers valid x)
    (ready : Bool) :
    (beat valid ready x).length + (c.next valid ready).rest.length = c.rest.length := by
  rw [← List.length_append, h.rest_next]

/-- What is held is there. -/
theorem Offers.rest_ne_nil {c : Chan α} {valid ready : Bool} {x : α} (h : c.Offers valid x) :
    (c.next valid ready).held = true → (c.next valid ready).rest ≠ [] := by
  intro hheld
  cases valid with
  | false => cases hheld
  | true =>
    cases ready with
    | true => cases hheld
    | false =>
      rw [next_stall, h.rest_eq]
      exact List.cons_ne_nil _ _

/-- Nothing is offered, and nothing was. -/
theorem Offers.of_false {c : Chan α} (h : c.held ≠ true) (x : α) : c.Offers false x where
  kept hheld := absurd hheld h
  front hvalid := by cases hvalid

/-- The front is offered. -/
theorem Offers.of_cons {c : Chan α} {x : α} {xs : List α} (h : c.rest = x :: xs) :
    c.Offers true x where
  kept _ := rfl
  front _ := by rw [h]; rfl

/-- An offer is passed on. -/
theorem Offers.pass {c : Chan α} {d : Chan β} {v : Bool} {x : α} {y : β} (hv : c.Offers v x)
    (hheld : d.held = true → c.held = true)
    (hfront : v = true → ∃ ys, d.rest = y :: ys) : d.Offers v y where
  kept h := hv.kept (hheld h)
  front h := by
    obtain ⟨ys, hrest⟩ := hfront h
    rw [hrest]
    rfl

theorem empty_or_starved (c : Chan α) : c.rest = [] ∨ c.Starved false := by
  cases hrest : c.rest with
  | nil => exact Or.inl rfl
  | cons x xs => exact Or.inr ⟨by rw [hrest]; exact List.cons_ne_nil x xs, rfl⟩

/-- A stage to which nothing is offered has nothing to do or is starved. -/
theorem zero_or_starved {c : Chan α} {n spent bound : Nat}
    (h : n * c.rest.length - spent = bound) : bound = 0 ∨ c.Starved false := by
  rcases c.empty_or_starved with hrest | hstarved
  · left
    rw [← h, hrest]
    exact Nat.zero_sub spent
  · exact Or.inr hstarved

/-- With less spent on the front than it costs, a bound that is used up leaves nothing. -/
theorem rest_of_zero {c : Chan α} {n spent : Nat} (h : n * c.rest.length - spent = 0)
    (hspent : spent < n) : c.rest = [] := by
  by_contra hne
  have hpos := List.length_pos_iff.mpr hne
  have hle : n ≤ n * c.rest.length := Nat.le_mul_of_pos_right n hpos
  omega

/-- The words to come get fewer, unless none is to come, offered or taken. -/
theorem Offers.moves {c : Chan α} {v : Bool} {x : α} (hv : c.Offers v x) (ready : Bool) :
    (c.next v ready).rest.length ≤ c.rest.length ∧
      ((c.next v ready).rest.length < c.rest.length ∨ c.rest.length = 0 ∨ c.Starved v ∨
        (v = true ∧ ready = false)) := by
  cases v with
  | false =>
    have hquiet := c.empty_or_starved.imp_left (congrArg List.length)
    exact ⟨Nat.le_refl _, Or.inr (hquiet.imp_right Or.inl)⟩
  | true =>
    cases ready with
    | false => exact ⟨Nat.le_refl _, Or.inr (Or.inr (Or.inr ⟨rfl, rfl⟩))⟩
    | true =>
      have hlength := hv.length_eq
      have htail : c.rest.tail.length < c.rest.length := by omega
      exact ⟨Nat.le_of_lt htail, Or.inl htail⟩

/-- The channel after some cycles, each with `valid`, `ready` and the beat. -/
def after : Chan α → List (Bool × Bool × α) → Chan α
  | c, [] => c
  | c, (valid, ready, _) :: ws => (c.next valid ready).after ws

/-- In each of these cycles what is offered is in keeping with the channel. -/
def Follows : Chan α → List (Bool × Bool × α) → Prop
  | _, [] => True
  | c, (valid, ready, x) :: ws => c.Offers valid x ∧ (c.next valid ready).Follows ws

theorem after_append (c : Chan α) (ws ws' : List (Bool × Bool × α)) :
    c.after (ws ++ ws') = (c.after ws).after ws' := by
  induction ws generalizing c with
  | nil => rfl
  | cons w ws ih => exact ih (c.next w.1 w.2.1)

theorem follows_append (c : Chan α) (ws ws' : List (Bool × Bool × α)) :
    c.Follows (ws ++ ws') ↔ c.Follows ws ∧ (c.after ws).Follows ws' := by
  induction ws generalizing c with
  | nil => exact ⟨fun h => ⟨trivial, h⟩, fun h => h.2⟩
  | cons w ws ih =>
    have htail := ih (c.next w.1 w.2.1)
    constructor
    · rintro ⟨hoffers, hrest⟩
      exact ⟨⟨hoffers, (htail.mp hrest).1⟩, (htail.mp hrest).2⟩
    · rintro ⟨⟨hoffers, hws⟩, hws'⟩
      exact ⟨hoffers, htail.mpr ⟨hws, hws'⟩⟩

end Chan

/-! ## Stages -/

/-- A stage with an environment `ε` beside the sink and the source. -/
structure Stage (ε α β : Type) where
  State : Type
  init : State
  /-- `source.valid`, from `sink.valid` and the beat on the sink. -/
  sourceValid : State → Bool → α → Bool
  source : State → α → β
  /-- `sink.ready`, from `sink.valid`, the beat on the sink and `source.ready`. -/
  sinkReady : State → ε → Bool → α → Bool → Bool
  next : State → ε → Bool → α → Bool → State
  /-- The stage waits for its environment in this cycle. -/
  waits : State → ε → Bool → α → Bool

/-- The source of the first stage is the sink of the second. -/
def Stage.comp (M : Stage ε α β) (N : Stage ε β γ) : Stage ε α γ where
  State := M.State × N.State
  init := (M.init, N.init)
  sourceValid s v x := N.sourceValid s.2 (M.sourceValid s.1 v x) (M.source s.1 x)
  source s x := N.source s.2 (M.source s.1 x)
  sinkReady s e v x ready :=
    M.sinkReady s.1 e v x
      (N.sinkReady s.2 e (M.sourceValid s.1 v x) (M.source s.1 x) ready)
  next s e v x ready :=
    (M.next s.1 e v x (N.sinkReady s.2 e (M.sourceValid s.1 v x) (M.source s.1 x) ready),
      N.next s.2 e (M.sourceValid s.1 v x) (M.source s.1 x) ready)
  waits s e v x := M.waits s.1 e v x || N.waits s.2 e (M.sourceValid s.1 v x) (M.source s.1 x)

/-- A stage relates the stream that comes in to the stream that goes out.  In a cycle in
which it is not starved, nor its source stalled, nor the environment slow, the bound
decreases. -/
structure Simulation (M : Stage ε α β) where
  rel : M.State → Chan α → Chan β → Nat → Prop
  done : ∀ {s c d}, rel s c d 0 → c.rest = [] ∧ d.rest = []
  offers : ∀ {s c d k v x}, rel s c d k → c.Offers v x →
    d.Offers (M.sourceValid s v x) (M.source s x)
  step : ∀ {s c d k v x} (e : ε) (ready : Bool), rel s c d k → c.Offers v x →
    ∃ k', rel (M.next s e v x ready) (c.next v (M.sinkReady s e v x ready))
        (d.next (M.sourceValid s v x) ready) k' ∧ k' ≤ k ∧
      (k' < k ∨ k = 0 ∨ c.Starved v ∨ (M.sourceValid s v x = true ∧ ready = false) ∨
        M.waits s e v x = true)

namespace Simulation

variable {M : Stage ε α β} {N : Stage ε β γ}

/-- A stage that offers nothing moves, unless it has nothing to do. -/
theorem moves_of_idle {c : Chan α} {v offer ready waits : Bool} {k k' : Nat}
    (hmove : k' < k ∨ k = 0 ∨ c.Starved v ∨ (offer = true ∧ ready = false) ∨ waits = true)
    (hidle : offer = false) : k = 0 ∨ k' < k ∨ c.Starved v ∨ waits = true := by
  rcases hmove with hlt | hzero | hstarved | ⟨hoffer, -⟩ | hwaits
  · exact Or.inr (Or.inl hlt)
  · exact Or.inl hzero
  · exact Or.inr (Or.inr (Or.inl hstarved))
  · rw [hidle] at hoffer
    cases hoffer
  · exact Or.inr (Or.inr (Or.inr hwaits))

/-- A cycle of two stages in a row.  When neither moves, the first one waits for the second
one only if that one has work, and the second one for the first one likewise. -/
theorem step_comp (A : Simulation M) (B : Simulation N) {s : (M.comp N).State} {c : Chan α}
    {m : Chan β} {d : Chan γ} {j l : Nat} {v : Bool} {x : α} (e : ε) (ready : Bool)
    (hA : A.rel s.1 c m j) (hB : B.rel s.2 m d l) (hv : c.Offers v x) :
    ∃ m' j' l', A.rel ((M.comp N).next s e v x ready).1
        (c.next v ((M.comp N).sinkReady s e v x ready)) m' j' ∧
      B.rel ((M.comp N).next s e v x ready).2 m'
        (d.next ((M.comp N).sourceValid s v x) ready) l' ∧
      j' + l' ≤ j + l ∧
      (j' + l' < j + l ∨ j + l = 0 ∨ c.Starved v ∨
        ((M.comp N).sourceValid s v x = true ∧ ready = false) ∨
        (M.comp N).waits s e v x = true) := by
  have hm := A.offers hA hv
  obtain ⟨l', hB', hl, hmoveB⟩ := B.step e ready hB hm
  obtain ⟨j', hA', hj, hmoveA⟩ :=
    A.step e (N.sinkReady s.2 e (M.sourceValid s.1 v x) (M.source s.1 x) ready) hA hv
  refine ⟨_, j', l', hA', hB', by omega, ?_⟩
  have hwaits : (M.comp N).waits s e v x = true ↔ M.waits s.1 e v x = true ∨
      N.waits s.2 e (M.sourceValid s.1 v x) (M.source s.1 x) = true := Bool.or_eq_true_iff
  rw [hwaits]
  rcases hmoveB with hlt | hzero | ⟨hrest, hidle⟩ | hstalled | hslow
  · exact Or.inl (by omega)
  · -- the second stage has nothing to do, and nothing comes in
    subst hzero
    have hidle : M.sourceValid s.1 v x = false := by
      rw [← Bool.not_eq_true]
      intro hoffer
      have hfront := hm.front hoffer
      rw [(B.done hB).1] at hfront
      cases hfront
    rcases moves_of_idle hmoveA hidle with hzero | hlt | hstarved | hslow
    · exact Or.inr (Or.inl (by omega))
    · exact Or.inl (by omega)
    · exact Or.inr (Or.inr (Or.inl hstarved))
    · exact Or.inr (Or.inr (Or.inr (Or.inr (Or.inl hslow))))
  · -- the second stage is starved, so that the first one has something to do
    rcases moves_of_idle hmoveA hidle with hzero | hlt | hstarved | hslow
    · subst hzero
      exact absurd (A.done hA).2 hrest
    · exact Or.inl (by omega)
    · exact Or.inr (Or.inr (Or.inl hstarved))
    · exact Or.inr (Or.inr (Or.inr (Or.inr (Or.inl hslow))))
  · exact Or.inr (Or.inr (Or.inr (Or.inl hstalled)))
  · exact Or.inr (Or.inr (Or.inr (Or.inr (Or.inr hslow))))

/-- Two stages in a row. -/
def comp (A : Simulation M) (B : Simulation N) : Simulation (M.comp N) where
  rel s c d k := ∃ m j l, A.rel s.1 c m j ∧ B.rel s.2 m d l ∧ k = j + l
  done := by
    rintro s c d ⟨m, j, l, hA, hB, hk⟩
    obtain ⟨rfl, rfl⟩ : j = 0 ∧ l = 0 := by omega
    exact ⟨(A.done hA).1, (B.done hB).2⟩
  offers := by
    rintro s c d k v x ⟨m, j, l, hA, hB, -⟩ hv
    exact B.offers hB (A.offers hA hv)
  step := by
    rintro s c d k v x e ready ⟨m, j, l, hA, hB, rfl⟩ hv
    obtain ⟨m', j', l', hA', hB', hle, hmove⟩ := step_comp A B e ready hA hB hv
    exact ⟨j' + l', ⟨m', j', l', hA', hB', rfl⟩, hle, hmove⟩

/-- From reset, one stream becomes another in so many free cycles. -/
def Starts (A : Simulation M) (xs : List α) (ys : List β) (k : Nat) : Prop :=
  A.rel M.init (Chan.start xs) (Chan.start ys) k

theorem Starts.comp {A : Simulation M} {B : Simulation N} {xs : List α} {ys : List β}
    {zs : List γ} {j l : Nat} (hA : A.Starts xs ys j) (hB : B.Starts ys zs l) :
    (A.comp B).Starts xs zs (j + l) :=
  ⟨Chan.start ys, j, l, hA, hB, rfl⟩

end Simulation

/-! ## Runs -/

namespace Stage

/-- What the surroundings of a stage decide in a cycle: whether to offer the next beat,
what the environment does, and whether the source is ready. -/
structure Drive (ε : Type) where
  offer : Bool
  env : ε
  ready : Bool

/-- The wires of a cycle. -/
structure Wires (α β : Type) where
  sinkValid : Bool
  sinkData : α
  sinkReady : Bool
  sourceValid : Bool
  source : β
  /-- Something is to come, and nothing is offered. -/
  starved : Bool
  waits : Bool

variable [Inhabited α]

/-- A beat that was offered stays on offer. -/
def offered (c : Chan α) (offer : Bool) : Bool := !c.rest.isEmpty && (c.held || offer)

/-- The beat in front of the channel. -/
def front (c : Chan α) : α := c.rest.headD default

/-- The stage with a stream of beats in front of it. -/
def driven (M : Stage ε α β) : Machine (M.State × Chan α) (Drive ε) (Wires α β) where
  out s i :=
    let v := offered s.2 i.offer
    let x := front s.2
    { sinkValid := v
      sinkData := x
      sinkReady := M.sinkReady s.1 i.env v x i.ready
      sourceValid := M.sourceValid s.1 v x
      source := M.source s.1 x
      starved := !s.2.rest.isEmpty && !v
      waits := M.waits s.1 i.env v x }
  next s i :=
    let v := offered s.2 i.offer
    let x := front s.2
    (M.next s.1 i.env v x i.ready, s.2.next v (M.sinkReady s.1 i.env v x i.ready))

/-- The beat taken from the sink in a cycle. -/
def taken (c : Drive ε × Wires α β) : List α := beat c.2.sinkValid c.2.sinkReady c.2.sinkData

/-- The beat given out in a cycle. -/
def given (c : Drive ε × Wires α β) : List β := beat c.2.sourceValid c.1.ready c.2.source

/-- The handshake of the source in a cycle. -/
def handshake (c : Drive ε × Wires α β) : Bool × Bool × β :=
  (c.2.sourceValid, c.1.ready, c.2.source)

/-- Nobody waits for the sink, the source or the environment. -/
def free (c : Drive ε × Wires α β) : Bool :=
  !c.2.starved && (!c.2.sourceValid || c.1.ready) && !c.2.waits

/-- A cycle of surroundings that always offer and are always ready. -/
def eager (e : ε) : Drive ε := ⟨true, e, true⟩

/-- In front of eager surroundings every cycle is free. -/
theorem countP_eager {M : Stage ε α β} {e : ε} (hwaits : ∀ s v x, M.waits s e v x = false)
    (p : M.State × Chan α) (n : Nat) :
    (M.driven.trace p (List.replicate n (eager e))).countP free = n := by
  induction n generalizing p with
  | zero => rfl
  | succ n ih =>
    have hfree : free (eager e, M.driven.out p (eager e)) = true := by
      cases hrest : p.2.rest <;> simp [free, eager, driven, offered, hrest, hwaits]
    rw [List.replicate_succ, Machine.trace_cons, countP_cons_toNat, ih, hfree]
    rfl

end Stage

namespace Simulation

variable [Inhabited α] {M : Stage ε α β}

open Stage

theorem offers_driven {c : Chan α} (h : c.held = true → c.rest ≠ []) (offer : Bool) :
    c.Offers (offered c offer) (front c) := by
  unfold offered front
  cases hrest : c.rest with
  | nil =>
    refine ⟨fun hheld => absurd hrest (h hheld), fun hvalid => ?_⟩
    simp at hvalid
  | cons x xs => exact ⟨fun hheld => by simp [hheld], fun _ => by rw [hrest]; rfl⟩

/-- The bound pays for a free cycle. -/
theorem free_bound {s : M.State} {c : Chan α} {k k' : Nat} {i : Drive ε}
    (hle : k' ≤ k)
    (hmove : k' < k ∨ k = 0 ∨ c.Starved (offered c i.offer) ∨
      (M.sourceValid s (offered c i.offer) (front c) = true ∧ i.ready = false) ∨
      M.waits s i.env (offered c i.offer) (front c) = true) :
    k = 0 ∨ (free (i, M.driven.out (s, c) i)).toNat + k' ≤ k := by
  cases hfree : free (i, M.driven.out (s, c) i) with
  | false => exact Or.inr (by simpa using hle)
  | true =>
    simp only [free, driven, Bool.and_eq_true, Bool.not_eq_true', Bool.or_eq_true,
      Bool.and_eq_false_imp] at hfree
    obtain ⟨⟨hstarved, hstalled⟩, hwaits⟩ := hfree
    rcases hmove with hlt | hzero | ⟨hrest, hidle⟩ | ⟨hvalid, hready⟩ | hwaits'
    · refine Or.inr ?_
      rw [Bool.toNat_true]
      omega
    · exact Or.inl hzero
    · simp [hidle, hrest] at hstarved
    · simp [hvalid, hready] at hstalled
    · rw [hwaits] at hwaits'
      cases hwaits'

/-- **A stage turns its stream into the other one.**  In every run what was taken and is
still to come is the stream that comes in, what was given out and is still to go is the
one that goes out, and the free cycles so far are bounded as long as there is something
to do. -/
theorem run (A : Simulation M) {s : M.State} {c : Chan α} {d : Chan β} {k : Nat}
    (hrel : A.rel s c d k) (hheld : c.held = true → c.rest ≠ []) (is : List (Drive ε)) :
    ∃ d' k', A.rel (M.driven.run (s, c) is).1 (M.driven.run (s, c) is).2 d' k' ∧
      moved taken (M.driven.trace (s, c) is) ++ (M.driven.run (s, c) is).2.rest = c.rest ∧
      moved given (M.driven.trace (s, c) is) ++ d'.rest = d.rest ∧
      (k' = 0 ∨ (M.driven.trace (s, c) is).countP free + k' ≤ k) := by
  induction is generalizing s c d k with
  | nil => exact ⟨d, k, hrel, rfl, rfl, Or.inr (by simp)⟩
  | cons i is ih =>
    have hv := offers_driven hheld i.offer
    have hd := A.offers hrel hv
    obtain ⟨k₁, hrel₁, hle, hmove⟩ := A.step i.env i.ready hrel hv
    obtain ⟨d', k', hrel', htaken, hgiven, hcount⟩ := ih hrel₁ hv.rest_ne_nil
    refine ⟨d', k', hrel', ?_, ?_, ?_⟩
    · rw [Machine.trace_cons, moved_cons, List.append_assoc]
      exact (congrArg _ htaken).trans (hv.rest_next _)
    · rw [Machine.trace_cons, moved_cons, List.append_assoc]
      exact (congrArg _ hgiven).trans (hd.rest_next _)
    · rw [Machine.trace_cons, countP_cons_toNat]
      have hfree := free_bound hle hmove
      change k' = 0 ∨ (M.driven.trace (M.driven.next (s, c) i) is).countP free + k' ≤ k₁ at hcount
      omega

end Simulation

end UsbSniffer.Sync
