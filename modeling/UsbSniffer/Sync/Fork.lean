/-
  Sync/Fork.lean --- stages beside each other, with a dispatcher in front of them and an
  arbiter behind.

  The dispatcher gives each packet to one of the stages, and the arbiter lets their packets
  pass one by one.  A stage may give the packets that it makes while it still takes the one
  they come from, so that it holds the arbiter and waits for the dispatcher; what keeps
  the whole from standing still is that the dispatcher, if it waits for another stage, has
  no packet of this one under way.
-/
import Mathlib.Algebra.BigOperators.Fin
import Mathlib.Data.List.Infix
import Mathlib.Algebra.Order.BigOperators.Group.Finset
import UsbSniffer.Sync.Merge

set_option autoImplicit false

namespace UsbSniffer.Sync

/-- Stages side by side, between a dispatcher and an arbiter. -/
structure Fork (n : Nat) (ε α β : Type) where
  stages : Fin (n + 1) → Stage ε α β
  Dispatcher : Dispatcher (Fin (n + 1))
  Arbiter : Arbiter n
  /-- The stage that a packet goes to, from any of its words. -/
  sel : α → Fin (n + 1)
  sinkLast : α → Bool
  sourceLast : β → Bool

namespace Fork

variable {n : Nat} {ε α β : Type} [Inhabited α] (F : Fork n ε α β)

/-- The registers of the stages, the dispatcher and the arbiter. -/
structure State where
  stages : ∀ u, (F.stages u).State
  dispatcher : F.Dispatcher.State
  arbiter : F.Arbiter.State

/-- The registers at a reset. -/
def init : F.State where
  stages u := (F.stages u).init
  dispatcher := F.Dispatcher.init
  arbiter := F.Arbiter.init

/-- The stage that gives its beats. -/
def grant (s : F.State) : Fin (n + 1) := F.Arbiter.grant s.arbiter

/-- The stage that takes a word. -/
def route (s : F.State) (x : α) : Fin (n + 1) := F.Dispatcher.route s.dispatcher (F.sel x)

/-- `sink.valid` of a stage. -/
def valid (s : F.State) (v : Bool) (x : α) (u : Fin (n + 1)) : Bool :=
  v && decide (F.route s x = u)

/-- The beat on the sink of a stage, which is zero when the sink is not connected. -/
def sink (s : F.State) (x : α) (u : Fin (n + 1)) : α := if F.route s x = u then x else default

/-- `source.valid` of a stage. -/
def offer (s : F.State) (v : Bool) (x : α) (u : Fin (n + 1)) : Bool :=
  (F.stages u).sourceValid (s.stages u) (F.valid s v x u) (F.sink s x u)

/-- The beat that a stage shows. -/
def source (s : F.State) (x : α) (u : Fin (n + 1)) : β :=
  (F.stages u).source (s.stages u) (F.sink s x u)

/-- `source.ready` of a stage. -/
def ready (s : F.State) (sourceReady : Bool) (u : Fin (n + 1)) : Bool :=
  decide (u = F.grant s) && sourceReady

/-- `sink.ready` of a stage. -/
def accepts (s : F.State) (e : ε) (v : Bool) (x : α) (sourceReady : Bool) (u : Fin (n + 1)) :
    Bool :=
  (F.stages u).sinkReady (s.stages u) e (F.valid s v x u) (F.sink s x u)
    (F.ready s sourceReady u)

/-- What the dispatcher sees of the word in front. -/
def sinkPort (s : F.State) (e : ε) (v : Bool) (x : α) (sourceReady : Bool) : PortStatus :=
  ⟨v, F.sinkLast x, F.accepts s e v x sourceReady (F.route s x)⟩

/-- What the arbiter sees of a stage. -/
def sourcePort (s : F.State) (v : Bool) (x : α) (sourceReady : Bool) (u : Fin (n + 1)) :
    PortStatus :=
  ⟨F.offer s v x u, F.sourceLast (F.source s x u), F.ready s sourceReady u⟩

/-- The clock edge. -/
def next (s : F.State) (e : ε) (v : Bool) (x : α) (sourceReady : Bool) : F.State where
  stages u := (F.stages u).next (s.stages u) e (F.valid s v x u) (F.sink s x u)
    (F.ready s sourceReady u)
  dispatcher := F.Dispatcher.next s.dispatcher (F.sel x) (F.sinkPort s e v x sourceReady)
  arbiter := F.Arbiter.next s.arbiter (F.sourcePort s v x sourceReady)

/-- All of it as one stage. -/
def stage : Stage ε α β where
  State := F.State
  init := F.init
  sourceValid s v x := F.offer s v x (F.grant s)
  source s x := F.source s x (F.grant s)
  sinkReady s e v x ready := F.accepts s e v x ready (F.route s x)
  next := F.next
  waits s e v x := decide (∃ u,
    (F.stages u).waits (s.stages u) e (F.valid s v x u) (F.sink s x u) = true)

variable {F}

/-! ## What is in front -/

/-- The words of a packet go to the same stage. -/
def Steady (F : Fork n ε α β) (xs : List α) : Prop :=
  xs.IsChain fun x y => F.sinkLast x = true ∨ F.sel y = F.sel x

/-- Whole packets come, and the first one goes on with the packet under way. -/
structure Routed (s : F.State) (c : Chan α) : Prop where
  closed : Closed F.sinkLast c.rest
  steady : Steady F c.rest
  ongoing : ∀ u, F.Dispatcher.ongoing s.dispatcher = some u →
    ∃ x xs, c.rest = x :: xs ∧ F.sel x = u

omit [Inhabited α] in
/-- All words of a packet go where its first one goes. -/
theorem Steady.sel_packet {x : α} {xs : List α} (h : Steady F (x :: xs))
    (hpacket : IsPacket F.sinkLast (x :: xs)) : ∀ y ∈ x :: xs, F.sel y = F.sel x := by
  induction xs generalizing x with
  | nil => exact fun y hy => congrArg F.sel (List.mem_singleton.mp hy)
  | cons z zs ih =>
    obtain ⟨hstep, hsteady⟩ := List.isChain_cons_cons.mp h
    have hz : F.sel z = F.sel x := hstep.resolve_left (by simp [hpacket.1])
    intro y hy
    rcases List.mem_cons.mp hy with rfl | hy
    · rfl
    · exact (ih hsteady hpacket.2 y hy).trans hz

omit [Inhabited α] in
/-- Words that go to the same stage come to it, and to no other one. -/
theorem filter_sel {xs : List α} {u : Fin (n + 1)} (h : ∀ x ∈ xs, F.sel x = u) (w : Fin (n + 1)) :
    (xs.filter fun x => F.sel x = w) = if u = w then xs else [] := by
  split_ifs with hw
  · exact List.filter_eq_self.mpr fun x hx => decide_eq_true ((h x hx).trans hw)
  · exact List.filter_eq_nil_iff.mpr fun x hx => by simp [h x hx, hw]

omit [Inhabited α] in
/-- Packets that go each to one stage. -/
theorem Steady.flatMap {γ : Type} {f : γ → List α} {xs : List γ}
    (h : ∀ x ∈ xs, f x = [] ∨
      (IsPacket F.sinkLast (f x) ∧ ∃ u, ∀ y ∈ f x, F.sel y = u)) : Steady F (xs.flatMap f) := by
  induction xs with
  | nil => exact List.isChain_nil
  | cons x xs ih =>
    obtain ⟨hx, hxs⟩ := List.forall_mem_cons.mp h
    rw [List.flatMap_cons]
    rcases hx with hnil | ⟨hpacket, u, hu⟩
    · rw [hnil]
      exact ih hxs
    · refine List.IsChain.append ?_ (ih hxs) fun y hy z _ => Or.inl ?_
      · refine (List.pairwise_of_forall_mem_list fun y hy z hz => ?_).isChain
        exact Or.inr ((hu z hz).trans (hu y hy).symm)
      · obtain ⟨hne, rfl⟩ := List.mem_getLast?_eq_getLast hy
        exact Closed.of_packet hpacket hne

namespace Routed

variable {s : F.State} {c : Chan α} {v : Bool} {x : α}

omit [Inhabited α] in
theorem route_eq (h : Routed s c) (hv : c.Offers true x) : F.route s x = F.sel x := by
  unfold route Dispatcher.route
  cases hongoing : F.Dispatcher.ongoing s.dispatcher with
  | none => rfl
  | some u =>
    obtain ⟨y, ys, hrest, hsel⟩ := h.ongoing u hongoing
    have hfront := hv.front rfl
    rw [hrest] at hfront
    rw [← Option.some.inj hfront]
    exact hsel.symm

theorem next (h : Routed s c) (hv : c.Offers v x) (e : ε) (ready : Bool) :
    Routed (F.next s e v x ready) (c.next v (F.accepts s e v x ready (F.route s x))) := by
  cases hfire : v && F.accepts s e v x ready (F.route s x) with
  | false =>
    have hrest : (c.next v (F.accepts s e v x ready (F.route s x))).rest = c.rest := by
      simp [Chan.next, hfire]
    refine ⟨hrest ▸ h.closed, hrest ▸ h.steady, fun u hu => ?_⟩
    rw [hrest]
    exact h.ongoing u ((F.Dispatcher.ongoing_quiet hfire).symm.trans hu)
  | true =>
    obtain ⟨rfl, haccepts⟩ := Bool.and_eq_true_iff.mp hfire
    have hrest : (c.next true (F.accepts s e true x ready (F.route s x))).rest = c.rest.tail := by
      simp [Chan.next, haccepts]
    refine ⟨hrest ▸ h.closed.tail, hrest ▸ h.steady.tail, fun u hu => ?_⟩
    rw [hrest]
    cases hlast : F.sinkLast x with
    | true =>
      have hnone := (F.Dispatcher.ongoing_last hfire hlast).symm.trans hu
      cases hnone
    | false =>
      have hroute := Option.some.inj ((F.Dispatcher.ongoing_more hfire hlast).symm.trans hu)
      have hclosed := h.closed
      have hsteady := h.steady
      rw [hv.rest_eq] at hclosed hsteady
      obtain ⟨y, ys, hys⟩ := List.exists_cons_of_ne_nil (hclosed.ne_nil_of_cons hlast)
      rw [hys] at hsteady ⊢
      have hsel := (List.isChain_cons_cons.mp hsteady).1.resolve_left (by simp [hlast])
      exact ⟨y, ys, rfl, hsel.trans ((h.route_eq hv).symm.trans hroute)⟩

end Routed

/-! ## The stages -/

/-- What comes to one of the stages. -/
def chanTo (F : Fork n ε α β) (c : Chan α) (u : Fin (n + 1)) : Chan α where
  rest := c.rest.filter fun x => F.sel x = u
  held := c.held && c.rest.head?.any fun x => F.sel x = u

/-- Each stage turns what comes to it into whole packets. -/
structure Along (s : F.State) (c : Chan α) (S : ∀ u, Simulation (F.stages u))
    (ds : Fin (n + 1) → Chan β) (ks : Fin (n + 1) → Nat) : Prop where
  rel : ∀ u, (S u).rel (s.stages u) (F.chanTo c u) (ds u) (ks u)
  closed : ∀ u, Closed F.sourceLast (ds u).rest
  begun : ∀ u, F.Arbiter.ongoing s.arbiter u = true → (ds u).rest ≠ []

omit [Inhabited α] in
/-- A stage is connected when the front is for it. -/
theorem Routed.valid_eq {s : F.State} {c : Chan α} {v : Bool} {x : α} (h : Routed s c)
    (hv : c.Offers v x) (u : Fin (n + 1)) : F.valid s v x u = (v && decide (F.sel x = u)) := by
  unfold valid
  cases v with
  | false => rfl
  | true => rw [h.route_eq hv]

theorem Routed.offers_to {s : F.State} {c : Chan α} {v : Bool} {x : α} (h : Routed s c)
    (hv : c.Offers v x) (u : Fin (n + 1)) :
    (F.chanTo c u).Offers (F.valid s v x u) (F.sink s x u) := by
  rw [h.valid_eq hv u]
  constructor
  · intro hheld
    obtain ⟨hc, hhead⟩ := Bool.and_eq_true_iff.mp hheld
    obtain rfl := hv.kept hc
    rw [hv.front rfl] at hhead
    simpa using hhead
  · intro hvalid
    obtain ⟨rfl, hsel⟩ := Bool.and_eq_true_iff.mp hvalid
    have hrest := hv.rest_eq
    unfold chanTo sink
    rw [h.route_eq hv, if_pos (of_decide_eq_true hsel), hrest]
    simp [of_decide_eq_true hsel]

/-- What comes to a stage moves with it. -/
theorem Routed.chanTo_next {s : F.State} {c : Chan α} {v : Bool} {x : α} (h : Routed s c)
    (hv : c.Offers v x) (e : ε) (ready : Bool) (u : Fin (n + 1)) :
    F.chanTo (c.next v (F.accepts s e v x ready (F.route s x))) u =
      (F.chanTo c u).next (F.valid s v x u) (F.accepts s e v x ready u) := by
  rw [h.valid_eq hv u]
  cases v with
  | false => rfl
  | true =>
    have hroute := h.route_eq hv
    have hrest := hv.rest_eq
    unfold chanTo Chan.next
    by_cases hu : F.sel x = u
    · -- the stage in front of which the word is
      rw [hroute, hu, hrest]
      cases F.accepts s e true x ready u <;> simp [hu]
    · rw [hroute, hrest]
      cases F.accepts s e true x ready (F.sel x) <;> simp [hu]

/-- The bounds of the stages in a cycle, as those of a `Simulation`. -/
def Moved (s : F.State) (c : Chan α) (e : ε) (v : Bool) (x : α) (ready : Bool)
    (ks ks' : Fin (n + 1) → Nat) : Prop :=
  ∀ u, ks' u ≤ ks u ∧ (ks' u < ks u ∨ ks u = 0 ∨
    (F.chanTo c u).Starved (F.valid s v x u) ∨
    (F.offer s v x u = true ∧ F.ready s ready u = false) ∨
    (F.stages u).waits (s.stages u) e (F.valid s v x u) (F.sink s x u) = true)

/-- A cycle of the stages. -/
theorem Along.next {s : F.State} {c : Chan α} {v : Bool} {x : α}
    {S : ∀ u, Simulation (F.stages u)} {ds : Fin (n + 1) → Chan β} {ks : Fin (n + 1) → Nat}
    (h : Along s c S ds ks) (hrouted : Routed s c) (hv : c.Offers v x) (e : ε) (ready : Bool) :
    ∃ ks', Along (F.next s e v x ready) (c.next v (F.accepts s e v x ready (F.route s x))) S
        (fun u => (ds u).next (F.offer s v x u) (F.ready s ready u)) ks' ∧
      Moved s c e v x ready ks ks' := by
  choose ks' hrel hle hmove using fun u =>
    (S u).step e (F.ready s ready u) (h.rel u) (hrouted.offers_to hv u)
  refine ⟨ks', ⟨fun u => ?_, fun u => ?_, fun u hongoing => ?_⟩, fun u => ⟨hle u, hmove u⟩⟩
  · rw [hrouted.chanTo_next hv]
    exact hrel u
  · unfold Chan.next
    dsimp only
    split_ifs
    · exact (h.closed u).tail
    · exact h.closed u
  · have hd := (S u).offers (h.rel u) (hrouted.offers_to hv u)
    change (ds u).Offers (F.offer s v x u) (F.source s x u) at hd
    change F.Arbiter.ongoing (F.Arbiter.next s.arbiter (F.sourcePort s v x ready)) u = true
      at hongoing
    rw [F.Arbiter.ongoing_next] at hongoing
    simp only [PortStatus.request, PortStatus.ends, sourcePort, Bool.and_eq_true,
      Bool.or_eq_true, Bool.not_eq_true', Bool.and_eq_false_imp] at hongoing
    obtain ⟨hunder, hends⟩ := hongoing
    have hne : (ds u).rest ≠ [] := by
      rcases hunder with hoffer | hbegun
      · intro hnil
        have hfront := hd.front hoffer
        rw [hnil] at hfront
        cases hfront
      · exact h.begun u hbegun
    unfold Chan.next
    dsimp only
    split_ifs with hfire
    · -- a word is taken, and it is not the last one of its packet
      obtain ⟨hoffer, hready⟩ := Bool.and_eq_true_iff.mp hfire
      rw [hoffer] at hd
      have hclosed := h.closed u
      rw [hd.rest_eq] at hclosed
      refine hclosed.ne_nil_of_cons ?_
      rw [← Bool.not_eq_true]
      intro hlast
      rw [hends ⟨hoffer, hlast⟩] at hready
      cases hready
    · exact hne

/-! ## Cuts -/

/-- The packets that come up to some place. -/
structure Cut (s : F.State) (c k : Chan α) : Prop where
  routed : Routed s k
  upTo : k.rest <+: c.rest
  held : k.held = c.held
  rest_of_held : k.held = true → k.rest ≠ []

omit [Inhabited α] in
/-- The front is that of the cut, when it is not used up. -/
theorem Cut.offers {s : F.State} {c k : Chan α} {v : Bool} {x : α} (h : Cut s c k)
    (hv : c.Offers v x) (hne : v = true → k.rest ≠ []) : k.Offers v x where
  kept hheld := hv.kept (h.held ▸ hheld)
  front hvalid := by
    obtain ⟨y, ys, hrest⟩ := List.exists_cons_of_ne_nil (hne hvalid)
    obtain ⟨zs, hzs⟩ := h.upTo
    have hfront := hv.front hvalid
    rw [← hzs, hrest] at hfront
    rw [hrest]
    exact hfront

/-- A cut goes on as one. -/
theorem Cut.next {s : F.State} {c k : Chan α} {v : Bool} {x : α} (h : Cut s c k)
    (hv : c.Offers v x) (hne : v = true → k.rest ≠ []) (e : ε) (ready : Bool) :
    Cut (F.next s e v x ready) (c.next v (F.accepts s e v x ready (F.route s x)))
      (k.next v (F.accepts s e v x ready (F.route s x))) := by
  have hk := h.offers hv hne
  refine ⟨h.routed.next hk e ready, ?_, rfl, hk.rest_ne_nil⟩
  obtain ⟨zs, hzs⟩ := h.upTo
  unfold Chan.next
  dsimp only
  split_ifs with hfire
  · have hk' := hne (Bool.and_eq_true_iff.mp hfire).1
    rw [← hzs, List.tail_append_of_ne_nil hk']
    exact List.prefix_append _ _
  · exact h.upTo

omit [Inhabited α] in
theorem Routed.of_prefix {s : F.State} {c k : Chan α} (h : Routed s c) (hupTo : k.rest <+: c.rest)
    (hclosed : Closed F.sinkLast k.rest)
    (hnone : k.rest = [] → F.Dispatcher.ongoing s.dispatcher = none) : Routed s k := by
  obtain ⟨zs, hzs⟩ := hupTo
  refine ⟨hclosed, (hzs ▸ h.steady).left_of_append, fun u hu => ?_⟩
  cases hrest : k.rest with
  | nil =>
    rw [hnone hrest] at hu
    cases hu
  | cons y ys =>
    obtain ⟨z, zs', hc, hsel⟩ := h.ongoing u hu
    rw [← hzs, hrest] at hc
    exact ⟨y, ys, rfl, (List.cons.inj hc).1 ▸ hsel⟩

omit [Inhabited α] in
/-- Between packets the dispatcher is free. -/
theorem Routed.ongoing_of_nil {s : F.State} {k : Chan α} (h : Routed s k) (hnil : k.rest = []) :
    F.Dispatcher.ongoing s.dispatcher = none := by
  cases hongoing : F.Dispatcher.ongoing s.dispatcher with
  | none => rfl
  | some u =>
    obtain ⟨x, xs, hrest, -⟩ := h.ongoing u hongoing
    rw [hnil] at hrest
    cases hrest

/-- Behind a cycle every cut is what is left of one. -/
theorem Routed.exists_cut {s : F.State} {c k' : Chan α} {v : Bool} {x : α} (h : Routed s c)
    (hv : c.Offers v x) (e : ε) (ready : Bool)
    (hk' : Cut (F.next s e v x ready) (c.next v (F.accepts s e v x ready (F.route s x))) k') :
    ∃ k, Cut s c k ∧ (v = true → k.rest ≠ []) ∧
      k.next v (F.accepts s e v x ready (F.route s x)) = k' := by
  have hnone := hk'.routed.ongoing_of_nil
  have hheld := hk'.held
  cases hfire : v && F.accepts s e v x ready (F.route s x) with
  | false =>
    have hrest : (c.next v (F.accepts s e v x ready (F.route s x))).rest = c.rest := by
      simp [Chan.next, hfire]
    have hupTo := hk'.upTo
    rw [hrest] at hupTo
    have hquiet : F.Dispatcher.ongoing (F.next s e v x ready).dispatcher =
        F.Dispatcher.ongoing s.dispatcher := F.Dispatcher.ongoing_quiet hfire
    -- a word that is offered and not taken is held
    have hne : v = true → k'.rest ≠ [] := by
      rintro rfl
      refine hk'.rest_of_held (hheld.trans ?_)
      simpa [Chan.next] using hfire
    refine ⟨⟨k'.rest, c.held⟩, ⟨h.of_prefix hupTo hk'.routed.closed fun hnil => ?_, hupTo, rfl,
      fun hc => hne (hv.kept hc)⟩, hne, ?_⟩
    · exact hquiet.symm.trans (hnone hnil)
    · obtain ⟨rest, held⟩ := k'
      unfold Chan.next
      rw [hfire]
      exact congrArg (Chan.mk rest) hheld.symm
  | true =>
    obtain ⟨rfl, haccepts⟩ := Bool.and_eq_true_iff.mp hfire
    have hrest : (c.next true (F.accepts s e true x ready (F.route s x))).rest = c.rest.tail := by
      simp [Chan.next, haccepts]
    have hupTo := hk'.upTo
    rw [hrest] at hupTo
    have hpre : x :: k'.rest <+: c.rest := by
      rw [hv.rest_eq]
      exact List.cons_prefix_cons.mpr ⟨rfl, hupTo⟩
    -- a packet does not end before its last word
    have hclosed : Closed F.sinkLast (x :: k'.rest) := by
      by_cases hnil : k'.rest = []
      · rw [hnil, Closed.singleton]
        by_contra hlast
        have hmore : F.Dispatcher.ongoing (F.next s e true x ready).dispatcher =
            some (F.route s x) :=
          F.Dispatcher.ongoing_more hfire (eq_false_of_ne_true hlast)
        cases hmore.symm.trans (hnone hnil)
      · exact (Closed.cons_iff hnil x).mpr hk'.routed.closed
    refine ⟨⟨x :: k'.rest, c.held⟩, ⟨h.of_prefix hpre hclosed fun hnil => ?_, hpre, rfl,
      fun _ => List.cons_ne_nil x _⟩, fun _ => List.cons_ne_nil x _, ?_⟩
    · cases hnil
    · obtain ⟨rest, held⟩ := k'
      rw [haccepts] at hheld ⊢
      exact congrArg (Chan.mk rest) hheld.symm

/-- The packets up to any place are made into whole packets, in `bound` cycles. -/
def Follows (s : F.State) (c : Chan α) (bound : Nat) : Prop :=
  ∀ k, Cut s c k → ∃ S ds ks, Along s k S ds ks ∧ ∑ u, ks u ≤ bound

theorem Follows.next {s : F.State} {c : Chan α} {v : Bool} {x : α} {bound : Nat}
    (h : Follows s c bound) (hrouted : Routed s c) (hv : c.Offers v x) (e : ε) (ready : Bool) :
    Follows (F.next s e v x ready) (c.next v (F.accepts s e v x ready (F.route s x))) bound := by
  intro k' hk'
  obtain ⟨k, hk, hne, rfl⟩ := hrouted.exists_cut hv e ready hk'
  obtain ⟨S, ds, ks, halong, hsum⟩ := h k hk
  obtain ⟨ks', halong', hmove⟩ := halong.next hk.routed (hk.offers hv hne) e ready
  exact ⟨S, _, ks', halong', le_trans (Finset.sum_le_sum fun u _ => (hmove u).1) hsum⟩

/-! ## Moves -/

/-- A cycle in which nobody waits brings the stages on, unless they have nothing to do or the
one with the grant has not; then the grant goes to one whose packet is under way. -/
theorem Along.moves {s : F.State} {c : Chan α} {v : Bool} {x : α}
    {S : ∀ u, Simulation (F.stages u)} {ds : Fin (n + 1) → Chan β} {ks ks' : Fin (n + 1) → Nat}
    (h : Along s c S ds ks) (hrouted : Routed s c) (hv : c.Offers v x) (e : ε) (ready : Bool)
    (hmove : Moved s c e v x ready ks ks')
    (hsel : v = true → ∀ y ∈ c.rest, F.sel y = F.sel x) (hstarved : ¬ c.Starved v)
    (hstalled : ¬ (F.offer s v x (F.grant s) = true ∧ ready = false))
    (hwaits : ¬ F.stage.waits s e v x = true) :
    ∑ u, ks' u < ∑ u, ks u ∨ (∀ u, ks u = 0) ∨
      (F.Arbiter.ongoing s.arbiter (F.grant s) = false ∧
        F.Arbiter.ongoing (F.next s e v x ready).arbiter (F.grant (F.next s e v x ready)) =
          true) := by
  by_cases hlt : ∃ u, ks' u < ks u
  · obtain ⟨u, hu⟩ := hlt
    exact Or.inl (Finset.sum_lt_sum (fun w _ => (hmove w).1) ⟨u, Finset.mem_univ u, hu⟩)
  · refine Or.inr ?_
    have hblocked : ∀ u, ks u = 0 ∨ (F.offer s v x u = true ∧ F.ready s ready u = false) := by
      intro u
      rcases (hmove u).2 with hu | hzero | ⟨hrest, hidle⟩ | hoffer | hslow
      · exact absurd ⟨u, hu⟩ hlt
      · exact Or.inl hzero
      · -- what comes to the stage is in front of it
        obtain ⟨y, hy⟩ := List.exists_mem_of_ne_nil _ hrest
        obtain ⟨hmem, hu⟩ := List.mem_filter.mp hy
        rw [hrouted.valid_eq hv] at hidle
        cases v with
        | false => exact absurd ⟨List.ne_nil_of_mem hmem, rfl⟩ hstarved
        | true => simp [← hsel rfl y hmem, of_decide_eq_true hu] at hidle
      · exact Or.inr hoffer
      · exact absurd (decide_eq_true ⟨u, hslow⟩) hwaits
    have hgrant : ks (F.grant s) = 0 := by
      refine (hblocked _).resolve_right ?_
      rintro ⟨hoffer, hready⟩
      exact hstalled ⟨hoffer, by simpa [Fork.ready] using hready⟩
    by_cases hzero : ∀ u, ks u = 0
    · exact Or.inl hzero
    · obtain ⟨w, hw⟩ := not_forall.mp hzero
      obtain ⟨hoffer, hready⟩ := (hblocked w).resolve_left hw
      have hrel := h.rel (F.grant s)
      rw [hgrant] at hrel
      refine Or.inr ⟨?_, F.Arbiter.moves (u := w) ?_⟩
      · rw [← Bool.not_eq_true]
        exact fun hongoing => h.begun _ hongoing ((S _).done hrel).2
      · simp [PortStatus.request, PortStatus.ends, sourcePort, hoffer, hready]

omit [Inhabited α] in
theorem Along.rest_of_zero {s : F.State} {c : Chan α} {S : ∀ u, Simulation (F.stages u)}
    {ds : Fin (n + 1) → Chan β} {ks : Fin (n + 1) → Nat} (h : Along s c S ds ks)
    (hzero : ∀ u, ks u = 0) : c.rest = [] ∧ ∀ u, (ds u).rest = [] := by
  have hdone := fun u => (S u).done (hzero u ▸ h.rel u)
  refine ⟨?_, fun u => (hdone u).2⟩
  cases hrest : c.rest with
  | nil => rfl
  | cons x xs =>
    have hx := (hdone (F.sel x)).1
    unfold chanTo at hx
    simp [hrest] at hx

/-! ## One packet after the other -/

/-- What is to be done: the packets behind the one in front, and for both that one and the
whole what the stages have left of it. -/
def work (c k : Chan α) (bound : Nat) (ks ls : Fin (n + 1) → Nat) : Nat :=
  (c.rest.length - k.rest.length) * (bound + 1) + ∑ u, ks u + ∑ u, ls u

/-- The cut `k` is what is left of the packet in front. -/
structure Tracked (S : ∀ u, Simulation (F.stages u)) (bound : Nat) (s : F.State) (c : Chan α)
    (ds : Fin (n + 1) → Chan β) (ls : Fin (n + 1) → Nat) (k : Chan α)
    (ks : Fin (n + 1) → Nat) : Prop where
  routed : Routed s c
  follows : Follows s c bound
  whole : Along s c S ds ls
  cut : Cut s c k
  packet : k.rest = [] ∨ IsPacket F.sinkLast k.rest
  along : ∃ S' ds', Along s k S' ds' ks
  sum_le : ∑ u, ks u ≤ bound

/-- What becomes of it in a cycle.  When nobody waits the work gets less, or the grant goes to
a packet that is under way. -/
def Goes (S : ∀ u, Simulation (F.stages u)) (bound : Nat) (s : F.State) (c : Chan α)
    (ds : Fin (n + 1) → Chan β) (ls : Fin (n + 1) → Nat) (k : Chan α) (ks : Fin (n + 1) → Nat)
    (e : ε) (v : Bool) (x : α) (ready : Bool) : Prop :=
  ∃ k' ks' ls', Tracked S bound (F.next s e v x ready)
      (c.next v (F.accepts s e v x ready (F.route s x)))
      (fun u => (ds u).next (F.offer s v x u) (F.ready s ready u)) ls' k' ks' ∧
    work (c.next v (F.accepts s e v x ready (F.route s x))) k' bound ks' ls' ≤
      work c k bound ks ls ∧
    (¬ c.Starved v → ¬ (F.offer s v x (F.grant s) = true ∧ ready = false) →
      ¬ F.stage.waits s e v x = true →
      work (c.next v (F.accepts s e v x ready (F.route s x))) k' bound ks' ls' <
          work c k bound ks ls ∨ work c k bound ks ls = 0 ∨
        (F.Arbiter.ongoing s.arbiter (F.grant s) = false ∧
          F.Arbiter.ongoing (F.next s e v x ready).arbiter (F.grant (F.next s e v x ready)) =
            true))

namespace Tracked

variable {S : ∀ u, Simulation (F.stages u)} {bound : Nat} {s : F.State} {c k : Chan α}
  {ds : Fin (n + 1) → Chan β} {ks ls : Fin (n + 1) → Nat} {v : Bool} {x : α}

omit [Inhabited α] in
/-- When the packet in front is used up, there is the next one. -/
theorem exists_packet (h : Tracked S bound s c ds ls k ks) (hv : c.Offers true x)
    (hnil : k.rest = []) :
    ∃ k' ks', Tracked S bound s c ds ls k' ks' ∧ k'.rest ≠ [] ∧
      work c k' bound ks' ls < work c k bound ks ls := by
  have hne : c.rest ≠ [] := by
    rw [hv.rest_eq]
    exact List.cons_ne_nil _ _
  obtain ⟨p, rest, hp, -, hrest⟩ := h.routed.closed.exists_packet hne
  have hupTo : p <+: c.rest := ⟨rest, hrest.symm⟩
  have hcut : Cut s c ⟨p, c.held⟩ :=
    ⟨h.routed.of_prefix hupTo (Closed.of_packet hp) fun hnil => absurd hnil hp.ne_nil, hupTo, rfl,
      fun _ => hp.ne_nil⟩
  obtain ⟨S', ds', ks', halong, hsum⟩ := h.follows _ hcut
  refine ⟨_, ks', ⟨h.routed, h.follows, h.whole, hcut, Or.inr hp, ⟨S', ds', halong⟩, hsum⟩,
    hp.ne_nil, ?_⟩
  have hpos := List.length_pos_iff.mpr hp.ne_nil
  have hlength : c.rest.length = p.length + rest.length := by rw [hrest, List.length_append]
  have hmul : c.rest.length * (bound + 1) =
      p.length * (bound + 1) + rest.length * (bound + 1) := by rw [hlength, Nat.add_mul]
  have hle : bound + 1 ≤ p.length * (bound + 1) := Nat.le_mul_of_pos_left _ hpos
  unfold work
  rw [hnil, List.length_nil, Nat.sub_zero, hmul]
  dsimp only
  rw [hlength, Nat.add_sub_cancel_left]
  omega

omit [Inhabited α] in
/-- The number of words behind the packet in front stays. -/
theorem length_next (h : Tracked S bound s c ds ls k ks) (hv : c.Offers v x)
    (hne : v = true → k.rest ≠ []) (ready : Bool) :
    (c.next v ready).rest.length - (k.next v ready).rest.length =
      c.rest.length - k.rest.length := by
  unfold Chan.next
  dsimp only
  split_ifs with hfire
  · obtain ⟨rfl, -⟩ := Bool.and_eq_true_iff.mp hfire
    rw [hv.length_eq, (h.cut.offers hv hne).length_eq, Nat.add_sub_add_right]
  · rfl

omit [Inhabited α] in
theorem packet_next (h : Tracked S bound s c ds ls k ks) (ready : Bool) :
    (k.next v ready).rest = [] ∨ IsPacket F.sinkLast (k.next v ready).rest := by
  unfold Chan.next
  dsimp only
  split_ifs
  · rcases h.packet with hnil | hpacket
    · exact Or.inl (by rw [hnil]; rfl)
    · cases hrest : k.rest with
      | nil => exact Or.inl rfl
      | cons y ys =>
        cases ys with
        | nil => exact Or.inl rfl
        | cons z zs =>
          rw [hrest] at hpacket
          exact Or.inr hpacket.2
  · exact h.packet

/-- A cycle in which a word of the packet in front may be taken. -/
theorem next_of_packet (h : Tracked S bound s c ds ls k ks) (hv : c.Offers v x)
    (hne : v = true → k.rest ≠ []) (e : ε) (ready : Bool) :
    Goes S bound s c ds ls k ks e v x ready := by
  have hk := h.cut.offers hv hne
  obtain ⟨S', ds', halong⟩ := h.along
  obtain ⟨ls', hwhole', hmoveWhole⟩ := h.whole.next h.routed hv e ready
  obtain ⟨ks', halong', hmove⟩ := halong.next h.cut.routed hk e ready
  have hlength := h.length_next hv hne (F.accepts s e v x ready (F.route s x))
  have hks : ∑ u, ks' u ≤ ∑ u, ks u := Finset.sum_le_sum fun u _ => (hmove u).1
  have hls : ∑ u, ls' u ≤ ∑ u, ls u := Finset.sum_le_sum fun u _ => (hmoveWhole u).1
  have hsum := h.sum_le
  refine ⟨_, ks', ls', ⟨h.routed.next hv e ready, h.follows.next h.routed hv e ready, hwhole',
    h.cut.next hv hne e ready, h.packet_next _, ⟨S', _, halong'⟩, le_trans hks hsum⟩, ?_, ?_⟩
  · unfold work
    rw [hlength]
    omega
  · intro hstarved hstalled hwaits
    unfold work
    rw [hlength]
    have hsel : v = true → ∀ y ∈ k.rest, F.sel y = F.sel x := by
      rintro rfl
      have hpacket := h.packet.resolve_left (hne rfl)
      have hsteady := h.cut.routed.steady
      rw [hk.rest_eq] at hpacket hsteady ⊢
      exact hsteady.sel_packet hpacket
    have hstarvedCut : ¬ k.Starved v := by
      rintro ⟨hrest, hidle⟩
      obtain ⟨zs, hzs⟩ := h.cut.upTo
      refine hstarved ⟨?_, hidle⟩
      rw [← hzs]
      exact List.append_ne_nil_of_left_ne_nil hrest zs
    rcases halong.moves h.cut.routed hk e ready hmove hsel hstarvedCut hstalled hwaits with
      hlt | hzero | hgrant
    · exact Or.inl (by omega)
    · -- the packet in front is through, and there is no other one
      have hidle : v = false := by
        rw [← Bool.not_eq_true]
        exact fun hvalid => hne hvalid (halong.rest_of_zero hzero).1
      have hnil : c.rest = [] := by
        by_contra hrest
        exact hstarved ⟨hrest, hidle⟩
      rcases h.whole.moves h.routed hv e ready hmoveWhole (by rw [hidle]; intro h; cases h)
        hstarved hstalled hwaits with hlt | hzeroWhole | hgrant
      · exact Or.inl (by omega)
      · refine Or.inr (Or.inl ?_)
        simp [hnil, hzero, hzeroWhole]
      · exact Or.inr (Or.inr hgrant)
    · exact Or.inr (Or.inr hgrant)

/-- A cycle. -/
theorem next (h : Tracked S bound s c ds ls k ks) (hv : c.Offers v x) (e : ε) (ready : Bool) :
    Goes S bound s c ds ls k ks e v x ready := by
  by_cases hne : v = true → k.rest ≠ []
  · exact h.next_of_packet hv hne e ready
  · obtain ⟨rfl, hnil⟩ := Classical.not_imp.mp hne
    obtain ⟨k₁, ks₁, h₁, hne₁, hlt⟩ := h.exists_packet hv (not_not.mp hnil)
    obtain ⟨k', ks', ls', h', hle, -⟩ := h₁.next_of_packet hv (fun _ => hne₁) e ready
    exact ⟨k', ks', ls', h', by omega, fun _ _ _ => Or.inl (by omega)⟩

end Tracked

/-! ## The merge -/

/-- A bound on the cycles: the work, the words to give out, and one more for a grant that is to
move. -/
def cycles (s : F.State) (ds : Fin (n + 1) → Chan β) (todo : Nat) : Nat :=
  2 * (todo + ∑ u, (ds u).rest.length) +
    if todo = 0 ∨ F.Arbiter.ongoing s.arbiter (F.grant s) = true then 0 else 1

namespace Tracked

variable {S : ∀ u, Simulation (F.stages u)} {bound : Nat} {s : F.State} {c k : Chan α}
  {ds : Fin (n + 1) → Chan β} {ks ls : Fin (n + 1) → Nat} {v : Bool} {x : α}

omit [Inhabited α] in
theorem rest_of_work (h : Tracked S bound s c ds ls k ks) (hwork : work c k bound ks ls = 0) :
    c.rest = [] ∧ ∀ u, (ds u).rest = [] := by
  unfold work at hwork
  have hsum : ∑ u, ls u = 0 := by omega
  exact h.whole.rest_of_zero fun u => Finset.sum_eq_zero_iff.mp hsum u (Finset.mem_univ u)

/-- What is on the source is the front of the stream that has the grant. -/
theorem offers (h : Tracked S bound s c ds ls k ks) (hv : c.Offers v x) :
    (ds (F.grant s)).Offers (F.offer s v x (F.grant s)) (F.source s x (F.grant s)) :=
  (S _).offers (h.whole.rel (F.grant s)) (h.routed.offers_to hv _)

end Tracked

/-- The packet with the grant keeps it. -/
theorem hold_grant {s : F.State} {v : Bool} {x : α} (e : ε) (ready : Bool)
    (h : (⟨F.offer s v x (F.grant s), F.sourceLast (F.source s x (F.grant s)), ready⟩ :
      PortStatus).request (F.Arbiter.ongoing s.arbiter (F.grant s)) = true) :
    F.grant (F.next s e v x ready) = F.grant s ∧
      F.Arbiter.ongoing (F.next s e v x ready).arbiter (F.grant (F.next s e v x ready)) =
        true := by
  have hport : F.sourcePort s v x ready (F.grant s) =
      ⟨F.offer s v x (F.grant s), F.sourceLast (F.source s x (F.grant s)), ready⟩ := by
    simp [sourcePort, Fork.ready]
  rw [← hport] at h
  obtain ⟨hgrant, hongoing⟩ := F.Arbiter.hold h
  exact ⟨hgrant, (congrArg _ hgrant).trans hongoing⟩

namespace Tracked

variable {S : ∀ u, Simulation (F.stages u)} {bound : Nat} {s : F.State} {c k : Chan α}
  {ds : Fin (n + 1) → Chan β} {ks ls : Fin (n + 1) → Nat} {v : Bool} {x : α}

/-- The words to give out get fewer when one is given. -/
theorem sum_length_next (h : Tracked S bound s c ds ls k ks) (hv : c.Offers v x) (ready : Bool) :
    ∑ u, ((ds u).next (F.offer s v x u) (F.ready s ready u)).rest.length ≤
        ∑ u, (ds u).rest.length ∧
      ((F.offer s v x (F.grant s) && ready) = true →
        ∑ u, ((ds u).next (F.offer s v x u) (F.ready s ready u)).rest.length <
          ∑ u, (ds u).rest.length) := by
  have hle : ∀ u, ((ds u).next (F.offer s v x u) (F.ready s ready u)).rest.length ≤
      (ds u).rest.length := by
    intro u
    unfold Chan.next
    dsimp only
    split_ifs
    · rw [List.length_tail]
      exact Nat.sub_le _ _
    · exact Nat.le_refl _
  refine ⟨Finset.sum_le_sum fun u _ => hle u, fun hfire => ?_⟩
  refine Finset.sum_lt_sum (fun u _ => hle u) ⟨F.grant s, Finset.mem_univ _, ?_⟩
  obtain ⟨hoffer, rfl⟩ := Bool.and_eq_true_iff.mp hfire
  have hfront := h.offers hv
  rw [hoffer] at hfront
  have hlength := hfront.length_eq
  simp only [hoffer, Fork.ready, decide_true, Bool.and_true, Chan.next_take]
  omega

/-- The bound does not grow: the packet with the grant keeps it, or a word of it is given. -/
theorem cycles_le (h : Tracked S bound s c ds ls k ks) (hv : c.Offers v x) (e : ε) (ready : Bool)
    {todo todo' : Nat} (hle : todo' ≤ todo) :
    cycles (F.next s e v x ready)
        (fun u => (ds u).next (F.offer s v x u) (F.ready s ready u)) todo' ≤
      cycles s ds todo := by
  obtain ⟨hlength, hgiven⟩ := h.sum_length_next hv ready
  unfold cycles
  dsimp only
  cases hfire : F.offer s v x (F.grant s) && ready with
  | true =>
    have hlt := hgiven hfire
    split_ifs <;> omega
  | false =>
    have hhold : F.Arbiter.ongoing s.arbiter (F.grant s) = true →
        F.Arbiter.ongoing (F.next s e v x ready).arbiter (F.grant (F.next s e v x ready)) =
          true := by
      intro hongoing
      refine (hold_grant e ready ?_).2
      simp [PortStatus.request, PortStatus.ends, Bool.and_right_comm, hfire, hongoing]
    split_ifs with hnew hold hold
    · omega
    · omega
    · rcases hold with hzero | hongoing
      · omega
      · exact absurd (Or.inr (hhold hongoing)) hnew
    · omega

/-- The bound gets smaller when the work does, or when the grant moves. -/
theorem cycles_lt (h : Tracked S bound s c ds ls k ks) (hv : c.Offers v x) (e : ε) (ready : Bool)
    {todo' : Nat} (hle : todo' ≤ work c k bound ks ls)
    (hmove : todo' < work c k bound ks ls ∨ work c k bound ks ls = 0 ∨
      (F.Arbiter.ongoing s.arbiter (F.grant s) = false ∧
        F.Arbiter.ongoing (F.next s e v x ready).arbiter (F.grant (F.next s e v x ready)) =
          true)) :
    cycles (F.next s e v x ready)
          (fun u => (ds u).next (F.offer s v x u) (F.ready s ready u)) todo' <
        cycles s ds (work c k bound ks ls) ∨
      cycles s ds (work c k bound ks ls) = 0 := by
  have hlength := (h.sum_length_next hv ready).1
  rcases hmove with hlt | hzero | ⟨hold, hnew⟩
  · left
    unfold cycles
    dsimp only
    split_ifs <;> omega
  · right
    have hrest := (h.rest_of_work hzero).2
    simp [cycles, hzero, hrest]
  · by_cases hzero : work c k bound ks ls = 0
    · right
      have hrest := (h.rest_of_work hzero).2
      simp [cycles, hzero, hrest]
    · left
      simp only [cycles, hold, hnew, hzero, or_true, if_true, Bool.false_eq_true, or_false,
        if_false]
      omega

end Tracked

/-- The packets that the stages make of what comes to them are merged. -/
def merging (S : ∀ u, Simulation (F.stages u)) (bound : Nat) :
    Merging n F.sourceLast F.stage where
  rel s c outs h w := ∃ ds ls k ks, Tracked S bound s c ds ls k ks ∧
    (outs = fun u => (ds u).rest) ∧ (h = true → (ds (F.grant s)).held = true) ∧
    w = cycles s ds (work c k bound ks ls)
  grant := F.grant
  begun s := F.Arbiter.ongoing s.arbiter (F.grant s)
  done := by
    rintro s c outs h ⟨ds, ls, k, ks, htracked, rfl, -, hw⟩
    unfold cycles at hw
    exact htracked.rest_of_work (by omega)
  closed := by
    rintro s c outs h w ⟨ds, ls, k, ks, htracked, rfl, -, -⟩
    exact htracked.whole.closed
  rest_of_begun := by
    rintro s c outs h w ⟨ds, ls, k, ks, htracked, rfl, -, -⟩
    exact htracked.whole.begun _
  offers := by
    rintro s c outs h w v x ⟨ds, ls, k, ks, htracked, rfl, hheld, -⟩ hv
    have hoffers := htracked.offers hv
    exact ⟨fun hh => hoffers.kept (hheld hh), hoffers.front⟩
  hold e ready _ _ h := hold_grant e ready h
  step := by
    rintro s c outs h w v x e ready ⟨ds, ls, k, ks, htracked, rfl, -, rfl⟩ hv
    obtain ⟨k', ks', ls', htracked', hle, hmove⟩ := htracked.next hv e ready
    have houts : takenFrom (fun u => (ds u).rest) (F.grant s)
        (F.offer s v x (F.grant s) && ready) =
        fun u => ((ds u).next (F.offer s v x u) (F.ready s ready u)).rest := by
      funext u
      unfold takenFrom Chan.next Fork.ready
      by_cases hu : u = F.grant s
      · subst hu
        simp
      · simp [hu]
    refine ⟨_, ⟨_, ls', k', ks', htracked', houts, fun hheld => ?_, rfl⟩,
      htracked.cycles_le hv e ready hle, ?_⟩
    · change (F.offer s v x (F.grant s) && !ready) = true at hheld
      obtain ⟨hoffer, hready⟩ := Bool.and_eq_true_iff.mp hheld
      rw [Bool.not_eq_true'] at hready
      have hgrant : F.grant (F.next s e v x ready) = F.grant s := by
        refine (hold_grant e ready ?_).1
        simp [PortStatus.request, PortStatus.ends, hoffer, hready]
      change (F.offer s v x (F.grant (F.next s e v x ready)) &&
        !F.ready s ready (F.grant (F.next s e v x ready))) = true
      rw [hgrant]
      simp [Fork.ready, hoffer, hready]
    · by_cases hstarved : c.Starved v
      · exact Or.inr (Or.inr (Or.inl hstarved))
      by_cases hstalled : F.offer s v x (F.grant s) = true ∧ ready = false
      · exact Or.inr (Or.inr (Or.inr (Or.inl hstalled)))
      by_cases hwaits : F.stage.waits s e v x = true
      · exact Or.inr (Or.inr (Or.inr (Or.inr hwaits)))
      exact (htracked.cycles_lt hv e ready hle (hmove hstarved hstalled hwaits)).imp_right Or.inl

/-- From reset, the stages make whole packets of some words. -/
structure Makes (S : ∀ u, Simulation (F.stages u)) (xs : List α) (outs : Fin (n + 1) → List β)
    (ks : Fin (n + 1) → Nat) : Prop where
  starts : ∀ u, (S u).Starts (xs.filter fun x => F.sel x = u) (outs u) (ks u)
  closed : ∀ u, Closed F.sourceLast (outs u)

omit [Inhabited α] in
theorem Along.start {S : ∀ u, Simulation (F.stages u)} {xs : List α}
    {outs : Fin (n + 1) → List β} {ks : Fin (n + 1) → Nat} (h : Makes S xs outs ks) :
    Along F.init (Chan.start xs) S (fun u => Chan.start (outs u)) ks where
  rel := h.starts
  closed := h.closed
  begun u hongoing := by cases (F.Arbiter.ongoing_init u).symm.trans hongoing

/-- When the packets up to any place are made into whole packets in `bound` cycles, those that
are made of the whole are merged. -/
theorem merging_starts {S : ∀ u, Simulation (F.stages u)} {bound : Nat} {xs : List α}
    {outs : Fin (n + 1) → List β} {ls : Fin (n + 1) → Nat} (h : Makes S xs outs ls)
    (hclosed : Closed F.sinkLast xs) (hsteady : Steady F xs)
    (hparts : ∀ ys, ys <+: xs → Closed F.sinkLast ys →
      ∃ (S' : ∀ u, Simulation (F.stages u)) (outs' : Fin (n + 1) → List β)
        (ks : Fin (n + 1) → Nat), Makes S' ys outs' ks ∧ ∑ u, ks u ≤ bound) :
    ∃ w, (merging S bound).rel F.init (Chan.start xs) outs false w := by
  have hrouted : Routed F.init (Chan.start xs) := by
    refine ⟨hclosed, hsteady, fun u hongoing => ?_⟩
    cases F.Dispatcher.ongoing_init.symm.trans hongoing
  have hfollows : Follows F.init (Chan.start xs) bound := by
    intro k hk
    obtain ⟨S', outs', ks, hmakes, hsum⟩ := hparts k.rest hk.upTo hk.routed.closed
    obtain ⟨ys, held⟩ := k
    obtain rfl : held = false := hk.held
    exact ⟨S', _, ks, Along.start hmakes, hsum⟩
  -- at first no packet is in front
  have hcut : Cut F.init (Chan.start xs) (Chan.start []) :=
    ⟨hrouted.of_prefix (List.nil_prefix) Closed.nil fun _ => F.Dispatcher.ongoing_init,
      List.nil_prefix, rfl, fun h => by cases h⟩
  obtain ⟨S', ds', ks, hfirst, hsum⟩ := hfollows _ hcut
  exact ⟨_, _, ls, _, ks, ⟨hrouted, hfollows, Along.start h, hcut, Or.inl rfl,
    ⟨S', ds', hfirst⟩, hsum⟩, rfl, (fun hheld => by cases hheld), rfl⟩

theorem exists_bound {γ : Type} {P : γ → Nat → Prop} {zs : List γ}
    (h : ∀ z ∈ zs, ∃ k, P z k) : ∃ bound, ∀ z ∈ zs, ∃ k ≤ bound, P z k := by
  induction zs with
  | nil => exact ⟨0, by simp⟩
  | cons z zs ih =>
    obtain ⟨hz, hzs⟩ := List.forall_mem_cons.mp h
    obtain ⟨k, hk⟩ := hz
    obtain ⟨bound, hbound⟩ := ih hzs
    refine ⟨k + bound, List.forall_mem_cons.mpr ⟨⟨k, Nat.le_add_right k bound, hk⟩, ?_⟩⟩
    intro y hy
    obtain ⟨l, hl, hP⟩ := hbound y hy
    exact ⟨l, le_trans hl (Nat.le_add_left bound k), hP⟩

/-- From reset, in front of packets that go each to one stage. -/
theorem merging_starts_flatMap {S : ∀ u, Simulation (F.stages u)} {γ : Type} {f : γ → List α}
    {xs : List γ} {outs : Fin (n + 1) → List β} {ls : Fin (n + 1) → Nat}
    (h : Makes S (xs.flatMap f) outs ls)
    (hf : ∀ x ∈ xs, f x = [] ∨ (IsPacket F.sinkLast (f x) ∧ ∃ u, ∀ y ∈ f x, F.sel y = u))
    (hparts : ∀ zs, zs <+: xs → ∃ (S' : ∀ u, Simulation (F.stages u))
      (outs' : Fin (n + 1) → List β) (ks : Fin (n + 1) → Nat), Makes S' (zs.flatMap f) outs' ks) :
    ∃ bound w, (merging S bound).rel F.init (Chan.start (xs.flatMap f)) outs false w := by
  obtain ⟨bound, hbound⟩ : ∃ bound, ∀ zs ∈ xs.inits, ∃ k ≤ bound,
      ∃ (S' : ∀ u, Simulation (F.stages u)) (outs' : Fin (n + 1) → List β)
        (ks : Fin (n + 1) → Nat), Makes S' (zs.flatMap f) outs' ks ∧ ∑ u, ks u = k := by
    refine exists_bound fun zs hzs => ?_
    obtain ⟨S', outs', ks, hmakes⟩ := hparts zs ((List.mem_inits zs xs).mp hzs)
    exact ⟨_, S', outs', ks, hmakes, rfl⟩
  have hclosed : Closed F.sinkLast (xs.flatMap f) := by
    refine Closed.flatMap fun x hx => ?_
    rcases hf x hx with hnil | ⟨hpacket, -⟩
    · rw [hnil]
      exact Closed.nil
    · exact Closed.of_packet hpacket
  refine ⟨bound, merging_starts h hclosed (Steady.flatMap hf) fun ys hys hclosedPart => ?_⟩
  obtain ⟨zs, hzs, rfl⟩ :=
    hclosedPart.exists_prefix (fun x hx => (hf x hx).imp_right And.left) hys
  obtain ⟨k, hk, S', outs', ks, hmakes, rfl⟩ := hbound zs ((List.mem_inits zs xs).mpr hzs)
  exact ⟨S', outs', ks, hmakes, hk⟩

/-- Each stage is where it is along the whole, and has nothing left when the merge has not. -/
theorem rel_of_merging {S : ∀ u, Simulation (F.stages u)} {bound : Nat} {s : F.State}
    {c : Chan α} {outs : Fin (n + 1) → List β} {h : Bool} {w : Nat}
    (hrel : (merging S bound).rel s c outs h w) (u : Fin (n + 1)) :
    ∃ d k, (S u).rel (s.stages u) (F.chanTo c u) d k ∧ (w = 0 → k = 0) := by
  obtain ⟨ds, ls, k, ks, htracked, rfl, -, rfl⟩ := hrel
  refine ⟨ds u, ls u, htracked.whole.rel u, fun hw => ?_⟩
  have hwork : work c k bound ks ls = 0 := by
    unfold cycles at hw
    omega
  have hsum : ∑ u, ls u = 0 := by
    unfold work at hwork
    omega
  exact Finset.sum_eq_zero_iff.mp hsum u (Finset.mem_univ u)

end Fork

end UsbSniffer.Sync
