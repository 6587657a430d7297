/-
  Sync/Switch.lean --- the blocks that share a stream between packets of several ports.

  An arbiter connects one of several sources, and a dispatcher one of several sinks.  Both
  look at the first and the last beat of a packet, so that none is torn apart.
-/
import Mathlib.Algebra.Group.Fin.Basic

set_option autoImplicit false

namespace UsbSniffer.Sync

/-- What is seen of an endpoint in a cycle. -/
structure PortStatus where
  valid : Bool
  last : Bool
  ready : Bool

/-- The last beat of a packet is handed over. -/
def PortStatus.ends (p : PortStatus) : Bool := p.valid && p.last && p.ready

/-- `Status.ongoing`: a packet that is offered or `begun` does not end in this cycle. -/
def PortStatus.request (p : PortStatus) (begun : Bool) : Bool := (p.valid || begun) && !p.ends

/-- The arbiter of the library (`Arbiter`).  It stays with a source until its packet ends,
and goes on to another one whose packet is under way. -/
structure Arbiter (n : Nat) where
  State : Type
  init : State
  grant : State → Fin (n + 1)
  /-- A packet of the source is under way. -/
  ongoing : State → Fin (n + 1) → Bool
  next : State → (Fin (n + 1) → PortStatus) → State
  ongoing_init : ∀ u, ongoing init u = false
  ongoing_next : ∀ s (ports : Fin (n + 1) → PortStatus) u,
    ongoing (next s ports) u = (ports u).request (ongoing s u)
  grant_hold : ∀ s (ports : Fin (n + 1) → PortStatus),
    (ports (grant s)).request (ongoing s (grant s)) = true → grant (next s ports) = grant s
  grant_moves : ∀ s (ports : Fin (n + 1) → PortStatus) u,
    (ports u).request (ongoing s u) = true →
    (ports (grant (next s ports))).request (ongoing s (grant (next s ports))) = true

namespace Arbiter

/-- The source with the grant keeps it while its packet is under way. -/
theorem hold {n : Nat} (A : Arbiter n) {s : A.State} {ports : Fin (n + 1) → PortStatus}
    (h : (ports (A.grant s)).request (A.ongoing s (A.grant s)) = true) :
    A.grant (A.next s ports) = A.grant s ∧ A.ongoing (A.next s ports) (A.grant s) = true :=
  ⟨A.grant_hold s ports h, (A.ongoing_next s ports _).trans h⟩

/-- When some packet is under way, that of the source with the next grant is. -/
theorem moves {n : Nat} (A : Arbiter n) {s : A.State} {ports : Fin (n + 1) → PortStatus}
    {u : Fin (n + 1)} (h : (ports u).request (A.ongoing s u) = true) :
    A.ongoing (A.next s ports) (A.grant (A.next s ports)) = true :=
  (A.ongoing_next s ports _).trans (A.grant_moves s ports u h)

/-- The others, in a circle that begins behind `g`. -/
def circle {n : Nat} (g : Fin (n + 1)) : List (Fin (n + 1)) :=
  (List.range n).map fun d => g + Fin.ofNat (n + 1) (d + 1)

theorem mem_circle {n : Nat} {g u : Fin (n + 1)} (h : u ≠ g) : u ∈ circle g := by
  have hne : (u - g).val ≠ 0 := fun hzero => h (sub_eq_zero.mp (Fin.ext hzero))
  have hlt := (u - g).isLt
  refine List.mem_map.mpr ⟨(u - g).val - 1, List.mem_range.mpr (by omega), ?_⟩
  have hself : Fin.ofNat (n + 1) ((u - g).val - 1 + 1) = u - g := by
    rw [Nat.sub_add_cancel (Nat.one_le_iff_ne_zero.mpr hne)]
    exact Fin.ext (Nat.mod_eq_of_lt hlt)
  rw [hself, add_sub_cancel]

/-- The source that gets the grant when `g` has it. -/
def switch {n : Nat} (request : Fin (n + 1) → Bool) (g : Fin (n + 1)) : Fin (n + 1) :=
  if request g then g else ((circle g).find? request).getD g

theorem request_switch {n : Nat} {request : Fin (n + 1) → Bool} {g u : Fin (n + 1)}
    (h : request u = true) : request (switch request g) = true := by
  unfold switch
  split_ifs with hg
  · exact hg
  · cases hfind : (circle g).find? request with
    | some w => exact List.find?_some hfind
    | none =>
      have hu : u ≠ g := fun heq => hg (heq ▸ h)
      exact absurd h (List.find?_eq_none.mp hfind u (mem_circle hu))

/-- With a `Status` for each source and a round-robin switch. -/
def roundRobin (n : Nat) : Arbiter n where
  State := (Fin (n + 1) → Bool) × Fin (n + 1)
  init := (fun _ => false, 0)
  grant s := s.2
  ongoing s u := s.1 u
  next s ports :=
    let request u := (ports u).request (s.1 u)
    (request, switch request s.2)
  ongoing_init _ := rfl
  ongoing_next _ _ _ := rfl
  grant_hold _ _ h := if_pos h
  grant_moves s ports _ h :=
    @request_switch n (fun u => (ports u).request (s.1 u)) _ _ h

end Arbiter

/-- The dispatcher of the library (`Dispatcher`).  What its input `sel` selects at the first
beat of a packet stays selected until the last one: `ongoing` is the selection of the packet
under way. -/
structure Dispatcher (κ : Type) where
  State : Type
  init : State
  ongoing : State → Option κ
  /-- The edge of a cycle with the input `sel`. -/
  next : State → κ → PortStatus → State
  ongoing_init : ongoing init = none
  ongoing_next : ∀ s sel port, ongoing (next s sel port) =
    if port.ends then none
    else if port.valid && port.ready then some ((ongoing s).getD sel) else ongoing s

namespace Dispatcher

variable {κ : Type} (D : Dispatcher κ)

/-- What is selected in a cycle. -/
def route (s : D.State) (sel : κ) : κ := (D.ongoing s).getD sel

theorem ongoing_quiet {s : D.State} {sel : κ} {port : PortStatus}
    (h : (port.valid && port.ready) = false) : D.ongoing (D.next s sel port) = D.ongoing s := by
  rw [D.ongoing_next, PortStatus.ends, Bool.and_right_comm, h]
  rfl

theorem ongoing_last {s : D.State} {sel : κ} {port : PortStatus}
    (h : (port.valid && port.ready) = true) (hlast : port.last = true) :
    D.ongoing (D.next s sel port) = none := by
  rw [D.ongoing_next, PortStatus.ends, Bool.and_right_comm, h, hlast]
  rfl

/-- Behind a beat that is not the last one the selection stays. -/
theorem ongoing_more {s : D.State} {sel : κ} {port : PortStatus}
    (h : (port.valid && port.ready) = true) (hlast : port.last = false) :
    D.ongoing (D.next s sel port) = some (D.route s sel) := by
  rw [D.ongoing_next, PortStatus.ends, Bool.and_right_comm, h, hlast]
  rfl

/-- With the registers `status.first` and `sel_ongoing`. -/
def status (κ : Type) (reset : κ) : Dispatcher κ where
  State := Bool × κ
  init := (true, reset)
  ongoing s := if s.1 then none else some s.2
  next s sel port :=
    (if port.ends then true else if port.valid && port.ready then false else s.1,
      if s.1 then sel else s.2)
  ongoing_init := rfl
  ongoing_next s sel port := by
    obtain ⟨first, selOngoing⟩ := s
    cases port.ends <;> cases port.valid && port.ready <;> cases first <;> rfl

end Dispatcher

end UsbSniffer.Sync
