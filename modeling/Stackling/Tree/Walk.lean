import Stackling.Tree

/-!
# Walking a tree

A walk visits a tree depth first, in source order, and tells a listener when it enters a node and
when it leaves it. The listener threads a state of its own choice. On entering it may decline the
node, which skips the node's descendants and the call on leaving; at any call it may abort the
walk, after which nothing is called again. Of several aborts the first counts. An abort without an
error is no abort.

A node does not know its ancestors. So the walk keeps a context, which it shows to the listener: the
stack of the nodes that it has entered and not left, and the error that it was aborted with.

`Recorder` is the listener that writes down every call it gets and follows a script of aborts.
-/

namespace Stackling.Tree

variable {σ ε : Type}

/-- The first function among some nodes. -/
def firstFunction? (ns : List Node) : Option Function :=
  ns.findSome? fun
    | .function f => some f
    | _ => none

/-- What a walk knows while it visits a node. -/
structure Context (ε : Type) where
  /-- the nodes above, the root first -/
  stack : List Node
  /-- the error that the walk was aborted with -/
  err : Option ε

namespace Context

/-- The parent of the node that is visited; none at the root. -/
def parent? (ctx : Context ε) : Option Node := ctx.stack.getLast?

/-- The ancestors of the node, nearest first. -/
def ancestors (ctx : Context ε) : List Node := ctx.stack.reverse

/-- The number of ancestors. -/
def depth (ctx : Context ε) : Nat := ctx.stack.length

/-- The nearest function above the node. -/
def enclosingFunction? (ctx : Context ε) : Option Function := firstFunction? ctx.ancestors

/-- Records an error, unless there is one already. -/
def abort (ctx : Context ε) (error : Option ε) : Context ε := { ctx with err := ctx.err.or error }

/-- Goes down from `n` to its children. -/
def push (ctx : Context ε) (n : Node) : Context ε := { ctx with stack := ctx.stack ++ [n] }

/-- Goes up again. -/
def pop (ctx : Context ε) : Context ε := { ctx with stack := ctx.stack.dropLast }

end Context

/-- What a listener answers: its next state, and what it aborts with, in order. It may call for an
abort and have no error for it. -/
structure Reply (σ ε : Type) where
  state : σ
  aborts : List (Option ε)

/-- What a walk calls. -/
structure Listener (σ ε : Type) where
  /-- called before a node's children; the flag says whether to go down to them -/
  enter : σ → Node → Context ε → Reply σ ε × Bool
  /-- called after a node's children -/
  leave : σ → Node → Context ε → Reply σ ε

mutual

/-- Visits `n`, which stands below the nodes on the stack of the context. -/
def walkFrom (l : Listener σ ε) (s : σ) (ctx : Context ε) (n : Node) : σ × Context ε :=
  let (entered, descend) := l.enter s n ctx
  let ctx := entered.aborts.foldl Context.abort ctx
  if !descend || ctx.err.isSome then (entered.state, ctx)
  else
    let (s, ctx) := walkAll l entered.state (ctx.push n) n n.children (fun _ h => h)
    let ctx := ctx.pop
    if ctx.err.isSome then (s, ctx)
    else
      let left := l.leave s n ctx
      (left.state, left.aborts.foldl Context.abort ctx)
termination_by (n.weight, 1, 0)

/-- Visits some of the children of `parent`, in order, until one aborts. -/
def walkAll (l : Listener σ ε) (s : σ) (ctx : Context ε) (parent : Node) (cs : List Node)
    (h : ∀ c ∈ cs, c ∈ parent.children) : σ × Context ε :=
  match cs, h with
  | [], _ => (s, ctx)
  | c :: rest, h =>
    have := Node.weight_lt_of_mem_children (h c (by simp))
    let (s, ctx) := walkFrom l s ctx c
    if ctx.err.isSome then (s, ctx)
    else walkAll l s ctx parent rest (fun c' hc => h c' (by simp [hc]))
termination_by (parent.weight, 0, cs.length)

end

/-- Walks the tree below `root` and gives the listener's last state and the first error. -/
def walk (l : Listener σ ε) (s : σ) (root : Node) : σ × Option ε :=
  let (s, ctx) := walkFrom l s ⟨[], none⟩ root
  (s, ctx.err)

/-! ## Recording -/

/-- The two calls of a listener. -/
inductive Moment where
  | enter
  | leave
  deriving DecidableEq, Repr

/-- A call that a recorder got. -/
structure Event where
  moment : Moment
  node : Node
  context : Context String

/-- An order to abort at the `nth` call of one kind on one sort of node, counted from 1. -/
structure AbortRule where
  moment : Moment
  sort : NodeSort
  nth : Int
  /-- the errors, in order -/
  messages : List String

/-- What a recorder does apart from recording. -/
structure Script where
  /-- the sorts of node whose children it declines -/
  skip : List NodeSort
  /-- when it aborts -/
  aborts : List AbortRule

namespace Recorder

/-- Records a call and collects the aborts that the script orders for it. -/
def record (script : Script) (moment : Moment) (events : List Event) (n : Node)
    (ctx : Context String) : Reply (List Event) String :=
  let events := events ++ [⟨moment, n, ctx⟩]
  let count := (events.filter fun e => e.moment == moment && e.node.sort == n.sort).length
  let due := script.aborts.filter fun r =>
    r.moment == moment && r.sort == n.sort && r.nth == Int.ofNat count
  ⟨events, due.flatMap fun r => r.messages.map some⟩

/-- The recorder for a script. -/
def listener (script : Script) : Listener (List Event) String where
  enter events n ctx := (record script .enter events n ctx, !script.skip.contains n.sort)
  leave events n ctx := record script .leave events n ctx

/-- The calls of a walk and the error that ended it. -/
def run (script : Script) (root : Node) : List Event × Option String :=
  walk (listener script) [] root

end Recorder

end Stackling.Tree
