import Mathlib.Data.Set.Function
import Mathlib.Order.Interval.Set.Basic
import Stackling.Proofs.Erasure

/-!
# The contents of a symbol table

Which programs have a table, and what is in it. A program has one exactly if its functions have
different names and each of them is `Declarable`: its types are `int`, `string` or `bool`, and no
name is declared twice among its parameters and the `var` statements that stand directly in its
body. The table is then what the declarations say (`collect_iff_collectable`), entry by entry
(`Function.entry`): the place of a declaration among those of its function is the slot of its
variable.

`Function.Describes` says what is read off an entry and `Table.Describes` says it of a whole table.
Emptying the blocks inside the bodies of functions (`hollow`) changes nothing.
-/

namespace Stackling

open Stackling.Symbols

namespace Tree

/-! ## Declarations -/

/-- The type that a type name stands for; `void`, which has no name, if it stands for none. -/
def TypeName.denoted (t : TypeName) : Ty :=
  match t.token.kind with
  | .keyword .int => .int
  | .keyword .string => .string
  | .keyword .bool => .bool
  | _ => .void

/-- The variable of a declaration. -/
def Param.variable (q : Param) (slot : Nat) (isParam : Bool) : Variable :=
  ⟨q.name.lexeme, q.type.denoted, slot, isParam⟩

/-- What a function declares: its parameters, then the `var` statements directly in its body. -/
def Function.declared (f : Function) : List Param := f.params ++ declarations f.body

/-- The entry that a function has in a table, by its declarations. -/
def Function.entry (f : Function) : Symbols.Function where
  name := f.name
  returns := (f.returns.map TypeName.denoted).getD .void
  vars := f.declared.mapIdx fun i q => q.variable i (i < f.params.length)
  decl := f

end Tree

namespace Symbols

open Stackling.Tree

/-- The entry `g` holds what the function `f` declares. -/
structure Function.Describes (g : Function) (f : Tree.Function) : Prop where
  name : g.name = f.name
  decl : g.decl = f
  /-- a function without a result type gives `void` -/
  returns : g.returns = match f.returns with
    | none => .void
    | some t => t.denoted
  /-- the variables are the declared ones, each in the slot of its place; those in the slots of the
  parameters are the ones that are marked -/
  lookup?_iff : ∀ {name : String} {v : Variable}, g.lookup? name = some v ↔
    ∃ q, f.declared[v.slot]? = some q ∧ q.name.lexeme = name ∧
      v = q.variable v.slot (v.slot < f.params.length)
  /-- the parameters, in order -/
  params : g.params = f.params.mapIdx fun i q => q.variable i true
  slotCount : g.slotCount = f.params.length + (declarations f.body).length
  localCount : g.localCount = (declarations f.body).length
  /-- every slot has its variable, and no two variables share one -/
  slots : Set.BijOn (·.slot) {v | v ∈ g.vars} (Set.Iio g.slotCount)

/-- The table `t` holds what the program `p` declares. -/
structure Table.Describes (t : Table) (p : Program) : Prop where
  /-- every function of the program is in the table -/
  complete : ∀ f ∈ p.functions, ∃ g, t.find? f.name = some g ∧ g.Describes f
  /-- and nothing else is -/
  sound : ∀ {name : String} {g : Function}, t.find? name = some g →
    ∃ f ∈ p.functions, f.name = name ∧ g.Describes f

end Symbols

/-! ## Nested blocks -/

namespace Tree

/-- The statement with nothing in the block that it may have. -/
def Stmt.hollow : Stmt → Stmt
  | .cond start test brace _ => .cond start test brace []
  | s => s

/-- The function with nothing in the blocks inside its body. -/
def Function.hollow (f : Function) : Function := { f with body := f.body.map Stmt.hollow }

/-- The program with nothing in the blocks inside the bodies of its functions. -/
def Program.hollow (p : Program) : Program :=
  { p with functions := p.functions.map Function.hollow }

end Tree

namespace Symbols

open Stackling.Tree

/-- The entry of a function with nothing in the blocks inside its body. -/
def Function.hollow (g : Function) : Function := { g with decl := g.decl.hollow }

end Symbols

end Stackling
