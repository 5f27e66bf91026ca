import QueryStage.Proofs.AccumulatorNesting
import QueryStage.Proofs.LoopHygiene
import QueryStage.Proofs.RenamedLambdas
import QueryStage.Proofs.StageParts

/-!
# Lexical scoping of lambda parameters

The name of a lambda's parameter does not matter where no lambda around it or in it declares the
same name, or where none of the loops with that name captures what belongs to another: with another
name that is new, the same stage is emitted up to the name of the loop variable, or the same fault
is raised. In a group the name also has to differ from that of the grouping, since what is bound of
the grouping is recognised by its name.
-/

namespace QueryStage

variable {strict : Bool} {v w : String}

/-- The stages are the same but for the name of a loop variable, which is `w` in the first and `v`
in the second. -/
structure Stage.Renamed (w v : String) (s s' : Stage) : Prop where
  kind : s.kind = s'.kind
  decoder : s.decoder = s'.decoder
  specification : s.specification.Rel (Bson.Renamed w v) s'.specification

namespace Lambda

variable {p : Parameter} {source : Decoder} {names unmet closed outer : List String}

variable {g : Parameter} {key : Expr}

end Lambda

/-- The name is used in the lambda for a parameter of its own only. -/
def Lambda.Reserves (fn : Lambda) (x : String) : Prop :=
  x ∉ fn.body.binders ∧ (x ∈ fn.body.names → x ∈ fn.params.map Parameter.name)

instance (fn : Lambda) (x : String) : Decidable (fn.Reserves x) :=
  inferInstanceAs (Decidable (_ ∧ _))

namespace Stage

end Stage

namespace Expr.RenamesLambda

variable {v : Parameter} {body before after : Expr} {outer closed : List String}

end Expr.RenamesLambda

namespace Stage

/-- What keeps a variable, under its name `v` and its new name `w`, apart from what a group brings
into scope. It is not called as the grouping is, and the key has no elements that could be taken for
it. If it is called `item`, as the elements of a group are where a member of an accumulator is
selected, then no lambda hides the grouping and the key holds no accumulator of whole elements. -/
structure ApartInGroup (r : Decoders) (source : Decoder) (keySelector projector : Lambda)
    (v w : String) : Prop where
  unbound : keySelector.body.Unbound
  bare : "item" ∈ [v, w] → keySelector.body.All fun n => n.isBare = false
  fresh : w ∉ keySelector.params.map Parameter.name ++ keySelector.body.names
  grouping : v ∉ projector.params.map Parameter.name
  computed : ∀ bound inner d, keySelector.bindProjector r source = .ok bound →
    keyOf r bound = .ok (.document inner none d) → d.Without v w
  elements : "item" ∈ [v, w] → ∀ g ∈ projector.params,
    keySelector.Reserves g.name ∧ projector.Reserves g.name

namespace ApartInGroup

variable {r : Decoders} {source : Decoder} {keySelector projector : Lambda} {bound key : Expr}
  {closed : List String}

theorem renamable (h : ApartInGroup r source keySelector projector v w) :
    keySelector.body.All (Expr.Renamable v w) :=
  Expr.renamable_of_unbound h.unbound h.bare

end ApartInGroup

variable {r : Decoders} {source : Decoder} {v : Parameter} {body before after : Expr}
  {outer : List String} {params : List Parameter}

end Stage

namespace Orders

open QueryStage.Expr

end Orders

namespace Keyed

open QueryStage.Expr

def entry : DocumentDecoder where
  typeName := "Entry"
  members := [("Key", ⟨"key", .value .string⟩), ("Express", ⟨"express", .value .boolean⟩)]
  creator := ["Key", "Express"]

def registry : Registry where
  classes := [("Entry", entry)]

def ofEntry (name : String) : Parameter := ⟨name, .record "Entry"⟩

def byExpress : Lambda :=
  ⟨[ofEntry "e"], access (parameter (ofEntry "e")) "Express" .boolean⟩

def group : Parameter := ⟨"g", .grouping .boolean (.record "Entry")⟩

def ownKey (name : String) : Expr := access (parameter (ofEntry name)) "Key" .string

def ownKeys (x : String) : Expr :=
  sequenceCall "Select" (parameter group) [lambda ⟨[ofEntry x], ownKey x⟩] (.array .string)

def keys (x : String) : Lambda := ⟨[group], named (.record "Keys") [("Keys", ownKeys x)]⟩

end Keyed

end QueryStage
