import QueryStage.Proofs.AccumulatorNesting
import QueryStage.Proofs.Evaluation
import QueryStage.Proofs.LoopHygiene
import QueryStage.Proofs.Shapes
import QueryStage.Proofs.StageParts

/-!
# Agreement of stages and decoders

Lowering and decoder inference follow an expression separately. They make the same choices: where
one reaches a construction from which a decoder is built, the other has emitted the document whose
keys the members of the decoder are read from.
-/

namespace QueryStage

/-- A step towards a construction from which a decoder is built: to an argument of a construction,
to what a selection or an accumulator makes of its elements, to the first branch of a conditional,
to the left operand of a coalesce, or to the key that a document holds. -/
inductive ShapeStep where
  | argument (name : String)
  | selected
  | accumulated (fn : AccumulatorFn)
  | branch
  | alternative
  | held
deriving DecidableEq, Repr

/-- The step in a bound expression. -/
inductive Expr.Leads (r : Decoders) : ShapeStep → Expr → Expr → Prop
  | argument {ty : Ty} {parameters : List String} {args : List Expr}
    {members : Option (List String)} {name : String} {a : Expr}
    (h : Entries.get? name (parameters.zip args).reverse = some a) :
    Leads r (.argument name) (construct ty parameters args members) a
  | selected {receiver : Option Expr} {source : Expr} {params : List Parameter} {body : Expr}
    {args : List Expr} {ty : Ty} (h : body.isConstruction = true) :
    Leads r .selected
      (call receiver "Select" .enumerable (source :: lambda ⟨params, body⟩ :: args) ty) body
  | accumulated {fn : AccumulatorFn} {source : Expr} {params : List Parameter} {body : Expr}
    {ty : Ty} (h : fn ≠ .avg) :
    Leads r (.accumulated fn) (accumulate fn source (some ⟨params, body⟩) ty) body
  | branch {test ifTrue ifFalse : Expr} {ty : Ty} (h : ifTrue.isConstruction = true) :
    Leads r .branch (conditional test ifTrue ifFalse ty) ifTrue
  | alternative {left right : Expr} {ty : Ty} (h : left.isConstruction = true) :
    Leads r .alternative (binary .coalesce left right ty) left
  | held {inner : Expr} {d : Decoder} (hinner : inner.isParameter = false)
    (h : inner.decoder r = .ok d) : Leads r .held (document inner none d) inner

/-- Step after step. -/
inductive Expr.Follows (r : Decoders) : List ShapeStep → Expr → Expr → Prop
  | here (e : Expr) : Follows r [] e e
  | step {s : ShapeStep} {steps : List ShapeStep} {e e' n : Expr} (h : e.Leads r s e')
    (rest : Follows r steps e' n) : Follows r (s :: steps) e n

def Decoder.step? (d : Decoder) : ShapeStep → Option Decoder
  | .argument name => (d.member? name).map MemberDecoder.decoder
  | .selected => d.item?
  | .accumulated .push => d.item?
  | .accumulated .addToSet => d.item?
  | .accumulated .avg => none
  | .accumulated _ => some d
  | .branch => some d
  | .alternative => some d
  | .held => some d

def Bson.step? (b : Bson) : ShapeStep → Option Bson
  | .argument name => b.below? [name]
  | .selected => b.below? ["$map", "in"]
  | .accumulated fn => b.below? [fn.operator]
  | .branch => (b.below? ["$cond"]).bind (item? 1)
  | .alternative => (b.below? ["$ifNull"]).bind (item? 0)
  | .held => some b
where
  item? (index : Nat) : Bson → Option Bson
    | .array items => items[index]?
    | _ => none

def Decoder.follow : List ShapeStep → Decoder → Option Decoder
  | [], d => some d
  | s :: steps, d => (d.step? s).bind (follow steps)

def Bson.follow : List ShapeStep → Bson → Option Bson
  | [], b => some b
  | s :: steps, b => (b.step? s).bind (follow steps)

namespace Expr

variable {r : Decoders} {unit : StringUnit} {paths : Path → Path} {e e' : Expr} {d : Decoder}
  {x : Bson} {s : ShapeStep}

theorem exists_construct (h : e.isConstruction = true) :
    ∃ ty parameters args members, e = construct ty parameters args members := by
  cases e with
  | construct ty parameters args members => exact ⟨ty, parameters, args, members, rfl⟩
  | _ => cases h

end Expr

namespace Stage

/-- A stage agrees with its decoder on a construction: on the arguments, which are emitted under
their names, and on every construction that steps lead to from there. -/
structure Agrees (r : Decoders) (unit : StringUnit) (stage : Stage) (body : Expr)
    (parameters : List String) (args : List Expr) : Prop where
  decoder : stage.decoder.Constructs parameters
  arguments : ∀ name a, Entries.get? name (parameters.zip args).reverse = some a →
    ∃ x, a.lower unit id = .ok x ∧ Entries.get? name stage.specification = some x
  nested : ∀ steps ty parameters args members, steps ≠ [] →
    body.Follows r steps (.construct ty parameters args members) →
    ∃ d x, stage.decoder.follow steps = some d ∧
      (Bson.document stage.specification).follow steps = some x ∧
      d.Constructs parameters ∧ x.Shapes parameters

section Identifier

variable {shape : Entries Bson} {parameters : List String}

theorem contains_id (hkeys : Entries.keys shape = parameters.eraseDups) :
    Entries.contains shape "_id" = true ↔ "_id" ∈ parameters := by
  rw [Entries.contains, hkeys, List.contains_iff_mem, List.mem_eraseDups]

theorem get?_projection {name : String} {x : Bson} (h : Entries.get? name shape = some x) :
    Entries.get? name (projection shape) = some x := by
  unfold projection
  split
  · exact h
  · rename_i hid
    have hname : "_id" ≠ name := by
      rintro rfl
      have hnone : Entries.get? "_id" shape = none := by
        rw [Entries.get?_eq_none_iff]
        simpa [Entries.contains] using hid
      rw [hnone] at h
      cases h
    rw [Entries.get?_cons_of_ne hname, h]

end Identifier

end Stage

namespace Orders

open QueryStage.Expr

end Orders

end QueryStage
