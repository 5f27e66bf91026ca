import QueryStage.Decoder.Basic
import QueryStage.Expr.Literal
import QueryStage.Path

/-!
# Typed expressions

Lambda bodies as they are written by a caller and as they look after binding. The last two forms of
node occur in bound expressions: a field at a path, and a whole document, which has a path or is the
current document.
-/

namespace QueryStage

structure Parameter where
  name : String
  ty : Ty
deriving DecidableEq, Repr

mutual

inductive Expr where
  | literal (value : Literal) (ty : Ty)
  | parameter (p : Parameter)
  | member (target : Expr) (name : String) (declaring ty : Ty)
  | binary (op : BinaryOp) (left right : Expr) (ty : Ty)
  | unary (op : UnaryOp) (operand : Expr) (ty : Ty)
  | conditional (test ifTrue ifFalse : Expr) (ty : Ty)
  | call (receiver : Option Expr) (method : String) (declaring : Ty) (args : List Expr) (ty : Ty)
  | lambda (fn : Lambda)
  | construct (ty : Ty) (parameters : List String) (args : List Expr)
      (members : Option (List String))
  | accumulate (fn : AccumulatorFn) (source : Expr) (selector : Option Lambda) (ty : Ty)
  | field (path : Path) (decoder : Decoder) (ty : Ty)
  | document (inner : Expr) (path : Option Path) (decoder : Decoder)

structure Lambda where
  params : List Parameter
  body : Expr

end

namespace Expr

instance : Inhabited Expr := ⟨literal .null .document⟩

/-- The static type. A lambda has the type of its body. -/
def ty : Expr → Ty
  | literal _ ty => ty
  | parameter p => p.ty
  | member _ _ _ ty => ty
  | binary _ _ _ ty => ty
  | unary _ _ ty => ty
  | conditional _ _ _ ty => ty
  | call _ _ _ _ ty => ty
  | lambda ⟨_, body⟩ => body.ty
  | construct ty _ _ _ => ty
  | accumulate _ _ _ ty => ty
  | field _ _ ty => ty
  | document inner _ _ => inner.ty

def kind : Expr → NodeKind
  | literal _ _ => .literal
  | parameter _ => .parameter
  | member _ _ _ _ => .memberAccess
  | binary op _ _ _ => .binary op
  | unary op _ _ => .unary op
  | conditional _ _ _ _ => .conditional
  | call _ _ _ _ _ => .call
  | lambda _ => .lambda
  | construct _ _ _ _ => .construction
  | accumulate _ _ _ _ => .accumulator
  | field _ _ _ => .field
  | document _ _ _ => .document

def boundPath? : Expr → Option Path
  | field path _ _ => some path
  | document _ path _ => path
  | _ => none

def isParameter (e : Expr) : Bool := e.kind = .parameter

def isConstruction (e : Expr) : Bool := e.kind = .construction

def isAccumulator (e : Expr) : Bool := e.kind = .accumulator

def ofLiteral (v : Literal) : Expr := literal v v.ty

def access (target : Expr) (name : String) (ty : Ty) : Expr := member target name target.ty ty

def choose (test ifTrue ifFalse : Expr) : Expr := conditional test ifTrue ifFalse ifTrue.ty

def sequenceCall (method : String) (source : Expr) (args : List Expr) (ty : Ty) : Expr :=
  call none method .enumerable (source :: args) ty

def instanceCall (receiver : Expr) (method : String) (args : List Expr) (ty : Ty) : Expr :=
  call (some receiver) method receiver.ty.underlying args ty

/-- A construction whose members are its parameters. -/
def named (ty : Ty) (fields : List (String × Expr)) : Expr :=
  construct ty (fields.map Prod.fst) (fields.map Prod.snd) (some (fields.map Prod.fst))

section Induction

variable {P : Expr → Prop}
  (literal : ∀ value ty, P (.literal value ty))
  (parameter : ∀ p, P (.parameter p))
  (member : ∀ target name declaring ty, P target → P (.member target name declaring ty))
  (binary : ∀ op left right ty, P left → P right → P (.binary op left right ty))
  (unary : ∀ op operand ty, P operand → P (.unary op operand ty))
  (conditional : ∀ test ifTrue ifFalse ty,
    P test → P ifTrue → P ifFalse → P (.conditional test ifTrue ifFalse ty))
  (call : ∀ receiver method declaring args ty,
    (∀ e, receiver = some e → P e) → (∀ e ∈ args, P e) →
      (∀ params body, .lambda ⟨params, body⟩ ∈ args → P body) →
        P (.call receiver method declaring args ty))
  (lambda : ∀ params body, P body → P (.lambda ⟨params, body⟩))
  (construct : ∀ ty parameters args members,
    (∀ e ∈ args, P e) → P (.construct ty parameters args members))
  (accumulate : ∀ fn source selector ty,
    P source → (∀ params body, selector = some ⟨params, body⟩ → P body) →
      P (.accumulate fn source selector ty))
  (field : ∀ path decoder ty, P (.field path decoder ty))
  (document : ∀ inner path decoder, P inner → P (.document inner path decoder))

include literal parameter member binary unary conditional call lambda construct accumulate field
  document

set_option linter.unusedSectionVars false

mutual

/-- A property of expressions follows from the same property of their parts. The parts of a call are
its receiver, its arguments and the bodies of the lambdas among them. -/
@[elab_as_elim, induction_eliminator]
theorem induct : ∀ e : Expr, P e
  | .literal value ty => literal value ty
  | .parameter p => parameter p
  | .member target name declaring ty => member target name declaring ty (induct target)
  | .binary op left right ty => binary op left right ty (induct left) (induct right)
  | .unary op operand ty => unary op operand ty (induct operand)
  | .conditional test ifTrue ifFalse ty =>
    conditional test ifTrue ifFalse ty (induct test) (induct ifTrue) (induct ifFalse)
  | .call none method declaring args ty =>
    call none method declaring args ty (fun _ h => by cases h) (induct_all args)
      (induct_bodies args)
  | .call (some receiver) method declaring args ty =>
    call (some receiver) method declaring args ty
      (fun _ h => by cases h; exact induct receiver) (induct_all args) (induct_bodies args)
  | .lambda ⟨params, body⟩ => lambda params body (induct body)
  | .construct ty parameters args members => construct ty parameters args members (induct_all args)
  | .accumulate fn source none ty =>
    accumulate fn source none ty (induct source) (fun _ _ h => by cases h)
  | .accumulate fn source (some ⟨params, body⟩) ty =>
    accumulate fn source (some ⟨params, body⟩) ty (induct source)
      (fun _ _ h => by cases h; exact induct body)
  | .field path decoder ty => field path decoder ty
  | .document inner path decoder => document inner path decoder (induct inner)

private theorem induct_all : ∀ es : List Expr, ∀ e ∈ es, P e
  | [], _, h => by cases h
  | e :: es, f, h => by
    cases h with
    | head => exact induct e
    | tail _ h => exact induct_all es f h

private theorem induct_bodies : ∀ es : List Expr, ∀ params body,
    .lambda ⟨params, body⟩ ∈ es → P body
  | [], _, _, h => by cases h
  | e :: es, params, body, h => by
    rcases List.mem_cons.mp h with h | h
    · match e with
      | .lambda ⟨_, b⟩ =>
        injection h with h
        injection h with _ h
        exact h ▸ induct b
    · exact induct_bodies es params body h

end

end Induction

end Expr

end QueryStage
