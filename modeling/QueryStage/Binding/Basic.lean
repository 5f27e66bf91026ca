import QueryStage.Binding.Accumulator

/-!
# Binding

Replaces the parameters in scope, and the member chains that start at them, by bound fields and
documents. A member that no decoder knows stays a plain access. The only fault of binding is a
collection whose items have no decoder.
-/

namespace QueryStage

namespace Expr

/-- A member of a bound target. A member of the first or last element of a group is accumulated
directly. -/
def bindMember (ds : Decoders) (target : Expr) (name : String) (declaring ty : Ty) :
    Except Fault Expr :=
  match target.resolve? name ty with
  | some e => .ok e
  | none =>
    match target with
    | accumulate .first source none _ => fold .first source
    | accumulate .last source none _ => fold .last source
    | _ => .ok (member target name declaring ty)
where
  fold (fn : AccumulatorFn) (source : Expr) : Except Fault Expr := do
    let item := source.ty.item?.getD .document
    match (← source.element? ds ⟨"item", item⟩).bind (resolve? name ty) with
    | some body => return accumulate fn source (some ⟨[], body⟩) ty
    | none => return member target name declaring ty

mutual

def bind (ds : Decoders) (s : Scope) : Expr → Except Fault Expr
  | literal value ty => .ok (literal value ty)
  | parameter p => .ok ((s.lookup p.name).getD (parameter p))
  | member target name declaring ty =>
    match s.key? target name with
    | some key => .ok key
    | none => do bindMember ds (← target.bind ds s) name declaring ty
  | binary op left right ty => do return binary op (← left.bind ds s) (← right.bind ds s) ty
  | unary op operand ty => do return unary op (← operand.bind ds s) ty
  | conditional test ifTrue ifFalse ty => do
    return conditional (← test.bind ds s) (← ifTrue.bind ds s) (← ifFalse.bind ds s) ty
  | call none method declaring args ty => do
    let args ← bindArgs ds s none args
    return (s.accumulator? method declaring args ty).getD (call none method declaring args ty)
  | call (some receiver) method declaring args ty => do
    let receiver ← receiver.bind ds s
    let args ← bindArgs ds s (some receiver) args
    return (s.accumulator? method declaring args ty).getD
      (call (some receiver) method declaring args ty)
  | lambda ⟨params, body⟩ => do return lambda ⟨params, ← body.bind ds s⟩
  | construct ty parameters args members => do
    return construct ty parameters (← bindAll ds s args) members
  | accumulate fn source none ty => do return accumulate fn (← source.bind ds s) none ty
  | accumulate fn source (some ⟨params, body⟩) ty => do
    let source ← source.bind ds s
    let inner ← s.enter ds params (some source)
    return accumulate fn source (some ⟨params, ← body.bind ds inner⟩) ty
  | field path decoder ty => .ok (field path decoder ty)
  | document inner path decoder => .ok (document inner path decoder)

def bindAll (ds : Decoders) (s : Scope) : List Expr → Except Fault (List Expr)
  | [] => .ok []
  | e :: es => do return (← e.bind ds s) :: (← bindAll ds s es)

/-- Binds the arguments of a call from left to right. A lambda ranges over the items of the
receiver or, in a call that has none, of the first argument. -/
def bindArgs (ds : Decoders) (s : Scope) (source : Option Expr) : List Expr →
    Except Fault (List Expr)
  | [] => .ok []
  | lambda ⟨params, body⟩ :: es => do
    let inner ← s.enter ds params source
    let bound := lambda ⟨params, ← body.bind ds inner⟩
    return bound :: (← bindArgs ds s (source.or (some bound)) es)
  | e :: es => do
    let bound ← e.bind ds s
    return bound :: (← bindArgs ds s (source.or (some bound)) es)

end

end Expr

namespace Lambda

def single (fn : Lambda) : Except Fault Parameter :=
  match fn.params with
  | [p] => .ok p
  | params => .error (.parameterCount params.length)

/-- A parameter that stands for the current document. -/
def root (p : Parameter) (decoder : Decoder) : Expr := .document (.parameter p) none decoder

/-- Binds the body of a projector whose parameter is the current document. -/
def bindProjector (ds : Decoders) (fn : Lambda) (decoder : Decoder) : Except Fault Expr := do
  let p ← fn.single
  fn.body.bind ds (({} : Scope).bind p.name (root p decoder))

/-- Binds the body of a group projector. Its parameter is the grouping, an array of source
elements, and the `Key` member of it is the bound key. -/
def bindGroupProjector (ds : Decoders) (fn : Lambda) (element : Decoder) (key : Expr) :
    Except Fault Expr := do
  let p ← fn.single
  let scope : Scope := { group := some ⟨p.name, key⟩ }
  fn.body.bind ds (scope.bind p.name (root p (.array element)))

end Lambda

end QueryStage
