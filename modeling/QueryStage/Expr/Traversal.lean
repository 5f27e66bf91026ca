import QueryStage.Expr.Basic

/-!
# Traversal

A traversal rebuilds an expression from the root down, children from left to right: a receiver
before the arguments, the source of an accumulator before its selector. It may replace a node
instead of entering it.
-/

namespace QueryStage

/-- What a traversal does on the way: `node` sees every node before its children and may replace
it, `lambda` sees every lambda before its body. -/
structure Traversal (m : Type → Type) where
  node : Expr → m (Option Expr)
  lambda : Lambda → m Unit

namespace Traversal

variable {m : Type → Type} [Monad m]

def enter (t : Traversal m) (e : Expr) (descend : m Expr) : m Expr := do
  match ← t.node e with
  | some e => return e
  | none => descend

def plain : Traversal Id where
  node _ := none
  lambda _ := ()

end Traversal

namespace Expr

variable {m : Type → Type} [Monad m]

mutual

def traverse (t : Traversal m) : Expr → m Expr
  | e@(literal _ _) => t.enter e (pure e)
  | e@(parameter _) => t.enter e (pure e)
  | e@(member target name declaring ty) => t.enter e do
    return member (← target.traverse t) name declaring ty
  | e@(binary op left right ty) => t.enter e do
    return binary op (← left.traverse t) (← right.traverse t) ty
  | e@(unary op operand ty) => t.enter e do
    return unary op (← operand.traverse t) ty
  | e@(conditional test ifTrue ifFalse ty) => t.enter e do
    return conditional (← test.traverse t) (← ifTrue.traverse t) (← ifFalse.traverse t) ty
  | e@(call none method declaring args ty) => t.enter e do
    return call none method declaring (← traverseAll t args) ty
  | e@(call (some receiver) method declaring args ty) => t.enter e do
    return call (some (← receiver.traverse t)) method declaring (← traverseAll t args) ty
  | e@(lambda ⟨params, body⟩) => t.enter e do
    t.lambda ⟨params, body⟩
    return lambda ⟨params, ← body.traverse t⟩
  | e@(construct ty parameters args members) => t.enter e do
    return construct ty parameters (← traverseAll t args) members
  | e@(accumulate fn source none ty) => t.enter e do
    return accumulate fn (← source.traverse t) none ty
  | e@(accumulate fn source (some ⟨params, body⟩) ty) => t.enter e do
    let source ← source.traverse t
    t.lambda ⟨params, body⟩
    return accumulate fn source (some ⟨params, ← body.traverse t⟩) ty
  | e@(field _ _ _) => t.enter e (pure e)
  | e@(document inner path decoder) => t.enter e do
    return document (← inner.traverse t) path decoder

def traverseAll (t : Traversal m) : List Expr → m (List Expr)
  | [] => pure []
  | e :: es => do return (← e.traverse t) :: (← traverseAll t es)

end

inductive Visit where
  | node (kind : NodeKind)
  | lambda (parameters : List String)
deriving DecidableEq, Repr

end Expr

namespace Traversal

/-- Records every node and every lambda, and renames the parameter nodes called `old`. -/
def renamer (old new : String) : Traversal (StateM (List Expr.Visit)) where
  node e := do
    modify (· ++ [.node e.kind])
    return match e with
      | .parameter p => if p.name = old then some (.parameter ⟨new, p.ty⟩) else none
      | _ => none
  lambda fn := modify (· ++ [.lambda (fn.params.map Parameter.name)])

end Traversal

namespace Expr

def rebuild (e : Expr) : Expr := (e.traverse Traversal.plain).run

/-- The expression with parameter nodes renamed, and the nodes seen on the way. -/
def renameTraced (old new : String) (e : Expr) : Expr × List Visit :=
  (e.traverse (Traversal.renamer old new)).run []

end Expr

end QueryStage
