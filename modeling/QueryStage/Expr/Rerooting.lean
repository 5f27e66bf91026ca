import QueryStage.Expr.Basic

/-!
# Moving bound paths

Applies a map to the path of every bound field and document in an expression, and keeps all else.
-/

namespace QueryStage.Expr

mutual

def mapPaths (f : Path → Path) : Expr → Expr
  | literal value ty => literal value ty
  | parameter p => parameter p
  | member target name declaring ty => member (target.mapPaths f) name declaring ty
  | binary op left right ty => binary op (left.mapPaths f) (right.mapPaths f) ty
  | unary op operand ty => unary op (operand.mapPaths f) ty
  | conditional test ifTrue ifFalse ty =>
    conditional (test.mapPaths f) (ifTrue.mapPaths f) (ifFalse.mapPaths f) ty
  | call none method declaring args ty => call none method declaring (mapPathsAll f args) ty
  | call (some receiver) method declaring args ty =>
    call (some (receiver.mapPaths f)) method declaring (mapPathsAll f args) ty
  | lambda ⟨params, body⟩ => lambda ⟨params, body.mapPaths f⟩
  | construct ty parameters args members => construct ty parameters (mapPathsAll f args) members
  | accumulate fn source none ty => accumulate fn (source.mapPaths f) none ty
  | accumulate fn source (some ⟨params, body⟩) ty =>
    accumulate fn (source.mapPaths f) (some ⟨params, body.mapPaths f⟩) ty
  | field path decoder ty => field (f path) decoder ty
  | document inner path decoder => document (inner.mapPaths f) (path.map f) decoder

def mapPathsAll (f : Path → Path) : List Expr → List Expr
  | [] => []
  | e :: es => e.mapPaths f :: mapPathsAll f es

end

def reroot (old new : Path) (e : Expr) : Expr := e.mapPaths (Path.reroot old new)

@[simp] theorem mapPathsAll_eq_map (f : Path → Path) (es : List Expr) :
    mapPathsAll f es = es.map (mapPaths f) := by
  induction es with
  | nil => rfl
  | cons e es ih => simp [mapPathsAll, ih]

@[simp] theorem ty_mapPaths (f : Path → Path) (e : Expr) : (e.mapPaths f).ty = e.ty := by
  induction e with
  | call receiver => cases receiver <;> rfl
  | accumulate fn source selector =>
    rcases selector with _ | ⟨params, body⟩ <;> rfl
  | lambda params body ih => exact ih
  | document inner path decoder ih => exact ih
  | _ => rfl

@[simp] theorem kind_mapPaths (f : Path → Path) (e : Expr) : (e.mapPaths f).kind = e.kind := by
  cases e with
  | call receiver => cases receiver <;> rfl
  | accumulate fn source selector =>
    rcases selector with _ | ⟨params, body⟩ <;> rfl
  | lambda fn => obtain ⟨params, body⟩ := fn; rfl
  | _ => rfl

end QueryStage.Expr
