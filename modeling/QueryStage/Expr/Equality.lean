import QueryStage.Expr.Basic

/-!
# Equality of expressions

Two expressions are equal when they have the same nodes with equal contents. Doubles compare as
numbers, so an expression that holds a NaN is not equal to itself.
-/

namespace QueryStage.Expr

mutual

def valueEq : Expr → Expr → Bool
  | literal v t, literal w u => v.valueEq w && t = u
  | parameter p, parameter q => p = q
  | member a m d t, member b n e u => valueEq a b && m = n && d = e && t = u
  | binary o a b t, binary p c d u => o = p && valueEq a c && valueEq b d && t = u
  | unary o a t, unary p b u => o = p && valueEq a b && t = u
  | conditional a b c t, conditional d e f u =>
    valueEq a d && valueEq b e && valueEq c f && t = u
  | call r m d as t, call s n e bs u =>
    (match r, s with
      | none, none => true
      | some a, some b => valueEq a b
      | _, _ => false) && m = n && d = e && valuesEq as bs && t = u
  | lambda ⟨ps, a⟩, lambda ⟨qs, b⟩ => ps = qs && valueEq a b
  | construct t ps as ms, construct u qs bs ns => t = u && ps = qs && valuesEq as bs && ms = ns
  | accumulate f a s t, accumulate g b r u =>
    f = g && valueEq a b &&
      (match s, r with
        | none, none => true
        | some ⟨ps, c⟩, some ⟨qs, d⟩ => ps = qs && valueEq c d
        | _, _ => false) && t = u
  | field p d t, field q e u => p = q && d = e && t = u
  | document a p d, document b q e => valueEq a b && p = q && d = e
  | _, _ => false

def valuesEq : List Expr → List Expr → Bool
  | [], [] => true
  | a :: as, b :: bs => valueEq a b && valuesEq as bs
  | _, _ => false

end

end QueryStage.Expr
