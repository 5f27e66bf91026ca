import QueryStage.Binding.Scope

/-!
# Accumulators of a group

Inside a group projector the sequence methods on the grouping become accumulators, and so do the
methods that follow a selection. Calls without such a form stay as they are.
-/

namespace QueryStage

namespace AccumulatorFn

/-- The accumulator for a method that follows a selection of values. -/
def following? : String → Option AccumulatorFn
  | "Distinct" => some addToSet
  | "ToList" => some push
  | "ToArray" => some push
  | "AsEnumerable" => some push
  | "First" => some first
  | "Last" => some last
  | "Min" => some min
  | "Max" => some max
  | "Sum" => some sum
  | "Average" => some avg
  | _ => none

end AccumulatorFn

namespace Expr

def countOf (n : Int32) (ty : Ty) : Expr := literal (.int32 n) ty

/-- The accumulator, and what it accumulates, for a sequence method on the grouping. Counting sums
a one for each element, or for each element that satisfies the predicate. -/
def grouped? (method : String) (fn : Option Lambda) (ty : Ty) :
    Option (AccumulatorFn × Option Lambda) :=
  match method, fn with
  | "First", none => some (.first, none)
  | "Last", none => some (.last, none)
  | "Min", fn => some (.min, fn)
  | "Max", fn => some (.max, fn)
  | "Sum", fn => some (.sum, fn)
  | "Average", fn => some (.avg, fn)
  | "Select", some fn => some (.push, some fn)
  | "Count", fn => some (.sum, some (counting fn))
  | "LongCount", fn => some (.sum, some (counting fn))
  | _, _ => none
where
  counting : Option Lambda → Lambda
    | none => ⟨[], countOf 1 ty⟩
    | some ⟨params, test⟩ => ⟨params, conditional test (countOf 1 ty) (countOf 0 ty) ty⟩

end Expr

namespace Scope

def accumulator? (s : Scope) (method : String) (declaring : Ty) (args : List Expr) (ty : Ty) :
    Option Expr :=
  if s.group.isSome && declaring = .enumerable then
    match args with
    | [.accumulate .push source selector _] =>
      (AccumulatorFn.following? method).map fun fn => .accumulate fn source selector ty
    | [source] => ofGrouping source none
    | [source, .lambda fn] => ofGrouping source (some fn)
    | _ => none
  else none
where
  ofGrouping (source : Expr) (fn : Option Lambda) : Option Expr :=
    if s.isGrouping source then
      (Expr.grouped? method fn ty).map fun (fn, selector) => .accumulate fn source selector ty
    else none

end Scope

end QueryStage
