import QueryStage.Expr.Rerooting
import QueryStage.Lowering.Basic

/-!
# Lowering moved expressions

Lowering an expression whose paths have been moved is lowering the expression itself with the move
added to the map of paths. So the body of a loop over a bound source is lowered as if all paths
under the source had been moved to the loop variable first.
-/

namespace QueryStage.Expr

@[simp] theorem boundPath?_mapPaths (f : Path → Path) (e : Expr) :
    (e.mapPaths f).boundPath? = e.boundPath?.map f := by
  cases e with
  | call receiver => cases receiver <;> rfl
  | accumulate fn source selector => rcases selector with _ | ⟨params, body⟩ <;> rfl
  | lambda fn => obtain ⟨params, body⟩ := fn; rfl
  | _ => rfl

@[simp] theorem comparison?_mapPaths (f : Path → Path) (e : Expr) :
    (e.mapPaths f).comparison? = e.comparison? := by
  cases e with
  | call receiver => cases receiver <;> rfl
  | accumulate fn source selector => rcases selector with _ | ⟨params, body⟩ <;> rfl
  | lambda fn => obtain ⟨params, body⟩ := fn; rfl
  | _ => rfl

@[simp] theorem overGroup_mapPaths (f : Path → Path) (e : Expr) :
    (e.mapPaths f).overGroup = e.overGroup := by
  simp [overGroup, isAccumulator]

private theorem selection?_mapPaths (paths f : Path → Path) (source? : Option Path) (e : Expr) :
    selection? paths source? (e.mapPaths f) = selection? (paths ∘ f) source? e := by
  cases e with
  | call receiver => cases receiver <;> cases source? <;> rfl
  | accumulate fn source selector =>
    rcases selector with _ | ⟨params, body⟩ <;> cases source? <;> rfl
  | lambda fn => obtain ⟨params, body⟩ := fn; cases source? <;> rfl
  | document inner path decoder => cases path <;> cases source? <;> rfl
  | _ => cases source? <;> rfl

private theorem loopPaths_comp (paths f : Path → Path) (source? : Option Path)
    (params : List Parameter) :
    loopPaths paths source? params ∘ f = loopPaths (paths ∘ f) source? params := by
  unfold loopPaths
  split <;> rfl

theorem lowerLoop_eq_none (unit : StringUnit) (paths : Path → Path) (source : Expr) {e : Expr}
    (h : e.kind ≠ .lambda) : lowerLoop unit paths [source, e] = none := by
  cases e with
  | lambda fn => exact absurd rfl h
  | _ => rfl

theorem lowerLoop_eq_none_of_long (unit : StringUnit) (paths : Path → Path) (source e next : Expr)
    (es : List Expr) : lowerLoop unit paths (source :: e :: next :: es) = none := by
  cases e with
  | lambda fn => obtain ⟨params, body⟩ := fn; rfl
  | _ => rfl

private theorem lowerLoop_mapPaths (unit : StringUnit) (paths f : Path → Path) (args : List Expr)
    (ih : ∀ params body, lambda ⟨params, body⟩ ∈ args →
      ∀ paths, (body.mapPaths f).lower unit paths = body.lower unit (paths ∘ f)) :
    lowerLoop unit paths (args.map (mapPaths f)) = lowerLoop unit (paths ∘ f) args := by
  match args with
  | [] => rfl
  | [_] => rfl
  | _ :: _ :: _ :: _ => simp only [List.map_cons, lowerLoop_eq_none_of_long]
  | [source, e] =>
    by_cases h : e.kind = .lambda
    · cases e with
      | lambda fn =>
        obtain ⟨params, body⟩ := fn
        have hbody := ih params body (by simp)
        simp [lowerLoop, mapPaths, hbody, selection?_mapPaths, loopPaths_comp]
      | _ => cases h
    · have h' : (e.mapPaths f).kind ≠ .lambda := by simpa using h
      simp [lowerLoop_eq_none unit _ _ h, lowerLoop_eq_none unit _ _ h']

/-- Lowering under a map of paths is the same before and after paths are moved by another. -/
theorem lower_mapPaths (unit : StringUnit) (f : Path → Path) (e : Expr) : ∀ paths : Path → Path,
    (e.mapPaths f).lower unit paths = e.lower unit (paths ∘ f) := by
  induction e with
  | literal value ty => intro paths; rfl
  | parameter p => intro paths; rfl
  | member target name declaring ty ih => intro paths; simp [mapPaths, lower, ih]
  | binary op left right ty ihl ihr => intro paths; simp [mapPaths, lower, ihl, ihr]
  | unary op operand ty ih => intro paths; simp [mapPaths, lower, ih]
  | conditional test ifTrue ifFalse ty iht iha ihb =>
    intro paths
    simp [mapPaths, lower, iht, iha, ihb]
  | call receiver method declaring args ty ihr iha ihb =>
    intro paths
    have hargs : args.map (lower unit paths ∘ mapPaths f) = args.map (lower unit (paths ∘ f)) :=
      List.map_congr_left fun e he => iha e he paths
    have hcomparison : (args.getLast?.map (mapPaths f)).bind comparison? =
        args.getLast?.bind comparison? := by
      cases args.getLast? <;> simp
    have hgroup : (args.head?.map (mapPaths f)).any overGroup = args.head?.any overGroup := by
      cases args.head? <;> simp
    have hloop := lowerLoop_mapPaths unit paths f args ihb
    cases receiver with
    | none => simp [mapPaths, lower, hargs, hcomparison, hgroup, hloop]
    | some r => simp [mapPaths, lower, hargs, hcomparison, hgroup, hloop, ihr r rfl]
  | lambda params body ih => intro paths; simp [mapPaths, lower]
  | construct ty parameters args members ih =>
    intro paths
    have hargs : args.map (lower unit paths ∘ mapPaths f) = args.map (lower unit (paths ∘ f)) :=
      List.map_congr_left fun e he => ih e he paths
    simp [mapPaths, lower, hargs]
  | accumulate fn source selector ty ihs ihb =>
    intro paths
    rcases selector with _ | ⟨params, body⟩
    · simp [mapPaths, lower, ihs]
    · simp [mapPaths, lower, ihb params body rfl]
  | field path decoder ty => intro paths; rfl
  | document inner path decoder ih =>
    intro paths
    cases path with
    | none => simp [mapPaths, lower, ih, isParameter]
    | some path => simp [mapPaths, lower]

/-- Lowering in a loop is lowering the body with its paths moved to the loop variable. -/
theorem lower_loopPaths (unit : StringUnit) (source : Path) (p : Parameter) (body : Expr) :
    body.lower unit (loopPaths id (some source) [p]) =
      (body.reroot source (Path.loopVariable p.name)).lower unit id :=
  (lower_mapPaths unit _ body id).symm

end QueryStage.Expr
