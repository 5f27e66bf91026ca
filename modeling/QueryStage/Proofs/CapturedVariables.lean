import QueryStage.Proofs.Relocation
import QueryStage.Proofs.VariableScopes

/-!
# Captured variables

A loop moves all that is below its source to its variable, and a variable is known by its name. So a
node may end up at a variable that is not its own, where two lambdas have the same name for their
parameters. The lambdas that are lowered are listed with the names around them and the map of paths
inside of them, and two names are kept apart if no node that is listed so is captured.
-/

namespace QueryStage

instance (x : String) (p : Path) : Decidable (p.AtVariable x) :=
  inferInstanceAs (Decidable (_ = _))

theorem Path.atVariable_reroot {x y : String} {old p : Path}
    (h : (reroot old (loopVariable x) p).AtVariable y) : p.AtVariable y ∨ y = x := by
  cases hstarts : p.startsWith old with
  | false =>
    rw [reroot_of_not_startsWith hstarts] at h
    exact .inl h
  | true =>
    obtain ⟨rest, hrest⟩ := (startsWith_iff p old).mp hstarts
    obtain rfl : p = ⟨old.segments ++ rest⟩ := by rw [← hrest]
    rw [reroot_append] at h
    exact .inr (atVariable_loopVariable.mp h)

/-- A lambda that is lowered, the names that are declared around it and the map of paths in it. -/
structure LoweredLambda where
  fn : Lambda
  around : List String
  paths : Path → Path

/-- In a lambda with the parameter `w` no node ends up at `v`, and none is at `w` already if there
is a `v` around. In one with the parameter `v` inside of `w` no node ends up at `w`. -/
def LoweredLambda.Apart (v w : String) (l : LoweredLambda) : Prop :=
  (l.fn.params.map Parameter.name = [w] → ∀ p ∈ l.fn.body.boundPaths,
    ¬ (l.paths p).AtVariable v ∧ (v ∈ l.around → ¬ p.AtVariable w)) ∧
  (l.fn.params.map Parameter.name = [v] → w ∈ l.around → ∀ p ∈ l.fn.body.boundPaths,
    ¬ (l.paths p).AtVariable w)

instance (v w : String) (l : LoweredLambda) : Decidable (l.Apart v w) :=
  inferInstanceAs (Decidable (_ ∧ _))

namespace Expr

mutual

/-- The lambdas that are lowered in an expression, where these names are declared around it and
paths are mapped so. A selector is lowered where its accumulator is, and the source of an
accumulator with a selector is not lowered. -/
def loweredLambdas (around : List String) (paths : Path → Path) : Expr → List LoweredLambda
  | literal _ _ => []
  | parameter _ => []
  | member target _ _ _ => target.loweredLambdas around paths
  | binary _ left right _ => left.loweredLambdas around paths ++ right.loweredLambdas around paths
  | unary _ operand _ => operand.loweredLambdas around paths
  | conditional test ifTrue ifFalse _ =>
    test.loweredLambdas around paths ++
      (ifTrue.loweredLambdas around paths ++ ifFalse.loweredLambdas around paths)
  | call none _ _ args _ => lambdasOfEach around paths args ++ lambdasOfLoop around paths args
  | call (some receiver) _ _ args _ =>
    receiver.loweredLambdas around paths ++
      (lambdasOfEach around paths args ++ lambdasOfLoop around paths args)
  | lambda _ => []
  | construct _ _ args _ => lambdasOfEach around paths args
  | accumulate _ source none _ => source.loweredLambdas around paths
  | accumulate _ _ (some ⟨params, body⟩) _ =>
    ⟨⟨params, body⟩, around, paths⟩ ::
      body.loweredLambdas (params.map Parameter.name ++ around) paths
  | field _ _ _ => []
  | document _ (some _) _ => []
  | document inner none _ => inner.loweredLambdas around paths

def lambdasOfEach (around : List String) (paths : Path → Path) : List Expr → List LoweredLambda
  | [] => []
  | e :: es => e.loweredLambdas around paths ++ lambdasOfEach around paths es

def lambdasOfLoop (around : List String) (paths : Path → Path) : List Expr → List LoweredLambda
  | [source, lambda ⟨params, body⟩] =>
    let inner := loopPaths paths (source.boundPath?.map paths) params
    ⟨⟨params, body⟩, around, inner⟩ ::
      body.loweredLambdas (params.map Parameter.name ++ around) inner
  | _ => []

end

/-- The two names are apart in all lambdas that are lowered. -/
def Uncaptured (v w : String) (around : List String) (paths : Path → Path) (e : Expr) : Prop :=
  ∀ l ∈ e.loweredLambdas around paths, l.Apart v w

instance (v w : String) (around : List String) (paths : Path → Path) (e : Expr) :
    Decidable (e.Uncaptured v w around paths) :=
  inferInstanceAs (Decidable (∀ l ∈ e.loweredLambdas around paths, l.Apart v w))

variable {v w : String} {closed around outer : List String} {f : Path → Path} {e : Expr}

@[simp] theorem mem_lambdasOfEach {es : List Expr} {l : LoweredLambda} :
    l ∈ lambdasOfEach around f es ↔ ∃ e ∈ es, l ∈ e.loweredLambdas around f := by
  induction es with
  | nil => simp [lambdasOfEach]
  | cons e es ih => simp [lambdasOfEach, ih]

/-- The arguments of a call, of which a loop may be made. -/
def loopArgs : Expr → List Expr
  | call _ _ _ args _ => args
  | _ => []

/-- What is lowered in an expression is lowered in one of its parts, or in its loop. -/
theorem mem_loweredLambdas_iff (hopen : e.isOpen = true) {l : LoweredLambda} :
    l ∈ e.loweredLambdas around f ↔
      (∃ part ∈ e.parts, l ∈ part.loweredLambdas around f) ∨
        l ∈ lambdasOfLoop around f e.loopArgs := by
  cases e with
  | lambda | accumulate | document => cases hopen
  | call receiver =>
    cases receiver with
    | none => simp [loweredLambdas, parts, loopArgs]
    | some receiver => simp [loweredLambdas, parts, loopArgs, or_assoc]
  | _ => simp [loweredLambdas, parts, loopArgs, lambdasOfLoop]

namespace Uncaptured

theorem part (h : e.Uncaptured v w around f) (hopen : e.isOpen = true) {part : Expr}
    (hpart : part ∈ e.parts) : part.Uncaptured v w around f :=
  fun l hl => h l ((mem_loweredLambdas_iff hopen).mpr (.inl ⟨part, hpart, hl⟩))

theorem loop {receiver : Option Expr} {method : String} {declaring ty : Ty} {source body : Expr}
    {params : List Parameter}
    (h : (call receiver method declaring [source, lambda ⟨params, body⟩] ty).Uncaptured v w
      around f) :
    LoweredLambda.Apart v w
        ⟨⟨params, body⟩, around, loopPaths f (source.boundPath?.map f) params⟩ ∧
      body.Uncaptured v w (params.map Parameter.name ++ around)
        (loopPaths f (source.boundPath?.map f) params) := by
  have hloop (l : LoweredLambda)
      (hl : l ∈ lambdasOfLoop around f [source, lambda ⟨params, body⟩]) : l.Apart v w :=
    h l ((mem_loweredLambdas_iff rfl).mpr (.inr hl))
  exact ⟨hloop _ List.mem_cons_self, fun l hl => hloop l (List.mem_cons_of_mem _ hl)⟩

theorem selector {fn : AccumulatorFn} {source body : Expr} {params : List Parameter} {ty : Ty}
    (h : (accumulate fn source (some ⟨params, body⟩) ty).Uncaptured v w around f) :
    LoweredLambda.Apart v w ⟨⟨params, body⟩, around, f⟩ ∧
      body.Uncaptured v w (params.map Parameter.name ++ around) f :=
  ⟨h _ List.mem_cons_self, fun l hl => h l (List.mem_cons_of_mem _ hl)⟩

end Uncaptured

theorem mem_scopedParts_of_mem_parts {part : Expr} (h : part ∈ e.parts) :
    (∃ names, (names, part) ∈ e.scopedParts) ∨ part.boundPaths = [] := by
  cases e with
  | lambda fn =>
    rw [List.mem_singleton.mp h]
    exact .inl ⟨_, List.mem_singleton_self _⟩
  | accumulate _ source selector =>
    cases selector with
    | none => exact .inl ⟨[], List.mem_map_of_mem h⟩
    | some fn =>
      rcases List.mem_pair.mp h with rfl | rfl
      · exact .inl ⟨_, List.mem_cons_self⟩
      · exact .inl ⟨_, List.mem_cons_of_mem _ List.mem_cons_self⟩
  | document inner =>
    rw [List.mem_singleton.mp h]
    cases inner with
    | parameter => exact .inr rfl
    | _ => exact .inl ⟨[], List.mem_singleton_self _⟩
  | _ => exact .inl ⟨[], List.mem_map_of_mem h⟩

theorem Scoped.within {strict : Bool} (h : e.Scoped strict v w closed outer) {p : Path}
    (hp : p ∈ e.boundPath?.toList) : p.Within v w outer := by
  have hself := h.self
  cases e with
  | field path => exact (List.mem_singleton.mp hp) ▸ hself
  | document inner path =>
    cases path with
    | none => cases hp
    | some path => exact (List.mem_singleton.mp hp) ▸ hself
  | _ => cases hp

end Expr

end QueryStage
