import QueryStage.Proofs.ExpressionForms
import QueryStage.Proofs.FusedAccumulators
import QueryStage.Proofs.Withholding

/-!
# Computed values

Lowering either passes a part of an expression on as it is, emits a text, or applies an operator.
Conversions, the value of an optional and the methods that keep a sequence are the only nodes that
pass a part on.
-/

namespace QueryStage

/-- A value that a stage computes: a text, or an operator with its argument. -/
inductive Bson.Computed : Bson → Prop
  | text (s : String) : Computed (.string s)
  | application {operator : String} (argument : Bson)
    (h : Literal.readsAsReference operator = true) : Computed (.apply operator argument)

open Bson (Computed)

theorem Ensures.after {ε α β : Type} {Q : β → Prop} {x : Except ε α} {f : α → Except ε β}
    (h : ∀ a, Ensures Q (f a)) : Ensures Q (x >>= f) := by
  intro b hb
  obtain ⟨a, -, hb⟩ := bind_eq_ok_iff.mp hb
  exact h a b hb

theorem BinaryOp.computed_emit (op : BinaryOp) (ty : Ty) (left right : Bson) :
    Computed (op.emit ty left right) := by
  rw [emit_eq]
  exact .application _ (Bson.Expression.operands?_operatorOn op ty).2

theorem UnaryOp.computed_emit {op : UnaryOp} (h : op ≠ .convert) (b : Bson) :
    Computed (op.emit b) := by
  cases op with
  | not => cases b <;> exact .application _ (by decide)
  | convert => exact absurd rfl h
  | arrayLength => exact .application _ (by decide)

theorem AccumulatorFn.computed_apply (fn : AccumulatorFn) (b : Bson) :
    Computed (Bson.apply fn.operator b) := by
  cases fn <;> exact .application _ (by decide)

theorem Ty.computed?_cases {unit : StringUnit} {ty : Ty} {name : String} {f : Bson → Bson}
    (h : ty.computed? unit name = some f) :
    (name = "Value" ∧ f = id) ∨ (name ≠ "Value" ∧ ∀ b, Computed (f b)) := by
  have hpart (h : datePart? name = some f) (b : Bson) : Computed (f b) := by
    unfold datePart? at h
    split at h
    all_goals first | cases h; exact .application _ (by decide) | cases h
  unfold computed? at h
  split at h
  · rename_i g hg
    cases h
    split at hg
    · refine .inr ⟨?_, hpart hg⟩
      rintro rfl
      cases hg
    · cases hg
  · split at h
    · split at h
      · cases h
        exact .inr ⟨by decide, fun b => .application _ (by decide)⟩
      · cases h
    · split at h
      · cases h
        exact .inr ⟨by decide, fun b => .application _ (by decide)⟩
      · split at h
        · cases h
          exact .inr ⟨by decide, fun b => .application _ (by cases unit <;> decide)⟩
        · cases h
    · split at h
      · cases h
        exact .inl ⟨rfl, rfl⟩
      · cases h
    · cases h

namespace MethodCall

variable {c : MethodCall}

theorem computed_spread {operator : String} (h : Literal.readsAsReference operator = true)
    (bs : List Bson) : Computed (spread operator bs) := by
  unfold spread
  split <;> exact .application _ h

theorem computed_general (c : MethodCall) : Ensures Computed c.lowerGeneral := by
  unfold lowerGeneral
  split
  · exact .after fun bs => .ok (.application _ (by decide))
  · exact .after fun bs => .ok (.application _ (by decide))
  · exact .error _

theorem computed_collection (c : MethodCall) : Ensures Computed c.lowerCollection := by
  unfold lowerCollection
  split
  · exact .after fun bs => .ok (.application _ (by decide))
  · exact .after fun bs => .ok (.application _ (by decide))
  · exact .after fun bs => .ok (.application _ (by decide))
  · exact computed_general c

theorem computed_math (c : MethodCall) : Ensures Computed c.lowerMath := by
  unfold lowerMath
  split
  · rename_i operator hoperator
    have hreads : Literal.readsAsReference operator = true := by
      unfold mathOperator? at hoperator
      split at hoperator
      all_goals first | cases hoperator; decide | cases hoperator
    exact .after fun bs => .ok (computed_spread hreads bs)
  · exact .error _

theorem computed_function (c : MethodCall) {operator : String}
    (h : Literal.readsAsReference operator = true) (arity : Nat) :
    Ensures Computed (c.lowerFunction operator arity) := by
  refine .after fun bs => ?_
  split
  · exact .ok (computed_spread h bs)
  · exact .error _

theorem computed_substring (c : MethodCall) (unit : StringUnit) :
    Ensures Computed (c.lowerSubstring unit) := by
  have hreads : Literal.readsAsReference unit.substringOperator = true := by
    cases unit <;> decide
  refine .after fun bs => ?_
  split
  · exact .ok (.application _ hreads)
  · exact .ok (.application _ hreads)
  · exact .error _

theorem computed_trim (c : MethodCall) {operator : String}
    (h : Literal.readsAsReference operator = true) : Ensures Computed (c.lowerTrim operator) := by
  refine .after fun bs => ?_
  split
  · exact .ok (.application _ h)
  · exact .ok (.application _ h)
  · exact .error _

theorem computed_stringEquals (c : MethodCall) : Ensures Computed c.lowerStringEquals := by
  have hcompare (comparison : StringComparison) :
      Ensures Computed (lowerStringEquals.compareAs c comparison) := by
    unfold lowerStringEquals.compareAs
    split
    · exact .after fun bs => .ok (.application _ (by decide))
    · exact .after fun bs => .ok (.application _ (by decide))
    · exact .error _
  unfold lowerStringEquals
  split
  · exact hcompare _
  · exact hcompare _
  · exact .error _

theorem computed_string (c : MethodCall) (unit : StringUnit) :
    Ensures Computed (c.lowerString unit) := by
  have hindex : Literal.readsAsReference unit.indexOperator = true := by cases unit <;> decide
  unfold lowerString
  split
  · exact computed_substring c unit
  · exact computed_function c (by decide) 1
  · exact computed_function c (by decide) 1
  · exact computed_function c (by decide) 1
  · exact computed_function c (by decide) 1
  · exact computed_stringEquals c
  · split
    · exact computed_function c hindex _
    · exact computed_general c
  · exact computed_function c (by decide) 2
  · exact computed_trim c (by decide)
  · exact computed_trim c (by decide)
  · exact computed_trim c (by decide)
  · exact computed_general c

end MethodCall

/-- A method whose forms compute a value, except that it may leave the result of a loop as it is. -/
structure SequenceMethod.Computes (m : SequenceMethod) : Prop where
  alone : ∀ f, m.alone = some f → ∀ a, Computed (f a)
  each : ∀ kind f, m.each = some (kind, f) → f = id ∨ ∀ a, Computed (f a)
  pair : ∀ f, m.pair = some f → ∀ a b, Computed (f a b)

namespace SequenceMethod

variable {f g : Bson → Bson}

theorem computes_alone (hf : ∀ a, Computed (f a)) : Computes { alone := some f } :=
  ⟨by simpa using hf, by simp, by simp⟩

theorem computes_each (kind : LoopKind) (hg : g = id ∨ ∀ a, Computed (g a)) :
    Computes { each := some (kind, g) } :=
  ⟨by simp, by simpa using hg, by simp⟩

theorem computes_both (kind : LoopKind) (hf : ∀ a, Computed (f a)) (hg : ∀ a, Computed (g a)) :
    Computes { alone := some f, each := some (kind, g) } :=
  ⟨by simpa using hf, by simpa using .inr hg, by simp⟩

theorem computes_pair {f : Bson → Bson → Bson} (hf : ∀ a b, Computed (f a b)) :
    Computes { pair := some f } :=
  ⟨by simp, by simp, by simpa using hf⟩

theorem computes_named {method : String} (h : method ∉ Expr.passingMethods) :
    (named method).Computes := by
  have one {operator : String} (h : Literal.readsAsReference operator = true) (a : Bson) :
      Computed (Bson.apply operator a) := .application a h
  have list {operator : String} (h : Literal.readsAsReference operator = true)
      (items : Bson → List Bson) (a : Bson) : Computed (Bson.applyAll operator (items a)) :=
    .application _ h
  have two {operator : String} (h : Literal.readsAsReference operator = true)
      (items : Bson → Bson → List Bson) (a b : Bson) :
      Computed (Bson.applyAll operator (items a b)) := .application _ h
  unfold named
  split
  · exact computes_each .map (.inl rfl)
  · exact computes_each .filter (.inl rfl)
  · exact computes_both .map (list (by decide) _) (list (by decide) _)
  · exact computes_each .map (.inr (list (by decide) _))
  · exact computes_both .filter (one (by decide)) (one (by decide))
  · exact computes_both .filter (one (by decide)) (one (by decide))
  · exact computes_pair (two (by decide) _)
  · exact computes_pair (two (by decide) _)
  · exact computes_pair (two (by decide) _)
  · exact computes_alone (list (by decide) _)
  · exact computes_pair (two (by decide) _)
  · exact computes_both .filter (list (by decide) _) (list (by decide) _)
  · exact computes_alone (list (by decide) _)
  · exact computes_pair (two (by decide) _)
  · exact computes_pair (two (by decide) _)
  · exact computes_both .map (one (by decide)) (one (by decide))
  · exact computes_both .map (one (by decide)) (one (by decide))
  · exact computes_both .map (one (by decide)) (one (by decide))
  · exact computes_both .map (one (by decide)) (one (by decide))
  · exact absurd (by decide) h
  · exact absurd (by decide) h
  · exact absurd (by decide) h
  · exact ⟨by simp, by simp, by simp⟩

end SequenceMethod

theorem Loop.computed_emit {l : Loop} (kind : LoopKind) {source : Lowered}
    (hsource : l.selection = some .element → Ensures Computed source) :
    Ensures Computed (l.emit kind source) := by
  have hiterate (kind : LoopKind) : Ensures Computed (l.iterate kind source) := by
    refine .after fun binder => .after fun body => .after fun input => .ok ?_
    cases kind <;> exact .application _ (by decide)
  rw [emit_eq]
  split
  · exact .ok (.text _)
  · exact hsource ‹_›
  · exact hiterate _

theorem SequenceMethod.Computes.emit {m : SequenceMethod} (hm : m.Computes) (unsupported : Fault)
    {source : Lowered} {loop : Option Loop}
    (hloop : ∀ l, loop = some l → l.selection = some .element → Ensures Computed source)
    (operands : List Lowered) : Ensures Computed (m.emit unsupported source loop operands) := by
  rcases operands with _ | ⟨operand, _ | ⟨next, rest⟩⟩
  · simp only [SequenceMethod.emit]
    split
    · rename_i f hf
      exact .after fun a => .ok (hm.alone f hf a)
    · exact .error _
  · simp only [SequenceMethod.emit]
    split
    · rename_i l kind f heach
      rcases hm.each kind f heach with rfl | hf
      · exact (Loop.computed_emit kind (hloop l rfl)).bind fun a ha => .ok ha
      · exact .after fun a => .ok (hf a)
    · split
      · rename_i f hf
        exact .after fun a => .after fun b => .ok (hm.pair f hf a b)
      · exact .error _
  · exact .error _

theorem SequenceMethod.emit_keep {unsupported : Fault} {source : Lowered} {loop : Option Loop}
    {operands : List Lowered} {b : Bson}
    (h : keep.emit unsupported source loop operands = .ok b) : operands = [] ∧ source = .ok b := by
  rcases operands with _ | ⟨operand, _ | ⟨next, rest⟩⟩
  · obtain ⟨a, ha, h⟩ := bind_eq_ok_iff.mp h
    cases h
    exact ⟨rfl, ha⟩
  · cases loop <;> cases h
  · cases h

/-- A call keeps its only argument, or computes a value. -/
theorem MethodCall.lower_cases {unit : StringUnit} {c : MethodCall} {b : Bson}
    (hloop : ∀ l, c.loop = some l → l.selection = some .element → ∀ source ∈ c.args.head?,
      Ensures Computed source) (h : c.lower unit = .ok b) :
    if c.declaring = .enumerable ∧ c.method ∈ Expr.passingMethods then c.args = [.ok b]
    else Computed b := by
  by_cases hdeclaring : c.declaring = .enumerable
  · have hsequence : c.lowerSequence = .ok b := by
      rwa [lower, (family_eq_sequence_iff _).mpr hdeclaring] at h
    unfold lowerSequence at hsequence
    split at hsequence
    · cases hsequence
    · rename_i source operands hargs
      split at hsequence
      · cases hsequence
      · by_cases hmethod : c.method ∈ Expr.passingMethods
        · rw [Expr.named_of_passing hmethod] at hsequence
          obtain ⟨rfl, rfl⟩ := SequenceMethod.emit_keep hsequence
          rw [if_pos ⟨hdeclaring, hmethod⟩, hargs]
        · rw [if_neg fun hboth => hmethod hboth.2]
          refine (SequenceMethod.computes_named hmethod).emit _ (fun l hl helement => ?_) operands b
            hsequence
          exact hloop l hl helement source (by rw [hargs]; rfl)
  · rw [if_neg fun hboth => hdeclaring hboth.1]
    unfold lower at h
    split at h
    · exact absurd ((family_eq_sequence_iff _).mp ‹_›) hdeclaring
    · exact computed_math c b h
    · exact computed_string c unit b h
    · exact computed_collection c b h
    · exact computed_general c b h

namespace Expr

variable {unit : StringUnit} {paths : Path → Path} {b : Bson}

theorem computed_of_boundPath? {e : Expr} {path : Path} (h : e.boundPath? = some path) :
    Ensures Computed (e.lower unit paths) := by
  cases e with
  | field => exact .ok (.text _)
  | document inner held d =>
    rw [boundPath?] at h
    rw [h]
    exact .ok (.text _)
  | _ => cases h

/-- The part of an expression that is lowered in its place. -/
def passed? : Expr → Option Expr
  | unary .convert e _ => some e
  | member e name _ _ => if name = "Value" then some e else none
  | call _ method declaring [e] _ =>
    if declaring = .enumerable ∧ method ∈ passingMethods then some e else none
  | document e none _ => if e.isParameter then none else some e
  | _ => none

/-- What is emitted for an expression is what it passes on, a literal, a construction or a computed
value. -/
inductive Emits (unit : StringUnit) (paths : Path → Path) : Expr → Bson → Prop
  | passed {e x : Expr} {b : Bson} (hx : e.passed? = some x) (h : x.lower unit paths = .ok b) :
    Emits unit paths e b
  | literal {value : Literal} {ty : Ty} {b : Bson} (h : value.lower ty = .ok b) :
    Emits unit paths (literal value ty) b
  | construct {ty : Ty} {parameters : List String} {args : List Expr}
    {members : Option (List String)} {shape : Entries Bson}
    (h : shapeOf ty parameters (args.map (lower unit paths)) = .ok shape) :
    Emits unit paths (construct ty parameters args members) (emitShape shape)
  | computed {e : Expr} {b : Bson} (hx : e.passed? = none) (h : Computed b) : Emits unit paths e b

theorem emits_call {receiver : Option Expr} {method : String} {declaring ty : Ty}
    {args : List Expr}
    (h : (call receiver method declaring args ty).lower unit paths = .ok b) :
    Emits unit paths (call receiver method declaring args ty) b := by
  -- a loop that selects the elements themselves has a bound source, which is lowered to a text
  have hloop : ∀ l, lowerLoop unit paths args = some l → l.selection = some .element →
      ∀ source ∈ (lowerEach unit paths args).head?, Ensures Computed source := by
    intro l hl helement source hsource
    obtain ⟨items, params, body, rfl, -, hselection⟩ := lowerLoop_cases hl
    rw [helement] at hselection
    cases hsource
    cases hpath : items.boundPath? with
    | none =>
      rw [hpath] at hselection
      cases hselection
    | some path => exact computed_of_boundPath? hpath
  rw [lower] at h
  have hcases := MethodCall.lower_cases hloop h
  split at hcases
  · rename_i hpasses
    rw [lowerEach_eq_map] at hcases
    obtain ⟨e, rfl, he⟩ := List.map_eq_singleton_iff.mp hcases
    exact .passed (if_pos hpasses) he
  · rename_i hpasses
    refine .computed ?_ hcases
    unfold passed?
    split <;> simp_all

theorem emits_of_lower {e : Expr} (h : e.lower unit paths = .ok b) : Emits unit paths e b := by
  cases e with
  | literal value ty => exact .literal h
  | parameter p => cases h
  | member target name declaring ty =>
    rw [lower] at h
    split at h
    · rename_i f hf
      obtain ⟨a, ha, h⟩ := bind_eq_ok_iff.mp h
      cases h
      rcases Ty.computed?_cases hf with ⟨rfl, rfl⟩ | ⟨hname, hcomputed⟩
      · exact .passed rfl ha
      · exact .computed (if_neg hname) (hcomputed a)
    · cases h
  | binary op left right ty =>
    simp only [lower, bind_eq_ok_iff, pure_eq_ok, Except.ok.injEq] at h
    obtain ⟨l, -, r, -, rfl⟩ := h
    exact .computed rfl (op.computed_emit left.ty l r)
  | unary op operand ty =>
    simp only [lower, bind_eq_ok_iff, pure_eq_ok, Except.ok.injEq] at h
    obtain ⟨a, ha, rfl⟩ := h
    cases op with
    | convert => exact .passed rfl ha
    | not => exact .computed rfl (UnaryOp.computed_emit (by decide) a)
    | arrayLength => exact .computed rfl (UnaryOp.computed_emit (by decide) a)
  | conditional test ifTrue ifFalse ty =>
    simp only [lower, bind_eq_ok_iff, pure_eq_ok, Except.ok.injEq] at h
    obtain ⟨t, -, x, -, y, -, rfl⟩ := h
    exact .computed rfl (.application _ (by decide))
  | call receiver method declaring args ty => exact emits_call h
  | lambda fn =>
    obtain ⟨params, body⟩ := fn
    cases h
  | construct ty parameters args members =>
    obtain ⟨shape, hshape, rfl⟩ := lower_construct_cases h
    exact .construct hshape
  | accumulate fn source selector ty =>
    rcases selector with _ | ⟨params, body⟩
    · simp only [lower, bind_eq_ok_iff, pure_eq_ok, Except.ok.injEq] at h
      obtain ⟨a, -, rfl⟩ := h
      exact .computed rfl (fn.computed_apply a)
    · simp only [lower, bind_eq_ok_iff, pure_eq_ok, Except.ok.injEq] at h
      obtain ⟨a, -, rfl⟩ := h
      exact .computed rfl (fn.computed_apply a)
  | field path d ty =>
    cases h
    exact .computed rfl (.text _)
  | document inner path d =>
    cases path with
    | some path =>
      cases h
      exact .computed rfl (.text _)
    | none =>
      rw [lower] at h
      split at h
      · rename_i hparameter
        cases h
        exact .computed (if_pos hparameter) (.text _)
      · rename_i hparameter
        exact .passed (if_neg hparameter) h

end Expr

end QueryStage
