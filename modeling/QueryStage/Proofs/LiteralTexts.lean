import QueryStage.Proofs.BlankTexts
import QueryStage.Proofs.Orders
import QueryStage.Proofs.References
import QueryStage.Proofs.RelatedLowering
import QueryStage.Proofs.StageParts

/-!
# Texts of literals

The texts of string literals have no part in what a stage reads. A text is emitted as a value or,
where it looks like a reference, under a quote; the quote changes the form in which the operators
above it are written, but not the fields and variables that stand below them, nor their order.
-/

namespace QueryStage

namespace Bson

mutual

/-- The texts that stand for fields or variables, in the order in which they are met. What is quoted
stands for itself. -/
def readings : Bson → List String
  | string s => if Literal.readsAsReference s then [s] else []
  | array items => readingsAmong items
  | document fields => readingsOf fields
  | _ => []

def readingsAmong : List Bson → List String
  | [] => []
  | b :: bs => b.readings ++ readingsAmong bs

def readingsOf : List (String × Bson) → List String
  | [] => []
  | (key, b) :: fields => (if key = "$literal" then [] else b.readings) ++ readingsOf fields

end

theorem readingsAmong_append (as bs : List Bson) :
    readingsAmong (as ++ bs) = readingsAmong as ++ readingsAmong bs := by
  induction as with
  | nil => rfl
  | cons a as ih => simp [readingsAmong, ih]

theorem readings_apply {operator : String} (h : operator ≠ "$literal") (b : Bson) :
    (apply operator b).readings = b.readings := by
  simp [apply, readings, readingsOf, h]

theorem readings_applyAll {operator : String} (h : operator ≠ "$literal") (operands : List Bson) :
    (applyAll operator operands).readings = readingsAmong operands := by
  rw [applyAll, readings_apply h, readings]

theorem readings_binary (op : BinaryOp) (ty : Ty) (a b : Bson) :
    (op.emit ty a b).readings = a.readings ++ b.readings := by
  have hop := op.operatorOn_ne_literal ty
  rw [BinaryOp.emit_eq, readings_applyAll hop]
  split
  · rename_i operands hchained
    have ha : a = applyAll (op.operatorOn ty) operands := by
      split at hchained
      · exact eq_of_chained? hchained
      · cases hchained
    rw [ha, readings_applyAll hop, readingsAmong_append]
    simp [readingsAmong]
  · simp [readingsAmong]

theorem readings_not (b : Bson) : (UnaryOp.not.emit b).readings = b.readings := by
  rw [UnaryOp.emit_not]
  split
  · rw [readings_applyAll (by decide)]
    simp [readingsAmong]
  · exact readings_apply (by decide) b

/-- Two values that read the same fields and variables in the same order. -/
def ReadsAlike (a b : Bson) : Prop := a.readings = b.readings

theorem congruence_readsAlike : Congruence ReadsAlike where
  literal _ := rfl
  current := rfl
  array h := by
    rw [ReadsAlike, readings, readings]
    induction h with
    | nil => rfl
    | cons hab _ ih => rw [readingsAmong, readingsAmong, hab, ih]
  document h := by
    rw [ReadsAlike, readings, readings]
    induction h with
    | nil => rfl
    | cons key hab _ ih => rw [readingsOf, readingsOf, hab, ih]
  binary op ty a b c d hab hcd := by
    rw [ReadsAlike, readings_binary, readings_binary, hab, hcd]
  negated h := by
    rw [ReadsAlike, readings_not, readings_not]
    exact h

end Bson

namespace Literal

theorem readings_of_string {s : String} {ty : Ty} {b : Bson} (h : (string s).lower ty = .ok b) :
    b.readings = [] := by
  rw [lower, Except.ok.injEq] at h
  subst h
  split
  · rfl
  · rename_i hs
    rw [Bson.readings, if_neg hs]

theorem lower_blank (value : Literal) (ty : Ty) :
    Lifted Bson.ReadsAlike (value.lower ty) (value.blank.lower ty) := by
  cases value with
  | string s =>
    have htext : (string s).lower ty = .ok _ := rfl
    apply Lifted.ok
    rw [Bson.ReadsAlike, readings_of_string htext]
    rfl
  | comparison => exact .error _
  | _ => exact .ok rfl

end Literal

namespace Expr

variable {unit : StringUnit}

theorem boundPath?_blank (e : Expr) : e.blank.boundPath? = e.boundPath? := by
  cases e with
  | call => rw [blank_call]; rfl
  | accumulate => rw [blank_accumulate]; rfl
  | lambda fn => obtain ⟨params, body⟩ := fn; rfl
  | _ => rfl

private theorem comparison?_blank (e : Expr) : e.blank.comparison? = e.comparison? := by
  cases e with
  | literal value => cases value <;> rfl
  | call => rw [blank_call]; rfl
  | accumulate => rw [blank_accumulate]; rfl
  | lambda fn => obtain ⟨params, body⟩ := fn; rfl
  | _ => rfl

private theorem overGroup_blank (e : Expr) : e.blank.overGroup = e.overGroup := by
  rw [overGroup, overGroup, isAccumulator, isAccumulator, kind_blank, ty_blank]

private theorem selection?_blank (paths : Path → Path) (source? : Option Path) (e : Expr) :
    selection? paths source? e.blank = selection? paths source? e := by
  cases e with
  | call => rw [blank_call]; cases source? <;> rfl
  | accumulate => rw [blank_accumulate]; cases source? <;> rfl
  | lambda fn => obtain ⟨params, body⟩ := fn; cases source? <;> rfl
  | document _ path => cases path <;> cases source? <;> rfl
  | _ => cases source? <;> rfl

private theorem selection_refl (x : Option Selection) :
    Option.Rel (Selection.Rel Bson.ReadsAlike) x x := by
  rcases x with _ | _ | _
  · exact .none
  · exact .some (.field rfl)
  · exact .some .element

/-- An expression reads the same whatever its texts are and wherever its paths are moved. -/
def LowersBlank (unit : StringUnit) (e : Expr) : Prop :=
  ∀ paths, Lifted Bson.ReadsAlike (e.lower unit paths) (e.blank.lower unit paths)

private theorem lowerLoop_blank (paths : Path → Path) {args : List Expr}
    (ih : ∀ params body, lambda ⟨params, body⟩ ∈ args → body.LowersBlank unit) :
    Option.Rel (Loop.Rel Bson.ReadsAlike) (lowerLoop unit paths args)
      (lowerLoop unit paths (args.map blank)) := by
  rcases args with _ | ⟨source, _ | ⟨a, _ | ⟨next, rest⟩⟩⟩
  · exact .none
  · exact .none
  · rcases lambda_or_kind_ne a with ⟨params, body, rfl⟩ | hkind
    · simp only [List.map_cons, List.map_nil, blank, lowerLoop, boundPath?_blank, selection?_blank]
      apply Option.Rel.some
      constructor
      · exact selection_refl _
      · intro kind x y hxy
        apply (Lifted.refl _).bind
        rintro binder _ rfl
        apply (ih params body (by simp) _).bind
        intro c d hcd
        apply hxy.bind
        intro a b hab
        exact .ok (Bson.congruence_readsAlike.loop kind rfl hab hcd)
    · have hkind' : a.blank.kind ≠ .lambda := by rwa [kind_blank]
      rw [List.map_cons, List.map_singleton, lowerLoop_eq_none unit paths source hkind,
        lowerLoop_eq_none unit paths _ hkind']
      exact .none
  · simp only [List.map_cons, lowerLoop_eq_none_of_long]
    exact .none

private theorem lowerEach_blank (paths : Path → Path) {args : List Expr}
    (ih : ∀ a ∈ args, a.LowersBlank unit) :
    List.Forall₂ (Lifted Bson.ReadsAlike) (lowerEach unit paths args)
      (lowerEach unit paths (args.map blank)) := by
  rw [lowerEach_eq_map, lowerEach_eq_map, List.forall₂_map_left_iff, List.forall₂_map_right_iff,
    List.forall₂_map_right_iff, List.forall₂_same]
  exact fun a ha => ih a ha paths

theorem lower_blank (unit : StringUnit) (e : Expr) : e.LowersBlank unit := by
  have hB := Bson.congruence_readsAlike
  induction e with
  | literal value ty => exact fun _ => value.lower_blank ty
  | parameter p => exact fun _ => .error _
  | member target name declaring ty ih =>
    intro paths
    rw [blank, lower, lower, ty_blank]
    split
    · rename_i f hf
      apply (ih paths).bind
      exact fun a b hab => .ok (hB.computed hf hab)
    · exact .error _
  | binary op left right ty ihl ihr =>
    intro paths
    rw [blank, lower, lower, ty_blank]
    apply (ihl paths).bind
    intro a b hab
    apply (ihr paths).bind
    exact fun c d hcd => .ok (hB.binary op _ hab hcd)
  | unary op operand ty ih =>
    intro paths
    apply (ih paths).bind
    exact fun a b hab => .ok (hB.unary op hab)
  | conditional test ifTrue ifFalse ty iht iha ihb =>
    intro paths
    apply (iht paths).bind
    intro t t' ht
    apply (iha paths).bind
    intro a a' ha
    apply (ihb paths).bind
    exact fun b b' hb => .ok (hB.applyAll _ (.cons ht (.cons ha (.cons hb .nil))))
  | call receiver method declaring args ty ihr iha ihb =>
    intro paths
    rw [blank_call, lower, lower]
    apply MethodCall.Rel.lower hB
    constructor
    · rfl
    · rfl
    · cases receiver with
      | none => exact .none
      | some e => exact .some (ihr e rfl paths)
    · exact lowerEach_blank paths iha
    · rw [List.getLast?_map]
      cases args.getLast? <;> simp [comparison?_blank]
    · rw [List.head?_map]
      cases args.head? <;> simp [overGroup_blank]
    · exact lowerLoop_blank paths ihb
  | lambda params body ih =>
    intro paths
    rw [blank, lower, lower, ty_blank]
    exact .error _
  | construct ty parameters args members ih =>
    intro paths
    rw [blank, blankAll_eq_map]
    apply (shapeOf_rel ty parameters (lowerEach_blank paths ih)).bind
    exact fun as bs hs => .ok (hB.emitShape hs)
  | accumulate fn source selector ty ihs ihb =>
    intro paths
    rcases selector with _ | ⟨params, body⟩
    · apply (ihs paths).bind
      exact fun a b hab => .ok (hB.apply _ hab)
    · apply (ihb params body rfl paths).bind
      exact fun a b hab => .ok (hB.apply _ hab)
  | field path d ty => exact fun _ => .ok rfl
  | document inner path d ih =>
    intro paths
    cases path with
    | some path => exact .ok rfl
    | none =>
      rw [blank, lower, lower, isParameter, isParameter, kind_blank]
      split
      · exact .ok rfl
      · exact ih paths

theorem lowerShape_blank (unit : StringUnit) (e : Expr) :
    Lifted (Entries.Rel Bson.ReadsAlike) (e.lowerShape unit) (e.blank.lowerShape unit) := by
  by_cases hkind : e.kind = .construction
  · cases e with
    | construct ty parameters args members =>
      have hargs := lowerEach_blank id fun a (_ : a ∈ args) => lower_blank unit a
      rw [lowerEach_eq_map, lowerEach_eq_map] at hargs
      rw [blank, blankAll_eq_map]
      exact shapeOf_rel ty parameters hargs
    | _ => cases hkind
  · have hkind' : e.blank.kind ≠ .construction := by rwa [kind_blank]
    rw [lowerShape_of_kind unit hkind, lowerShape_of_kind unit hkind', kind_blank, ty_blank]
    exact .error _

end Expr

/-- Two stages of one kind with the same decoder that read the same fields and variables, in the
same order. -/
structure Stage.ReadsAlike (s s' : Stage) : Prop where
  kind : s.kind = s'.kind
  decoder : s.decoder = s'.decoder
  readings : s.document.readings = s'.document.readings

namespace Lambda

theorem bindProjector_blank (ds : Decoders) (fn : Lambda) (source : Decoder) :
    Lifted Expr.BlankOf (fn.bindProjector ds source) (fn.blank.bindProjector ds source) := by
  obtain ⟨params, body⟩ := fn
  apply single_rel
  intro p _
  have hbody := Expr.bind_blank ds body (projectorScope p source)
  rwa [projectorScope, Scope.blank_bind] at hbody

theorem bindGroupProjector_blank (ds : Decoders) (fn : Lambda) (source : Decoder) (key : Expr) :
    Lifted Expr.BlankOf (fn.bindGroupProjector ds source key)
      (fn.blank.bindGroupProjector ds source key.blank) := by
  obtain ⟨params, body⟩ := fn
  apply single_rel
  intro g _
  have hbody := Expr.bind_blank ds body (groupScope g source key)
  rwa [groupScope, Scope.blank_bind] at hbody

end Lambda

namespace Stage

theorem requireConstruction_blank (fn : Lambda) :
    requireConstruction fn.blank = requireConstruction fn := by
  simp [requireConstruction, Lambda.blank]

private theorem keyOf_computed {ds : Decoders} {bound : Expr} (hfield : bound.kind ≠ .field)
    (hdocument : bound.kind ≠ .document) :
    keyOf ds bound = (do return .document bound none (← bound.decoder ds)) := by
  cases bound with
  | field => exact absurd rfl hfield
  | document => exact absurd rfl hdocument
  | _ => rfl

theorem keyOf_blank (ds : Decoders) (bound : Expr) :
    Lifted Expr.BlankOf (keyOf ds bound) (keyOf ds bound.blank) := by
  by_cases hfield : bound.kind = .field
  · cases bound with
    | field => exact .ok rfl
    | _ => cases hfield
  by_cases hdocument : bound.kind = .document
  · cases bound with
    | document => exact .ok rfl
    | _ => cases hdocument
  · rw [keyOf_computed hfield hdocument, keyOf_computed, Expr.decoder_blank]
    · apply (Lifted.refl _).bind
      rintro d _ rfl
      exact .ok rfl
    all_goals rwa [Expr.kind_blank]

/-- From a bound body and its blank form the same decoder is made, and the same is read. -/
theorem finish_blank (ds : Decoders) (unit : StringUnit) (kind : StageKind)
    {specify specify' : Entries Bson → Entries Bson}
    (hspecify : ∀ {as bs}, as.Rel Bson.ReadsAlike bs →
      (specify as).Rel Bson.ReadsAlike (specify' bs))
    {bound bound' : Except Fault Expr} (h : Lifted Expr.BlankOf bound bound') :
    Lifted ReadsAlike
      (do
        let body ← bound
        let decoder ← body.decoder ds
        let shape ← body.lowerShape unit
        return { kind, specification := specify shape, decoder })
      (do
        let body ← bound'
        let decoder ← body.decoder ds
        let shape ← body.lowerShape unit
        return { kind, specification := specify' shape, decoder }) := by
  apply h.bind
  rintro b _ rfl
  rw [Expr.decoder_blank]
  apply (Lifted.refl _).bind
  rintro d _ rfl
  apply (b.lowerShape_blank unit).bind
  intro as bs has
  have hB := Bson.congruence_readsAlike
  exact .ok ⟨rfl, rfl, hB.apply kind.operator (hB.document (hspecify has))⟩

theorem ofProjector_blank (ds : Decoders) (options : Options) (source : Decoder)
    (projector : Lambda) :
    Lifted ReadsAlike (ofProjector ds options source projector)
      (ofProjector ds options source projector.blank) := by
  rw [ofProjector, ofProjector, requireConstruction_blank]
  apply (Lifted.refl _).bind
  intro _ _ _
  exact finish_blank ds _ .project (projection_rel Bson.congruence_readsAlike)
    (projector.bindProjector_blank ds source)

theorem ofGroup_blank (ds : Decoders) (options : Options) (source : Decoder)
    (keySelector projector : Lambda) :
    Lifted ReadsAlike (ofGroup ds options source keySelector projector)
      (ofGroup ds options source keySelector.blank projector.blank) := by
  rw [ofGroup, ofGroup, requireConstruction_blank]
  apply (Lifted.refl _).bind
  intro _ _ _
  apply (keySelector.bindProjector_blank ds source).bind
  rintro bound _ rfl
  apply (keyOf_blank ds bound).bind
  rintro key _ rfl
  apply (key.lower_blank options.stringUnit id).bind
  intro value value' hvalue
  exact finish_blank ds _ .group (grouping_rel hvalue)
    (projector.bindGroupProjector_blank ds source key)

private theorem lifted_of_common {x y z : Except Fault Stage} (hx : Lifted ReadsAlike x z)
    (hy : Lifted ReadsAlike y z) : Lifted ReadsAlike x y := by
  apply (hx.trans hy.symm).mono
  rintro s s' ⟨t, hs, hs'⟩
  exact ⟨hs.kind.trans hs'.kind.symm, hs.decoder.trans hs'.decoder.symm,
    hs.readings.trans hs'.readings.symm⟩

/-- Lambdas that differ at most in the texts of their string literals raise the same fault, or make
stages with the same decoder that read the same fields and variables in the same order. -/
theorem readings_independent_of_texts (ds : Decoders) (options : Options) (source : Decoder) :
    (∀ projector projector' : Lambda, projector.blank = projector'.blank →
      Lifted ReadsAlike (ofProjector ds options source projector)
        (ofProjector ds options source projector')) ∧
    ∀ keySelector keySelector' projector projector' : Lambda,
      keySelector.blank = keySelector'.blank → projector.blank = projector'.blank →
        Lifted ReadsAlike (ofGroup ds options source keySelector projector)
          (ofGroup ds options source keySelector' projector') := by
  constructor
  · intro projector projector' h
    have hblank := ofProjector_blank ds options source projector
    rw [h] at hblank
    exact lifted_of_common hblank (ofProjector_blank ds options source projector')
  · intro keySelector keySelector' projector projector' hkey hprojector
    have hblank := ofGroup_blank ds options source keySelector projector
    rw [hkey, hprojector] at hblank
    exact lifted_of_common hblank (ofGroup_blank ds options source keySelector' projector')

end Stage

namespace Orders

open QueryStage.Expr

def cityOf (name : String) : Expr :=
  access (access (parameter (ofOrder name)) "Home" (.record "Address")) "City" .string

def labelOf (text : String) : Expr :=
  binary .add (cityOf "o") (ofLiteral (.string text)) .string

def label (text : String) : Lambda :=
  ⟨[ofOrder "o"], named (.record "Label") [("Label", labelOf text)]⟩

def byLabel (text : String) : Lambda := ⟨[ofOrder "o"], labelOf text⟩

def labelled (text : String) : Lambda where
  params := [ofGroup "g" .string]
  body := named (.record "Count")
    [("Label", access (parameter (ofGroup "g" .string)) "Key" .string),
      ("Count", sequenceCall "Count" (parameter (ofGroup "g" .string))
        [lambda ⟨[ofOrder "o"], binary .equal (labelOf text) (ofLiteral (.string text)) .boolean⟩]
        .int32)]

/-- A label that looks like a field is not read as one. -/
theorem label_reads_city :
    (label "$zip").blank = (label ", home").blank ∧
      Lifted Stage.ReadsAlike (Stage.ofProjector registry {} source (label "$zip"))
        (Stage.ofProjector registry {} source (label ", home")) ∧
      (Stage.ofProjector registry {} source (label "$zip")).map (·.document.readings) =
        .ok ["$home.city"] ∧
      Lifted Stage.ReadsAlike
        (Stage.ofGroup registry {} source (byLabel "$zip") (labelled "$$ROOT"))
        (Stage.ofGroup registry {} source (byLabel "") (labelled "here")) ∧
      (Stage.ofGroup registry {} source (byLabel "$zip") (labelled "$$ROOT")).map
        (·.document.readings) = .ok ["$home.city", "$home.city", "$home.city"] := by
  obtain ⟨hproject, hgroup⟩ := Stage.readings_independent_of_texts registry {} source
  exact ⟨rfl, hproject _ _ rfl, rfl, hgroup _ _ _ _ rfl rfl, rfl⟩

end Orders

end QueryStage
