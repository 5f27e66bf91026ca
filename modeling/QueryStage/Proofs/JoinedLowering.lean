import QueryStage.Proofs.CarriedDecoders
import QueryStage.Proofs.References
import QueryStage.Proofs.RelatedLowering

/-!
# Lowering with a choice of joins

Lowering joins the operands of a binary operator in one place. With the join as a parameter, two
ways of joining can be compared: if a relation is kept by the forms of members and methods and by
the two joins, it holds of what is lowered with the one and with the other. The fault is the same.
-/

namespace QueryStage

/-- How two operands become one expression, for an operator and the type of the left operand. -/
abbrev Join := BinaryOp → Ty → Bson → Bson → Bson

namespace Expr

mutual

/-- The aggregation expression for a bound expression, with operands joined in the given way. -/
def lowerBy (join : Join) (unit : StringUnit) (paths : Path → Path) : Expr → Lowered
  | literal value ty => value.lower ty
  | parameter p => .error (.unsupportedNode .parameter p.ty)
  | member target name declaring _ =>
    match target.ty.computed? unit name with
    | some f => do return f (← target.lowerBy join unit paths)
    | none => .error (.unsupportedMember name declaring)
  | binary op left right _ => do
    let l ← left.lowerBy join unit paths
    return join op left.ty l (← right.lowerBy join unit paths)
  | unary op operand _ => do return op.emit (← operand.lowerBy join unit paths)
  | conditional test ifTrue ifFalse _ => do
    let test ← test.lowerBy join unit paths
    let ifTrue ← ifTrue.lowerBy join unit paths
    return Bson.applyAll "$cond" [test, ifTrue, ← ifFalse.lowerBy join unit paths]
  | call receiver method declaring args _ =>
    MethodCall.lower unit
      { method, declaring
        receiver := lowerReceiverBy join unit paths receiver
        args := lowerEachBy join unit paths args
        comparison := args.getLast?.bind comparison?
        overGroup := args.head?.any overGroup
        loop := lowerLoopBy join unit paths args }
  | lambda ⟨_, body⟩ => .error (.unsupportedNode .lambda body.ty)
  | construct ty parameters args _ => do
    return emitShape (← shapeOf ty parameters (lowerEachBy join unit paths args))
  | accumulate fn source none _ => do
    return Bson.apply fn.operator (← source.lowerBy join unit paths)
  | accumulate fn _ (some ⟨_, body⟩) _ => do
    return Bson.apply fn.operator (← body.lowerBy join unit paths)
  | field path _ _ => .ok (.string (paths path).reference)
  | document _ (some path) _ => .ok (.string (paths path).reference)
  | document inner none _ =>
    if inner.isParameter then .ok (.string "$$ROOT") else inner.lowerBy join unit paths

def lowerReceiverBy (join : Join) (unit : StringUnit) (paths : Path → Path) :
    Option Expr → Option Lowered
  | none => none
  | some e => some (e.lowerBy join unit paths)

def lowerEachBy (join : Join) (unit : StringUnit) (paths : Path → Path) : List Expr → List Lowered
  | [] => []
  | e :: es => e.lowerBy join unit paths :: lowerEachBy join unit paths es

def lowerLoopBy (join : Join) (unit : StringUnit) (paths : Path → Path) : List Expr → Option Loop
  | [source, lambda ⟨params, body⟩] =>
    let source? := source.boundPath?.map paths
    some
      { params
        body := body.lowerBy join unit (loopPaths paths source? params)
        selection := selection? paths source? body }
  | _ => none

end

section

variable {join : Join} {unit : StringUnit} {paths : Path → Path}

@[simp] theorem lowerReceiverBy_eq_map (e : Option Expr) :
    lowerReceiverBy join unit paths e = e.map (lowerBy join unit paths) := by
  cases e <;> rfl

@[simp] theorem lowerEachBy_eq_map (es : List Expr) :
    lowerEachBy join unit paths es = es.map (lowerBy join unit paths) := by
  induction es with
  | nil => rfl
  | cons e es ih => simp [lowerEachBy, ih]

theorem loop_args_cases (args : List Expr) :
    (∃ source params body, args = [source, lambda ⟨params, body⟩]) ∨
      (∀ unit paths, lowerLoop unit paths args = none) ∧
        ∀ join unit paths, lowerLoopBy join unit paths args = none := by
  rcases args with _ | ⟨source, _ | ⟨a, _ | ⟨next, rest⟩⟩⟩
  · exact .inr ⟨fun _ _ => rfl, fun _ _ _ => rfl⟩
  · exact .inr ⟨fun _ _ => rfl, fun _ _ _ => rfl⟩
  · cases a with
    | lambda fn =>
      obtain ⟨params, body⟩ := fn
      exact .inl ⟨source, params, body, rfl⟩
    | _ => exact .inr ⟨fun _ _ => rfl, fun _ _ _ => rfl⟩
  · cases a with
    | lambda fn =>
      obtain ⟨params, body⟩ := fn
      exact .inr ⟨fun _ _ => rfl, fun _ _ _ => rfl⟩
    | _ => exact .inr ⟨fun _ _ => rfl, fun _ _ _ => rfl⟩

theorem lowerBy_emit (unit : StringUnit) (e : Expr) : ∀ paths : Path → Path,
    e.lowerBy BinaryOp.emit unit paths = e.lower unit paths := by
  induction e with
  | literal | parameter | field => intro paths; rfl
  | lambda params body => intro paths; simp [lowerBy, lower]
  | member target name declaring ty ih =>
    intro paths
    cases hf : target.ty.computed? unit name <;> simp [lowerBy, lower, ih, hf]
  | binary op left right ty ihl ihr => intro paths; simp [lowerBy, lower, ihl, ihr]
  | unary op operand ty ih => intro paths; simp [lowerBy, lower, ih]
  | conditional test ifTrue ifFalse ty iht iha ihb =>
    intro paths
    simp [lowerBy, lower, iht, iha, ihb]
  | call receiver method declaring args ty ihr iha ihb =>
    intro paths
    have hreceiver : receiver.map (lowerBy BinaryOp.emit unit paths) =
        receiver.map (lower unit paths) :=
      Option.map_congr fun e he => ihr e he paths
    have hargs : args.map (lowerBy BinaryOp.emit unit paths) = args.map (lower unit paths) :=
      List.map_congr_left fun e he => iha e he paths
    have hloop : lowerLoopBy BinaryOp.emit unit paths args = lowerLoop unit paths args := by
      rcases loop_args_cases args with ⟨source, params, body, rfl⟩ | ⟨hnone, hnone'⟩
      · simp [lowerLoopBy, lowerLoop, ihb params body (by simp)]
      · rw [hnone, hnone']
    simp [lowerBy, lower, hreceiver, hargs, hloop]
  | construct ty parameters args members ih =>
    intro paths
    have hargs : args.map (lowerBy BinaryOp.emit unit paths) = args.map (lower unit paths) :=
      List.map_congr_left fun e he => ih e he paths
    simp [lowerBy, lower, hargs]
  | accumulate fn source selector ty ihs ihb =>
    intro paths
    rcases selector with _ | ⟨params, body⟩
    · simp [lowerBy, lower, ihs]
    · simp [lowerBy, lower, ihb params body rfl]
  | document inner path decoder ih =>
    intro paths
    cases path with
    | none => simp [lowerBy, lower, ih]
    | some path => simp [lowerBy, lower]

end

/-- A relation that the forms of members and methods keep, and two ways of joining. It holds of
every text with itself. -/
structure Joins (u u' : StringUnit) (N : String → Prop) (join join' : Join)
    (B : Bson → Bson → Prop) : Prop where
  forms : Bson.Forms u u' N B
  text : ∀ s, B (.string s) (.string s)
  joined : ∀ (op : BinaryOp) (ty : Ty) {a b c d : Bson}, B a b → B c d →
    B (join op ty a c) (join' op ty b d)

variable {u u' : StringUnit} {N : String → Prop} {join join' : Join} {B : Bson → Bson → Prop}

theorem Joins.selection (hB : Joins u u' N join join' B) (selection : Option Selection) :
    Option.Rel (Selection.Rel B) selection selection := by
  rcases selection with _ | ⟨reference⟩ | _
  · exact .none
  · exact .some (.field (hB.text reference))
  · exact .some .element

private theorem lowerLoopBy_rel (hB : Joins u u' N join join' B) (paths : Path → Path)
    {args : List Expr} (ih : ∀ params body, lambda ⟨params, body⟩ ∈ args → ∀ paths,
      Lifted B (body.lowerBy join u paths) (body.lowerBy join' u' paths)) :
    Option.Rel (Loop.Rel B) (lowerLoopBy join u paths args)
      (lowerLoopBy join' u' paths args) := by
  rcases loop_args_cases args with ⟨source, params, body, rfl⟩ | ⟨-, hnone⟩
  · simp only [lowerLoopBy]
    apply Option.Rel.some
    refine ⟨hB.selection _, fun kind x y hxy => ?_⟩
    apply (Lifted.refl _).bind
    rintro binder _ rfl
    apply (ih params body (by simp) _).bind
    intro c d hcd
    apply hxy.bind
    intro a b hab
    exact .ok (hB.forms.loop kind (hB.text binder) hab hcd)
  · rw [hnone, hnone]
    exact .none

private theorem lowerEachBy_rel {paths : Path → Path} {args : List Expr}
    (ih : ∀ a ∈ args, Lifted B (a.lowerBy join u paths) (a.lowerBy join' u' paths)) :
    List.Forall₂ (Lifted B) (lowerEachBy join u paths args) (lowerEachBy join' u' paths args) := by
  rw [lowerEachBy_eq_map, lowerEachBy_eq_map, List.forall₂_map_left_iff,
    List.forall₂_map_right_iff, List.forall₂_same]
  exact ih

private theorem shape_rel {paths : Path → Path} (ty : Ty)
    {parameters : List String} (hnames : ∀ x ∈ parameters, N x) {args : List Expr}
    (ih : ∀ a ∈ args, Lifted B (a.lowerBy join u paths) (a.lowerBy join' u' paths)) :
    Lifted (fun as bs => as.Rel B bs ∧ ∀ key ∈ as.keys, N key)
      (shapeOf ty parameters (args.map (lowerBy join u paths)))
      (shapeOf ty parameters (args.map (lowerBy join' u' paths))) := by
  have hargs := lowerEachBy_rel ih
  rw [lowerEachBy_eq_map, lowerEachBy_eq_map] at hargs
  refine (shapeOf_rel ty parameters hargs).ensuring fun shape hshape key hkey => ?_
  rw [keys_of_shapeOf hshape, List.mem_eraseDups] at hkey
  exact hnames key hkey

/-- What is lowered with the one join is related to what is lowered with the other. -/
theorem Joins.lowerBy (hB : Joins u u' N join join' B) {e : Expr}
    (he : e.All fun n => ∀ x ∈ n.fieldNames, N x) : ∀ paths : Path → Path,
    Lifted B (e.lowerBy join u paths) (e.lowerBy join' u' paths) := by
  induction e with
  | literal value ty =>
    intro paths
    simp only [Expr.lowerBy]
    cases hvalue : value.lower ty with
    | error fault => exact .error fault
    | ok b => exact .ok (hB.forms.literal hvalue)
  | parameter p => exact fun _ => .error _
  | lambda params body => exact fun _ => .error _
  | field path decoder ty => exact fun _ => .ok (hB.text _)
  | member target name declaring ty ih =>
    intro paths
    have htarget := ih (he.part (by simp [parts])) paths
    have hcomputed := hB.forms.computed target.ty name
    simp only [Expr.lowerBy]
    generalize target.ty.computed? u name = x at hcomputed
    generalize target.ty.computed? u' name = y at hcomputed
    cases hcomputed with
    | none => exact .error _
    | some h => exact htarget.bind fun a b hab => .ok (h a b hab)
  | binary op left right ty ihl ihr =>
    intro paths
    have hleft := ihl (he.part (by simp [parts])) paths
    have hright := ihr (he.part (by simp [parts])) paths
    exact hleft.bind fun a b hab => hright.bind fun c d hcd => .ok (hB.joined op left.ty hab hcd)
  | unary op operand ty ih =>
    intro paths
    have hoperand := ih (he.part (by simp [parts])) paths
    exact hoperand.bind fun a b hab => .ok (hB.forms.unary op hab)
  | conditional test ifTrue ifFalse ty iht iha ihb =>
    intro paths
    have htest := iht (he.part (by simp [parts])) paths
    have hthen := iha (he.part (by simp [parts])) paths
    have helse := ihb (he.part (by simp [parts])) paths
    apply htest.bind
    intro t t' ht
    apply hthen.bind
    intro a a' ha
    apply helse.bind
    intro b b' hb
    exact .ok (hB.forms.plainAll rfl (.cons ht (.cons ha (.cons hb .nil))))
  | call receiver method declaring args ty ihr iha ihb =>
    intro paths
    have harg (a : Expr) (ha : a ∈ args) : a.All fun n => ∀ x ∈ n.fieldNames, N x :=
      he.part (by simp [parts, ha])
    simp only [Expr.lowerBy]
    refine MethodCall.Rel.lower_forms hB.forms ⟨rfl, rfl, ?_, ?_, rfl, rfl, ?_⟩
    · cases receiver with
      | none => exact .none
      | some r => exact .some (ihr r rfl (he.part (by simp [parts])) paths)
    · exact lowerEachBy_rel fun a ha => iha a ha (harg a ha) paths
    · refine lowerLoopBy_rel hB paths fun params body hmem => ?_
      exact ihb params body hmem ((harg _ hmem).part (by simp [parts]))
  | construct ty parameters args members ih =>
    intro paths
    simp only [Expr.lowerBy, lowerEachBy_eq_map]
    have hshape := shape_rel ty he.self fun a ha => ih a ha (he.part ha) paths
    exact hshape.bind fun as bs hs => .ok (hB.forms.emitShape hs.2 hs.1)
  | accumulate fn source selector ty ihs ihb =>
    intro paths
    have hplain : Bson.isPlain fn.operator = true := by cases fn <;> rfl
    rcases selector with _ | ⟨params, body⟩
    · have hsource := ihs (he.part (by simp [parts])) paths
      exact hsource.bind fun a b hab => .ok (hB.forms.plain hplain hab)
    · have hbody := ihb params body rfl (he.part (by simp [parts])) paths
      exact hbody.bind fun a b hab => .ok (hB.forms.plain hplain hab)
  | document inner path decoder ih =>
    intro paths
    cases path with
    | some path => exact .ok (hB.text _)
    | none =>
      simp only [Expr.lowerBy]
      split
      · exact .ok hB.forms.current
      · exact ih (he.part (by simp [parts])) paths

end Expr

end QueryStage
