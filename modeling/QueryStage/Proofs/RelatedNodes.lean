import QueryStage.Proofs.RelatedLowering
import QueryStage.Proofs.Withholding

/-!
# Lowering nodes with related parts

Two expressions with the same node at their root and related parts are lowered alike if their parts
are. Calls are the exception: what the lambda of a sequence method becomes depends on where its
source is, so the loops over the two sources have to be compared by themselves.
-/

namespace QueryStage

variable {B : Bson → Bson → Prop} {unit : StringUnit}

namespace MethodCall

variable {c c' : MethodCall}

/-- The call with its lambda left out. -/
def withoutLoop (c : MethodCall) : MethodCall := { c with loop := none }

theorem lower_withoutLoop (h : c.declaring ≠ .enumerable) (unit : StringUnit) :
    c.withoutLoop.lower unit = c.lower unit := by
  have hfamily : MethodFamily.of c.declaring ≠ .sequence :=
    fun hsequence => h ((family_eq_sequence_iff c.declaring).mp hsequence)
  unfold lower withoutLoop
  cases hof : MethodFamily.of c.declaring with
  | sequence => exact absurd hof hfamily
  | _ => rfl

/-- Calls with related operands are emitted alike if the loops over their sources are. -/
theorem lower_over (hB : Bson.Congruence B) (h : c.withoutLoop.Rel B c'.withoutLoop)
    (hloop : c.declaring = .enumerable → ∀ source source', c.args.head? = some source →
      c'.args.head? = some source' →
      Option.Rel (fun l l' => ∀ kind, Lifted B (l.emit kind source) (l'.emit kind source'))
        c.loop c'.loop) :
    Lifted B (c.lower unit) (c'.lower unit) := by
  have hdeclaring : c.declaring = c'.declaring := h.declaring
  by_cases hsequence : c.declaring = .enumerable
  · have hfamily := (family_eq_sequence_iff c.declaring).mpr hsequence
    have hargs : List.Forall₂ (Lifted B) c.args c'.args := h.args
    have hmethod : c.method = c'.method := h.method
    have hgroup : c.overGroup = c'.overGroup := h.overGroup
    have hunsupported : c.unsupported = c'.unsupported := h.unsupported_eq
    have hover := hloop hsequence
    simp only [lower, ← hdeclaring, hfamily, lowerSequence, hmethod, hgroup, hunsupported]
    generalize c.args = xs at hargs hover
    generalize c'.args = ys at hargs hover
    cases hargs with
    | nil => exact .error _
    | @cons source source' _ _ hsource hoperands =>
      dsimp only
      split
      · exact .error _
      · exact (SequenceMethod.keeps_named (hB.forms unit) c'.method).emit_over _ hsource
          (hover source source' rfl rfl) hoperands
  · have hleft := lower_withoutLoop hsequence unit
    have hright := lower_withoutLoop (hdeclaring ▸ hsequence : c'.declaring ≠ .enumerable) unit
    rw [← hleft, ← hright]
    exact h.lower hB unit

end MethodCall

namespace Expr

variable {f g : Path → Path}

/-- The loop that a lambda makes over a source. -/
def loopOver (unit : StringUnit) (paths : Path → Path) (source : Expr) (params : List Parameter)
    (body : Expr) : Loop where
  params := params
  body := body.lower unit (loopPaths paths (source.boundPath?.map paths) params)
  selection := selection? paths (source.boundPath?.map paths) body

/-- Two operands that are lowered alike and that are of the same kind to a call. -/
structure OperandRel (B : Bson → Bson → Prop) (unit : StringUnit) (f g : Path → Path)
    (e e' : Expr) : Prop where
  lowered : Lifted B (e.lower unit f) (e'.lower unit g)
  comparison : e.comparison? = e'.comparison?
  overGroup : e.overGroup = e'.overGroup
  isLambda : e.kind = .lambda ↔ e'.kind = .lambda

private theorem lowerLoop_over {R : Loop → Loop → Prop} {as bs : List Expr}
    (hargs : List.Forall₂ (OperandRel B unit f g) as bs)
    (hloop : ∀ source source' params params' body body', as = [source, lambda ⟨params, body⟩] →
      bs = [source', lambda ⟨params', body'⟩] →
      R (loopOver unit f source params body) (loopOver unit g source' params' body')) :
    Option.Rel R (lowerLoop unit f as) (lowerLoop unit g bs) := by
  cases hargs with
  | nil => exact .none
  | @cons a b _ _ _ hrest =>
    cases hrest with
    | nil => exact .none
    | @cons e e' _ _ he hrest =>
      cases hrest with
      | cons =>
        rw [lowerLoop_eq_none_of_long, lowerLoop_eq_none_of_long]
        exact .none
      | nil =>
        rcases lambda_or_kind_ne e with ⟨params, body, rfl⟩ | hkind
        · rcases lambda_or_kind_ne e' with ⟨params', body', rfl⟩ | hkind'
          · exact .some (hloop a b params params' body body' rfl rfl)
          · exact (hkind' (he.isLambda.mp rfl)).elim
        · have hkind' : e'.kind ≠ .lambda := fun hlambda => hkind (he.isLambda.mpr hlambda)
          rw [lowerLoop_eq_none unit f a hkind, lowerLoop_eq_none unit g b hkind']
          exact .none

private theorem getLast?_comparison {as bs : List Expr}
    (h : List.Forall₂ (OperandRel B unit f g) as bs) :
    as.getLast?.bind comparison? = bs.getLast?.bind comparison? := by
  rw [← List.head?_reverse, ← List.head?_reverse]
  have hreverse := List.rel_reverse h
  generalize as.reverse = xs at hreverse
  generalize bs.reverse = ys at hreverse
  cases hreverse with
  | nil => rfl
  | cons hab _ => exact hab.comparison

theorem lower_call_rel (hB : Bson.Congruence B) {receiver receiver' : Option Expr} {method : String}
    {declaring ty ty' : Ty} {as bs : List Expr}
    (hreceiver : Option.Rel (fun e e' => Lifted B (e.lower unit f) (e'.lower unit g))
      receiver receiver')
    (hargs : List.Forall₂ (OperandRel B unit f g) as bs)
    (hloop : declaring = .enumerable → ∀ source source' params params' body body',
      as = [source, lambda ⟨params, body⟩] → bs = [source', lambda ⟨params', body'⟩] →
      ∀ kind, Lifted B
        ((loopOver unit f source params body).emit kind (source.lower unit f))
        ((loopOver unit g source' params' body').emit kind (source'.lower unit g))) :
    Lifted B ((call receiver method declaring as ty).lower unit f)
      ((call receiver' method declaring bs ty').lower unit g) := by
  have hlowered : List.Forall₂ (Lifted B) (lowerEach unit f as) (lowerEach unit g bs) := by
    rw [lowerEach_eq_map, lowerEach_eq_map, List.forall₂_map_left_iff, List.forall₂_map_right_iff]
    exact hargs.imp fun _ _ h => h.lowered
  have hgroup : as.head?.any overGroup = bs.head?.any overGroup := by
    cases hargs with
    | nil => rfl
    | cons hab _ => simp [hab.overGroup]
  have hreceiver : Option.Rel (Lifted B) (lowerReceiver unit f receiver)
      (lowerReceiver unit g receiver') := by
    cases hreceiver with
    | none => exact .none
    | some h => exact .some h
  rw [lower, lower]
  refine MethodCall.lower_over hB
    ⟨rfl, rfl, hreceiver, hlowered, getLast?_comparison hargs, hgroup, .none⟩ ?_
  intro hdeclaring source source' hsource hsource'
  refine lowerLoop_over hargs fun x y params params' body body' has hbs kind => ?_
  subst has hbs
  cases hsource
  cases hsource'
  exact hloop hdeclaring x y params params' body body' rfl rfl kind

/-- The same node of a form that is not bound, with related parts. -/
inductive SameNode (P : Expr → Expr → Prop) : Expr → Expr → Prop
  | literal (value : Literal) (ty : Ty) : SameNode P (literal value ty) (literal value ty)
  | parameter (p : Parameter) : SameNode P (parameter p) (parameter p)
  | member {a b : Expr} (name : String) (declaring ty : Ty) (h : P a b) :
    SameNode P (member a name declaring ty) (member b name declaring ty)
  | binary {a b c d : Expr} (op : BinaryOp) (ty : Ty) (hl : P a b) (hr : P c d) :
    SameNode P (binary op a c ty) (binary op b d ty)
  | unary {a b : Expr} (op : UnaryOp) (ty : Ty) (h : P a b) :
    SameNode P (unary op a ty) (unary op b ty)
  | conditional {a b c d e f : Expr} (ty : Ty) (ht : P a b) (ha : P c d) (hb : P e f) :
    SameNode P (conditional a c e ty) (conditional b d f ty)
  | call {receiver receiver' : Option Expr} {as bs : List Expr} (method : String)
    (declaring ty : Ty) (hreceiver : Option.Rel P receiver receiver')
    (hargs : List.Forall₂ P as bs) :
    SameNode P (call receiver method declaring as ty) (call receiver' method declaring bs ty)
  | lambda {a b : Expr} (params : List Parameter) (h : P a b) :
    SameNode P (lambda ⟨params, a⟩) (lambda ⟨params, b⟩)
  | construct {as bs : List Expr} (ty : Ty) (parameters : List String)
    (members : Option (List String)) (hargs : List.Forall₂ P as bs) :
    SameNode P (construct ty parameters as members) (construct ty parameters bs members)
  | accumulate {a b : Expr} (fn : AccumulatorFn) (ty : Ty) (h : P a b) :
    SameNode P (accumulate fn a none ty) (accumulate fn b none ty)
  | accumulateOf {a b c d : Expr} (fn : AccumulatorFn) (params : List Parameter) (ty : Ty)
    (h : P a b) (hbody : P c d) :
    SameNode P (.accumulate fn a (some ⟨params, c⟩) ty) (.accumulate fn b (some ⟨params, d⟩) ty)

namespace SameNode

variable {P : Expr → Expr → Prop} {e e' : Expr}

theorem kind_eq (h : SameNode P e e') : e.kind = e'.kind := by cases h <;> rfl

theorem boundPath?_left (h : SameNode P e e') : e.boundPath? = none := by cases h <;> rfl

theorem boundPath?_right (h : SameNode P e e') : e'.boundPath? = none := by cases h <;> rfl

theorem comparison?_eq (h : SameNode P e e') : e.comparison? = e'.comparison? := by
  cases h <;> rfl

theorem ty_eq (h : SameNode P e e') (hP : ∀ a ∈ e.parts, ∀ b, P a b → a.ty = b.ty) :
    e.ty = e'.ty := by
  cases h with
  | @lambda a b params h => exact hP a (List.mem_singleton_self a) b h
  | _ => rfl

theorem shapeOf_alike {as bs : List Expr} (ty : Ty) (parameters : List String)
    (h : List.Forall₂ P as bs)
    (hlower : ∀ a ∈ as, ∀ b, P a b → Lifted B (a.lower unit f) (b.lower unit g)) :
    Lifted (Entries.Rel B) (shapeOf ty parameters (as.map (Expr.lower unit f)))
      (shapeOf ty parameters (bs.map (Expr.lower unit g))) := by
  have hmem : List.Forall₂ (fun a b => a ∈ as ∧ P a b) as bs :=
    (List.forall₂_and_left as bs).mpr ⟨fun _ ha => ha, h⟩
  refine shapeOf_rel ty parameters ?_
  rw [List.forall₂_map_left_iff, List.forall₂_map_right_iff]
  exact hmem.imp fun a b hab => hlower a hab.1 b hab.2

/-- A node that is no call is lowered alike if its parts are. -/
theorem lower_of_parts (hB : Bson.Congruence B) (h : SameNode P e e') (hcall : e.kind ≠ .call)
    (hty : ∀ a ∈ e.parts, ∀ b, P a b → a.ty = b.ty)
    (hlower : ∀ a ∈ e.parts, ∀ b, P a b → Lifted B (a.lower unit f) (b.lower unit g)) :
    Lifted B (e.lower unit f) (e'.lower unit g) := by
  cases h with
  | literal value ty =>
    rw [lower, lower]
    cases hvalue : value.lower ty with
    | ok b => exact .ok (hB.literal hvalue)
    | error fault => exact .error fault
  | parameter p => exact .error _
  | member name declaring ty h =>
    have htarget := hlower _ (by simp [parts]) _ h
    rw [lower, lower, hty _ (by simp [parts]) _ h]
    split
    · rename_i c hc
      exact htarget.bind fun a b hab => .ok (hB.computed hc hab)
    · exact .error _
  | binary op ty hl hr =>
    have hleft := hlower _ (by simp [parts]) _ hl
    have hright := hlower _ (by simp [parts]) _ hr
    rw [lower, lower, hty _ (by simp [parts]) _ hl]
    exact hleft.bind fun a b hab => hright.bind fun c d hcd => .ok (hB.binary op _ hab hcd)
  | unary op ty h =>
    have hoperand := hlower _ (by simp [parts]) _ h
    exact hoperand.bind fun a b hab => .ok (hB.unary op hab)
  | conditional ty ht ha hb =>
    have htest := hlower _ (by simp [parts]) _ ht
    have hthen := hlower _ (by simp [parts]) _ ha
    have helse := hlower _ (by simp [parts]) _ hb
    exact htest.bind fun _ _ ht => hthen.bind fun _ _ ha => helse.bind fun _ _ hb =>
      .ok (hB.applyAll _ (.cons ht (.cons ha (.cons hb .nil))))
  | call => exact absurd rfl hcall
  | lambda params h =>
    rw [lower, lower, hty _ (by simp [parts]) _ h]
    exact .error _
  | construct ty parameters members hargs =>
    rw [lower, lower, lowerEach_eq_map, lowerEach_eq_map]
    exact (shapeOf_alike ty parameters hargs hlower).bind fun _ _ hs => .ok (hB.emitShape hs)
  | accumulate fn ty h =>
    exact (hlower _ (by simp [parts]) _ h).bind fun _ _ hab => .ok (hB.apply _ hab)
  | accumulateOf fn params ty _ hbody =>
    -- The source is not lowered.
    exact (hlower _ (by simp [parts]) _ hbody).bind fun _ _ hab => .ok (hB.apply _ hab)

end SameNode

end Expr

end QueryStage
