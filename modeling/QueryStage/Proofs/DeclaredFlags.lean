import QueryStage.Decoder.Decode
import QueryStage.Proofs.ComputedValues
import QueryStage.Proofs.ShapeAgreement

/-!
# Declared flags

A bare number or boolean in a projection tells whether an element is left in or out. A literal of
the projector is emitted as it is, so it can stand where a stage reads a flag. This happens for the
literals that the projector declares as members of its shape, also behind conversions, optional
values, methods that keep a sequence and members of constructions, and for no other part of it.
-/

namespace QueryStage

open Bson (Computed)

namespace Bson

/-- A value that a projection does not compute but takes for "leave the element in" or "leave it
out". -/
def isFlag : Bson → Bool
  | boolean _ | int32 _ | int64 _ | double _ | decimal128 _ => true
  | _ => false

theorem Computed.isFlag_below {b x : Bson} (h : Computed b) {path : List String}
    (hpath : ∀ key ∈ path, Literal.readsAsReference key = false) (hx : b.below? path = some x) :
    x.isFlag = false := by
  cases h with
  | text s =>
    cases path with
    | nil => cases hx; rfl
    | cons key path => cases hx
  | @application operator argument hoperator =>
    cases path with
    | nil => cases hx; rfl
    | cons key path =>
      have hkey : operator ≠ key := by
        rintro rfl
        rw [hpath operator List.mem_cons_self] at hoperator
        cases hoperator
      rw [apply, below?, Entries.get?_cons_of_ne hkey] at hx
      cases hx

end Bson

theorem Literal.computed_of_below {value : Literal} {ty : Ty} {b v : Bson} {key : String}
    {path : List String} (h : value.lower ty = .ok v) (hb : v.below? (key :: path) = some b) :
    Computed v := by
  cases value with
  | string s =>
    rw [lower, Except.ok.injEq] at h
    subst h
    split
    · exact .application _ (by decide)
    · exact .text s
  | comparison c => cases h
  | _ =>
    cases h
    cases hb

namespace Expr

/-- The literals that an expression declares, by the names of the constructions that lead to them,
and as they are emitted. -/
inductive Declares : Expr → List String → Bson → Prop
  | literal {value : Literal} {ty : Ty} {b : Bson} (h : value.lower ty = .ok b) :
    Declares (literal value ty) [] b
  | passed {e x : Expr} {path : List String} {b : Bson} (hx : e.passed? = some x)
    (h : Declares x path b) : Declares e path b
  | argument {ty : Ty} {parameters : List String} {args : List Expr}
    {members : Option (List String)} {name : String} {a : Expr} {path : List String} {b : Bson}
    (hname : Entries.get? name (parameters.zip args).reverse = some a) (h : Declares a path b) :
    Declares (construct ty parameters args members) (name :: path) b

variable {unit : StringUnit} {paths : Path → Path} {e a : Expr} {path : List String} {b v : Bson}

theorem mem_parts_of_passed? {x : Expr} (h : e.passed? = some x) : x ∈ e.parts := by
  unfold passed? at h
  split at h <;> simp_all [parts]

theorem argument_of_shapeOf {ty : Ty} {parameters : List String} {args : List Expr}
    {shape : Entries Bson} (h : shapeOf ty parameters (args.map (lower unit paths)) = .ok shape)
    {name : String} (hv : Entries.get? name shape = some v) :
    ∃ a ∈ args, Entries.get? name (parameters.zip args).reverse = some a ∧
      a.lower unit paths = .ok v := by
  obtain ⟨xs, hxs, -, rfl⟩ := shapeOf_cases h
  rw [List.forall₂_map_left_iff] at hxs
  have hrel := Entries.get?_rel name (List.rel_reverse (Entries.forall₂_zip parameters hxs))
  rw [Entries.get?_collect] at hv
  rcases rel_cases hrel with ⟨-, hnone⟩ | ⟨a, x, ha, hx, hlower⟩
  · rw [hv] at hnone
    cases hnone
  · rw [hv] at hx
    cases hx
    have hmem := List.mem_reverse.mp (Entries.mem_of_get? ha)
    exact ⟨a, (List.of_mem_zip hmem).2, ha, hlower⟩

theorem emitShape_of_get? {shape : Entries Bson} {name : String}
    (h : Entries.get? name shape = some v) : emitShape shape = .document shape := by
  cases shape with
  | nil => cases h
  | cons => rfl

/-- A flag outside of operators is a declared literal. -/
theorem declares_of_lower (h : e.lower unit paths = .ok v)
    (hpath : ∀ key ∈ path, Literal.readsAsReference key = false) (hb : v.below? path = some b)
    (hflag : b.isFlag = true) : e.Declares path b := by
  induction e using induct_parts generalizing v path with
  | step e ih =>
    have hcomputed (hv : Computed v) : e.Declares path b := by
      rw [hv.isFlag_below hpath hb] at hflag
      cases hflag
    cases emits_of_lower h with
    | passed hx hlower => exact .passed hx (ih _ (mem_parts_of_passed? hx) hlower hpath hb)
    | literal hlower =>
      cases path with
      | nil =>
        cases hb
        exact .literal hlower
      | cons key path => exact hcomputed (Literal.computed_of_below hlower hb)
    | @construct ty parameters args members shape hshape =>
      cases hfields : shape with
      | nil =>
        rw [hfields] at hcomputed
        exact hcomputed (.application _ (by decide))
      | cons field fields =>
        have hdocument : emitShape shape = .document shape := by rw [hfields]; rfl
        rw [hdocument] at hb
        cases path with
        | nil =>
          cases hb
          cases hflag
        | cons name path =>
          obtain ⟨x, hx, hb⟩ := Option.bind_eq_some_iff.mp hb
          obtain ⟨a, ha, hname, hlower⟩ := argument_of_shapeOf hshape hx
          have hrest := fun key hkey => hpath key (List.mem_cons_of_mem _ hkey)
          exact .argument hname (ih a ha hlower hrest hb)
    | computed _ hv => exact hcomputed hv

theorem Declares.emitted (h : e.Declares path b) (hv : e.lower unit paths = .ok v) :
    v.below? path = some b := by
  induction h generalizing v with
  | literal h =>
    rw [lower, h] at hv
    cases hv
    rfl
  | passed hx _ ih =>
    cases emits_of_lower hv with
    | passed hx' hlower =>
      rw [hx] at hx'
      cases hx'
      exact ih hlower
    | literal => cases hx
    | construct => cases hx
    | computed hx' =>
      rw [hx] at hx'
      cases hx'
  | argument hname _ ih =>
    obtain ⟨shape, hshape, rfl⟩ := lower_construct_cases hv
    obtain ⟨x, hx, hlower⟩ := field_of_shapeOf hshape hname
    rw [emitShape_of_get? hx, Bson.below?, hx]
    exact ih hlower

mutual

/-- An expression with the members of its constructions replaced by their arguments. -/
def inlined : Expr → Expr
  | member target name declaring ty =>
    (target.inlined.resolve? name ty).getD (member target.inlined name declaring ty)
  | unary op operand ty => unary op operand.inlined ty
  | call receiver method declaring args ty => call receiver method declaring (inlinedAll args) ty
  | construct ty parameters args members => construct ty parameters (inlinedAll args) members
  | e => e

def inlinedAll : List Expr → List Expr
  | [] => []
  | e :: es => e.inlined :: inlinedAll es

end

@[simp] theorem inlinedAll_eq_map (es : List Expr) : inlinedAll es = es.map inlined := by
  induction es with
  | nil => rfl
  | cons e es ih => simp [inlinedAll, ih]

/-- An expression whose value is read from a document or computed, and so is no literal and no
construction, and passes none on. -/
def isDynamic : Expr → Bool
  | parameter _ | field _ _ _ | binary _ _ _ _ | conditional _ _ _ _ | lambda _
  | accumulate _ _ _ _ => true
  | document inner _ _ => inner.isParameter
  | call _ _ _ args _ => args.length ≠ 1
  | member target _ _ _ => target.isDynamic
  | literal _ _ | unary _ _ _ | construct _ _ _ _ => false

theorem isDynamic_of_passed? {x : Expr} (he : e.isDynamic = true) (hx : e.passed? = some x) :
    x.isDynamic = true := by
  unfold passed? at hx
  split at hx <;> simp_all [isDynamic]

theorem not_declares_of_isDynamic (he : e.isDynamic = true) : ¬ e.Declares path b := by
  intro h
  induction h with
  | literal => cases he
  | passed hx _ ih => exact ih (isDynamic_of_passed? he hx)
  | argument => cases he

theorem isDynamic_of_resolve? {x : Expr} {name : String} {ty : Ty} (he : e.isDynamic = true)
    (hx : e.resolve? name ty = some x) : x.isDynamic = true := by
  rcases resolve?_cases hx with ⟨_, _, _, _, rfl, -, rfl⟩ | ⟨_, _, _, _, rfl, -, rfl, -⟩ |
    ⟨_, _, _, _, rfl | ⟨_, _, rfl⟩, -⟩
  · rfl
  · rfl
  · cases he
  · cases he

/-- Expressions that differ only where their values are dynamic. -/
inductive Alike : Expr → Expr → Prop
  | refl (e : Expr) : Alike e e
  | dynamic {a b : Expr} (ha : a.isDynamic = true) (hb : b.isDynamic = true) : Alike a b
  | unary {a b : Expr} (op : UnaryOp) (ty : Ty) (h : Alike a b) :
    Alike (unary op a ty) (unary op b ty)
  | member {a b : Expr} (name : String) (declaring ty : Ty) (h : Alike a b) :
    Alike (member a name declaring ty) (member b name declaring ty)
  | call {a b : Expr} (receiver receiver' : Option Expr) (method : String) (declaring ty : Ty)
    (h : Alike a b) : Alike (call receiver method declaring [a] ty)
      (call receiver' method declaring [b] ty)
  | construct {as bs : List Expr} (ty : Ty) (parameters : List String)
    (members : Option (List String)) (hlength : as.length = bs.length)
    (h : ∀ x y, (x, y) ∈ as.zip bs → Alike x y) :
    Alike (construct ty parameters as members) (construct ty parameters bs members)

namespace Alike

variable {c d : Expr}

theorem args {as bs : List Expr} (hlength : as.length = bs.length)
    (h : ∀ x y, (x, y) ∈ as.zip bs → Alike x y) : List.Forall₂ Alike as bs :=
  List.forall₂_iff_zip.mpr ⟨hlength, fun hxy => h _ _ hxy⟩

theorem symm (h : Alike c d) : Alike d c := by
  induction h with
  | refl e => exact .refl e
  | dynamic ha hb => exact .dynamic hb ha
  | unary op ty _ ih => exact .unary op ty ih
  | member name declaring ty _ ih => exact .member name declaring ty ih
  | call receiver receiver' method declaring ty _ ih =>
    exact .call receiver' receiver method declaring ty ih
  | @construct as bs ty parameters members hlength _ ih =>
    have hargs : List.Forall₂ (fun x y => Alike y x) as bs :=
      List.forall₂_iff_zip.mpr ⟨hlength, fun hxy => ih _ _ hxy⟩
    have hflip : List.Forall₂ Alike bs as := hargs.flip
    exact .construct ty parameters members hlength.symm fun x y hxy =>
      (List.forall₂_iff_zip.mp hflip).2 hxy

theorem isDynamic_eq (h : Alike c d) : c.isDynamic = d.isDynamic := by
  induction h with
  | refl e => rfl
  | dynamic ha hb => rw [ha, hb]
  | unary => rfl
  | member _ _ _ _ ih => exact ih
  | call => rfl
  | construct => rfl

theorem passed? {x : Expr} (h : Alike c d) (hc : c.isDynamic = false) (hx : c.passed? = some x) :
    ∃ y, d.passed? = some y ∧ Alike x y := by
  cases h with
  | refl => exact ⟨x, hx, .refl x⟩
  | dynamic ha =>
    rw [ha] at hc
    cases hc
  | unary op ty h =>
    cases op with
    | convert =>
      cases hx
      exact ⟨_, rfl, h⟩
    | not => cases hx
    | arrayLength => cases hx
  | member name declaring ty h =>
    rw [Expr.passed?] at hx ⊢
    split at hx
    · rename_i hname
      cases hx
      exact ⟨_, if_pos hname, h⟩
    · cases hx
  | call receiver receiver' method declaring ty h =>
    rw [Expr.passed?] at hx ⊢
    split at hx
    · rename_i hmethod
      cases hx
      exact ⟨_, if_pos hmethod, h⟩
    · cases hx
  | construct => cases hx

theorem declares {path : List String} {b : Bson} (h : Alike c d) (hc : c.Declares path b) :
    d.Declares path b := by
  induction hc generalizing d with
  | literal hlower =>
    cases h with
    | refl => exact .literal hlower
    | dynamic ha => cases ha
  | @passed e x path b hx hrest ih =>
    cases hdynamic : e.isDynamic with
    | true => exact absurd (.passed hx hrest) (not_declares_of_isDynamic hdynamic)
    | false =>
      obtain ⟨y, hy, hxy⟩ := h.passed? hdynamic hx
      exact .passed hy (ih hxy)
  | @argument ty parameters args members name a path b hname hrest ih =>
    cases h with
    | refl => exact .argument hname hrest
    | dynamic ha => cases ha
    | construct ty parameters members hlength hargs =>
      have hrel := Entries.get?_rel name
        (List.rel_reverse (Entries.forall₂_zip parameters (Alike.args hlength hargs)))
      rw [hname] at hrel
      obtain ⟨a', ha', halike⟩ := exists_of_rel_some hrel
      exact .argument ha' (ih halike)

theorem resolve?_rel (h : Alike c d) (hd : d.isDynamic = false) (name : String) (ty : Ty) :
    Option.Rel Alike (c.resolve? name ty) (d.resolve? name ty) := by
  cases h with
  | refl => exact rel_refl .refl _
  | dynamic _ hb =>
    rw [hb] at hd
    cases hd
  | unary => exact .none
  | member => exact .none
  | call => exact .none
  | construct ty' parameters members hlength hargs =>
    exact constructed?_rel name parameters members (args hlength hargs)

end Alike

variable {ds : Decoders} {s : Scope}

theorem isDynamic_of_bindMember {target : Expr} {name : String} {declaring ty : Ty} {b : Expr}
    (htarget : target.isDynamic = true) (h : bindMember ds target name declaring ty = .ok b) :
    b.isDynamic = true := by
  rcases bindMember_cases h with hresolve | rfl | ⟨_, _, _, _, _, -, -, -, rfl⟩
  · exact isDynamic_of_resolve? htarget hresolve
  · exact htarget
  · rfl

theorem alike_member {target bound b : Expr} {name : String} {declaring ty : Ty}
    (htarget : Alike target bound) (h : bindMember ds bound name declaring ty = .ok b) :
    Alike ((target.resolve? name ty).getD (member target name declaring ty)) b := by
  cases hdynamic : bound.isDynamic with
  | true =>
    have hb := isDynamic_of_bindMember hdynamic h
    rw [← htarget.isDynamic_eq] at hdynamic
    cases hresolve : target.resolve? name ty with
    | none => exact .dynamic hdynamic hb
    | some x => exact .dynamic (isDynamic_of_resolve? hdynamic hresolve) hb
  | false =>
    rcases rel_cases (htarget.resolve?_rel hdynamic name ty) with
      ⟨hx, hy⟩ | ⟨x, y, hx, hy, hxy⟩
    · rw [hx]
      rcases bindMember_cases h with hb | rfl | ⟨_, _, _, _, _, rfl, -⟩
      · rw [hy] at hb
        cases hb
      · exact htarget.member name declaring ty
      · cases hdynamic
    · rw [bindMember_of_resolve? hy] at h
      cases h
      rw [hx]
      exact hxy

theorem forall₂_of_boundArgs {receiver : Option Expr} {es bs : List Expr}
    (h : BoundArgs ds s receiver es bs) :
    List.Forall₂ (fun e b => ∃ source, BoundArg ds s source e b) es bs := by
  cases h with
  | on h => exact h.imp fun _ _ hb => ⟨_, hb⟩
  | nil => exact .nil
  | cons hfirst h => exact .cons ⟨_, hfirst⟩ (h.imp fun _ _ hb => ⟨_, hb⟩)

/-- Outside of groups, a bound expression is the expression with its members of constructions
inlined, up to dynamic values. -/
theorem alike_of_bind (hs : s.Plain) (hgroup : s.group = none) {b : Expr}
    (h : e.bind ds s = .ok b) : Alike e.inlined b := by
  induction e generalizing b with
  | literal value ty =>
    cases h
    exact .refl _
  | parameter p =>
    rcases bind_parameter_cases h with rfl | hlookup
    · exact .refl _
    · obtain ⟨q, path, d, -, rfl⟩ := hs.lookup hlookup
      exact .dynamic rfl rfl
  | member target name declaring ty ih =>
    rcases bind_member_cases h with hkey | ⟨-, bound, hbound, hmember⟩
    · obtain ⟨-, -, g, hg, -⟩ := Scope.key?_cases hkey
      rw [hgroup] at hg
      cases hg
    · rw [inlined]
      exact alike_member (ih hbound) hmember
  | binary op left right ty _ _ =>
    simp only [bind, bind_eq_ok_iff, pure_eq_ok, Except.ok.injEq] at h
    obtain ⟨_, -, _, -, rfl⟩ := h
    exact .dynamic rfl rfl
  | unary op operand ty ih =>
    simp only [bind, bind_eq_ok_iff, pure_eq_ok, Except.ok.injEq] at h
    obtain ⟨x, hx, rfl⟩ := h
    rw [inlined]
    exact .unary op ty (ih hx)
  | conditional test ifTrue ifFalse ty _ _ _ =>
    simp only [bind, bind_eq_ok_iff, pure_eq_ok, Except.ok.injEq] at h
    obtain ⟨_, -, _, -, _, -, rfl⟩ := h
    exact .dynamic rfl rfl
  | call receiver method declaring args ty _ ih _ =>
    obtain ⟨receiver', args', -, hargs, haccumulator | rfl⟩ := bind_call_cases h
    · have hsome := (accumulator?_cases haccumulator).1
      rw [hgroup] at hsome
      cases hsome
    · rw [inlined, inlinedAll_eq_map]
      have hbound := forall₂_of_boundArgs hargs
      cases hbound with
      | nil => exact .dynamic rfl rfl
      | @cons a a' args args' ha hrest =>
        cases hrest with
        | cons => exact .dynamic (by simp [isDynamic]) (by simp [isDynamic])
        | nil =>
          refine .call receiver receiver' method declaring ty ?_
          obtain ⟨source, ha⟩ := ha
          cases ha with
          | operand _ ha => exact ih a List.mem_cons_self ha
          | each => exact .dynamic rfl rfl
  | lambda params body _ =>
    obtain ⟨body', -, rfl⟩ := bind_lambda_cases h
    exact .dynamic rfl rfl
  | construct ty parameters args members ih =>
    obtain ⟨args', hargs, rfl⟩ := bind_construct_cases h
    rw [inlined, inlinedAll_eq_map]
    refine .construct ty parameters members (by simpa using hargs.length_eq) fun x y hxy => ?_
    rw [List.zip_map_left, List.mem_map] at hxy
    obtain ⟨⟨a, a'⟩, hmem, heq⟩ := hxy
    cases heq
    exact ih a (List.of_mem_zip hmem).1 ((List.forall₂_iff_zip.mp hargs).2 hmem)
  | accumulate fn source selector ty _ _ =>
    obtain ⟨source', -, ⟨-, rfl⟩ | ⟨_, _, _, _, -, -, -, rfl⟩⟩ := bind_accumulate_cases h
    · exact .dynamic rfl rfl
    · exact .dynamic rfl rfl
  | field p d ty =>
    cases h
    exact .refl _
  | document inner p d ih =>
    cases h
    exact .refl _

end Expr

namespace Decoder

/-- Whether a decoder reads the element of a document that has this name. -/
def readsElement (name : String) : Decoder → Bool
  | document shape =>
    shape.creator.any fun parameter => (shape.member? parameter).any (·.element = name)
  | nullable d => d.readsElement name
  | _ => false

theorem Constructs.readsElement_iff {parameters : List String} {d : Decoder}
    (h : d.Constructs parameters) (name : String) :
    d.readsElement name = true ↔ name ∈ parameters := by
  obtain ⟨typeName, members, rfl, hkeys, helements⟩ := h
  have hmember {parameter : String} {m : MemberDecoder}
      (hm : Entries.get? parameter members = some m) : m.element = parameter :=
    helements _ (Entries.mem_of_get? hm)
  simp only [readsElement, List.any_eq_true, DocumentDecoder.member?, Option.any_eq_true,
    decide_eq_true_eq]
  constructor
  · rintro ⟨parameter, hparameter, m, hm, rfl⟩
    rwa [hmember hm]
  · intro hname
    cases hm : Entries.get? name members with
    | none =>
      rw [Entries.get?_eq_none_iff, hkeys, List.mem_eraseDups] at hm
      exact absurd hname hm
    | some m => exact ⟨name, hname, m, hm, hmember hm⟩

end Decoder

namespace Stage

theorem get?_projection_cases {shape : Entries Bson} {name : String} {x : Bson}
    (h : Entries.get? name (projection shape) = some x) :
    Entries.get? name shape = some x ∨ (name = "_id" ∧ x = .int32 0 ∧ "_id" ∉ shape.keys) := by
  unfold projection at h
  split at h
  · exact .inl h
  · rename_i hid
    by_cases hname : "_id" = name
    · subst hname
      rw [Entries.get?_cons_self] at h
      cases h
      exact .inr ⟨rfl, rfl, by simpa [Entries.contains] using hid⟩
    · rw [Entries.get?_cons_of_ne hname] at h
      exact .inl h

/-- The flags of a projection are the literals that the construction declares, and the zero that
leaves out an undeclared identifier. -/
theorem flag_iff_declares {unit : StringUnit} {ty : Ty} {parameters : List String}
    {args : List Expr} {members : Option (List String)} {shape : Entries Bson}
    (hshape : shapeOf ty parameters (args.map (Expr.lower unit id)) = .ok shape) {name : String}
    {path : List String} {b : Bson} (hflag : b.isFlag = true)
    (hpath : ∀ key ∈ path, Literal.readsAsReference key = false) :
    (Bson.document (projection shape)).below? (name :: path) = some b ↔
      (Expr.construct ty parameters args members).Declares (name :: path) b ∨
        (name = "_id" ∧ path = [] ∧ b = .int32 0 ∧ "_id" ∉ parameters) := by
  have hkeys := Expr.keys_of_shapeOf hshape
  rw [Bson.below?, Option.bind_eq_some_iff]
  constructor
  · rintro ⟨x, hx, hb⟩
    rcases get?_projection_cases hx with hx | ⟨rfl, rfl, hid⟩
    · obtain ⟨a, -, hname, hlower⟩ := Expr.argument_of_shapeOf hshape hx
      exact .inl (.argument hname (Expr.declares_of_lower hlower hpath hb hflag))
    · rw [hkeys, List.mem_eraseDups] at hid
      cases path with
      | nil =>
        cases hb
        exact .inr ⟨rfl, rfl, rfl, hid⟩
      | cons key path => cases hb
  · rintro (hdeclares | ⟨rfl, rfl, rfl, hid⟩)
    · cases hdeclares with
      | passed hx => cases hx
      | argument hname hrest =>
        obtain ⟨x, hx, hlower⟩ := Expr.field_of_shapeOf hshape hname
        exact ⟨x, get?_projection hx, hrest.emitted hlower⟩
    · refine ⟨.int32 0, ?_, rfl⟩
      rw [projection, if_neg (mt (contains_id hkeys).mp hid), Entries.get?_cons_self]

/-- The bare numbers and booleans that an accepted projector puts into its specification, outside of
operators, are the literals that it declares there, and the zero that leaves out an undeclared
identifier. The decoder reads the element that is or holds such a value just when the value is a
declared literal. -/
theorem flags_are_declared (ds : Decoders) (options : Options) (source : Decoder)
    (projector : Lambda) (stage : Stage)
    (h : ofProjector ds options source projector = .ok stage) :
    ∃ ty parameters args members, projector.body = .construct ty parameters args members ∧
      (∀ name path b, b.isFlag = true → (∀ key ∈ path, Literal.readsAsReference key = false) →
        ((Bson.document stage.specification).below? (name :: path) = some b ↔
          projector.body.inlined.Declares (name :: path) b ∨
            (name = "_id" ∧ path = [] ∧ b = .int32 0 ∧ "_id" ∉ parameters))) ∧
      ∀ name path b, b.isFlag = true → (∀ key ∈ path, Literal.readsAsReference key = false) →
        (Bson.document stage.specification).below? (name :: path) = some b →
          (stage.decoder.readsElement name = true ↔
            projector.body.inlined.Declares (name :: path) b) := by
  obtain ⟨bound, shape, hbound, hdecoder, hshape, hspec⟩ := ofProjector_cases h
  obtain ⟨p, -, hbody⟩ := Lambda.bindProjector_cases hbound
  obtain ⟨ty, parameters, args, members, hconstruct⟩ :=
    Expr.exists_construct (isConstruction_of_ofProjector h)
  have halike := Expr.alike_of_bind (Lambda.plain_projectorScope p source) rfl hbody
  rw [hconstruct] at hbody
  obtain ⟨args', -, rfl⟩ := Expr.bind_construct_cases hbody
  have hdeclares (path : List String) (b : Bson) : projector.body.inlined.Declares path b ↔
      (Expr.construct ty parameters args' members).Declares path b :=
    ⟨halike.declares, halike.symm.declares⟩
  have hflags : ∀ name path b, b.isFlag = true →
      (∀ key ∈ path, Literal.readsAsReference key = false) →
        ((Bson.document stage.specification).below? (name :: path) = some b ↔
          projector.body.inlined.Declares (name :: path) b ∨
            (name = "_id" ∧ path = [] ∧ b = .int32 0 ∧ "_id" ∉ parameters)) := by
    intro name path b hflag hpath
    rw [hspec, hdeclares]
    exact flag_iff_declares hshape hflag hpath
  refine ⟨ty, parameters, args, members, hconstruct, hflags, ?_⟩
  intro name path b hflag hpath hb
  rw [(Expr.constructs_of_decoder hdecoder).readsElement_iff]
  constructor
  · intro hname
    rcases (hflags name path b hflag hpath).mp hb with hdeclared | ⟨rfl, -, -, hid⟩
    · exact hdeclared
    · exact absurd hname hid
  · intro hdeclared
    cases (hdeclares (name :: path) b).mp hdeclared with
    | passed hx => cases hx
    | argument hname =>
      exact (List.of_mem_zip (List.mem_reverse.mp (Entries.mem_of_get? hname))).1

end Stage

namespace Orders

open QueryStage.Expr

/-- Constants of several origins: a member of a construction, a conversion and the value of an
optional. -/
def constants : Lambda where
  params := [ofOrder "o"]
  body := named (.record "Constants")
    [("Chosen", access (named (.record "Pair")
        [("First", ofLiteral (.boolean true)), ("Amount", amountOf "o")]) "First" .boolean),
      ("Numbers", named (.record "Numbers")
        [("One", unary .convert (ofLiteral (.int32 1)) .int64),
          ("Two", access (literal (.int32 2) (.nullable .int32)) "Value" .int32)])]

/-- The constants stand bare in the specification, where they are flags, and the decoder reads the
chosen one. -/
theorem constants_are_flags : ∃ stage,
    Stage.ofProjector registry {} source constants = .ok stage ∧
      (Bson.document stage.specification).below? ["Chosen"] = some (.boolean true) ∧
      (Bson.document stage.specification).below? ["Numbers", "One"] = some (.int32 1) ∧
      (Bson.document stage.specification).below? ["Numbers", "Two"] = some (.int32 2) ∧
      stage.decoder.readsElement "Chosen" = true := by
  obtain ⟨_, _, _, _, -, hflags, hreads⟩ :=
    Stage.flags_are_declared registry {} source constants _ rfl
  have hchosen : constants.body.inlined.Declares ["Chosen"] (.boolean true) :=
    .argument rfl (.literal rfl)
  have hone : constants.body.inlined.Declares ["Numbers", "One"] (.int32 1) :=
    .argument rfl (.argument rfl (.passed rfl (.literal rfl)))
  have htwo : constants.body.inlined.Declares ["Numbers", "Two"] (.int32 2) :=
    .argument rfl (.argument rfl (.passed rfl (.literal rfl)))
  refine ⟨_, rfl, ?_, ?_, ?_, ?_⟩
  · exact (hflags "Chosen" [] _ rfl (by decide)).mpr (.inl hchosen)
  · exact (hflags "Numbers" ["One"] _ rfl (by decide)).mpr (.inl hone)
  · exact (hflags "Numbers" ["Two"] _ rfl (by decide)).mpr (.inl htwo)
  · exact (hreads "Chosen" [] _ rfl (by decide) rfl).mpr hchosen

def numbered : Lambda where
  params := [ofOrder "o"]
  body := named (.record "Numbered") [("_id", ofLiteral (.int32 0))]

def nothing : Lambda where
  params := [ofOrder "o"]
  body := named (.record "Nothing") []

def marked : Lambda where
  params := [ofOrder "o"]
  body := named (.record "Marked") [("express", ofLiteral (.boolean true))]

/-- The literal zero of a declared identifier is emitted as the flag that leaves an undeclared one
out: the decoder reads the identifier and fails on everything that the stage yields. A literal truth
value is emitted as the flag that leaves the element of the order in. -/
theorem literals_taken_for_flags : ∃ numberedStage nothingStage markedStage,
    Stage.ofProjector registry {} source numbered = .ok numberedStage ∧
      Stage.ofProjector registry {} source nothing = .ok nothingStage ∧
      Stage.ofProjector registry {} source marked = .ok markedStage ∧
      numberedStage.specification = [("_id", .int32 0)] ∧
      nothingStage.specification = [("_id", .int32 0)] ∧
      markedStage.specification = [("_id", .int32 0), ("express", .boolean true)] ∧
      numberedStage.decoder.readsElement "_id" = true ∧
      ∀ fields, numberedStage.decoder.decode (.document (numberedStage.output fields)) =
        .error (.missingElement "Numbered" "_id") := by
  refine ⟨_, _, _, rfl, rfl, rfl, rfl, rfl, rfl, by decide, fun fields => ?_⟩
  rfl

end Orders

end QueryStage
