import QueryStage.Proofs.PassedArguments

/-!
# Passing arrays through in projectors

A subexpression of a projector that is bound to an array can be passed through `ToList`, `ToArray`
or `AsEnumerable` if the registry decodes its static type as the array is decoded. The stage then
reads elements of the same names, and its documents are decoded alike. What reads the elements of
the array from their place has to read the array as well: the lambdas over it and around it take one
element each, and its elements are not read by the selector of an accumulator, which is lowered
without its source.
-/

namespace QueryStage

namespace Expr

variable {r : Decoders} {s : Scope} {e e' a a' : Expr}

/-- What a lambda ranges over that stands after these arguments of a call. -/
def rangeOf (r : Decoders) (s : Scope) : Option Expr → List Expr → Except Fault (Option Expr)
  | some receiver, _ => do return some (← receiver.bind r s)
  | none, [] => .ok none
  | none, first :: _ => do return some (← bindArg r s none first)

/-- An expression in a scope, and the same expression with one subexpression passed through. The
subexpression is bound to an array of its static type, which is no grouping, and the registry
decodes the type as the array is decoded. Lambdas around it take elements, and so do those that
range over a field in which it stands. Where such a field is not lowered itself, its elements are
not read: by the selector of an accumulator, by a member of its first or last element that is
accumulated in its place, and by the lambdas of a sequence method on a receiver. -/
inductive Interposes (r : Decoders) : Scope → Expr → Expr → Prop
  | here {s : Scope} {e : Expr} {path : Path} {d i : Decoder} {method : String}
    (hmethod : method ∈ passingMethods) (hbind : e.bind r s = .ok (field path d e.ty))
    (hitem : d.item? = some i) (hlookup : r.lookup e.ty = some d)
    (hty : e.ty.isGrouping = false) :
    Interposes r s e (call none method .enumerable [e] e.ty)
  | operand {s : Scope} {a a' e e' : Expr} (h : Interposes r s a a')
    (hkind : e.kind ∉ [.call, .memberAccess, .accumulator]) (hreplaces : Replaces a a' e e') :
    Interposes r s e e'
  | target {s : Scope} {a a' : Expr} (name : String) (declaring ty : Ty) (h : Interposes r s a a')
    (hfold : ∀ fn path d ty₁ ty₂ b,
      a.bind r s = .ok (accumulate fn (field path d ty₁) none ty₂) →
      (member a name declaring ty).bind r s = .ok b → b.kind ≠ .accumulator) :
    Interposes r s (member a name declaring ty) (member a' name declaring ty)
  | lambda {s : Scope} {body body' : Expr} (params : List Parameter)
    (htakes : ∀ b, body.bind r s = .ok b → (lambda ⟨params, b⟩).takesElement = true)
    (h : Interposes r s body body') :
    Interposes r s (lambda ⟨params, body⟩) (lambda ⟨params, body'⟩)
  | receiver {s : Scope} {a a' : Expr} (method : String) (declaring : Ty) (args : List Expr)
    (ty : Ty) (h : Interposes r s a a')
    (hunread : declaring = .enumerable → (∃ b, a.bind r s = .ok b ∧ b.kind = .field) →
      ∀ p body, Expr.lambda ⟨[p], body⟩ ∈ args → p.name ∉ body.free) :
    Interposes r s (call (some a) method declaring args ty)
      (call (some a') method declaring args ty)
  | source {s : Scope} {a a' : Expr} (receiver : Option Expr) (method : String) (declaring : Ty)
    {after : List Expr} (ty : Ty) (h : Interposes r s a a') (hlambda : a.kind ≠ .lambda)
    (htakes : ∀ receiver' b as, (call receiver method declaring (a :: after) ty).bind r s =
      .ok (call receiver' method declaring (b :: as) ty) → b.kind = .field →
      ∀ x ∈ as, x.kind = .lambda → x.TakesElements) :
    Interposes r s (call receiver method declaring (a :: after) ty)
      (call receiver method declaring (a' :: after) ty)
  | argument {s : Scope} {a a' : Expr} (receiver : Option Expr) (method : String) (declaring : Ty)
    (first : Expr) (before after : List Expr) (ty : Ty) (h : Interposes r s a a')
    (hlambda : a.kind ≠ .lambda) :
    Interposes r s (call receiver method declaring (first :: (before ++ a :: after)) ty)
      (call receiver method declaring (first :: (before ++ a' :: after)) ty)
  | body {s inner : Scope} {body body' : Expr} {receiver source : Option Expr} (method : String)
    (declaring : Ty) {before : List Expr} (after : List Expr) (ty : Ty) {params : List Parameter}
    (hrange : rangeOf r s receiver before = .ok source)
    (henter : s.enter r params source = .ok inner)
    (htakes : ∀ b, body.bind r inner = .ok b → (Expr.lambda ⟨params, b⟩).takesElement = true)
    (h : Interposes r inner body body') :
    Interposes r s
      (call receiver method declaring (before ++ Expr.lambda ⟨params, body⟩ :: after) ty)
      (call receiver method declaring (before ++ Expr.lambda ⟨params, body'⟩ :: after) ty)
  | accumulate {s : Scope} {a a' : Expr} (fn : AccumulatorFn) (ty : Ty) (h : Interposes r s a a') :
    Interposes r s (accumulate fn a none ty) (accumulate fn a' none ty)
  | accumulateOf {s : Scope} {a a' : Expr} (fn : AccumulatorFn) {params : List Parameter}
    {body : Expr} (ty : Ty) (h : Interposes r s a a')
    (hunread : (∃ b, a.bind r s = .ok b ∧ b.kind = .field) →
      ∀ p, params = [p] → p.name ∉ body.free) :
    Interposes r s (.accumulate fn a (some ⟨params, body⟩) ty)
      (.accumulate fn a' (some ⟨params, body⟩) ty)
  | selector {s inner : Scope} {source items body body' : Expr} (fn : AccumulatorFn)
    {params : List Parameter} (ty : Ty) (hsource : source.bind r s = .ok items)
    (henter : s.enter r params (some items) = .ok inner) (h : Interposes r inner body body') :
    Interposes r s (.accumulate fn source (some ⟨params, body⟩) ty)
      (.accumulate fn source (some ⟨params, body'⟩) ty)

private theorem rangeOf_nil {receiver bound : Option Expr}
    (h : Option.Rel (fun e b => e.bind r s = .ok b) receiver bound) :
    rangeOf r s receiver [] = .ok bound := by
  cases h with
  | none => rfl
  | some h => rw [rangeOf, h, ok_bind, pure_eq_ok]

private theorem rangeOf_cons {receiver bound : Option Expr}
    (h : Option.Rel (fun e b => e.bind r s = .ok b) receiver bound) {first b : Expr}
    (hfirst : bindArg r s bound first = .ok b) (before : List Expr) :
    rangeOf r s receiver (first :: before) = .ok (bound.or (some b)) := by
  cases h with
  | none => rw [rangeOf, hfirst, ok_bind, pure_eq_ok, Option.none_or]
  | some h => rw [rangeOf, h, ok_bind, pure_eq_ok, Option.some_or]

private theorem hasStart_of_rangeOf (hs : s.Projecting) {receiver source : Option Expr}
    {before : List Expr} (hreceiver : ∀ e, receiver = some e → e.Unbound)
    (hbefore : ∀ e ∈ before, e.Unbound) (h : rangeOf r s receiver before = .ok source) :
    ∀ items, source = some items → items.All HasStart := by
  rintro items rfl
  unfold rangeOf at h
  split at h
  · simp only [bind_eq_ok_iff, pure_eq_ok, Except.ok.injEq, Option.some.injEq] at h
    obtain ⟨b, hb, rfl⟩ := h
    exact hasStart_of_bind (hreceiver _ rfl) hs hb
  · cases h
  · simp only [bind_eq_ok_iff, pure_eq_ok, Except.ok.injEq, Option.some.injEq] at h
    obtain ⟨b, hb, rfl⟩ := h
    exact hasStart_of_bindArg (hbefore _ List.mem_cons_self) hs (fun _ hnone => by cases hnone) hb

private theorem kind_of_bindArg_lambda {source : Option Expr} {fn : Lambda} {b : Expr}
    (h : bindArg r s source (lambda fn) = .ok b) : b.kind = .lambda := by
  generalize hlambda : lambda fn = e at h
  cases bindArg_eq_ok_iff.mp h with
  | operand hkind _ => exact absurd (hlambda ▸ rfl) hkind
  | each => rfl

theorem kind_ne_of_bind_field {path : Path} {d : Decoder} {ty : Ty}
    (h : e.bind r s = .ok (field path d ty)) : e.kind ≠ .lambda ∧ e.kind ≠ .construction := by
  constructor
  · intro hkind
    cases e with
    | lambda fn =>
      obtain ⟨_, -, hfield⟩ := bind_lambda_cases h
      cases hfield
    | _ => cases hkind
  · intro hkind
    cases e with
    | construct =>
      obtain ⟨_, -, hfield⟩ := bind_construct_cases h
      cases hfield
    | _ => cases hkind

namespace Interposes

theorem kind_iff (h : Interposes r s e e') {kind : NodeKind}
    (hkind : kind = .lambda ∨ kind = .construction) : e.kind = kind ↔ e'.kind = kind := by
  cases h with
  | here _ hbind =>
    obtain ⟨hlambda, hconstruct⟩ := kind_ne_of_bind_field hbind
    rcases hkind with rfl | rfl
    · exact iff_of_false hlambda (by simp [Expr.kind])
    · exact iff_of_false hconstruct (by simp [Expr.kind])
  | operand _ _ hreplaces => cases hreplaces <;> rfl
  | target | lambda | receiver | source | argument | body | accumulate | accumulateOf | selector =>
    rfl

end Interposes

private theorem bind_replaces (hkind : e.kind ∉ [.call, .memberAccess, .accumulator])
    (hreplaces : Replaces a a' e e') (ih : Lifted (Interposed r) (a.bind r s) (a'.bind r s)) :
    Lifted (Interposed r) (e.bind r s) (e'.bind r s) := by
  have same (x : Expr) : Lifted (Interposed r) (x.bind r s) (x.bind r s) := .of_refl .same _
  cases hreplaces with
  | target | receiver | argument | source => simp [Expr.kind] at hkind
  | left op right ty =>
    simp only [bind]
    exact ih.bind fun _ _ hl => (same right).bind fun _ _ hr =>
      .ok (.node rfl rfl (.binary op ty hl hr))
  | right op left ty =>
    simp only [bind]
    exact (same left).bind fun _ _ hl => ih.bind fun _ _ hr =>
      .ok (.node rfl rfl (.binary op ty hl hr))
  | operand op ty =>
    simp only [bind]
    exact ih.bind fun _ _ h => .ok (.node rfl rfl (.unary op ty h))
  | test ifTrue ifFalse ty =>
    simp only [bind]
    exact ih.bind fun _ _ ht => (same ifTrue).bind fun _ _ ha => (same ifFalse).bind fun _ _ hb =>
      .ok (.node rfl rfl (.conditional ty ht ha hb))
  | ifTrue test ifFalse ty =>
    simp only [bind]
    exact (same test).bind fun _ _ ht => ih.bind fun _ _ ha => (same ifFalse).bind fun _ _ hb =>
      .ok (.node rfl rfl (.conditional ty ht ha hb))
  | ifFalse test ifTrue ty =>
    simp only [bind]
    exact (same test).bind fun _ _ ht => (same ifTrue).bind fun _ _ ha => ih.bind fun _ _ hb =>
      .ok (.node rfl rfl (.conditional ty ht ha hb))
  | component ty parameters before after members =>
    simp only [bind, bindAll_eq_mapM]
    have hrest (es : List Expr) : List.Forall₂ (fun x x' =>
        Lifted (Interposed r) (x.bind r s) (x'.bind r s)) es es :=
      List.forall₂_same.mpr fun x _ => same x
    have hargs := Lifted.mapM (List.rel_append (hrest before) (.cons ih (hrest after)))
    exact hargs.bind fun _ _ h => .ok (.node rfl rfl (.construct ty parameters members h))

private theorem bind_receiver (hs : s.Projecting) (method : String) (declaring : Ty)
    (args : List Expr) (ty : Ty) (ih : Lifted (Interposed r) (a.bind r s) (a'.bind r s))
    (hunread : declaring = .enumerable → (∃ b, a.bind r s = .ok b ∧ b.kind = .field) →
      ∀ p body, lambda ⟨[p], body⟩ ∈ args → p.name ∉ body.free) :
    Lifted (Interposed r) ((call (some a) method declaring args ty).bind r s)
      ((call (some a') method declaring args ty).bind r s) := by
  simp only [bind, Scope.accumulator?_of_group hs.group, Option.getD_none]
  refine (ih.ensuring fun b hb => hb).bind fun b b' hb => ?_
  obtain ⟨h, hbound⟩ := hb
  have unchanged (hargs : bindArgs r s (some b) args = bindArgs r s (some b') args) :
      Lifted (Interposed r)
        (do return call (some b) method declaring (← bindArgs r s (some b) args) ty)
        (do return call (some b') method declaring (← bindArgs r s (some b') args) ty) := by
    rw [hargs]
    refine (Lifted.refl _).bind ?_
    rintro as _ rfl
    have hargs := List.forall₂_same.mpr fun x (_ : x ∈ as) => Interposed.same (r := r) x
    exact .ok (.node rfl rfl (.call method declaring ty (.some h) hargs))
  rcases h.place_cases with hpassed | ⟨-, helement⟩
  · by_cases hdeclaring : declaring = .enumerable
    · exact unchanged (hpassed.bindArgs_eq (hunread hdeclaring ⟨b, hbound, hpassed.kind_eq⟩))
    · -- No loop is made of the lambdas of such a call, so it does not matter where they read.
      exact (bindArgs_passed_anywhere hpassed args).bind fun as bs hargs =>
        .ok (.on method ty hdeclaring hpassed hargs)
  · exact unchanged (bindArgs_congr helement args)

/-- The body of a lambda is bound in the scope of what the lambda ranges over. -/
private theorem bind_call_body (hs : s.Projecting) (method : String) (declaring : Ty)
    {before : List Expr} (after : List Expr) (ty : Ty) {params : List Parameter}
    {body body' : Expr} {receiver source : Option Expr} {inner : Scope}
    (hrange : rangeOf r s receiver before = .ok source)
    (henter : s.enter r params source = .ok inner)
    (htakes : ∀ b, body.bind r inner = .ok b → (lambda ⟨params, b⟩).takesElement = true)
    (ih : Lifted (Interposed r) (body.bind r inner) (body'.bind r inner)) :
    Lifted (Interposed r)
      ((call receiver method declaring (before ++ lambda ⟨params, body⟩ :: after) ty).bind r s)
      ((call receiver method declaring (before ++ lambda ⟨params, body'⟩ :: after) ty).bind
        r s) := by
  have hx : Lifted (Interposed r) (bindArg r s source (lambda ⟨params, body⟩))
      (bindArg r s source (lambda ⟨params, body'⟩)) := by
    simp only [bindArg, henter, ok_bind]
    exact (ih.ensuring htakes).bind fun b b' hb => .ok (.node rfl hb.2 (.lambda params hb.1))
  refine bind_call_args hs (fun bound hbound => ?_) method declaring ty
  -- A lambda that is the first argument of a call is not what is passed through there, although
  -- later ones range over it.
  cases before with
  | nil =>
    obtain rfl : source = bound := Except.ok.inj (hrange.symm.trans (rangeOf_nil hbound))
    refine bindArgs_first hx fun b as hargs hfield => ?_
    simp only [bindArgs_eq_bindArg, bind_eq_ok_iff, pure_eq_ok, Except.ok.injEq] at hargs
    obtain ⟨c, hc, _, -, hcons⟩ := hargs
    obtain ⟨rfl, -⟩ := List.cons.inj hcons
    rw [kind_of_bindArg_lambda hc] at hfield
    cases hfield
  | cons first before =>
    refine bindArgs_later fun b items hb hitems => ?_
    have hrange' := hrange.symm.trans (rangeOf_cons hbound hb before)
    rw [Except.ok.injEq, hitems] at hrange'
    rwa [← hrange']

/-- The source of an accumulator with a selector is not lowered, so the selector may not read its
elements where it is passed through. -/
private theorem bind_accumulateOf (fn : AccumulatorFn) {params : List Parameter} {body : Expr}
    (ty : Ty) (ih : Lifted (Interposed r) (a.bind r s) (a'.bind r s))
    (hunread : (∃ b, a.bind r s = .ok b ∧ b.kind = .field) →
      ∀ p, params = [p] → p.name ∉ body.free) :
    Lifted (Interposed r) ((accumulate fn a (some ⟨params, body⟩) ty).bind r s)
      ((accumulate fn a' (some ⟨params, body⟩) ty).bind r s) := by
  simp only [bind]
  refine (ih.ensuring fun b hb => hb).bind fun b b' hb => ?_
  obtain ⟨h, hbound⟩ := hb
  have hbody : (do let inner ← s.enter r params (some b); body.bind r inner) =
      (do let inner ← s.enter r params (some b'); body.bind r inner) := by
    rcases h.place_cases with hpassed | ⟨-, helement⟩
    · exact hpassed.bind_body_eq (hunread ⟨b, hbound, hpassed.kind_eq⟩)
    · rw [enter_congr helement]
  rw [← bind_assoc, ← bind_assoc, hbody]
  refine (Lifted.refl _).bind ?_
  rintro c _ rfl
  exact .ok (.node rfl rfl (.accumulateOf fn params ty h (.same c)))

/-- With a subexpression passed through, an expression is bound to the same one with an array passed
through, or with the same fault. -/
theorem bind_interposed (h : Interposes r s e e') : s.Projecting → e.Unbound →
    Lifted (Interposed r) (e.bind r s) (e'.bind r s) := by
  induction h with
  | @here s e path d i method hmethod hbind hitem hlookup hty =>
    intro hs he
    have hlambda := (kind_ne_of_bind_field hbind).1
    have hstart := (hasStart_of_bind he hs hbind).self path rfl
    rw [hbind, bind, bindArgs_cons none hlambda, hbind]
    simp only [ok_bind, pure_eq_ok, bindArgs, Scope.accumulator?_of_group hs.group,
      Option.getD_none]
    exact .ok (.passed (.intro hmethod hstart hitem hlookup hty))
  | operand h hkind hreplaces ih =>
    intro hs he
    exact bind_replaces hkind hreplaces (ih hs (he.part hreplaces.mem_parts))
  | @target s a a' name declaring ty h hfold ih =>
    intro hs he
    simp only [bind, Scope.key?_of_group hs.group] at hfold ⊢
    refine ((ih hs (he.part (by simp [parts]))).ensuring fun b hb => hb).bind fun b b' hb => ?_
    refine bindMember_interposed hb.1 name declaring ty fun fn path d ty₁ ty₂ c hb' hc => ?_
    refine hfold fn path d ty₁ ty₂ c (hb' ▸ hb.2) ?_
    rw [hb.2, ok_bind, hc]
  | lambda params htakes h ih =>
    intro hs he
    simp only [bind]
    have hbody := (ih hs (he.part (List.mem_singleton_self _))).ensuring htakes
    exact hbody.bind fun b b' hb => .ok (.node rfl hb.2 (.lambda params hb.1))
  | receiver method declaring args ty h hunread ih =>
    intro hs he
    exact bind_receiver hs method declaring args ty (ih hs (he.part (by simp [parts]))) hunread
  | @source s a a' receiver method declaring after ty h hlambda htakes ih =>
    intro hs he
    refine bind_call_args hs (fun bound hbound => ?_) method declaring ty
    have hlambda' : a'.kind ≠ .lambda := fun hkind => hlambda ((h.kind_iff (.inl rfl)).mpr hkind)
    refine bindArgs_first ?_ fun b as hargs => ?_
    · rw [bindArg_of_kind_ne _ hlambda, bindArg_of_kind_ne _ hlambda']
      exact ih hs (he.part (by simp [parts]))
    · refine htakes bound b as ?_
      rw [bind_call_eq hs hbound, hargs, ok_bind, pure_eq_ok]
  | @argument s a a' receiver method declaring first before after ty h hlambda ih =>
    intro hs he
    refine bind_call_args hs (fun bound hbound => bindArgs_later fun b items _ _ => ?_) method
      declaring ty
    have hlambda' : a'.kind ≠ .lambda := fun hkind => hlambda ((h.kind_iff (.inl rfl)).mpr hkind)
    rw [bindArg_of_kind_ne _ hlambda, bindArg_of_kind_ne _ hlambda']
    exact ih hs (he.part (by simp [parts]))
  | @body s inner body body' receiver source method declaring before after ty params hrange henter
      htakes h ih =>
    intro hs he
    have hsource := hasStart_of_rangeOf hs (fun x hx => he.part (by simp [parts, hx]))
      (fun x hx => he.part (by simp [parts, hx])) hrange
    have hlambda : (Expr.lambda ⟨params, body⟩).Unbound := he.part (by simp [parts])
    exact bind_call_body hs method declaring after ty hrange henter htakes
      (ih (hs.enter hsource henter) (hlambda.part (List.mem_singleton_self _)))
  | accumulate fn ty h ih =>
    intro hs he
    simp only [bind]
    exact (ih hs (he.part (by simp [parts]))).bind fun b b' hb =>
      .ok (.node rfl rfl (.accumulate fn ty hb))
  | accumulateOf fn ty h hunread ih =>
    intro hs he
    exact bind_accumulateOf fn ty (ih hs (he.part (by simp [parts]))) hunread
  | @selector s inner source items body body' fn params ty hsource henter h ih =>
    intro hs he
    have hitems := hasStart_of_bind (he.part (by simp [parts])) hs hsource
    have hinner : inner.Projecting := by
      refine hs.enter ?_ henter
      rintro _ ⟨⟩
      exact hitems
    simp only [bind, hsource, henter, ok_bind]
    exact (ih hinner (he.part (by simp [parts]))).bind fun b b' hb =>
      .ok (.node rfl rfl (.accumulateOf fn params ty (.same items) hb))

end Expr

theorem Lambda.projecting_projectorScope (p : Parameter) (source : Decoder) :
    (projectorScope p source).Projecting where
  started := by
    refine ⟨fun {name e} he => ?_, fun hg => by cases hg⟩
    rcases Scope.lookup_bind_cases he with ⟨-, rfl⟩ | he
    · intro n hn path hpath
      simp only [root, Expr.nodes, List.mem_cons, List.not_mem_nil, or_false] at hn
      rcases hn with rfl | rfl <;> cases hpath
    · cases he
  group := rfl

namespace Stage

/-- Two stages whose documents are decoded alike and that read elements of the same names. -/
structure SameReadings (stage stage' : Stage) : Prop where
  decoder : stage.decoder = stage'.decoder
  elementNames : ∀ name,
    name ∈ stage.document.elementNames ↔ name ∈ stage'.document.elementNames

variable {r : Decoders} {source : Decoder} {p : Parameter} {body body' : Expr}

theorem ofProjector_interposed (options : Options) (hunbound : body.Unbound)
    (h : Expr.Interposes r (Lambda.projectorScope p source) body body')
    (hconstruct : body.isConstruction = true) :
    Lifted SameReadings (ofProjector r options source ⟨[p], body⟩)
      (ofProjector r options source ⟨[p], body'⟩) := by
  have hscope := Lambda.projecting_projectorScope p source
  have hconstruct' : body'.isConstruction = true := by
    rw [Expr.isConstruction, decide_eq_true_eq] at hconstruct ⊢
    exact (h.kind_iff (.inr rfl)).mp hconstruct
  simp only [ofProjector, requireConstruction, hconstruct, hconstruct', if_true, ok_bind,
    Lambda.bindProjector, Lambda.single]
  refine ((Expr.bind_interposed h hscope hunbound).ensuring fun b hb => hb).bind fun b b' hb => ?_
  obtain ⟨hb, hbound⟩ := hb
  have hstart := Expr.hasStart_of_bind hunbound hscope hbound
  rw [hb.decoder_eq]
  refine (Lifted.refl _).bind ?_
  rintro d _ rfl
  cases body with
  | construct ty parameters args members =>
    obtain ⟨as, -, rfl⟩ := Expr.bind_construct_cases hbound
    obtain ⟨bs, rfl, hargs⟩ := hb.construct_cases
    have hB := Bson.congruence_readsSame []
    have hshape := Expr.SameNode.shapeOf_alike ty parameters hargs fun a ha b hab =>
      hab.reads_same (hstart.part ha) options.stringUnit [] id Path.neutral_id
    refine hshape.bind fun shape shape' hshape => .ok ⟨rfl, fun name => ?_⟩
    exact hB.apply StageKind.project.operator (hB.document (projection_rel hB hshape)) name
      List.not_mem_nil
  | _ => cases hconstruct

/-- A projector with a subexpression passed through is accepted just when the projector is. The two
stages read elements of the same names, and their documents are decoded alike. -/
theorem passing_through_transparent (r : Decoders) (options : Options) (source : Decoder)
    (p : Parameter) (body body' : Expr) (hunbound : body.Unbound)
    (h : Expr.Interposes r (Lambda.projectorScope p source) body body') :
    (∀ stage, ofProjector r options source ⟨[p], body⟩ = .ok stage →
      ∃ stage', ofProjector r options source ⟨[p], body'⟩ = .ok stage' ∧
        stage.SameReadings stage') ∧
    ∀ stage', ofProjector r options source ⟨[p], body'⟩ = .ok stage' →
      ∃ stage, ofProjector r options source ⟨[p], body⟩ = .ok stage := by
  constructor
  · intro stage hstage
    have hconstruct := isConstruction_of_ofProjector hstage
    exact (ofProjector_interposed options hunbound h hconstruct).exists_ok hstage
  · intro stage' hstage'
    have hconstruct : body.isConstruction = true := by
      have hconstruct' := isConstruction_of_ofProjector hstage'
      rw [Expr.isConstruction, decide_eq_true_eq] at hconstruct' ⊢
      exact (h.kind_iff (.inr rfl)).mpr hconstruct'
    obtain ⟨stage, hstage, -⟩ :=
      (ofProjector_interposed options hunbound h hconstruct).symm.exists_ok hstage'
    exact ⟨stage, hstage⟩

/-- A projector without bound nodes is accepted, and another one is not accepted with the same
readings. -/
def ToldApart (r : Decoders) (source : Decoder) (p : Parameter) (body body' : Expr) : Prop :=
  body.Unbound ∧ ∃ stage, ofProjector r {} source ⟨[p], body⟩ = .ok stage ∧
    ∀ stage', ofProjector r {} source ⟨[p], body'⟩ = .ok stage' → ¬ stage.SameReadings stage'

theorem toldApart_of_fault {fault : Fault} (hunbound : body.Unbound)
    (h : ∃ stage, ofProjector r {} source ⟨[p], body⟩ = .ok stage)
    (h' : ofProjector r {} source ⟨[p], body'⟩ = .error fault) :
    ToldApart r source p body body' := by
  obtain ⟨stage, hstage⟩ := h
  refine ⟨hunbound, stage, hstage, fun stage' hstage' => ?_⟩
  rw [h'] at hstage'
  cases hstage'

theorem toldApart_of_name (name : String) (hunbound : body.Unbound)
    (h : ∃ stage stage', ofProjector r {} source ⟨[p], body⟩ = .ok stage ∧
      ofProjector r {} source ⟨[p], body'⟩ = .ok stage' ∧
      ¬ (name ∈ stage.document.elementNames ↔ name ∈ stage'.document.elementNames)) :
    ToldApart r source p body body' := by
  obtain ⟨stage, stage', hstage, hstage', hname⟩ := h
  refine ⟨hunbound, stage, hstage, fun other hother hsame => ?_⟩
  obtain rfl : stage' = other := Except.ok.inj (hstage'.symm.trans hother)
  exact hname (hsame.elementNames name)

end Stage

namespace Orders

open QueryStage.Expr

def itemList : Expr := sequenceCall "ToList" (itemsOf "o") [] (.array (.record "Item"))

/-- The names of the given items, by a lambda with the given parameter. -/
def namesBy (i : String) (items : Expr) : Expr :=
  sequenceCall "Select" items
    [lambda ⟨[ofItem i], access (parameter (ofItem i)) "Name" .string⟩] (.array .string)

def namesFrom (items : Expr) : Expr := named (.record "Names") [("Names", namesBy "i" items)]

def totalOf (items : Expr) : Expr :=
  accumulate .sum items
    (some ⟨[ofItem "i"], access (parameter (ofItem "i")) "Quantity" .int32⟩) .int32

def firstOf (items : Expr) : Expr := accumulate .first items none (.record "Item")

def summaryFrom (items firsts : Expr) : Expr :=
  named (.record "Summary")
    [("Names", namesBy "i" items), ("First", firstOf firsts), ("Total", totalOf (itemsOf "o"))]

/-- The names are a dotted reference to the items, and a loop over the list of them. The first of
the list is the first of the items. -/
theorem summaryFrom_itemList :
    (summaryFrom (itemsOf "o") (itemsOf "o")).Unbound ∧
      Interposes registry (Lambda.projectorScope (ofOrder "o") source)
        (summaryFrom (itemsOf "o") (itemsOf "o")) (summaryFrom itemList (itemsOf "o")) ∧
      Interposes registry (Lambda.projectorScope (ofOrder "o") source)
        (summaryFrom (itemsOf "o") (itemsOf "o")) (summaryFrom (itemsOf "o") itemList) ∧
      ∃ stage overList ofList,
        Stage.ofProjector registry {} source
          ⟨[ofOrder "o"], summaryFrom (itemsOf "o") (itemsOf "o")⟩ = .ok stage ∧
        stage.specification = Stage.projection [("Names", .string "$items.name"),
          ("First", .apply "$first" (.string "$items")),
          ("Total", .apply "$sum" (.string "$items.qty"))] ∧
        Stage.ofProjector registry {} source
          ⟨[ofOrder "o"], summaryFrom itemList (itemsOf "o")⟩ = .ok overList ∧
        overList.specification = Stage.projection
          [("Names", LoopKind.map.emit "i" (.string "$items") (.string "$$i.name")),
            ("First", .apply "$first" (.string "$items")),
            ("Total", .apply "$sum" (.string "$items.qty"))] ∧
        Stage.ofProjector registry {} source
          ⟨[ofOrder "o"], summaryFrom (itemsOf "o") itemList⟩ = .ok ofList ∧
        ofList.specification = stage.specification ∧
        stage.SameReadings overList ∧ stage.SameReadings ofList := by
  have hunbound : (summaryFrom (itemsOf "o") (itemsOf "o")).Unbound := by decide
  have hlist : Interposes registry (Lambda.projectorScope (ofOrder "o") source) (itemsOf "o")
      itemList := .here (by decide) rfl rfl rfl rfl
  have hnames : Interposes registry (Lambda.projectorScope (ofOrder "o") source)
      (summaryFrom (itemsOf "o") (itemsOf "o")) (summaryFrom itemList (itemsOf "o")) := by
    refine .operand (.source none "Select" .enumerable (.array .string) hlist (by decide) ?_)
      (by decide) (.component _ _ [] _ _)
    intro receiver b as hcall _
    cases hcall
    decide
  have hfirst : Interposes registry (Lambda.projectorScope (ofOrder "o") source)
      (summaryFrom (itemsOf "o") (itemsOf "o")) (summaryFrom (itemsOf "o") itemList) :=
    .operand (.accumulate .first (.record "Item") hlist) (by decide) (.component _ _ [_] _ _)
  obtain ⟨overList, hoverList, hover⟩ := (Stage.passing_through_transparent registry {} source
    (ofOrder "o") _ _ hunbound hnames).1 _ rfl
  obtain ⟨ofList, hofList, hof⟩ := (Stage.passing_through_transparent registry {} source
    (ofOrder "o") _ _ hunbound hfirst).1 _ rfl
  refine ⟨hunbound, hnames, hfirst, _, overList, ofList, rfl, rfl, hoverList, ?_, hofList, ?_,
    hover, hof⟩
  · cases hoverList
    rfl
  · cases hofList
    rfl

def noClasses : Registry where
  classes := []

/-- A registry that reads the name of an item from another element than the source does. -/
def titles : Registry where
  classes := [("Item", ⟨"Item", [("Name", ⟨"title", .value .string⟩)], ["Name"]⟩)]

def pair : Decoder := .document
  { typeName := "Pair"
    members := [("A", ⟨"a", .array (.document item)⟩), ("B", ⟨"b", .array (.document item)⟩)]
    creator := ["A", "B"] }

def listOf (member : String) : Expr :=
  access (parameter ⟨"p", .record "Pair"⟩) member (.array (.record "Item"))

/-- The names of the second list, by a call on the first one. -/
def namesOn (items : Expr) : Expr :=
  named (.record "Names") [("Names", call (some items) "Select" .enumerable
    [listOf "B", lambda ⟨[ofItem "i"], access (parameter (ofItem "i")) "Name" .string⟩]
    (.array .string))]

/-- The items of an order with the type of a grouping. -/
def groupedItems : Expr :=
  access (parameter (ofOrder "o")) "Items" (.grouping .boolean (.record "Item"))

/-- The same items as the member of a construction, with the type of an array. -/
def boxedItems : Expr :=
  access (named (.record "Box") [("A", groupedItems)]) "A" (.array (.record "Item"))

/-- The given items for each of the items of an order, by a lambda with the given parameters. -/
def listsBy (params : List Parameter) (range items : Expr) : Expr :=
  named (.record "Lists") [("Lists", sequenceCall "Select" range [lambda ⟨params, items⟩]
    (.array (.array (.record "Item"))))]

/-- Places where the items of an order cannot be passed through: the source and the body of a lambda
with two parameters, the source of lambdas whose parameters no variable can have for a name, and
accumulators that read the elements of their source. -/
def itemPlaces : List (Expr → Expr) :=
  [fun items => listsBy [ofItem "i", ⟨"n", .int32⟩] items (itemsOf "o"),
    fun items => listsBy [ofItem "i", ⟨"n", .int32⟩] (itemsOf "o") items,
    fun items => named (.record "Names") [("Names", namesBy "a.b" items)],
    fun items => named (.record "Names") [("Names", namesBy "$i" items)],
    fun items => named (.record "Totals") [("Total", totalOf items)],
    fun items => named (.record "Names") [("Name", access (firstOf items) "Name" .string)]]

/-- Each of the conditions is needed. The registry has to know the items, and read them from the
elements from which the source reads them. The field has to be of the static type, and this type no
grouping. The places, and the receiver of a sequence method, cannot be passed through. -/
theorem itemList_not_transparent :
    (itemsOf "o").bind registry (Lambda.projectorScope (ofOrder "o") source) =
        .ok (field ⟨["items"]⟩ (.array (.document item)) (.array (.record "Item"))) ∧
      Stage.ToldApart noClasses source (ofOrder "o") (namesFrom (itemsOf "o"))
        (namesFrom itemList) ∧
      Stage.ToldApart titles source (ofOrder "o") (namesFrom (itemsOf "o")) (namesFrom itemList) ∧
      (∀ items ∈ [groupedItems, boxedItems],
        items.bind registry (Lambda.projectorScope (ofOrder "o") source) =
          .ok (field ⟨["items"]⟩ (.array (.document item)) groupedItems.ty) ∧
        Stage.ToldApart registry source (ofOrder "o") (named (.record "Lists") [("Items", items)])
          (named (.record "Lists") [("Items", sequenceCall "ToList" items [] items.ty)])) ∧
      (∀ place ∈ itemPlaces,
        Stage.ToldApart registry source (ofOrder "o") (place (itemsOf "o")) (place itemList)) ∧
      Stage.ToldApart registry pair ⟨"p", .record "Pair"⟩ (namesOn (listOf "A"))
        (namesOn (sequenceCall "ToList" (listOf "A") [] (.array (.record "Item")))) := by
  refine ⟨rfl, Stage.toldApart_of_fault (by decide) ⟨_, rfl⟩ rfl,
    Stage.toldApart_of_name "title" (by decide) ⟨_, _, rfl, rfl, by decide⟩, ?_, ?_,
    Stage.toldApart_of_name "a" (by decide) ⟨_, _, rfl, rfl, by decide⟩⟩
  · intro items hitems
    simp only [List.mem_cons, List.not_mem_nil, or_false] at hitems
    rcases hitems with rfl | rfl
    · exact ⟨rfl, Stage.toldApart_of_fault (by decide) ⟨_, rfl⟩ rfl⟩
    · exact ⟨rfl, Stage.toldApart_of_fault (by decide) ⟨_, rfl⟩ rfl⟩
  · intro place hplace
    simp only [itemPlaces, List.mem_cons, List.not_mem_nil, or_false] at hplace
    rcases hplace with rfl | rfl | rfl | rfl | rfl | rfl
    · exact Stage.toldApart_of_fault (by decide) ⟨_, rfl⟩ rfl
    · exact Stage.toldApart_of_fault (by decide) ⟨_, rfl⟩ rfl
    · exact Stage.toldApart_of_name "b" (by decide) ⟨_, _, rfl, rfl, by decide⟩
    · exact Stage.toldApart_of_name "i" (by decide) ⟨_, _, rfl, rfl, by decide⟩
    · exact Stage.toldApart_of_name "items" (by decide) ⟨_, _, rfl, rfl, by decide⟩
    · exact Stage.toldApart_of_name "items" (by decide) ⟨_, _, rfl, rfl, by decide⟩

end Orders

end QueryStage
