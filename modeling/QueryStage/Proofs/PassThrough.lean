import QueryStage.Proofs.FusedAccumulators
import QueryStage.Proofs.LoopHygiene
import QueryStage.Proofs.MovedReadings
import QueryStage.Proofs.RenamedLambdas

/-!
# Sequences that are passed through

The methods `ToList`, `ToArray` and `AsEnumerable` emit their source as it is. But a source that is
passed through them is a computed one: what ranges over it is decoded by its static type and reads
its elements from a loop variable. If the registry decodes that type as the source is decoded, the
same elements are read and the result is decoded alike.
-/

namespace QueryStage

namespace Expr

variable {r : Decoders} {unit : StringUnit} {e e' a a' : Expr}

/-- A bound array, and the call that passes it through, where the registry decodes the type of the
array as the array is decoded. -/
inductive Passed (r : Decoders) : Expr → Expr → Prop
  | intro {path : Path} {d i : Decoder} {ty : Ty} {method : String}
    (hmethod : method ∈ passingMethods) (hstart : path.segments ≠ [])
    (hitem : d.item? = some i) (hlookup : r.lookup ty = some d) (hty : ty.isGrouping = false) :
    Passed r (field path d ty) (call none method .enumerable [field path d ty] ty)

theorem Passed.kind_eq (h : Passed r a a') : a.kind = .field := by
  cases h
  rfl

theorem Passed.hasStart (h : Passed r a a') : a.All HasStart := by
  cases h with
  | intro _ hstart =>
    refine all_of_parts_eq_nil rfl ?_
    rintro _ ⟨⟩
    exact hstart

/-- The same argument over two sources: it is a lambda with a body that is moved from the one to the
other, or does not change. -/
structure RangedOver (R : Path → Path → Prop) (a a' : Expr) : Prop where
  moved : Moved (.ofPlaces R) a a'
  same : a.kind ≠ .lambda → a = a'

/-- Where the source of a call is bound. -/
def sourcePlace? : Expr → Option Path
  | call _ _ _ args _ => args.head?.bind boundPath?
  | _ => none

/-- The same bound expression, but with bound arrays passed through. The lambdas in which this is
done take elements, and so do those that range over what is passed through. -/
inductive Interposed (r : Decoders) : Expr → Expr → Prop
  | same (e : Expr) : Interposed r e e
  | passed {a a' : Expr} (h : Passed r a a') : Interposed r a a'
  | ranged {a a' : Expr} {as bs : List Expr} (receiver : Option Expr) (method : String)
    (declaring ty : Ty) (h : Passed r a a')
    (hargs : List.Forall₂ (RangedOver (Path.SameElements a.placeNames)) as bs)
    (htakes : ∀ x ∈ as, x.kind = .lambda → x.TakesElements) :
    Interposed r (call receiver method declaring (a :: as) ty)
      (call receiver method declaring (a' :: bs) ty)
  | on {a a' : Expr} {R : Path → Path → Prop} {as bs : List Expr} (method : String)
    {declaring : Ty} (ty : Ty) (hdeclaring : declaring ≠ .enumerable) (h : Passed r a a')
    (hargs : List.Forall₂ (RangedOver R) as bs) :
    Interposed r (call (some a) method declaring as ty) (call (some a') method declaring bs ty)
  | node {e e' : Expr} (hsource : e.sourcePlace? = e'.sourcePlace?)
    (htakes : e.takesElement = true) (h : SameNode (Interposed r) e e') : Interposed r e e'

namespace Interposed

theorem kind_eq (h : Interposed r e e') : e.kind = e'.kind ∨ Passed r e e' := by
  cases h with
  | same | ranged | on => exact .inl rfl
  | passed h => exact .inr h
  | node _ _ h => exact .inl h.kind_eq

theorem kind_eq_iff (h : Interposed r e e') {kind : NodeKind} (hfield : kind ≠ .field)
    (hcall : kind ≠ .call) : e.kind = kind ↔ e'.kind = kind := by
  rcases h.kind_eq with hkind | hpassed
  · rw [hkind]
  · cases hpassed with
    | intro => exact iff_of_false hfield.symm hcall.symm

theorem isConstruction_eq (h : Interposed r e e') : e.isConstruction = e'.isConstruction := by
  have hiff : e.kind = .construction ↔ e'.kind = .construction := h.kind_eq_iff (by simp) (by simp)
  simp only [isConstruction, hiff]

theorem comparison?_eq (h : Interposed r e e') : e.comparison? = e'.comparison? := by
  cases h with
  | same | ranged | on => rfl
  | passed h => cases h; rfl
  | node _ _ h => exact h.comparison?_eq

theorem ty_eq (h : Interposed r e e') : e.ty = e'.ty := by
  induction e using induct_parts generalizing e' with
  | step e ih =>
    cases h with
    | same | ranged | on => rfl
    | passed h => cases h; rfl
    | node _ _ h => exact h.ty_eq fun a ha b hab => ih a ha hab

theorem overGroup_eq (h : Interposed r e e') : e.overGroup = e'.overGroup := by
  have hiff : e.kind = .accumulator ↔ e'.kind = .accumulator := h.kind_eq_iff (by simp) (by simp)
  simp only [overGroup, isAccumulator, h.ty_eq, hiff]

theorem lambda_cases {params : List Parameter} {body : Expr}
    (h : Interposed r (lambda ⟨params, body⟩) e') :
    ∃ body', e' = lambda ⟨params, body'⟩ ∧ Interposed r body body' ∧
      (body = body' ∨ (lambda ⟨params, body⟩).takesElement = true) := by
  generalize hlambda : lambda ⟨params, body⟩ = e at h
  cases h with
  | same =>
    subst hlambda
    exact ⟨body, rfl, .same body, .inl rfl⟩
  | passed h => cases h; cases hlambda
  | ranged | on => cases hlambda
  | node _ htakes h =>
    subst hlambda
    cases h with
    | lambda _ h => exact ⟨_, rfl, h, .inr htakes⟩

theorem construct_cases {ty : Ty} {parameters : List String} {as : List Expr}
    {members : Option (List String)} (h : Interposed r (construct ty parameters as members) e') :
    ∃ bs, e' = construct ty parameters bs members ∧ List.Forall₂ (Interposed r) as bs := by
  generalize hconstruct : construct ty parameters as members = e at h
  cases h with
  | same =>
    subst hconstruct
    exact ⟨as, rfl, List.forall₂_same.mpr fun a _ => .same a⟩
  | passed h => cases h; cases hconstruct
  | ranged | on => cases hconstruct
  | node _ _ h =>
    subst hconstruct
    cases h with
    | construct _ _ _ hargs => exact ⟨_, rfl, hargs⟩

theorem decoder_eq (h : Interposed r e e') : e.decoder r = e'.decoder r := by
  induction e using induct_nodes generalizing e' with
  | step e ih =>
    have part {a b : Expr} (ha : a ∈ e.parts) (hab : Interposed r a b) :
        a.decoder r = b.decoder r := ih a ha a (self_mem_nodes a) hab
    cases h with
    | same => rfl
    | passed h =>
      cases h with
      | intro hmethod _ _ hlookup _ =>
        have hselect : ∀ m ∈ passingMethods, m ≠ "Select" := by decide
        simp [decoder, hselect _ hmethod, Decoders.decoderFor, hlookup]
    | ranged receiver method declaring ty h hargs _ =>
      rw [decoder, decoder, selectedDecoder_congr hargs fun a _ b hab => ?_]
      refine ⟨by rw [hab.moved.kind_eq], ?_⟩
      rintro ⟨params, body⟩ ⟨params', body'⟩ rfl rfl
      cases hab.moved with
      | lambda _ hbody =>
        exact ⟨by rw [isConstruction, isConstruction, hbody.kind_eq], hbody.decoder_eq r⟩
    | on method ty hdeclaring h hargs => simp [decoder, hdeclaring]
    | node _ _ h =>
      cases h with
      | binary op ty hl hr => simp [decoder, hl.isConstruction_eq, part (by simp [parts]) hl]
      | conditional ty ht ha hb => simp [decoder, ha.isConstruction_eq, part (by simp [parts]) ha]
      | @call receiver _ _ _ method declaring ty hreceiver hargs =>
        cases hargs with
        | nil => rfl
        | @cons first _ as _ _ hargs =>
          rw [decoder, decoder, selectedDecoder_congr hargs fun a ha b hab => ?_]
          refine ⟨hab.kind_eq_iff (by simp) (by simp), ?_⟩
          rintro ⟨params, body⟩ fn rfl rfl
          obtain ⟨body', hbody', hbody, -⟩ := hab.lambda_cases
          cases hbody'
          have hpart : lambda ⟨params, body⟩ ∈
              (call receiver method declaring (first :: as) ty).parts :=
            List.mem_append_right _ (List.mem_cons_of_mem _ ha)
          exact ⟨hbody.isConstruction_eq, ih _ hpart body (body_mem_nodes _) hbody⟩
      | lambda params h => simp [decoder, h.ty_eq]
      | @construct as bs ty parameters members hargs =>
        have hdecoders : as.map (decoder r) = bs.map (decoder r) := by
          have hmem : List.Forall₂ (fun a b => a ∈ as ∧ Interposed r a b) as bs :=
            (List.forall₂_and_left as bs).mpr ⟨fun _ ha => ha, hargs⟩
          rw [← List.forall₂_eq_eq_eq, List.forall₂_map_left_iff, List.forall₂_map_right_iff]
          exact hmem.imp fun a b hab => part hab.1 hab.2
        simp [decoder, hdecoders]
      | accumulate fn ty h => simp [decoder, h.ty_eq, part (by simp [parts]) h]
      | accumulateOf fn params ty _ hbody => simp [decoder, part (by simp [parts]) hbody]
      | _ => rfl

/-- An array is passed through, or the expression is bound at the same place and its elements are
the same. -/
theorem place_cases (h : Interposed r e e') :
    Passed r e e' ∨ e.boundPath? = e'.boundPath? ∧ ∀ p, e.element? r p = e'.element? r p := by
  have hitem : e.itemDecoder r = e'.itemDecoder r := by
    rw [itemDecoder, itemDecoder, h.decoder_eq, h.ty_eq]
  cases h with
  | same => exact .inr ⟨rfl, fun _ => rfl⟩
  | passed h => exact .inl h
  | ranged | on => exact .inr ⟨rfl, fun p => by simp only [element?, hitem]⟩
  | node _ _ h =>
    refine .inr ⟨h.boundPath?_left.trans h.boundPath?_right.symm, fun p => ?_⟩
    cases h <;> simp only [element?, hitem]

theorem boundPath?_eq_none (h : Interposed r e e') (hplace : e.boundPath? = none) :
    e'.boundPath? = none := by
  rcases h.place_cases with hpassed | ⟨heq, -⟩
  · cases hpassed
    rfl
  · rw [← heq, hplace]

end Interposed

variable {known : List String} {f : Path → Path}

theorem Passed.lower_eq (h : Passed r a a') (unit : StringUnit) (f : Path → Path) :
    a'.lower unit f = a.lower unit f := by
  cases h with
  | @intro path d i ty method hmethod _ _ _ hty =>
    have hfamily : MethodFamily.of .enumerable = .sequence := rfl
    simp [lower, MethodCall.lower, MethodCall.lowerSequence, SequenceMethod.emit,
      SequenceMethod.keep, named_of_passing hmethod, hfamily, overGroup, isAccumulator, kind,
      Expr.ty, hty, ok_bind, pure_eq_ok]

theorem Passed.boundPath?_eq (h : Passed r a a') : a'.boundPath? = none := by
  cases h
  rfl

theorem OperandRel.refl (known : List String) (unit : StringUnit) (f : Path → Path) (e : Expr) :
    OperandRel (Bson.ReadsSame known) unit f f e e :=
  ⟨.of_refl (Bson.ReadsSame.refl known) _, rfl, rfl, Iff.rfl⟩

theorem RangedOver.operandRel {R : Path → Path → Prop} (h : RangedOver R a a') :
    OperandRel (Bson.ReadsSame known) unit f f a a' := by
  rcases lambda_or_kind_ne a with ⟨params, body, rfl⟩ | hkind
  · cases h.moved with
    | lambda _ hbody =>
      refine ⟨?_, rfl, ?_, Iff.rfl⟩
      · rw [lower, lower, hbody.ty_eq]
        exact .error _
      · rw [overGroup, overGroup, Expr.ty, Expr.ty, hbody.ty_eq]
        rfl
  · rw [h.same hkind]
    exact .refl known unit f a'

theorem Interposed.operandRel (h : Interposed r a a')
    (hlower : Lifted (Bson.ReadsSame known) (a.lower unit f) (a'.lower unit f)) :
    OperandRel (Bson.ReadsSame known) unit f f a a' :=
  ⟨hlower, h.comparison?_eq, h.overGroup_eq, h.kind_eq_iff (by simp) (by simp)⟩

private theorem lowered_refl (known : List String) (unit : StringUnit) (f : Path → Path)
    (receiver : Option Expr) :
    Option.Rel (fun e e' => Lifted (Bson.ReadsSame known) (e.lower unit f) (e'.lower unit f))
      receiver receiver := by
  cases receiver with
  | none => exact .none
  | some e => exact .some (OperandRel.refl known unit f e).lowered

theorem Passed.operandRel (h : Passed r a a') :
    OperandRel (Bson.ReadsSame known) unit f f a a' := by
  refine (Interposed.passed h).operandRel ?_
  rw [h.lower_eq]
  exact (OperandRel.refl known unit f a).lowered

/-- A loop over an array that is passed through has a variable, and reads what it reads below the
array otherwise. -/
private theorem reads_call_ranged {receiver : Option Expr} {method : String} {declaring ty : Ty}
    {as bs : List Expr} (h : Passed r a a')
    (hargs : List.Forall₂ (RangedOver (Path.SameElements a.placeNames)) as bs)
    (htakes : ∀ x ∈ as, x.kind = .lambda → x.TakesElements)
    (hstart : (call receiver method declaring (a :: as) ty).All HasStart)
    (hf : Path.Neutral known f) :
    Lifted (Bson.ReadsSame known) ((call receiver method declaring (a :: as) ty).lower unit f)
      ((call receiver method declaring (a' :: bs) ty).lower unit f) := by
  refine lower_call_rel (Bson.congruence_readsSame known) (lowered_refl known unit f receiver)
    (.cons h.operandRel (hargs.imp fun _ _ hab => hab.operandRel)) ?_
  rintro - source source' params params' body body' hleft hright kind
  obtain ⟨rfl, rfl⟩ := List.cons.inj hleft
  obtain ⟨rfl, rfl⟩ := List.cons.inj hright
  cases hargs with
  | cons hlambda _ =>
    cases hlambda.moved with
    | lambda _ hbody =>
      have harg : lambda ⟨params, body⟩ ∈
          (call receiver method declaring [a, lambda ⟨params, body⟩] ty).parts := by simp [parts]
      have htakes := htakes _ (List.mem_singleton_self _) rfl
      rcases takesElement_cases htakes.self with ⟨v, rfl, hv⟩ | ⟨hparams, hplace⟩
      case inr =>
        exact emit_refused hparams (List.length_map _) hplace (hbody.boundPath?_eq_none hplace) kind
          _ _
      have hbound : a.HasStart := (hstart.part (by simp [parts])).self
      have hplaces : a'.placeNames ⊆ known ++ a.placeNames := by
        simp [placeNames, h.boundPath?_eq]
      have hcomputed : a'.HasStart := by simp [HasStart, h.boundPath?_eq]
      -- The array is at a place on the one side only, so the names that lead to it are known in the
      -- bodies of both loops, and the variable reads none of them.
      refine emit_reads_same hf hf hv hbound hcomputed hplaces h.operandRel.lowered
        (fun hleft hright => ?_) kind
      exact readsMoved a.placeNames unit ((hstart.part harg).part (List.mem_singleton_self _))
        (htakes.part (List.mem_singleton_self _)) _ _ _ _ hbody
        (List.subset_append_right _ _) hleft hright

private theorem emit_same {source source' : Expr} (hplace : source.boundPath? = source'.boundPath?)
    (hsource : Lifted (Bson.ReadsSame known) (source.lower unit f) (source'.lower unit f))
    (params : List Parameter) (body : Expr) (kind : LoopKind) :
    Lifted (Bson.ReadsSame known)
      ((loopOver unit f source params body).emit kind (source.lower unit f))
      ((loopOver unit f source' params body).emit kind (source'.lower unit f)) := by
  have hloop : loopOver unit f source params body = loopOver unit f source' params body := by
    rw [loopOver, loopOver, hplace]
  rw [hloop]
  exact (Loop.Rel.refl (Bson.congruence_readsSame known) (Bson.ReadsSame.refl known) _).emit kind
    hsource

private theorem reads_call_interposed {receiver receiver' : Option Expr} {method : String}
    {declaring ty : Ty} {as bs : List Expr}
    (hreceiver : Option.Rel (Interposed r) receiver receiver')
    (hargs : List.Forall₂ (Interposed r) as bs)
    (hsource : as.head?.bind boundPath? = bs.head?.bind boundPath?)
    (hstart : (call receiver method declaring as ty).All HasStart)
    (ih : ∀ part ∈ (call receiver method declaring as ty).parts, ∀ n ∈ part.nodes, ∀ n',
      Interposed r n n' → ∀ known f, Path.Neutral known f →
        Lifted (Bson.ReadsSame known) (n.lower unit f) (n'.lower unit f))
    (hf : Path.Neutral known f) :
    Lifted (Bson.ReadsSame known) ((call receiver method declaring as ty).lower unit f)
      ((call receiver' method declaring bs ty).lower unit f) := by
  have arg {a : Expr} (ha : a ∈ as) : a ∈ (call receiver method declaring as ty).parts :=
    List.mem_append_right _ ha
  have hmem : List.Forall₂ (fun a b => a ∈ as ∧ Interposed r a b) as bs :=
    (List.forall₂_and_left as bs).mpr ⟨fun _ ha => ha, hargs⟩
  refine lower_call_rel (Bson.congruence_readsSame known) ?_ ?_ ?_
  · cases hreceiver with
    | none => exact .none
    | some h => exact .some (ih _ (by simp [parts]) _ (self_mem_nodes _) _ h known f hf)
  · exact hmem.imp fun a b hab =>
      hab.2.operandRel (ih a (arg hab.1) a (self_mem_nodes a) b hab.2 known f hf)
  · rintro - source source' params params' body body' rfl rfl kind
    have hlambda : lambda ⟨params, body⟩ ∈ [source, lambda ⟨params, body⟩] := by simp
    have hplace : source.boundPath? = source'.boundPath? := hsource
    cases hargs with
    | cons hfirst hrest =>
      cases hrest with
      | cons hsecond _ =>
        obtain ⟨body'', hbody'', hbody, hchanged⟩ := hsecond.lambda_cases
        cases hbody''
        have hlowered := ih source (arg List.mem_cons_self) source (self_mem_nodes _) _ hfirst known
          f hf
        -- A lambda whose body stays as it is may have any parameters.
        rcases hchanged with rfl | htakes
        · exact emit_same hplace hlowered params body kind
        rcases takesElement_cases htakes with ⟨v, rfl, hv⟩ | ⟨hparams, hnowhere⟩
        case inr =>
          exact emit_refused hparams rfl hnowhere (hbody.boundPath?_eq_none hnowhere) kind _ _
        have hbound : source.HasStart := (hstart.part (arg List.mem_cons_self)).self
        have hbound' : source'.HasStart := by rwa [HasStart, ← hplace]
        have hplaces : source'.placeNames ⊆ known ++ source.placeNames := by
          rw [placeNames, placeNames, hplace]
          exact List.subset_append_right _ _
        refine emit_reads_same hf hf hv hbound hbound' hplaces hlowered (fun hleft _ => ?_) kind
        rw [loopOver, loopOver, ← hplace]
        exact ih _ (arg hlambda) body (body_mem_nodes _) _ hbody _ _ hleft

/-- With arrays passed through, elements of the same names are read. -/
theorem Interposed.reads_same (h : Interposed r e e') (hstart : e.All HasStart)
    (unit : StringUnit) : ∀ known f, Path.Neutral known f →
      Lifted (Bson.ReadsSame known) (e.lower unit f) (e'.lower unit f) := by
  -- The body of a lambda is not a part of the call, and is lowered under other paths.
  induction e using induct_nodes generalizing e' with
  | step e ih =>
    intro known f hf
    have hB := Bson.congruence_readsSame known
    have below {part n : Expr} (hpart : part ∈ e.parts) (hn : n ∈ part.nodes) (n' : Expr)
        (h : Interposed r n n') : ∀ known f, Path.Neutral known f →
          Lifted (Bson.ReadsSame known) (n.lower unit f) (n'.lower unit f) :=
      ih part hpart n hn h (hstart.below (mem_nodes_of_part hpart hn))
    cases h with
    | same => exact (OperandRel.refl known unit f e).lowered
    | passed h => exact h.operandRel.lowered
    | ranged receiver method declaring ty h hargs htakes =>
      exact reads_call_ranged h hargs htakes hstart hf
    | on method ty hdeclaring h hargs =>
      refine lower_call_rel hB (.some h.operandRel.lowered)
        (hargs.imp fun _ _ hab => hab.operandRel) fun hsequence => ?_
      exact absurd hsequence hdeclaring
    | node hsource _ h =>
      by_cases hcall : e.kind = .call
      · cases h with
        | call method declaring ty hreceiver hargs =>
          exact reads_call_interposed hreceiver hargs hsource hstart
            (fun _ hpart _ => below hpart) hf
        | _ => cases hcall
      · exact h.lower_of_parts hB hcall (fun _ _ _ hab => hab.ty_eq) fun a ha b hab =>
          below ha (self_mem_nodes a) b hab known f hf

end Expr

end QueryStage
