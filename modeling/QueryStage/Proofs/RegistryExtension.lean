import QueryStage.Proofs.AccumulatorNesting
import QueryStage.Proofs.LoopHygiene

/-!
# Stages under more decoders

A stage that can be made stays the same when the decoders of further types become known. Decoders
are looked up where items are ranged over and where the result is decoded; a lookup that fails is a
fault of the whole stage, so in a stage that can be made every lookup has found its decoder.
-/

namespace QueryStage

/-- If the first outcome is a result, the second is the same. -/
def Kept {ε α : Type} (x y : Except ε α) : Prop := Ensures (fun a => y = .ok a) x

namespace Kept

variable {ε α β γ : Type}

theorem refl (x : Except ε α) : Kept x x := fun _ h => h

theorem bind {x y : Except ε α} {f g : α → Except ε β} (h : Kept x y)
    (hnext : ∀ a, Kept (f a) (g a)) : Kept (x >>= f) (y >>= g) := by
  intro b hb
  obtain ⟨a, hx, hf⟩ := bind_eq_ok_iff.mp hb
  rw [h a hx, ok_bind]
  exact hnext a b hf

theorem mapM {δ : Type} {f : γ → Except ε α} {g : δ → Except ε α} {xs : List γ} {ys : List δ}
    (h : List.Forall₂ (fun x y => Kept (f x) (g y)) xs ys) : Kept (xs.mapM f) (ys.mapM g) := by
  induction h with
  | nil =>
    rw [List.mapM_nil, List.mapM_nil]
    exact refl _
  | cons hxy _ ih =>
    rw [List.mapM_cons, List.mapM_cons]
    apply hxy.bind
    intro a
    apply ih.bind
    exact fun as => refl _

end Kept

namespace Decoders

/-- Every type that has a decoder in `ds` has the same one in `ds'`. -/
def Extends (ds' ds : Decoders) : Prop := ∀ ty d, ds.lookup ty = some d → ds'.lookup ty = some d

variable {ds ds' : Decoders}

theorem Extends.decoderFor (h : ds'.Extends ds) (ty : Ty) :
    Kept (ds.decoderFor ty) (ds'.decoderFor ty) := by
  intro d hd
  cases hlookup : ds.lookup ty with
  | none =>
    rw [Decoders.decoderFor, hlookup] at hd
    cases hd
  | some d' =>
    rw [Decoders.decoderFor, hlookup] at hd
    rw [Decoders.decoderFor, h ty d' hlookup]
    exact hd

end Decoders

/-- A class that is registered under a new name leaves all known decoders as they are. -/
theorem Registry.withClass_extends (r : Registry) (d : DocumentDecoder)
    (hnew : r.classes.get? d.typeName = none) :
    (r.withClass d).decoders.Extends r.decoders := by
  intro ty
  have wrapped (wrap : Decoder → Decoder) {t : Ty}
      (ih : ∀ i, r.lookup t = some i → (r.withClass d).lookup t = some i) (i : Decoder)
      (hi : (r.lookup t).map wrap = some i) : ((r.withClass d).lookup t).map wrap = some i := by
    obtain ⟨j, hj, rfl⟩ := Option.map_eq_some_iff.mp hi
    rw [ih j hj, Option.map_some]
  induction ty with
  | nullable t ih => exact wrapped .nullable ih
  | array t ih => exact wrapped .array ih
  | set t ih => exact wrapped .array ih
  | grouping key t _ ih => exact wrapped .array ih
  | record name =>
    intro i hi
    obtain ⟨c, hc, rfl⟩ := Option.map_eq_some_iff.mp hi
    have hname : d.typeName ≠ name := by
      intro hname
      rw [← hname, hnew] at hc
      cases hc
    have hlookup : (r.withClass d).lookup (.record name) = r.lookup (.record name) := by
      rw [lookup_withClass_record, if_neg hname]
    exact hlookup.trans hi
  | _ => exact fun _ h => h

variable {ds ds' : Decoders}

theorem Decoder.kept_ofConstruction (ty : Ty) (parameters : List String)
    (members : Option (List String)) {as bs : List (Except Fault Decoder)}
    (h : List.Forall₂ Kept as bs) :
    Kept (ofConstruction ty parameters members as) (ofConstruction ty parameters members bs) := by
  cases members with
  | none => exact .refl _
  | some members =>
    simp only [ofConstruction, h.length_eq]
    split
    · exact .refl _
    · apply Kept.bind
      · apply Kept.mapM
        apply (Entries.forall₂_zip parameters h).imp
        rintro ⟨name, a⟩ ⟨name', b⟩ ⟨rfl, hab⟩
        dsimp only at hab ⊢
        split
        · exact hab.bind fun d => .refl _
        · exact .refl _
      · exact fun declared => .refl _

theorem Decoder.kept_ofAccumulator (h : ds'.Extends ds) (fn : AccumulatorFn) (element : Decoder) :
    Kept (ofAccumulator ds fn element) (ofAccumulator ds' fn element) := by
  cases fn with
  | avg => exact h.decoderFor .double
  | _ => exact .refl _

namespace Expr

private theorem selectedDecoder_rel {args : List Expr}
    (h : ∀ params body, lambda ⟨params, body⟩ ∈ args → Kept (body.decoder ds) (body.decoder ds')) :
    Option.Rel Kept (selectedDecoder ds args) (selectedDecoder ds' args) := by
  rcases args with _ | ⟨source, _ | ⟨a, rest⟩⟩
  · exact .none
  · exact .none
  · rcases lambda_or_kind_ne a with ⟨params, body, rfl⟩ | hkind
    · simp only [selectedDecoder]
      split
      · exact .some (h params body (by simp))
      · exact .none
    · cases a with
      | lambda fn => exact absurd rfl hkind
      | _ => exact .none

theorem kept_decoder (h : ds'.Extends ds) (e : Expr) : Kept (e.decoder ds) (e.decoder ds') := by
  induction e with
  | construct ty parameters args members ih =>
    rw [decoder, decoder, decoders_eq_map, decoders_eq_map]
    apply Decoder.kept_ofConstruction
    rw [List.forall₂_map_left_iff, List.forall₂_map_right_iff, List.forall₂_same]
    exact ih
  | accumulate fn source selector ty ihs ihb =>
    rcases selector with _ | ⟨params, body⟩
    · apply ihs.bind
      intro d
      apply (Kept.refl (Decoder.itemOf source.ty d)).bind
      exact Decoder.kept_ofAccumulator h fn
    · apply (ihb params body rfl).bind
      exact Decoder.kept_ofAccumulator h fn
  | call receiver method declaring args ty _ _ ihb =>
    rw [decoder, decoder]
    split
    · have hselected := selectedDecoder_rel ihb
      generalize selectedDecoder ds args = x at hselected
      generalize selectedDecoder ds' args = y at hselected
      cases hselected with
      | none => exact h.decoderFor ty
      | some hitem => exact hitem.bind fun d => .refl _
    · exact h.decoderFor ty
  | conditional test ifTrue ifFalse ty _ iha _ =>
    rw [decoder, decoder]
    split
    · exact iha
    · exact h.decoderFor ty
  | binary op left right ty ihl _ =>
    rw [decoder, decoder]
    split
    · exact ihl
    · exact h.decoderFor ty
  | field => exact .refl _
  | document => exact .refl _
  | lambda params body => exact h.decoderFor body.ty
  | parameter p => exact h.decoderFor p.ty
  | _ => exact h.decoderFor _

theorem kept_itemDecoder (h : ds'.Extends ds) (e : Expr) :
    Kept (e.itemDecoder ds) (e.itemDecoder ds') :=
  (kept_decoder h e).bind fun _ => .refl _

theorem kept_element? (h : ds'.Extends ds) (source : Expr) (p : Parameter) :
    Kept (source.element? ds p) (source.element? ds' p) := by
  cases source with
  | field => exact .refl _
  | document => exact .refl _
  | _ => exact (kept_itemDecoder h _).bind fun d => .refl _

end Expr

theorem Scope.kept_enter (h : ds'.Extends ds) (s : Scope) (params : List Parameter)
    (source : Option Expr) : Kept (s.enter ds params source) (s.enter ds' params source) := by
  rcases params with _ | ⟨p, _ | ⟨q, params⟩⟩
  · exact .refl _
  · cases source with
    | none => exact .refl _
    | some items =>
      apply (Expr.kept_element? h items p).bind
      exact fun element => .refl _
  · exact .refl _

namespace Expr

theorem kept_bindMember (h : ds'.Extends ds) (target : Expr) (name : String) (declaring ty : Ty) :
    Kept (bindMember ds target name declaring ty) (bindMember ds' target name declaring ty) := by
  have folded (fn : AccumulatorFn) (source : Expr) :
      Kept (bindMember.fold ds target name declaring ty fn source)
        (bindMember.fold ds' target name declaring ty fn source) :=
    (kept_element? h source _).bind fun element => .refl _
  unfold bindMember
  split
  · exact .refl _
  · split
    · exact folded .first _
    · exact folded .last _
    · exact .refl _

/-- Binding an expression has the same result in both, whatever the scope. -/
def BindsKept (ds ds' : Decoders) (e : Expr) : Prop := ∀ s, Kept (e.bind ds s) (e.bind ds' s)

private theorem kept_bindAll {es : List Expr} (h : ∀ e ∈ es, e.BindsKept ds ds') (s : Scope) :
    Kept (bindAll ds s es) (bindAll ds' s es) := by
  induction es with
  | nil => exact .refl _
  | cons e es ih =>
    apply (h e List.mem_cons_self s).bind
    intro b
    apply (ih fun e he => h e (List.mem_cons_of_mem _ he)).bind
    exact fun bs => .refl _

private theorem kept_bindArgs (h : ds'.Extends ds) {es : List Expr}
    (hes : ∀ e ∈ es, e.BindsKept ds ds')
    (hbodies : ∀ params body, lambda ⟨params, body⟩ ∈ es → body.BindsKept ds ds') (s : Scope) :
    ∀ source, Kept (bindArgs ds s source es) (bindArgs ds' s source es) := by
  induction es with
  | nil => exact fun _ => .refl _
  | cons e es ih =>
    intro source
    have rest (b : Expr) : Kept (bindArgs ds s (source.or (some b)) es)
        (bindArgs ds' s (source.or (some b)) es) :=
      ih (fun e he => hes e (List.mem_cons_of_mem _ he))
        (fun params body hmem => hbodies params body (List.mem_cons_of_mem _ hmem)) _
    rcases lambda_or_kind_ne e with ⟨params, body, rfl⟩ | hkind
    · apply (s.kept_enter h params source).bind
      intro inner
      apply (hbodies params body List.mem_cons_self inner).bind
      intro b
      exact (rest _).bind fun bs => .refl _
    · rw [bindArgs_cons source hkind, bindArgs_cons source hkind]
      apply (hes e List.mem_cons_self s).bind
      intro b
      exact (rest b).bind fun bs => .refl _

theorem kept_bind (h : ds'.Extends ds) (e : Expr) : e.BindsKept ds ds' := by
  induction e with
  | literal value ty => exact fun _ => .refl _
  | parameter p => exact fun _ => .refl _
  | member target name declaring ty ih =>
    intro s
    rw [bind, bind]
    split
    · exact .refl _
    · apply (ih s).bind
      exact fun bound => kept_bindMember h bound name declaring ty
  | binary op left right ty ihl ihr =>
    intro s
    apply (ihl s).bind
    intro l
    exact (ihr s).bind fun r => .refl _
  | unary op operand ty ih => exact fun s => (ih s).bind fun b => .refl _
  | conditional test ifTrue ifFalse ty iht iha ihb =>
    intro s
    apply (iht s).bind
    intro t
    apply (iha s).bind
    intro a
    exact (ihb s).bind fun b => .refl _
  | call receiver method declaring args ty ihr iha ihb =>
    intro s
    have hargs := kept_bindArgs h iha ihb s
    cases receiver with
    | none => exact (hargs none).bind fun bs => .refl _
    | some e =>
      apply (ihr e rfl s).bind
      intro b
      exact (hargs (some b)).bind fun bs => .refl _
  | lambda params body ih => exact fun s => (ih s).bind fun b => .refl _
  | construct ty parameters args members ih =>
    exact fun s => (kept_bindAll ih s).bind fun bs => .refl _
  | accumulate fn source selector ty ihs ihb =>
    intro s
    rcases selector with _ | ⟨params, body⟩
    · exact (ihs s).bind fun b => .refl _
    · apply (ihs s).bind
      intro b
      apply (s.kept_enter h params (some b)).bind
      intro inner
      exact (ihb params body rfl inner).bind fun body => .refl _
  | field path d ty => exact fun _ => .refl _
  | document inner path d => exact fun _ => .refl _

end Expr

namespace Lambda

theorem kept_bindProjector (h : ds'.Extends ds) (fn : Lambda) (source : Decoder) :
    Kept (fn.bindProjector ds source) (fn.bindProjector ds' source) :=
  (Kept.refl fn.single).bind fun _ => Expr.kept_bind h fn.body _

theorem kept_bindGroupProjector (h : ds'.Extends ds) (fn : Lambda) (source : Decoder)
    (key : Expr) :
    Kept (fn.bindGroupProjector ds source key) (fn.bindGroupProjector ds' source key) :=
  (Kept.refl fn.single).bind fun _ => Expr.kept_bind h fn.body _

end Lambda

namespace Stage

theorem kept_keyOf (h : ds'.Extends ds) (bound : Expr) :
    Kept (keyOf ds bound) (keyOf ds' bound) := by
  cases bound with
  | field => exact .refl _
  | document => exact .refl _
  | _ => exact (Expr.kept_decoder h _).bind fun d => .refl _

theorem kept_ofProjector (h : ds'.Extends ds) (options : Options) (source : Decoder)
    (projector : Lambda) :
    Kept (ofProjector ds options source projector) (ofProjector ds' options source projector) := by
  apply (Kept.refl (requireConstruction projector)).bind
  intro _
  apply (projector.kept_bindProjector h source).bind
  intro body
  apply (body.kept_decoder h).bind
  exact fun decoder => .refl _

theorem kept_ofGroup (h : ds'.Extends ds) (options : Options) (source : Decoder)
    (keySelector projector : Lambda) :
    Kept (ofGroup ds options source keySelector projector)
      (ofGroup ds' options source keySelector projector) := by
  apply (Kept.refl (requireConstruction projector)).bind
  intro _
  apply (keySelector.kept_bindProjector h source).bind
  intro bound
  apply (kept_keyOf h bound).bind
  intro key
  apply (Kept.refl (key.lower options.stringUnit id)).bind
  intro keyValue
  apply (projector.kept_bindGroupProjector h source key).bind
  intro body
  apply (body.kept_decoder h).bind
  exact fun decoder => .refl _

/-- A stage that can be made is made in the same way, and with the same decoder, where all decoders
known before are known and others besides. So it is after a class is registered under a name that
no class had before. -/
theorem same_under_extension (options : Options) (source : Decoder) :
    (∀ ds ds' : Decoders, ds'.Extends ds →
      (∀ projector stage, ofProjector ds options source projector = .ok stage →
        ofProjector ds' options source projector = .ok stage) ∧
      ∀ keySelector projector stage, ofGroup ds options source keySelector projector = .ok stage →
        ofGroup ds' options source keySelector projector = .ok stage) ∧
    ∀ (r : Registry) (d : DocumentDecoder), (r.register d).1 = none →
      (r.register d).2.decoders.Extends r.decoders := by
  constructor
  · intro ds ds' h
    exact ⟨fun projector => kept_ofProjector h options source projector,
      fun keySelector projector => kept_ofGroup h options source keySelector projector⟩
  · exact fun r d hnew => r.withClass_extends d hnew

end Stage

namespace Orders

open QueryStage.Expr

def invoice : DocumentDecoder where
  typeName := "Invoice"
  members := [("Number", ⟨"number", .value .int32⟩)]
  creator := ["Number"]

def largeOnly : Lambda := ⟨[ofOrder "o"], named (.record "Large") [("Items", largeItems)]⟩

def meanAmount : Lambda where
  params := [ofGroup "g" .boolean]
  body := named (.record "Mean")
    [("Mean", sequenceCall "Average" (parameter (ofGroup "g" .boolean))
      [lambda ⟨[ofOrder "o"], amountOf "o"⟩] .double)]

/-- The large items and the mean amounts stay the same when invoices become known. -/
theorem same_with_invoices :
    (registry.register invoice).1 = none ∧
      (∃ stage, Stage.ofProjector registry {} source largeOnly = .ok stage ∧
        Stage.ofProjector (registry.register invoice).2 {} source largeOnly = .ok stage) ∧
      ∃ stage, Stage.ofGroup registry {} source byExpress meanAmount = .ok stage ∧
        Stage.ofGroup (registry.register invoice).2 {} source byExpress meanAmount =
          .ok stage := by
  obtain ⟨hkept, hregister⟩ := Stage.same_under_extension {} source
  obtain ⟨hproject, hgroup⟩ := hkept _ _ (hregister registry invoice rfl)
  exact ⟨rfl, ⟨_, rfl, hproject largeOnly _ rfl⟩, ⟨_, rfl, hgroup byExpress meanAmount _ rfl⟩⟩

end Orders

end QueryStage
