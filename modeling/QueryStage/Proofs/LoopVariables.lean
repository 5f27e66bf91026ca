import QueryStage.Proofs.BindingOrigins
import QueryStage.Proofs.NamedElements
import QueryStage.Proofs.Renaming

/-!
# Loop variables of bound expressions

The elements of a bound array are bound below the array, and only those of a computed one are bound
below a variable. So in a bound expression a path starts at a variable only in a lambda over a
computed source that declares it. Selectors of accumulators declare no variables: the grouping that
they range over is a document without a path.
-/

namespace QueryStage

variable {vars vars' : List String}

namespace Expr

/-- The variables in a lambda over a source: over a computed one its parameters are among them. -/
def loopVars (source : Expr) (params : List Parameter) (vars : List String) : List String :=
  match source.kind with
  | .field | .document => vars
  | _ => params.map Parameter.name ++ vars

/-- No path starts at a variable out of its scope, and what names a variable or a field has a name.
Accumulators range over documents, so that their selectors declare no variables. -/
inductive ReadsIn : List String → Expr → Prop
  | literal {vars : List String} (value : Literal) (ty : Ty) : ReadsIn vars (literal value ty)
  | parameter {vars : List String} (p : Parameter) : ReadsIn vars (parameter p)
  | member {vars : List String} {target : Expr} (name : String) (declaring ty : Ty)
    (htarget : ReadsIn vars target) : ReadsIn vars (member target name declaring ty)
  | binary {vars : List String} (op : BinaryOp) {left right : Expr} (ty : Ty)
    (hleft : ReadsIn vars left) (hright : ReadsIn vars right) :
    ReadsIn vars (binary op left right ty)
  | unary {vars : List String} (op : UnaryOp) {operand : Expr} (ty : Ty)
    (hoperand : ReadsIn vars operand) : ReadsIn vars (unary op operand ty)
  | conditional {vars : List String} {test ifTrue ifFalse : Expr} (ty : Ty)
    (htest : ReadsIn vars test) (hifTrue : ReadsIn vars ifTrue) (hifFalse : ReadsIn vars ifFalse) :
    ReadsIn vars (conditional test ifTrue ifFalse ty)
  | call {vars : List String} {receiver : Option Expr} (method : String) {declaring : Ty}
    {args : List Expr} (ty : Ty) (hreceiver : ∀ e, receiver = some e → ReadsIn vars e)
    (hargs : ∀ a ∈ args, a.kind ≠ .lambda → ReadsIn vars a)
    -- The lambdas of a sequence method range over its first argument.
    (hnames : declaring = .enumerable → ∀ source rest fn, args = source :: rest →
      lambda fn ∈ rest → ∀ p ∈ fn.params, isName p.name = true)
    (hloops : declaring = .enumerable → ∀ source rest fn, args = source :: rest →
      lambda fn ∈ rest → ReadsIn (loopVars source fn.params vars) fn.body) :
    ReadsIn vars (call receiver method declaring args ty)
  | lambda {vars : List String} {fn : Lambda} (hnames : ∀ p ∈ fn.params, isName p.name = true)
    (hbody : ReadsIn vars fn.body) : ReadsIn vars (lambda fn)
  | construct {vars : List String} (ty : Ty) {parameters : List String} {args : List Expr}
    (members : Option (List String)) (hnames : ∀ x ∈ parameters, isName x = true)
    (hargs : ∀ a ∈ args, ReadsIn vars a) : ReadsIn vars (construct ty parameters args members)
  | accumulate {vars : List String} (fn : AccumulatorFn) {source : Expr}
    {selector : Option Lambda} (ty : Ty) (hkind : source.kind = .document)
    (hsource : ReadsIn vars source) (hbody : ∀ f, selector = some f → ReadsIn vars f.body) :
    ReadsIn vars (accumulate fn source selector ty)
  | field {vars : List String} {path : Path} {d : Decoder} (ty : Ty) (hpath : path.ReadsIn vars)
    (hd : d.Named) : ReadsIn vars (field path d ty)
  | element {vars : List String} (p : Parameter) {path : Path} {d : Decoder}
    (hpath : path.ReadsIn vars) (hd : d.Named) :
    ReadsIn vars (document (parameter p) (some path) d)
  | current {vars : List String} {inner : Expr} {d : Decoder} (hinner : ReadsIn vars inner)
    (hd : d.Named) : ReadsIn vars (document inner none d)

variable {e b source : Expr} {params : List Parameter}

theorem subset_loopVars : vars ⊆ loopVars source params vars := by
  unfold loopVars
  split
  · exact List.Subset.refl _
  · exact List.Subset.refl _
  · exact List.subset_append_right _ _

theorem loopVars_mono (hsub : vars ⊆ vars') :
    loopVars source params vars ⊆ loopVars source params vars' := by
  unfold loopVars
  split
  · exact hsub
  · exact hsub
  · exact fun x hx => List.mem_append.mpr ((List.mem_append.mp hx).imp_right fun h => hsub h)

theorem loopVars_subset :
    loopVars source params vars ⊆ params.map Parameter.name ++ vars := by
  unfold loopVars
  split
  · exact List.subset_append_right _ _
  · exact List.subset_append_right _ _
  · exact List.Subset.refl _

theorem loopVars_of_document (h : source.kind = .document) :
    loopVars source params vars = vars := by
  rw [loopVars, h]

theorem loopVars_of_bound {path : Path} (h : source.boundPath? = some path) :
    loopVars source params vars = vars := by
  cases source with
  | field => rfl
  | document => rfl
  | _ => cases h

theorem mem_loopVars {p : Parameter} (hfield : source.kind ≠ .field)
    (hdocument : source.kind ≠ .document) : p.name ∈ loopVars source [p] vars := by
  unfold loopVars
  split
  · exact absurd ‹_› hfield
  · exact absurd ‹_› hdocument
  · simp

namespace ReadsIn

theorem mono (h : e.ReadsIn vars) (hsub : vars ⊆ vars') : e.ReadsIn vars' := by
  induction h generalizing vars' with
  | literal value ty => exact .literal value ty
  | parameter p => exact .parameter p
  | member name declaring ty _ ih => exact .member name declaring ty (ih hsub)
  | binary op ty _ _ ihl ihr => exact .binary op ty (ihl hsub) (ihr hsub)
  | unary op ty _ ih => exact .unary op ty (ih hsub)
  | conditional ty _ _ _ iht iha ihb => exact .conditional ty (iht hsub) (iha hsub) (ihb hsub)
  | call method ty _ _ hnames _ ihr iha ihl =>
    refine .call method ty (fun e he => ihr e he hsub) (fun a ha hkind => iha a ha hkind hsub)
      hnames fun hdeclaring source rest fn hargs hfn => ?_
    exact ihl hdeclaring source rest fn hargs hfn (loopVars_mono hsub)
  | lambda hnames _ ih => exact .lambda hnames (ih hsub)
  | construct ty members hnames _ ih => exact .construct ty members hnames fun a ha => ih a ha hsub
  | accumulate fn ty hkind _ _ ihs ihb =>
    exact .accumulate fn ty hkind (ihs hsub) fun f hf => ihb f hf hsub
  | field ty hpath hd => exact .field ty (hpath.mono hsub) hd
  | element p hpath hd => exact .element p (hpath.mono hsub) hd
  | current _ hd ih => exact .current (ih hsub) hd

theorem boundPath (h : e.ReadsIn vars) {path : Path} (hpath : e.boundPath? = some path) :
    path.ReadsIn vars := by
  cases h with
  | field _ h => cases hpath; exact h
  | element _ h => cases hpath; exact h
  | _ => cases hpath

theorem resolve (h : e.ReadsIn vars) {name : String} {ty : Ty}
    (hb : e.resolve? name ty = some b) : b.ReadsIn vars := by
  rcases resolve?_cases hb with ⟨path, d, ty', m, rfl, hm, rfl⟩ |
    ⟨inner, path, d, m, rfl, hm, rfl, -⟩ | ⟨ty', parameters, args, members, he, hb⟩
  · cases h with
    | field _ hpath hd => exact .field ty (hpath.child _) (hd.member hm).2
  · cases h with
    | element _ hpath hd => exact .field ty (hpath.child _) (hd.member hm).2
    | current _ hd =>
      exact .field ty (Path.readsIn_of_isName (hd.member hm).1) (hd.member hm).2
  · have hmem := mem_of_constructed? hb
    rcases he with rfl | ⟨path, d, rfl⟩
    · cases h with
      | construct _ _ _ hargs => exact hargs b hmem
    · cases h with
      | current hinner =>
        cases hinner with
        | construct _ _ _ hargs => exact hargs b hmem

end ReadsIn

theorem ReadsIn.named_decoder {ds : Decoders} (hds : ds.Named) (h : e.ReadsIn vars) :
    Ensures Decoder.Named (e.decoder ds) := by
  have hds := hds.sustains
  induction h with
  | literal | parameter | member | unary => exact hds.decoderFor _
  | @lambda vars fn =>
    obtain ⟨params, body⟩ := fn
    exact hds.decoderFor _
  | binary op ty _ _ ihl =>
    rw [decoder]
    split
    · exact ihl
    · exact hds.decoderFor _
  | conditional ty _ _ _ _ iha =>
    rw [decoder]
    split
    · exact iha
    · exact hds.decoderFor _
  | @call vars receiver method declaring args ty _ _ _ _ _ _ ihl =>
    rw [decoder]
    split
    · rename_i hselect
      rw [Bool.and_eq_true, decide_eq_true_eq, decide_eq_true_eq] at hselect
      split
      · rename_i item hitem
        obtain ⟨source, params, body, rest, rfl, rfl⟩ := selectedDecoder_cases hitem
        have hbody := ihl hselect.2 source _ ⟨params, body⟩ rfl (by simp)
        exact hbody.bind fun d hd => .ok hd
      · exact hds.decoderFor _
    · exact hds.decoderFor _
  | construct ty members hnames _ ih =>
    rw [decoder, decoders_eq_map]
    refine hds.ofConstruction ty members hnames fun x hx => ?_
    obtain ⟨a, ha, rfl⟩ := List.mem_map.mp hx
    exact ih a ha
  | @accumulate vars fn source selector ty _ _ _ ihs ihb =>
    rcases selector with _ | ⟨params, body⟩
    · exact ihs.bind fun d hd => (hds.itemOf _ hd).bind fun i hi => hds.ofAccumulator fn hi
    · exact (ihb _ rfl).bind fun d hd => hds.ofAccumulator fn hd
  | field _ _ hd => exact .ok hd
  | element _ _ hd => exact .ok hd
  | current _ hd => exact .ok hd

theorem ReadsIn.element_of {ds : Decoders} (hds : ds.Named) (h : source.ReadsIn vars)
    {p : Parameter} (hp : isName p.name = true) (hb : source.element? ds p = .ok (some b)) :
    b.ReadsIn (loopVars source [p] vars) := by
  rcases element?_cases hb with ⟨path, d, ty, i, rfl, hi, rfl⟩ |
    ⟨inner, path, d, i, rfl, hi, rfl⟩ | ⟨i, hfield, hdocument, hi, rfl⟩
  · cases h with
    | field _ hpath hd => exact .element p hpath (hd.item hi)
  · cases h with
    | element _ hpath hd => exact .element p hpath (hd.item hi)
    | current _ hd => exact .current (.parameter p) (hd.item hi)
  · have hi : i.Named :=
      ((h.named_decoder hds).bind fun d hd => hds.sustains.itemOf source.ty hd) i hi
    exact .element p (Path.readsIn_loopVariable hp (mem_loopVars hfield hdocument)) hi

/-- A parameter of this name stands by itself, in place of the expression or of what it is
constructed from. -/
inductive Exposes (name : String) : Expr → Prop
  | parameter {p : Parameter} (h : p.name = name) : Exposes name (parameter p)
  | argument {ty : Ty} {parameters : List String} {args : List Expr}
    {members : Option (List String)} {a : Expr} (ha : a ∈ args) (h : Exposes name a) :
    Exposes name (construct ty parameters args members)
  | inner {ty : Ty} {parameters : List String} {args : List Expr} {members : Option (List String)}
    {path : Option Path} {d : Decoder}
    (h : Exposes name (construct ty parameters args members)) :
    Exposes name (document (construct ty parameters args members) path d)

variable {x : String}

theorem Exposes.kind_cases (h : e.Exposes x) :
    e.kind = .parameter ∨ e.kind = .construction ∨ e.kind = .document := by
  cases h with
  | parameter => exact .inl rfl
  | argument => exact .inr (.inl rfl)
  | inner => exact .inr (.inr rfl)

theorem Exposes.of_resolve (h : b.Exposes x) {name : String} {ty : Ty}
    (hb : e.resolve? name ty = some b) : e.Exposes x := by
  rcases resolve?_cases hb with ⟨path, d, ty', m, rfl, hm, rfl⟩ |
    ⟨inner, path, d, m, rfl, hm, rfl, -⟩ | ⟨ty', parameters, args, members, he, hb⟩
  · cases h
  · cases h
  · have hmem := mem_of_constructed? hb
    rcases he with rfl | ⟨path, d, rfl⟩
    · exact .argument hmem h
    · exact .inner (.argument hmem h)

/-- A parameter that stands by itself is not emitted, and nothing around it is. -/
theorem Exposes.not_lowered (h : e.Exposes x) (hreads : e.ReadsIn vars) {unit : StringUnit}
    {paths : Path → Path} {value : Bson} : e.lower unit paths ≠ .ok value := by
  induction h generalizing value with
  | parameter h => rintro ⟨⟩
  | argument ha _ ih =>
    intro hlower
    obtain ⟨shape, hshape, -⟩ := lower_construct_cases hlower
    obtain ⟨values, hvalues, -⟩ := shapeOf_cases hshape
    rw [List.forall₂_map_left_iff] at hvalues
    obtain ⟨value, -, hvalue⟩ := exists_of_forall₂ (List.Forall₂.flip hvalues) ha
    cases hreads with
    | construct _ _ _ hargs => exact ih (hargs _ ha) hvalue
  | inner h ih =>
    cases hreads with
    | current hinner =>
      intro hlower
      exact ih hinner hlower

end Expr

/-- No parameter of this name is left to stand by itself. -/
structure Scope.Settles (s : Scope) (name : String) : Prop where
  known : (s.lookup name).isSome = true
  lookup : ∀ {x : String} {e : Expr}, s.lookup x = some e → ¬ e.Exposes name
  key : ∀ {g : GroupScope}, s.group = some g → ¬ g.key.Exposes name

/-- What the parameters in scope stand for, and the key of the group, reads these variables only,
and the grouping does not stand by itself. -/
structure Scope.ReadsIn (vars : List String) (s : Scope) : Prop where
  lookup : ∀ {x : String} {e : Expr}, s.lookup x = some e → e.ReadsIn vars
  key : ∀ {g : GroupScope}, s.group = some g → g.key.ReadsIn vars
  grouping : ∀ {g : GroupScope}, s.group = some g → s.Settles g.parameter

namespace Scope

variable {s : Scope} {x : String} {e : Expr}

theorem Settles.bind (h : s.Settles x) (name : String) (he : ¬ e.Exposes x) :
    (s.bind name e).Settles x := by
  refine ⟨?_, fun {y b} hb => ?_, h.key⟩
  · by_cases hx : x = name
    · rw [hx, lookup_bind_self]
      rfl
    · rw [lookup_bind_of_ne s hx]
      exact h.known
  · rcases lookup_bind_cases hb with ⟨-, rfl⟩ | hb
    · exact he
    · exact h.lookup hb

theorem Settles.hide (h : s.Settles x) {name : String} (hx : x ≠ name) :
    (s.hide name).Settles x := by
  refine ⟨?_, fun hb => h.lookup (lookup_hide_cases hb), h.key⟩
  rw [lookup_hide_of_ne s hx]
  exact h.known

namespace ReadsIn

theorem mono (h : s.ReadsIn vars) (hsub : vars ⊆ vars') : s.ReadsIn vars' :=
  ⟨fun he => (h.lookup he).mono hsub, fun hg => (h.key hg).mono hsub, h.grouping⟩

theorem bind (h : s.ReadsIn vars) (name : String) (he : e.ReadsIn vars)
    (hexposes : ∀ x, ¬ e.Exposes x) : (s.bind name e).ReadsIn vars := by
  refine ⟨fun {y b} hb => ?_, h.key, fun hg => (h.grouping hg).bind name (hexposes _)⟩
  rcases lookup_bind_cases hb with ⟨-, rfl⟩ | hb
  · exact he
  · exact h.lookup hb

theorem hide (h : s.ReadsIn vars) {name : String}
    (hname : ∀ g, s.group = some g → g.parameter ≠ name) : (s.hide name).ReadsIn vars :=
  ⟨fun hb => h.lookup (lookup_hide_cases hb), h.key, fun hg => (h.grouping hg).hide (hname _ hg)⟩

variable {ds : Decoders} {params : List Parameter} {inner : Scope}

theorem enter_alone (h : s.ReadsIn vars)
    (hgroup : ∀ g, s.group = some g → g.parameter ∉ params.map Parameter.name)
    (henter : s.enter ds params none = .ok inner) : inner.ReadsIn vars := by
  rcases enter_cases henter with rfl | ⟨p, rfl, rfl⟩ | ⟨p, items, e, -, hitems, -⟩
  · exact h
  · exact h.hide fun g hg hname => hgroup g hg (by simp [hname])
  · cases hitems

theorem enter (hds : ds.Named) (h : s.ReadsIn vars)
    (hnames : ∀ p ∈ params, isName p.name = true)
    (hgroup : ∀ g, s.group = some g → g.parameter ∉ params.map Parameter.name) {source : Expr}
    (hsource : source.ReadsIn vars) (henter : s.enter ds params (some source) = .ok inner) :
    inner.ReadsIn (source.loopVars params vars) := by
  have hs : s.ReadsIn (source.loopVars params vars) := h.mono Expr.subset_loopVars
  rcases enter_cases henter with rfl | ⟨p, rfl, rfl⟩ |
    ⟨p, items, e, rfl, hitems, helement, rfl⟩
  · exact hs
  · exact hs.hide fun g hg hname => hgroup g hg (by simp [hname])
  · cases hitems
    refine hs.bind _ (hsource.element_of hds (hnames p (by simp)) helement) fun x hexposes => ?_
    obtain ⟨path, d, rfl⟩ := Expr.document_of_element? helement
    cases hexposes

end ReadsIn

end Scope

namespace Expr

/-- A written node with names that can be read back: sequence methods take their source as an
argument, and lambdas and constructions declare names. -/
def isClean (e : Expr) : Bool :=
  e.isWritten && match e with
    | call receiver _ declaring _ _ => receiver.isNone || declaring ≠ .enumerable
    | lambda fn => fn.params.all fun p => isName p.name
    | construct _ parameters _ _ => parameters.all isName
    | _ => true

def Clean (e : Expr) : Prop := e.All fun n => n.isClean = true

instance (e : Expr) : Decidable e.Clean :=
  inferInstanceAs (Decidable (∀ n ∈ e.nodes, n.isClean = true))

variable {ds : Decoders} {s : Scope} {e b : Expr} {x : String}

theorem Clean.written (h : e.Clean) : e.Written :=
  fun n hn => (Bool.and_eq_true_iff.mp (h n hn)).1

theorem Clean.names {fn : Lambda} (h : (lambda fn).Clean) : ∀ p ∈ fn.params, isName p.name = true :=
  List.all_eq_true.mp (Bool.and_eq_true_iff.mp h.self).2

/-- Where a scope settles a name, no parameter of it stands by itself in what is bound. -/
theorem not_exposes_of_bind (hs : s.Settles x) (he : e.Written) (h : e.bind ds s = .ok b) :
    ¬ b.Exposes x := by
  induction e generalizing b with
  | parameter p =>
    rw [bind, Except.ok.injEq] at h
    subst h
    intro hexposes
    cases hlookup : s.lookup p.name with
    | some e =>
      rw [hlookup] at hexposes
      exact hs.lookup hlookup hexposes
    | none =>
      rw [hlookup] at hexposes
      cases hexposes with
      | parameter hp =>
        have hknown := hs.known
        rw [← hp, hlookup] at hknown
        cases hknown
  | member target name declaring ty ih =>
    rcases bind_member_cases h with hkey | ⟨-, bound, hbound, h⟩
    · obtain ⟨-, -, g, hg, rfl⟩ := Scope.key?_cases hkey
      exact hs.key hg
    · rcases bindMember_cases h with hresolve | rfl | ⟨_, _, _, _, _, -, -, -, rfl⟩
      · intro hexposes
        exact ih (he.part (by simp [parts])) hbound (hexposes.of_resolve hresolve)
      · rintro ⟨⟩
      · rintro ⟨⟩
  | construct ty parameters args members ih =>
    obtain ⟨args', hargs, rfl⟩ := bind_construct_cases h
    rintro (_ | ⟨ha, hexposes⟩)
    obtain ⟨a, hmem, ha⟩ := exists_of_forall₂ hargs ha
    exact ih a hmem (he.part hmem) ha hexposes
  | call receiver method declaring args ty =>
    obtain ⟨receiver', args', -, -, hacc | rfl⟩ := bind_call_cases h
    · intro hexposes
      have hkind := hexposes.kind_cases
      rw [kind_of_accumulator? hacc] at hkind
      simp at hkind
    · rintro ⟨⟩
  | lambda params body =>
    obtain ⟨body', -, rfl⟩ := bind_lambda_cases h
    rintro ⟨⟩
  | literal | binary | unary | conditional =>
    intro hexposes
    have hkind := hexposes.kind_cases
    rw [(forall₂_parts_of_bind rfl rfl h).1] at hkind
    simp [kind] at hkind
  | accumulate | field | document => cases he.self

private theorem readsIn_of_bindMember (hds : ds.Named) (he : e.ReadsIn vars) {name : String}
    {declaring ty : Ty} (h : bindMember ds e name declaring ty = .ok b) : b.ReadsIn vars := by
  rcases bindMember_cases h with hresolve | rfl |
    ⟨fn, source, ty', item, body, rfl, helement, hbody, rfl⟩
  · exact he.resolve hresolve
  · exact .member name declaring ty he
  · cases he with
    | accumulate _ _ hkind hsource =>
      have hname : isName "item" = true := by decide
      have hitem := hsource.element_of hds hname helement
      rw [loopVars_of_document hkind] at hitem
      apply ReadsIn.accumulate fn ty hkind hsource
      rintro f ⟨⟩
      exact hitem.resolve hbody

/-- The first of the bound arguments of a sequence method, and the lambdas that range over it. -/
structure SequenceReadsIn (s : Scope) (vars : List String) (source : Expr) (rest : List Expr) :
    Prop where
  reads : source.ReadsIn vars
  settled : ∀ g, s.group = some g → ¬ source.Exposes g.parameter
  names : ∀ fn, lambda fn ∈ rest → ∀ p ∈ fn.params, isName p.name = true
  bodies : ∀ fn, lambda fn ∈ rest → fn.body.ReadsIn (source.loopVars fn.params vars)

private theorem SequenceReadsIn.document_of_isGrouping {source : Expr} {rest : List Expr}
    (h : SequenceReadsIn s vars source rest) (hgrouping : s.isGrouping source = true) :
    source.kind = .document := by
  obtain ⟨g, p, hg, hp, rfl | ⟨d, rfl⟩⟩ := Scope.isGrouping_cases hgrouping
  · exact absurd (.parameter hp) (h.settled g hg)
  · rfl

private theorem readsIn_counting (ty : Ty) {fn : Option Lambda}
    (h : ∀ f, fn = some f → f.body.ReadsIn vars) : (grouped?.counting ty fn).body.ReadsIn vars := by
  rcases fn with _ | ⟨params, test⟩
  · exact .literal _ _
  · exact .conditional ty (h _ rfl) (.literal _ _) (.literal _ _)

private theorem readsIn_of_accumulator? {method : String} {declaring ty : Ty} {source : Expr}
    {rest : List Expr} (hargs : SequenceReadsIn s vars source rest)
    (h : s.accumulator? method declaring (source :: rest) ty = some b) : b.ReadsIn vars := by
  have hsource := hargs.reads
  rcases (accumulator?_cases h).2 with ⟨fn, items, selector, ty', hpush, rfl⟩ |
    ⟨items, fn, acc, counts, hgroup, hgrouping, rfl⟩
  · obtain ⟨rfl, -⟩ := List.cons.inj hpush
    cases hsource with
    | accumulate _ _ hkind hitems hbody => exact .accumulate fn ty hkind hitems hbody
  · have hitems : items = source := by cases hgroup <;> rfl
    subst hitems
    have hkind := hargs.document_of_isGrouping hgrouping
    have hfn : ∀ f, fn = some f → f.body.ReadsIn vars := by
      rintro f rfl
      cases hgroup
      have hbody := hargs.bodies f (by simp)
      rwa [loopVars_of_document hkind] at hbody
    apply ReadsIn.accumulate acc ty hkind hsource
    cases counts with
    | false => exact hfn
    | true =>
      rintro f ⟨⟩
      exact readsIn_counting ty hfn

/-- Bound in a scope that reads these variables, the expression reads no others, if the name of the
grouping is declared only once. -/
def BindsReading (ds : Decoders) (e : Expr) : Prop :=
  ∀ vars s b, s.ReadsIn vars → (∀ g, s.group = some g → g.parameter ∉ e.binders) →
    e.bind ds s = .ok b → b.ReadsIn vars

/-- What an argument needs so that its bound form reads the variables in scope. -/
private structure Bindable (ds : Decoders) (s : Scope) (e : Expr) : Prop where
  clean : e.Clean
  binders : ∀ g, s.group = some g → g.parameter ∉ e.binders
  bind : e.BindsReading ds
  body : ∀ fn, e = lambda fn → fn.body.BindsReading ds

private theorem Bindable.body_binders {fn : Lambda} (h : Bindable ds s (lambda fn)) :
    ∀ g, s.group = some g → g.parameter ∉ fn.body.binders :=
  fun g hg hmem => h.binders g hg (mem_binders_of_part (by simp [parts]) hmem)

private theorem Bindable.params {fn : Lambda} (h : Bindable ds s (lambda fn)) :
    ∀ g, s.group = some g → g.parameter ∉ fn.params.map Parameter.name :=
  fun g hg hmem => h.binders g hg (mem_binders_of_declared hmem)

private theorem readsIn_of_boundFirst (hs : s.ReadsIn vars) (he : Bindable ds s e)
    (h : BoundArg ds s none e b) :
    b.ReadsIn vars ∧ ∀ g, s.group = some g → ¬ b.Exposes g.parameter := by
  cases h with
  | operand _ h =>
    refine ⟨he.bind vars s b hs he.binders h, fun g hg => ?_⟩
    exact not_exposes_of_bind (hs.grouping hg) he.clean.written h
  | @each inner params body b henter h =>
    have hinner := hs.enter_alone he.params henter
    have hgroup : ∀ g, inner.group = some g → g.parameter ∉ body.binders := by
      rw [Scope.group_of_enter henter]
      exact he.body_binders
    refine ⟨.lambda he.clean.names (he.body _ rfl vars inner b hinner hgroup h), ?_⟩
    rintro g - ⟨⟩

private theorem readsIn_of_boundLambda (hds : ds.Named) (hs : s.ReadsIn vars) {source : Expr}
    (hsource : source.ReadsIn vars) (he : Bindable ds s e) {fn : Lambda}
    (h : BoundArg ds s (some source) e (lambda fn)) :
    (∀ p ∈ fn.params, isName p.name = true) ∧
      fn.body.ReadsIn (source.loopVars fn.params vars) := by
  cases h with
  | operand _ h =>
    cases he.bind vars s _ hs he.binders h with
    | lambda hnames hbody => exact ⟨hnames, hbody.mono subset_loopVars⟩
  | @each inner params body b henter h =>
    have hinner := hs.enter hds he.clean.names he.params hsource henter
    have hgroup : ∀ g, inner.group = some g → g.parameter ∉ body.binders := by
      rw [Scope.group_of_enter henter]
      exact he.body_binders
    exact ⟨he.clean.names, he.body _ rfl _ inner b hinner hgroup h⟩

private theorem sequenceReadsIn_of_boundArgs (hds : ds.Named) (hs : s.ReadsIn vars)
    {es rest : List Expr} {source : Expr} (hes : ∀ e ∈ es, Bindable ds s e)
    (h : BoundArgs ds s none es (source :: rest)) : SequenceReadsIn s vars source rest := by
  cases h with
  | @cons first _ es _ hfirst h =>
    obtain ⟨hsource, hsettled⟩ := readsIn_of_boundFirst hs (hes first (by simp)) hfirst
    have hlambda (fn : Lambda) (hfn : lambda fn ∈ rest) :
        (∀ p ∈ fn.params, isName p.name = true) ∧
          fn.body.ReadsIn (source.loopVars fn.params vars) := by
      obtain ⟨e, he, hbound⟩ := exists_of_forall₂ h hfn
      exact readsIn_of_boundLambda hds hs hsource (hes e (List.mem_cons_of_mem _ he)) hbound
    exact ⟨hsource, hsettled, fun fn hfn => (hlambda fn hfn).1, fun fn hfn => (hlambda fn hfn).2⟩

private theorem readsIn_of_boundOperand (hs : s.ReadsIn vars) {source : Option Expr}
    (he : Bindable ds s e) (h : BoundArg ds s source e b) (hkind : b.kind ≠ .lambda) :
    b.ReadsIn vars := by
  cases h with
  | operand _ h => exact he.bind vars s b hs he.binders h
  | each => exact absurd rfl hkind

private theorem readsIn_of_boundOperands (hs : s.ReadsIn vars) {receiver : Option Expr}
    {es bs : List Expr} (hes : ∀ e ∈ es, Bindable ds s e) (h : BoundArgs ds s receiver es bs) :
    ∀ b ∈ bs, b.kind ≠ .lambda → b.ReadsIn vars := by
  intro b hb hkind
  cases h with
  | on h =>
    obtain ⟨e, he, hbound⟩ := exists_of_forall₂ h hb
    exact readsIn_of_boundOperand hs (hes e he) hbound hkind
  | nil => cases hb
  | @cons first b₀ es bs hfirst h =>
    rcases List.mem_cons.mp hb with rfl | hb
    · exact readsIn_of_boundOperand hs (hes first (by simp)) hfirst hkind
    · obtain ⟨e, he, hbound⟩ := exists_of_forall₂ h hb
      exact readsIn_of_boundOperand hs (hes e (List.mem_cons_of_mem _ he)) hbound hkind

private theorem readsIn_of_bind_call (hds : ds.Named) (hs : s.ReadsIn vars)
    {receiver : Option Expr} {method : String} {declaring ty : Ty} {args : List Expr}
    (hclean : (call receiver method declaring args ty).isClean = true)
    (hreceiver : ∀ e, receiver = some e → Bindable ds s e) (hargs : ∀ e ∈ args, Bindable ds s e)
    (h : (call receiver method declaring args ty).bind ds s = .ok b) : b.ReadsIn vars := by
  obtain ⟨receiver', args', hrel, hbound, h⟩ := bind_call_cases h
  have hsequence (hdeclaring : declaring = .enumerable) {source : Expr} {rest : List Expr}
      (hargs' : args' = source :: rest) : SequenceReadsIn s vars source rest := by
    subst hargs'
    cases hrel with
    | none => exact sequenceReadsIn_of_boundArgs hds hs hargs hbound
    | some => simp [isClean, hdeclaring] at hclean
  rcases h with hacc | rfl
  · cases args' with
    | nil => simp [Scope.accumulator?] at hacc
    | cons source rest =>
      exact readsIn_of_accumulator? (hsequence (declaring_of_accumulator? hacc) rfl) hacc
  · apply ReadsIn.call method ty
    · rintro items rfl
      cases hrel with
      | @some receiver _ h =>
        have hreceiver := hreceiver receiver rfl
        exact hreceiver.bind vars s items hs hreceiver.binders h
    · exact readsIn_of_boundOperands hs hargs hbound
    · exact fun hdeclaring source rest fn hargs' hfn => (hsequence hdeclaring hargs').names fn hfn
    · exact fun hdeclaring source rest fn hargs' hfn => (hsequence hdeclaring hargs').bodies fn hfn

/-- Binding reads no loop variable out of its scope. -/
theorem bindsReading_of_clean (hds : ds.Named) (he : e.Clean) : e.BindsReading ds := by
  induction e using induct_nodes with
  | step e ih =>
    intro vars s b hs hbinders h
    -- The body of a lambda is bound by the call around it, so the parts alone are not enough.
    have below {part n : Expr} (hpart : part ∈ e.parts) (hn : n ∈ part.nodes) :
        n.BindsReading ds :=
      ih part hpart n hn (he.below (mem_nodes_of_part hpart hn))
    have part {a a' : Expr} (ha : a ∈ e.parts) (h : a.bind ds s = .ok a') : a'.ReadsIn vars := by
      apply below ha (self_mem_nodes a) vars s a' hs _ h
      exact fun g hg hmem => hbinders g hg (mem_binders_of_part ha hmem)
    have bindable {a : Expr} (ha : a ∈ e.parts) : Bindable ds s a := by
      constructor
      · exact he.part ha
      · exact fun g hg hmem => hbinders g hg (mem_binders_of_part ha hmem)
      · exact below ha (self_mem_nodes a)
      · rintro fn rfl
        exact below ha (body_mem_nodes fn)
    cases e with
    | literal value ty =>
      cases h
      exact .literal value ty
    | parameter p =>
      rcases bind_parameter_cases h with rfl | hlookup
      · exact .parameter p
      · exact hs.lookup hlookup
    | member target name declaring ty =>
      rcases bind_member_cases h with hkey | ⟨-, bound, hbound, h⟩
      · obtain ⟨-, -, g, hg, rfl⟩ := Scope.key?_cases hkey
        exact hs.key hg
      · exact readsIn_of_bindMember hds (part (by simp [parts]) hbound) h
    | binary op left right ty =>
      simp only [bind, bind_eq_ok_iff, pure_eq_ok, Except.ok.injEq] at h
      obtain ⟨left', hleft, right', hright, rfl⟩ := h
      exact .binary op ty (part (by simp [parts]) hleft) (part (by simp [parts]) hright)
    | unary op operand ty =>
      simp only [bind, bind_eq_ok_iff, pure_eq_ok, Except.ok.injEq] at h
      obtain ⟨operand', hoperand, rfl⟩ := h
      exact .unary op ty (part (by simp [parts]) hoperand)
    | conditional test ifTrue ifFalse ty =>
      simp only [bind, bind_eq_ok_iff, pure_eq_ok, Except.ok.injEq] at h
      obtain ⟨test', htest, ifTrue', hifTrue, ifFalse', hifFalse, rfl⟩ := h
      exact .conditional ty (part (by simp [parts]) htest) (part (by simp [parts]) hifTrue)
        (part (by simp [parts]) hifFalse)
    | call receiver method declaring args ty =>
      apply readsIn_of_bind_call hds hs he.self _ _ h
      · exact fun a ha => bindable (by simp [parts, ha])
      · exact fun a ha => bindable (by simp [parts, ha])
    | lambda fn =>
      obtain ⟨body', hbody, rfl⟩ := bind_lambda_cases h
      exact .lambda he.names (part (by simp [parts]) hbody)
    | construct ty parameters args members =>
      obtain ⟨args', hargs, rfl⟩ := bind_construct_cases h
      have hnames := List.all_eq_true.mp (Bool.and_eq_true_iff.mp he.self).2
      apply ReadsIn.construct ty members hnames
      intro a' ha'
      obtain ⟨a, ha, hbound⟩ := exists_of_forall₂ hargs ha'
      exact part ha hbound
    | accumulate | field | document => cases he.self

end Expr

end QueryStage
