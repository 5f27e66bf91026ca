import QueryStage.Proofs.BindingSteps

/-!
# Blank texts

Expressions with the texts of their string literals left blank. Binding moves literals about and
never looks into them, so it commutes with leaving their texts blank: it raises the same fault, or
gives the blank form of the same bound expression.
-/

namespace QueryStage

/-- The literal, with the text of a string left blank. -/
def Literal.blank : Literal → Literal
  | string _ => string ""
  | value => value

namespace Expr

mutual

/-- The expression with the texts of all its string literals left blank. -/
def blank : Expr → Expr
  | literal value ty => literal value.blank ty
  | parameter p => parameter p
  | member target name declaring ty => member target.blank name declaring ty
  | binary op left right ty => binary op left.blank right.blank ty
  | unary op operand ty => unary op operand.blank ty
  | conditional test ifTrue ifFalse ty => conditional test.blank ifTrue.blank ifFalse.blank ty
  | call none method declaring args ty => call none method declaring (blankAll args) ty
  | call (some receiver) method declaring args ty =>
    call (some receiver.blank) method declaring (blankAll args) ty
  | lambda ⟨params, body⟩ => lambda ⟨params, body.blank⟩
  | construct ty parameters args members => construct ty parameters (blankAll args) members
  | accumulate fn source none ty => accumulate fn source.blank none ty
  | accumulate fn source (some ⟨params, body⟩) ty =>
    accumulate fn source.blank (some ⟨params, body.blank⟩) ty
  | field path decoder ty => field path decoder ty
  | document inner path decoder => document inner.blank path decoder

def blankAll : List Expr → List Expr
  | [] => []
  | e :: es => e.blank :: blankAll es

end

end Expr

def Lambda.blank (fn : Lambda) : Lambda := ⟨fn.params, fn.body.blank⟩

namespace Expr

attribute [local simp] blank

variable {ds : Decoders}

@[simp] theorem blankAll_eq_map (es : List Expr) : blankAll es = es.map blank := by
  induction es with
  | nil => rfl
  | cons e es ih => simp [blankAll, ih]

theorem blank_call (receiver : Option Expr) (method : String) (declaring : Ty) (args : List Expr)
    (ty : Ty) : (call receiver method declaring args ty).blank =
      call (receiver.map blank) method declaring (args.map blank) ty := by
  cases receiver <;> simp

theorem blank_accumulate (fn : AccumulatorFn) (source : Expr) (selector : Option Lambda) (ty : Ty) :
    (accumulate fn source selector ty).blank =
      accumulate fn source.blank (selector.map Lambda.blank) ty := by
  rcases selector with _ | ⟨params, body⟩ <;> rfl

@[simp] theorem kind_blank (e : Expr) : e.blank.kind = e.kind := by
  cases e with
  | call => rw [blank_call]; rfl
  | accumulate => rw [blank_accumulate]; rfl
  | lambda fn => obtain ⟨params, body⟩ := fn; rfl
  | _ => rfl

@[simp] theorem ty_blank (e : Expr) : e.blank.ty = e.ty := by
  induction e with
  | call => rw [blank_call]; rfl
  | accumulate => rw [blank_accumulate]; rfl
  | lambda params body ih => exact ih
  | document inner path decoder ih => exact ih
  | _ => rfl

@[simp] theorem isConstruction_blank (e : Expr) : e.blank.isConstruction = e.isConstruction := by
  rw [isConstruction, kind_blank, isConstruction]

private theorem selectedDecoder_of_kind_ne (ds : Decoders) (source : Expr) {a : Expr}
    (h : a.kind ≠ .lambda) (rest : List Expr) :
    selectedDecoder ds (source :: a :: rest) = none := by
  cases a with
  | lambda fn => exact absurd rfl h
  | _ => rfl

theorem decoder_blank (ds : Decoders) (e : Expr) : e.blank.decoder ds = e.decoder ds := by
  induction e with
  | call receiver method declaring args ty _ _ ihb =>
    have hselected : selectedDecoder ds (args.map blank) = selectedDecoder ds args := by
      rcases args with _ | ⟨source, _ | ⟨a, rest⟩⟩
      · rfl
      · rfl
      · rcases lambda_or_kind_ne a with ⟨params, body, rfl⟩ | hkind
        · simp [selectedDecoder, ihb params body (by simp)]
        · have hkind' : a.blank.kind ≠ .lambda := by rwa [kind_blank]
          rw [List.map_cons, List.map_cons, selectedDecoder_of_kind_ne ds _ hkind,
            selectedDecoder_of_kind_ne ds _ hkind']
    rw [blank_call, decoder, decoder, hselected]
  | construct ty parameters args members ih =>
    have hargs : args.map (decoder ds ∘ blank) = args.map (decoder ds) :=
      List.map_congr_left ih
    simp [decoder, hargs]
  | accumulate fn source selector ty ihs ihb =>
    rcases selector with _ | ⟨params, body⟩
    · simp [decoder, ihs]
    · simp [decoder, ihb params body rfl]
  | conditional test ifTrue ifFalse ty _ iha _ => simp [decoder, iha]
  | binary op left right ty ihl _ => simp [decoder, ihl]
  | lambda params body => simp [decoder]
  | _ => rfl

theorem itemDecoder_blank (ds : Decoders) (e : Expr) :
    e.blank.itemDecoder ds = e.itemDecoder ds := by
  rw [itemDecoder, itemDecoder, decoder_blank, ty_blank]

private theorem constructed?_blank (name : String) (parameters : List String) (args : List Expr)
    (members : Option (List String)) :
    constructed? name parameters (args.map blank) members =
      (constructed? name parameters args members).map blank := by
  have hargs : List.Forall₂ (fun a b : Expr => a.blank = b) args (args.map blank) := by
    simp [List.forall₂_map_right_iff]
  have hrel := constructed?_rel name parameters members hargs
  generalize constructed? name parameters args members = x at hrel
  generalize constructed? name parameters (args.map blank) members = y at hrel
  cases hrel with
  | none => rfl
  | some h => rw [← h, Option.map_some]

private theorem declared?_blank (name : String) (ty : Ty) (path : Option Path) (d : Decoder) :
    (resolve?.declared? name ty path d).map blank = resolve?.declared? name ty path d := by
  rw [resolve?.declared?, Option.map_map]
  rfl

private theorem resolve?_document (name : String) (ty : Ty) {inner : Expr}
    (h : inner.kind ≠ .construction) (path : Option Path) (d : Decoder) :
    (document inner path d).resolve? name ty = resolve?.declared? name ty path d := by
  cases inner with
  | construct => exact absurd rfl h
  | _ => rfl

theorem resolve?_blank (e : Expr) (name : String) (ty : Ty) :
    e.blank.resolve? name ty = (e.resolve? name ty).map blank := by
  cases e with
  | field path d ty' =>
    simp only [blank, resolve?, Option.map_map]
    rfl
  | document inner path d =>
    by_cases hkind : inner.kind = .construction
    · cases inner with
      | construct ty' parameters args members =>
        simp only [blank, blankAll_eq_map, resolve?, constructed?_blank]
        cases constructed? name parameters args members with
        | none => exact (declared?_blank name ty path d).symm
        | some a => rfl
      | _ => cases hkind
    · have hkind' : inner.blank.kind ≠ .construction := by rwa [kind_blank]
      rw [blank, resolve?_document name ty hkind, resolve?_document name ty hkind',
        declared?_blank]
  | construct ty' parameters args members =>
    simp only [blank, blankAll_eq_map, resolve?, constructed?_blank]
  | call => rw [blank_call]; rfl
  | accumulate => rw [blank_accumulate]; rfl
  | lambda fn => obtain ⟨params, body⟩ := fn; rfl
  | _ => rfl

private theorem element?_computed {source : Expr} (hfield : source.kind ≠ .field)
    (hdocument : source.kind ≠ .document) (p : Parameter) :
    source.element? ds p = (do
      return some (document (parameter p) (some (Path.loopVariable p.name))
        (← source.itemDecoder ds))) := by
  cases source with
  | field => exact absurd rfl hfield
  | document => exact absurd rfl hdocument
  | _ => rfl

theorem element?_blank (ds : Decoders) (source : Expr) (p : Parameter) :
    source.blank.element? ds p = source.element? ds p := by
  by_cases hfield : source.kind = .field
  · cases source with
    | field => rfl
    | _ => cases hfield
  by_cases hdocument : source.kind = .document
  · cases source with
    | document => rfl
    | _ => cases hdocument
  · rw [element?_computed hfield hdocument, element?_computed, itemDecoder_blank] <;>
      rwa [kind_blank]

theorem blank_of_element? {source e : Expr} {p : Parameter}
    (h : source.element? ds p = .ok (some e)) : e.blank = e := by
  rcases element?_cases h with ⟨_, _, _, _, -, -, rfl⟩ | ⟨_, _, _, _, -, -, rfl⟩ |
    ⟨_, -, -, -, rfl⟩ <;> rfl

end Expr

namespace Scope

/-- The scope with the texts left blank in all that its names stand for. -/
def blank (s : Scope) : Scope where
  lookup name := (s.lookup name).map Expr.blank
  group := s.group.map fun g => ⟨g.parameter, g.key.blank⟩

theorem blank_bind (s : Scope) (name : String) (e : Expr) :
    (s.bind name e).blank = s.blank.bind name e.blank := by
  simp only [blank, bind, mk.injEq, and_true]
  funext n
  split <;> rfl

theorem blank_hide (s : Scope) (name : String) : (s.hide name).blank = s.blank.hide name := by
  simp only [blank, hide, mk.injEq, and_true]
  funext n
  split <;> rfl

theorem enter_blank (ds : Decoders) (s : Scope) (params : List Parameter) (source : Option Expr) :
    Lifted (fun t t' => t.blank = t') (s.enter ds params source)
      (s.blank.enter ds params (source.map Expr.blank)) := by
  rcases params with _ | ⟨p, _ | ⟨q, params⟩⟩
  · exact .ok rfl
  · cases source with
    | none => exact .ok (s.blank_hide p.name)
    | some items =>
      simp only [enter, Option.map_some, Expr.element?_blank]
      cases helement : items.element? ds p with
      | error fault => exact .error fault
      | ok element =>
        cases element with
        | none => exact .ok (s.blank_hide p.name)
        | some e =>
          apply Lifted.ok
          rw [blank_bind, Expr.blank_of_element? helement]
  · exact .ok rfl

private theorem isGrouping_document (s : Scope) {inner : Expr} (h : inner.kind ≠ .parameter)
    (path : Option Path) (d : Decoder) : s.isGrouping (.document inner path d) = false := by
  unfold isGrouping
  split
  · rename_i heq
    cases heq
  · rename_i heq
    cases heq
    exact absurd rfl h
  · rfl

theorem isGrouping_blank (s : Scope) (e : Expr) : s.blank.isGrouping e.blank = s.isGrouping e := by
  by_cases hparameter : e.kind = .parameter
  · cases e with
    | parameter p => cases hg : s.group <;> simp [isGrouping, blank, Expr.blank, hg]
    | _ => cases hparameter
  by_cases hdocument : e.kind = .document
  · cases e with
    | document inner path d =>
      by_cases hinner : inner.kind = .parameter
      · cases inner with
        | parameter p =>
          cases hg : s.group <;> cases path <;> simp [isGrouping, blank, Expr.blank, hg]
        | _ => cases hinner
      · have hinner' : inner.blank.kind ≠ .parameter := by rwa [Expr.kind_blank]
        rw [Expr.blank, isGrouping_document s hinner, isGrouping_document s.blank hinner']
    | _ => cases hdocument
  · rw [isGrouping_of_kind hparameter hdocument, isGrouping_of_kind] <;> rwa [Expr.kind_blank]

theorem key?_blank (s : Scope) (target : Expr) (name : String) :
    s.blank.key? target.blank name = (s.key? target name).map Expr.blank := by
  have hgrouping := s.isGrouping_blank target
  unfold key?
  rw [hgrouping, blank]
  cases s.group with
  | none => rfl
  | some g =>
    simp only [Option.map_some]
    split <;> rfl

private theorem counting_blank (ty : Ty) (fn : Option Lambda) :
    Expr.grouped?.counting ty (fn.map Lambda.blank) = (Expr.grouped?.counting ty fn).blank := by
  rcases fn with _ | ⟨params, test⟩ <;> rfl

private theorem ofGrouping_blank (s : Scope) (method : String) (ty : Ty) (source : Expr)
    (fn : Option Lambda) :
    accumulator?.ofGrouping s.blank method ty source.blank (fn.map Lambda.blank) =
      (accumulator?.ofGrouping s method ty source fn).map Expr.blank := by
  simp only [accumulator?.ofGrouping, isGrouping_blank, Expr.grouped?_eq, Option.isSome_map]
  split
  · simp only [Option.map_map]
    congr 1
    funext ⟨acc, counts⟩
    cases counts <;> simp [Expr.blank_accumulate, counting_blank]
  · rfl

private theorem accumulator?_single (s : Scope) (method : String) (declaring : Ty) {a : Expr}
    (h : a.kind ≠ .accumulator) (ty : Ty) :
    s.accumulator? method declaring [a] ty =
      if s.group.isSome && declaring = .enumerable then
        accumulator?.ofGrouping s method ty a none else none := by
  cases a with
  | accumulate => exact absurd rfl h
  | _ => rfl

theorem accumulator?_blank (s : Scope) (method : String) (declaring : Ty) (args : List Expr)
    (ty : Ty) : s.blank.accumulator? method declaring (args.map Expr.blank) ty =
      (s.accumulator? method declaring args ty).map Expr.blank := by
  have hgroup : s.blank.group.isSome = s.group.isSome := Option.isSome_map
  rcases args with _ | ⟨a, _ | ⟨b, _ | ⟨c, args⟩⟩⟩
  · simp [accumulator?]
  · have hsingle := ofGrouping_blank s method ty a none
    rw [List.map_singleton]
    by_cases hkind : a.kind = .accumulator
    · cases a with
      | accumulate fn source selector ty' =>
        rw [Expr.blank_accumulate] at hsingle ⊢
        cases fn with
        | push =>
          simp only [accumulator?, hgroup]
          split
          · rw [Option.map_map]
            congr 1
            funext fn
            exact (Expr.blank_accumulate fn source selector ty).symm
          · rfl
        | _ =>
          simp only [accumulator?, hgroup]
          split
          · exact hsingle
          · rfl
      | _ => cases hkind
    · rw [accumulator?_single s method declaring hkind, accumulator?_single, hgroup]
      · split
        · exact hsingle
        · rfl
      · rwa [Expr.kind_blank]
  · rcases Expr.lambda_or_kind_ne b with ⟨params, body, rfl⟩ | hkind
    · simp only [List.map_cons, List.map_nil, Expr.blank, Expr.accumulator?_pair, hgroup]
      split
      · exact ofGrouping_blank s method ty a (some ⟨params, body⟩)
      · rfl
    · have hkind' : b.blank.kind ≠ .lambda := by rwa [Expr.kind_blank]
      simp only [List.map_cons, List.map_nil, Expr.accumulator?_of_kind_ne _ _ _ _ hkind,
        Expr.accumulator?_of_kind_ne _ _ _ _ hkind', Option.map_none]
  · simp only [List.map_cons, Expr.accumulator?_of_long, Option.map_none]

end Scope

namespace Expr

variable {ds : Decoders}

/-- The second expression is the first with its texts left blank. -/
def BlankOf (e e' : Expr) : Prop := e.blank = e'

private theorem bindMember_of_kind_ne {target : Expr} {name : String} {ty : Ty}
    (h : target.resolve? name ty = none) (hkind : target.kind ≠ .accumulator) (declaring : Ty) :
    bindMember ds target name declaring ty = .ok (member target name declaring ty) := by
  unfold bindMember
  rw [h]
  cases target with
  | accumulate => exact absurd rfl hkind
  | _ => rfl

private theorem fold_blank (ds : Decoders) (target : Expr) (name : String) (declaring ty : Ty)
    (fn : AccumulatorFn) (source : Expr) :
    Lifted BlankOf (bindMember.fold ds target name declaring ty fn source)
      (bindMember.fold ds target.blank name declaring ty fn source.blank) := by
  rw [bindMember.fold, bindMember.fold, element?_blank, ty_blank]
  cases helement : source.element? ds ⟨"item", source.ty.item?.getD .document⟩ with
  | error fault => exact .error fault
  | ok element =>
    cases element with
    | none => exact .ok rfl
    | some e =>
      have hresolve := resolve?_blank e name ty
      rw [blank_of_element? helement] at hresolve
      rw [ok_bind, ok_bind, Option.bind_some]
      cases hbody : e.resolve? name ty with
      | none => exact .ok rfl
      | some body =>
        rw [hbody, Option.map_some, Option.some.injEq] at hresolve
        apply Lifted.ok
        rw [BlankOf, blank, ← hresolve]

theorem bindMember_blank (ds : Decoders) (target : Expr) (name : String) (declaring ty : Ty) :
    Lifted BlankOf (bindMember ds target name declaring ty)
      (bindMember ds target.blank name declaring ty) := by
  have hresolve := resolve?_blank target name ty
  cases h : target.resolve? name ty with
  | some b =>
    rw [h, Option.map_some] at hresolve
    rw [bindMember_of_resolve? h, bindMember_of_resolve? hresolve]
    exact .ok rfl
  | none =>
    rw [h, Option.map_none] at hresolve
    by_cases hkind : target.kind = .accumulator
    · cases target with
      | accumulate fn source selector ty' =>
        rcases selector with _ | ⟨params, body⟩
        · have hfold := fold_blank ds (accumulate fn source none ty') name declaring ty fn source
          cases fn with
          | first => exact hfold
          | last => exact hfold
          | _ => exact .ok rfl
        · cases fn <;> exact .ok rfl
      | _ => cases hkind
    · have hkind' : target.blank.kind ≠ .accumulator := by rwa [kind_blank]
      rw [bindMember_of_kind_ne h hkind, bindMember_of_kind_ne hresolve hkind']
      exact .ok rfl

/-- Binding an expression commutes with leaving its texts blank, whatever the scope. -/
def BindsBlank (ds : Decoders) (e : Expr) : Prop :=
  ∀ s, Lifted BlankOf (e.bind ds s) (e.blank.bind ds s.blank)

private theorem bindAll_blank {es : List Expr} (h : ∀ e ∈ es, e.BindsBlank ds) (s : Scope) :
    Lifted (fun bs bs' => bs.map blank = bs') (bindAll ds s es)
      (bindAll ds s.blank (es.map blank)) := by
  induction es with
  | nil => exact .ok rfl
  | cons e es ih =>
    apply (h e List.mem_cons_self s).bind
    rintro b _ rfl
    apply (ih fun e he => h e (List.mem_cons_of_mem _ he)).bind
    rintro bs _ rfl
    exact .ok rfl

private theorem bindArgs_blank {es : List Expr} (hes : ∀ e ∈ es, e.BindsBlank ds)
    (hbodies : ∀ params body, lambda ⟨params, body⟩ ∈ es → body.BindsBlank ds) (s : Scope) :
    ∀ source, Lifted (fun bs bs' => bs.map blank = bs') (bindArgs ds s source es)
      (bindArgs ds s.blank (source.map blank) (es.map blank)) := by
  induction es with
  | nil => exact fun _ => .ok rfl
  | cons e es ih =>
    intro source
    have rest (b : Expr) :
        Lifted (fun bs bs' => bs.map blank = bs')
          (do return b :: (← bindArgs ds s (source.or (some b)) es))
          (do
            return b.blank ::
              (← bindArgs ds s.blank ((source.map blank).or (some b.blank)) (es.map blank))) := by
      have hsource : (source.map blank).or (some b.blank) = (source.or (some b)).map blank := by
        cases source <;> rfl
      rw [hsource]
      apply (ih (fun e he => hes e (List.mem_cons_of_mem _ he)) (fun params body hmem =>
        hbodies params body (List.mem_cons_of_mem _ hmem)) (source.or (some b))).bind
      rintro bs _ rfl
      exact .ok rfl
    rcases lambda_or_kind_ne e with ⟨params, body, rfl⟩ | hkind
    · apply (s.enter_blank ds params source).bind
      rintro inner _ rfl
      apply (hbodies params body List.mem_cons_self inner).bind
      rintro b _ rfl
      exact rest (lambda ⟨params, b⟩)
    · have hkind' : e.blank.kind ≠ .lambda := by rwa [kind_blank]
      rw [List.map_cons, bindArgs_cons source hkind, bindArgs_cons _ hkind']
      apply (hes e List.mem_cons_self s).bind
      rintro b _ rfl
      exact rest b

/-- Binding never looks into the texts of literals. -/
theorem bind_blank (ds : Decoders) (e : Expr) : e.BindsBlank ds := by
  induction e with
  | literal value ty => exact fun _ => .ok rfl
  | parameter p =>
    intro s
    apply Lifted.ok
    cases hp : s.lookup p.name <;> simp [BlankOf, Scope.blank, blank, hp]
  | member target name declaring ty ih =>
    intro s
    have hkey := s.key?_blank target name
    rw [blank, bind, bind, hkey]
    cases s.key? target name with
    | some key => exact .ok rfl
    | none =>
      apply (ih s).bind
      rintro bound _ rfl
      exact bindMember_blank ds bound name declaring ty
  | binary op left right ty ihl ihr =>
    intro s
    apply (ihl s).bind
    rintro l _ rfl
    apply (ihr s).bind
    rintro r _ rfl
    exact .ok rfl
  | unary op operand ty ih =>
    intro s
    apply (ih s).bind
    rintro b _ rfl
    exact .ok rfl
  | conditional test ifTrue ifFalse ty iht iha ihb =>
    intro s
    apply (iht s).bind
    rintro t _ rfl
    apply (iha s).bind
    rintro a _ rfl
    apply (ihb s).bind
    rintro b _ rfl
    exact .ok rfl
  | call receiver method declaring args ty ihr iha ihb =>
    intro s
    have hargs := bindArgs_blank iha ihb s
    have hresult (receiver : Option Expr) (bs : List Expr) :
        BlankOf ((s.accumulator? method declaring bs ty).getD
            (call receiver method declaring bs ty))
          ((s.blank.accumulator? method declaring (bs.map blank) ty).getD
            (call (receiver.map blank) method declaring (bs.map blank) ty)) := by
      rw [BlankOf, s.accumulator?_blank, ← blank_call]
      cases s.accumulator? method declaring bs ty <;> rfl
    rw [blank_call]
    cases receiver with
    | none =>
      apply (hargs none).bind
      rintro bs _ rfl
      exact .ok (hresult none bs)
    | some e =>
      apply (ihr e rfl s).bind
      rintro b _ rfl
      apply (hargs (some b)).bind
      rintro bs _ rfl
      exact .ok (hresult (some b) bs)
  | lambda params body ih =>
    intro s
    apply (ih s).bind
    rintro b _ rfl
    exact .ok rfl
  | construct ty parameters args members ih =>
    intro s
    rw [blank, blankAll_eq_map]
    apply (bindAll_blank ih s).bind
    rintro bs _ rfl
    apply Lifted.ok
    rw [BlankOf, blank, blankAll_eq_map]
  | accumulate fn source selector ty ihs ihb =>
    intro s
    rcases selector with _ | ⟨params, body⟩
    · apply (ihs s).bind
      rintro b _ rfl
      exact .ok rfl
    · apply (ihs s).bind
      rintro b _ rfl
      apply (s.enter_blank ds params (some b)).bind
      rintro inner _ rfl
      apply (ihb params body rfl inner).bind
      rintro body' _ rfl
      exact .ok rfl
  | field path d ty => exact fun _ => .ok rfl
  | document inner path d => exact fun _ => .ok rfl

end Expr

end QueryStage
