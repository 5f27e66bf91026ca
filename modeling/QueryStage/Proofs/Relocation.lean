import QueryStage.Proofs.Renaming
import QueryStage.Proofs.Tracing

/-!
# Binding in related scopes

Two scopes may hold the same things at different places and under different names. Binding an
expression in them gives the same expression, with the places of its bound nodes related as those in
the scopes are, and its parameters renamed. Only the names that the expression takes from its scope
have to be related, so an expression that does not mention a name is bound the same whatever the
name stands for.
-/

namespace QueryStage

/-- A relation of places that holds of each place and itself, and of what is below related ones. -/
structure Path.Steady (R : Path → Path → Prop) : Prop where
  refl : ∀ p, R p p
  child : ∀ {p q} name, R p q → R (p.child name) (q.child name)

theorem Path.reroot_of_not_startsWith {old new p : Path} (h : p.startsWith old = false) :
    reroot old new p = p := by
  rw [reroot, replaceRoot, h]
  rfl

theorem Path.reroot_append (old new : Path) (rest : List String) :
    reroot old new ⟨old.segments ++ rest⟩ = ⟨new.segments ++ rest⟩ := by
  rw [reroot, replaceRoot_append, Option.getD_some]

/-- Where the bound nodes of one expression are found in another, and the parameters under which
names. The parameters with closed names stand for something in their scope. -/
structure Relocation where
  place : Path → Path → Prop
  name : String → String
  closed : List String

namespace Relocation

/-- Related places, and the same names. -/
def ofPlaces (R : Path → Path → Prop) : Relocation := ⟨R, id, []⟩

/-- What is below related places is related, and so are the variables of a parameter under both
names. -/
structure Steady (M : Relocation) : Prop where
  child : ∀ {p q} name, M.place p q → M.place (p.child name) (q.child name)
  loopVariable : ∀ x, M.place (Path.loopVariable x) (Path.loopVariable (M.name x))

/-- The variable that stands for the first or last element of a group is kept. -/
def KeepsItem (M : Relocation) : Prop :=
  M.place (Path.loopVariable "item") (Path.loopVariable "item")

/-- What a document without a path reads is at the same place on both sides. -/
def Keeps (M : Relocation) (d : Decoder) : Prop :=
  ∀ element ∈ d.elements, M.place ⟨[element]⟩ ⟨[element]⟩

theorem Keeps.item {M : Relocation} {d i : Decoder} (h : M.Keeps d) (hi : d.item? = some i) :
    M.Keeps i := by
  rw [Keeps, Decoder.elements_of_item? hi]
  exact h

end Relocation

theorem Path.Steady.relocation {R : Path → Path → Prop} (h : Path.Steady R) :
    (Relocation.ofPlaces R).Steady :=
  ⟨h.child, fun x => h.refl (Path.loopVariable x)⟩

theorem Path.Steady.keepsItem {R : Path → Path → Prop} (h : Path.Steady R) :
    (Relocation.ofPlaces R).KeepsItem :=
  h.refl (Path.loopVariable "item")

theorem Path.Steady.keeps {R : Path → Path → Prop} (h : Path.Steady R) (d : Decoder) :
    (Relocation.ofPlaces R).Keeps d :=
  fun element _ => h.refl ⟨[element]⟩

namespace Expr

/-- The names left over when a lambda with these parameters is entered. Only a single parameter
ranges over anything. -/
def outside (params : List Parameter) (names : List String) : List String :=
  match params with
  | [p] => names.filter (· ≠ p.name)
  | _ => names

mutual

/-- The names of the parameters that an expression takes from its scope. -/
def free : Expr → List String
  | literal _ _ => []
  | parameter p => [p.name]
  | member target _ _ _ => target.free
  | binary _ left right _ => left.free ++ right.free
  | unary _ operand _ => operand.free
  | conditional test ifTrue ifFalse _ => test.free ++ (ifTrue.free ++ ifFalse.free)
  | call none _ _ args _ => freeArgs args
  | call (some receiver) _ _ args _ => receiver.free ++ freeArgs args
  | lambda ⟨_, body⟩ => body.free
  | construct _ _ args _ => freeAll args
  | accumulate _ source none _ => source.free
  | accumulate _ source (some ⟨params, body⟩) _ => source.free ++ outside params body.free
  | field _ _ _ => []
  | document _ _ _ => []

def freeAll : List Expr → List String
  | [] => []
  | e :: es => e.free ++ freeAll es

def freeArgs : List Expr → List String
  | [] => []
  | lambda ⟨params, body⟩ :: es => outside params body.free ++ freeArgs es
  | e :: es => e.free ++ freeArgs es

end

theorem freeArgs_cons {e : Expr} (h : e.kind ≠ .lambda) (es : List Expr) :
    freeArgs (e :: es) = e.free ++ freeArgs es := by
  cases e with
  | lambda fn => exact absurd rfl h
  | _ => rfl

theorem mem_of_outside {params : List Parameter} {names : List String} {x : String}
    (h : x ∈ outside params names) : x ∈ names ∧ ∀ p, params = [p] → x ≠ p.name := by
  rcases params with _ | ⟨p, _ | ⟨q, params⟩⟩
  · exact ⟨h, by simp⟩
  · obtain ⟨hx, hne⟩ := List.mem_filter.mp h
    refine ⟨hx, ?_⟩
    rintro _ ⟨⟩
    exact of_decide_eq_true hne
  · exact ⟨h, by simp⟩

theorem mem_freeArgs {es : List Expr} {x : String} (h : x ∈ freeArgs es) :
    ∃ e ∈ es, x ∈ e.free ∧ ∀ p body, e = lambda ⟨[p], body⟩ → x ≠ p.name := by
  induction es with
  | nil => cases h
  | cons e es ih =>
    have hrest (hx : x ∈ freeArgs es) : ∃ e' ∈ e :: es, x ∈ e'.free ∧
        ∀ p body, e' = lambda ⟨[p], body⟩ → x ≠ p.name := by
      obtain ⟨e', he', hfree⟩ := ih hx
      exact ⟨e', List.mem_cons_of_mem _ he', hfree⟩
    rcases lambda_or_kind_ne e with ⟨params, body, rfl⟩ | hkind
    · rcases List.mem_append.mp h with hx | hx
      · obtain ⟨hx, hne⟩ := mem_of_outside hx
        refine ⟨_, List.mem_cons_self, hx, ?_⟩
        rintro p _ ⟨⟩
        exact hne p rfl
      · exact hrest hx
    · rw [freeArgs_cons hkind] at h
      rcases List.mem_append.mp h with hx | hx
      · refine ⟨e, List.mem_cons_self, hx, ?_⟩
        rintro p body rfl
        exact absurd rfl hkind
      · exact hrest hx

theorem mem_free_call {receiver : Option Expr} {method : String} {declaring ty : Ty}
    {args : List Expr} {x : String} (h : x ∈ (call receiver method declaring args ty).free) :
    (∃ e, receiver = some e ∧ x ∈ e.free) ∨ x ∈ freeArgs args := by
  cases receiver with
  | none => exact .inr h
  | some e => exact (List.mem_append.mp h).imp_left fun hx => ⟨e, rfl, hx⟩

theorem mem_freeAll {es : List Expr} {x : String} : x ∈ freeAll es ↔ ∃ e ∈ es, x ∈ e.free := by
  induction es with
  | nil => simp [freeAll]
  | cons e es ih => simp [freeAll, ih]

theorem free_of_part {e : Expr} {x : String} (h : x ∈ e.free) :
    (∃ p, e = parameter p ∧ p.name = x) ∨ ∃ part ∈ e.parts, x ∈ part.free := by
  cases e with
  | parameter p =>
    rw [free, List.mem_singleton] at h
    exact .inl ⟨p, rfl, h.symm⟩
  | call receiver method declaring args ty =>
    rcases mem_free_call h with ⟨e, rfl, hx⟩ | hx
    · exact .inr ⟨e, by simp [parts], hx⟩
    · obtain ⟨e, he, hx, -⟩ := mem_freeArgs hx
      exact .inr ⟨e, by simp [parts, he], hx⟩
  | lambda fn =>
    obtain ⟨params, body⟩ := fn
    exact .inr ⟨body, by simp [parts], h⟩
  | construct => exact .inr (mem_freeAll.mp h)
  | accumulate fn source selector ty =>
    rcases selector with _ | ⟨params, body⟩
    · exact .inr ⟨source, by simp [parts], h⟩
    · rcases List.mem_append.mp h with hx | hx
      · exact .inr ⟨source, by simp [parts], hx⟩
      · exact .inr ⟨body, by simp [parts], (mem_of_outside hx).1⟩
  | _ => simp_all [free, parts]

theorem selectedDecoder_congr {r : Decoders} {Q : Expr → Expr → Prop} {x x' : Expr}
    {as bs : List Expr} (h : List.Forall₂ Q as bs)
    (hQ : ∀ a ∈ as, ∀ b, Q a b → (a.kind = .lambda ↔ b.kind = .lambda) ∧
      ∀ fn fn', a = lambda fn → b = lambda fn' →
        fn.body.isConstruction = fn'.body.isConstruction ∧ fn.body.decoder r = fn'.body.decoder r) :
    selectedDecoder r (x :: as) = selectedDecoder r (x' :: bs) := by
  cases h with
  | nil => rfl
  | @cons a b _ _ hab _ =>
    have none_of {c : Expr} (hc : c.kind ≠ .lambda) (x : Expr) (xs : List Expr) :
        selectedDecoder r (x :: c :: xs) = none := by
      cases c with
      | lambda fn => exact absurd rfl hc
      | _ => rfl
    obtain ⟨hiff, hbodies⟩ := hQ a List.mem_cons_self b hab
    rcases lambda_or_kind_ne a with ⟨params, body, rfl⟩ | ha
    · rcases lambda_or_kind_ne b with ⟨params', body', rfl⟩ | hb
      · obtain ⟨hconstruct, hdecoder⟩ := hbodies _ _ rfl rfl
        simp [selectedDecoder, hconstruct, hdecoder]
      · exact (hb (hiff.mp rfl)).elim
    · rw [none_of ha, none_of fun hb => ha (hiff.mpr hb)]

/-- The same expression, with its bound nodes at related places and its parameters renamed. -/
inductive Moved (M : Relocation) : Expr → Expr → Prop
  | literal (value : Literal) (ty : Ty) : Moved M (literal value ty) (literal value ty)
  | parameter (p : Parameter) (hp : p.name ∉ M.closed) :
    Moved M (parameter p) (parameter (p.rename M.name))
  | member {a b : Expr} (name : String) (declaring ty : Ty) (h : Moved M a b) :
    Moved M (member a name declaring ty) (member b name declaring ty)
  | binary {a b c d : Expr} (op : BinaryOp) (ty : Ty) (hl : Moved M a b) (hr : Moved M c d) :
    Moved M (binary op a c ty) (binary op b d ty)
  | unary {a b : Expr} (op : UnaryOp) (ty : Ty) (h : Moved M a b) :
    Moved M (unary op a ty) (unary op b ty)
  | conditional {a b c d e f : Expr} (ty : Ty) (ht : Moved M a b) (ha : Moved M c d)
    (hb : Moved M e f) : Moved M (conditional a c e ty) (conditional b d f ty)
  | call {as bs : List Expr} (method : String) (declaring ty : Ty)
    (hargs : List.Forall₂ (Moved M) as bs) :
    Moved M (call none method declaring as ty) (call none method declaring bs ty)
  | callOn {a b : Expr} {as bs : List Expr} (method : String) (declaring ty : Ty)
    (h : Moved M a b) (hargs : List.Forall₂ (Moved M) as bs) :
    Moved M (call (some a) method declaring as ty) (call (some b) method declaring bs ty)
  | lambda {a b : Expr} (params : List Parameter) (h : Moved M a b) :
    Moved M (lambda ⟨params, a⟩) (lambda ⟨params.map (Parameter.rename M.name), b⟩)
  | construct {as bs : List Expr} (ty : Ty) (parameters : List String)
    (members : Option (List String)) (hargs : List.Forall₂ (Moved M) as bs) :
    Moved M (construct ty parameters as members) (construct ty parameters bs members)
  | accumulate {a b : Expr} (fn : AccumulatorFn) (ty : Ty)
    (hitem : a.kind = .document ∨ M.KeepsItem) (h : Moved M a b) :
    Moved M (accumulate fn a none ty) (accumulate fn b none ty)
  | accumulateOf {a b c d : Expr} (fn : AccumulatorFn) (params : List Parameter) (ty : Ty)
    (h : Moved M a b) (hbody : Moved M c d) :
    Moved M (accumulate fn a (some ⟨params, c⟩) ty)
      (accumulate fn b (some ⟨params.map (Parameter.rename M.name), d⟩) ty)
  | field {p q : Path} (decoder : Decoder) (ty : Ty) (hp : M.place p q) :
    Moved M (field p decoder ty) (field q decoder ty)
  | current {a b : Expr} (decoder : Decoder) (h : Moved M a b) (hkeeps : M.Keeps decoder) :
    Moved M (document a none decoder) (document b none decoder)
  | document {a b : Expr} {p q : Path} (decoder : Decoder) (h : Moved M a b)
    (hp : M.place p q) : Moved M (document a (some p) decoder) (document b (some q) decoder)
  | root (p : Parameter) (decoder : Decoder) (hkeeps : M.Keeps decoder) :
    Moved M (document (parameter p) none decoder)
      (document (parameter (p.rename M.name)) none decoder)
  | element (v : Parameter) {p q : Path} (decoder : Decoder) (hp : M.place p q) :
    Moved M (document (parameter v) (some p) decoder)
      (document (parameter (v.rename M.name)) (some q) decoder)

namespace Moved

variable {M : Relocation} {R : Path → Path → Prop} {e e' : Expr}

theorem refl (hR : Path.Steady R) (e : Expr) : Moved (.ofPlaces R) e e := by
  have same (params : List Parameter) :
      params.map (Parameter.rename (Relocation.ofPlaces R).name) = params := List.map_id params
  induction e with
  | literal value ty => exact .literal value ty
  | parameter p => exact .parameter p nofun
  | member target name declaring ty ih => exact .member name declaring ty ih
  | binary op left right ty ihl ihr => exact .binary op ty ihl ihr
  | unary op operand ty ih => exact .unary op ty ih
  | conditional test ifTrue ifFalse ty iht iha ihb => exact .conditional ty iht iha ihb
  | call receiver method declaring args ty ihr iha _ =>
    cases receiver with
    | none => exact .call method declaring ty (List.forall₂_same.mpr iha)
    | some e => exact .callOn method declaring ty (ihr e rfl) (List.forall₂_same.mpr iha)
  | lambda params body ih =>
    have h := Moved.lambda params ih
    rwa [same] at h
  | construct ty parameters args members ih =>
    exact .construct ty parameters members (List.forall₂_same.mpr ih)
  | accumulate fn source selector ty ihs ihb =>
    rcases selector with _ | ⟨params, body⟩
    · exact .accumulate fn ty (.inr hR.keepsItem) ihs
    · have h := Moved.accumulateOf fn params ty ihs (ihb params body rfl)
      rwa [same] at h
  | field path decoder ty => exact .field decoder ty (hR.refl path)
  | document inner path decoder ih =>
    cases path with
    | none => exact .current decoder ih (hR.keeps decoder)
    | some path => exact .document decoder ih (hR.refl path)

theorem kind_eq (h : Moved M e e') : e.kind = e'.kind := by cases h <;> rfl

theorem ty_eq (h : Moved M e e') : e.ty = e'.ty := by
  induction e generalizing e' with
  | lambda params body ih => cases h with | lambda _ h => simpa [ty] using ih h
  | document inner path decoder ih =>
    cases h with
    | current _ h => simpa [ty] using ih h
    | document _ h _ => simpa [ty] using ih h
    | root | element => rfl
  | _ => cases h <;> rfl

private theorem map_eq_map {α : Type} {f : Expr → α} {as bs : List Expr}
    (h : List.Forall₂ (Moved M) as bs) (hf : ∀ a ∈ as, ∀ b, Moved M a b → f a = f b) :
    as.map f = bs.map f := by
  induction h with
  | nil => rfl
  | cons hab hrest ih =>
    rw [List.map_cons, List.map_cons, hf _ (by simp) _ hab]
    rw [ih fun a ha => hf a (List.mem_cons_of_mem _ ha)]

private theorem selectedDecoder_eq (r : Decoders) {as bs : List Expr}
    (h : List.Forall₂ (Moved M) as bs)
    (hbody : ∀ params body, Expr.lambda ⟨params, body⟩ ∈ as →
      ∀ b, Moved M body b → body.decoder r = b.decoder r) :
    selectedDecoder r as = selectedDecoder r bs := by
  cases h with
  | nil => rfl
  | cons _ hrest =>
    refine selectedDecoder_congr hrest fun a ha b hab => ⟨by rw [hab.kind_eq], ?_⟩
    rintro ⟨params, body⟩ fn rfl rfl
    cases hab with
    | lambda _ h =>
      have hdecoder := hbody params body (List.mem_cons_of_mem _ ha) _ h
      exact ⟨by rw [isConstruction, isConstruction, h.kind_eq], hdecoder⟩

/-- What is read from an expression does not depend on where its nodes live. -/
theorem decoder_eq (r : Decoders) (h : Moved M e e') : e.decoder r = e'.decoder r := by
  induction e generalizing e' with
  | binary op left right ty ihl _ =>
    cases h with
    | binary _ _ hl _ => simp [decoder, isConstruction, hl.kind_eq, ihl hl]
  | conditional test ifTrue ifFalse ty _ iha _ =>
    cases h with
    | conditional _ _ ha _ => simp [decoder, isConstruction, ha.kind_eq, iha ha]
  | call receiver method declaring args ty _ _ ihb =>
    have hargs {bs : List Expr} (hargs : List.Forall₂ (Moved M) args bs) :
        selectedDecoder r args = selectedDecoder r bs :=
      selectedDecoder_eq r hargs fun params body hmem b hb => ihb params body hmem hb
    cases h with
    | call _ _ _ h => simp [decoder, hargs h]
    | callOn _ _ _ _ h => simp [decoder, hargs h]
  | lambda params body ih => cases h with | lambda _ h => simp [decoder, h.ty_eq]
  | construct ty parameters args members ih =>
    cases h with
    | construct _ _ _ h =>
      have hargs := map_eq_map h fun a ha b hab => ih a ha hab
      simp [decoder, hargs]
  | accumulate fn source selector ty ihs ihb =>
    cases h with
    | accumulate _ _ _ h => simp [decoder, h.ty_eq, ihs h]
    | accumulateOf _ _ _ h hbody => simp [decoder, ihb _ _ rfl hbody]
  | _ => cases h <;> rfl

theorem itemDecoder_eq (r : Decoders) (h : Moved M e e') :
    e.itemDecoder r = e'.itemDecoder r := by
  rw [itemDecoder, itemDecoder, h.decoder_eq r, h.ty_eq]

theorem boundPath?_rel (h : Moved M e e') : Option.Rel M.place e.boundPath? e'.boundPath? := by
  cases h with
  | field _ _ hp => exact .some hp
  | document _ _ hp => exact .some hp
  | element _ _ hp => exact .some hp
  | _ => exact .none

private theorem forall₂_toList {a b : Option Path} (h : Option.Rel M.place a b) :
    List.Forall₂ M.place a.toList b.toList := by
  cases h with
  | some h => exact .cons h .nil
  | none => exact .nil

private theorem forall₂_flatMap {as bs : List Expr} (h : List.Forall₂ (Moved M) as bs)
    (hpaths : ∀ a ∈ as, ∀ b, Moved M a b → List.Forall₂ M.place a.boundPaths b.boundPaths) :
    List.Forall₂ M.place (as.flatMap boundPaths) (bs.flatMap boundPaths) := by
  induction h with
  | nil => exact .nil
  | cons hab hrest ih =>
    rw [List.flatMap_cons, List.flatMap_cons]
    refine List.rel_append (hpaths _ (by simp) _ hab) ?_
    exact ih fun a ha => hpaths a (List.mem_cons_of_mem _ ha)

theorem forall₂_boundPaths (h : Moved M e e') :
    List.Forall₂ M.place e.boundPaths e'.boundPaths := by
  induction e using induct_parts generalizing e' with
  | step e ih =>
    rw [boundPaths_eq, boundPaths_eq]
    refine List.rel_append (forall₂_toList h.boundPath?_rel) ?_
    have hparts (h : List.Forall₂ (Moved M) e.parts e'.parts) :
        List.Forall₂ M.place (e.parts.flatMap boundPaths) (e'.parts.flatMap boundPaths) :=
      forall₂_flatMap h fun a ha b hab => ih a ha hab
    cases h with
    | call _ _ _ hargs => exact hparts hargs
    | callOn _ _ _ h hargs => exact hparts (.cons h hargs)
    | construct _ _ _ hargs => exact hparts hargs
    | root | element => exact .nil
    | _ => exact hparts (by simp_all [parts])

theorem eq_of_moved (h : Moved (.ofPlaces Eq) e e') : e = e' := by
  have same (params : List Parameter) :
      params.map (Parameter.rename (Relocation.ofPlaces Eq).name) = params := List.map_id params
  induction e generalizing e' with
  | call receiver method declaring args ty ihr iha _ =>
    have hargs {bs : List Expr} (h : List.Forall₂ (Moved (.ofPlaces Eq)) args bs) : args = bs := by
      simpa using map_eq_map (f := id) h fun a ha b hab => iha a ha hab
    cases h with
    | call _ _ _ h => rw [hargs h]
    | callOn _ _ _ hreceiver h => rw [ihr _ rfl hreceiver, hargs h]
  | lambda params body ih =>
    cases h with
    | lambda _ h => rw [same, ih h]
  | construct ty parameters args members ih =>
    cases h with
    | @construct _ bs _ _ _ h =>
      have hargs : args = bs := by simpa using map_eq_map (f := id) h fun a ha b hab => ih a ha hab
      rw [hargs]
  | accumulate fn source selector ty ihs ihb =>
    cases h with
    | accumulate _ _ _ h => rw [ihs h]
    | accumulateOf _ _ _ h hbody => rw [same, ihs h, ihb _ _ rfl hbody]
  | field path decoder ty =>
    cases h with
    | field _ _ hp => rw [show _ = _ from hp]
  | document inner path decoder ih =>
    cases h with
    | current _ h => rw [ih h]
    | document _ h hp => rw [ih h, show _ = _ from hp]
    | root => rfl
    | element _ _ hp => rw [show _ = _ from hp]; rfl
  | parameter p =>
    cases h
    rfl
  | _ =>
    cases h
    grind

end Moved

variable {M : Relocation} {e e' : Expr}

private theorem map_rel {α : Type} {Q : Expr → Expr → Prop} {f g : α → Expr} {x : Option α}
    (h : ∀ a, x = some a → Q (f a) (g a)) : Option.Rel Q (x.map f) (x.map g) := by
  cases x with
  | none => exact .none
  | some a => exact .some (h a rfl)

private theorem resolve?_document_moved (name : String) (ty : Ty)
    {path path' : Option Path} {decoder : Decoder} (h : Moved M e e')
    (hdeclared : Option.Rel (Moved M) (resolve?.declared? name ty path decoder)
      (resolve?.declared? name ty path' decoder)) :
    Option.Rel (Moved M) ((document e path decoder).resolve? name ty)
      ((document e' path' decoder).resolve? name ty) := by
  cases h with
  | @construct as bs _ parameters members hargs =>
    have hconstructed := constructed?_rel name parameters members hargs
    simp only [resolve?]
    generalize constructed? name parameters as members = a at hconstructed
    generalize constructed? name parameters bs members = b at hconstructed
    cases hconstructed with
    | some h => exact .some h
    | none => exact hdeclared
  | _ => exact hdeclared

theorem resolve?_moved (hM : M.Steady) (name : String) (ty : Ty) (h : Moved M e e') :
    Option.Rel (Moved M) (e.resolve? name ty) (e'.resolve? name ty) := by
  cases h with
  | field decoder _ hp => exact map_rel fun m _ => .field _ _ (hM.child _ hp)
  | construct _ _ _ hargs => exact constructed?_rel _ _ _ hargs
  | current decoder h hkeeps =>
    refine resolve?_document_moved name ty h (map_rel fun m hm => .field _ _ ?_)
    exact hkeeps m.element (Decoder.elements_of_member? hm).1
  | document decoder h hp =>
    exact resolve?_document_moved name ty h (map_rel fun m _ => .field _ _ (hM.child _ hp))
  | root p decoder hkeeps =>
    refine map_rel fun m hm => .field _ _ ?_
    exact hkeeps m.element (Decoder.elements_of_member? hm).1
  | element p decoder hp => exact map_rel fun m _ => .field _ _ (hM.child _ hp)
  | _ => exact .none

private theorem computed_moved (hM : M.Steady) (p : Parameter) (item : Except Fault Decoder) :
    Lifted (Option.Rel (Moved M))
      (do return some (document (parameter p) (some (Path.loopVariable p.name)) (← item)))
      (do
        let path := Path.loopVariable (p.rename M.name).name
        return some (document (parameter (p.rename M.name)) (some path) (← item))) := by
  cases item with
  | ok item => exact .ok (.some (.element p item (hM.loopVariable p.name)))
  | error fault => exact .error fault

theorem element?_moved (hM : M.Steady) (r : Decoders) (p : Parameter) (h : Moved M e e') :
    Lifted (Option.Rel (Moved M)) (e.element? r p) (e'.element? r (p.rename M.name)) := by
  have hitem := h.itemDecoder_eq r
  cases h with
  | field decoder _ hp => exact .ok (map_rel fun d _ => .element p d hp)
  | current decoder h hkeeps => exact .ok (map_rel fun d hd => .root p d (hkeeps.item hd))
  | document decoder h hp => exact .ok (map_rel fun d _ => .element p d hp)
  | root _ decoder hkeeps => exact .ok (map_rel fun d hd => .root p d (hkeeps.item hd))
  | element _ decoder hp => exact .ok (map_rel fun d _ => .element p d hp)
  | _ =>
    simp only [element?, hitem]
    exact computed_moved hM p _

end Expr

namespace Scope

/-- Two scopes hold, under each of the names and its other name, the same thing at related places,
and something under those that are closed. In a group only the name of the grouping becomes the name
of the grouping, and it is closed unless its elements are kept. -/
structure MovedOn (M : Relocation) (names : List String) (s s' : Scope) : Prop where
  lookup : ∀ name ∈ names, Option.Rel (Expr.Moved M) (s.lookup name) (s'.lookup (M.name name))
  held : ∀ name ∈ M.closed, name ∈ names → (s.lookup name).isSome = true
  group : Option.Rel (fun g g' => (∀ name, M.name name = g'.parameter ↔ name = g.parameter) ∧
    (g.parameter ∈ M.closed ∨ M.KeepsItem) ∧ g.key.Moved M g'.key) s.group s'.group

variable {M : Relocation} {names : List String} {s s' : Scope}

namespace MovedOn

theorem mono {fewer : List String} (h : MovedOn M names s s') (hsub : fewer ⊆ names) :
    MovedOn M fewer s s' :=
  ⟨fun name hname => h.lookup name (hsub hname),
    fun name hclosed hname => h.held name hclosed (hsub hname), h.group⟩

theorem refl {R : Path → Path → Prop} (hR : Path.Steady R) (s : Scope) (names : List String) :
    MovedOn (.ofPlaces R) names s s := by
  refine ⟨fun name _ => ?_, fun _ hclosed => absurd hclosed List.not_mem_nil, ?_⟩
  · change Option.Rel _ (s.lookup name) (s.lookup name)
    cases s.lookup name with
    | none => exact .none
    | some e => exact .some (.refl hR e)
  · cases s.group with
    | none => exact .none
    | some g => exact .some ⟨fun _ => Iff.rfl, .inr hR.keepsItem, .refl hR g.key⟩

section Parameters

variable {p : Parameter} (hp : ∀ name ∈ names, M.name name = M.name p.name → name = p.name)
include hp

theorem bind (h : MovedOn M (Expr.outside [p] names) s s') {e e' : Expr} (he : e.Moved M e') :
    MovedOn M names (s.bind p.name e) (s'.bind (M.name p.name) e') := by
  refine ⟨fun name hname => ?_, fun name hclosed hname => ?_, h.group⟩
  · by_cases heq : name = p.name
    · subst heq
      rw [lookup_bind_self, lookup_bind_self]
      exact .some he
    · rw [lookup_bind_of_ne _ heq, lookup_bind_of_ne _ fun hsame => heq (hp name hname hsame)]
      exact h.lookup name (by simp [Expr.outside, hname, heq])
  · by_cases heq : name = p.name
    · rw [heq, lookup_bind_self]
      rfl
    · rw [lookup_bind_of_ne _ heq]
      exact h.held name hclosed (by simp [Expr.outside, hname, heq])

theorem hide (hclosed : p.name ∉ M.closed) (h : MovedOn M (Expr.outside [p] names) s s') :
    MovedOn M names (s.hide p.name) (s'.hide (M.name p.name)) := by
  refine ⟨fun name hname => ?_, fun name hname hmem => ?_, h.group⟩
  · by_cases heq : name = p.name
    · subst heq
      rw [lookup_hide_self, lookup_hide_self]
      exact .none
    · rw [lookup_hide_of_ne _ heq, lookup_hide_of_ne _ fun hsame => heq (hp name hname hsame)]
      exact h.lookup name (by simp [Expr.outside, hname, heq])
  · have heq : name ≠ p.name := ne_of_mem_of_not_mem hname hclosed
    rw [lookup_hide_of_ne _ heq]
    exact h.held name hname (by simp [Expr.outside, hmem, heq])

end Parameters

theorem enter_renamed (hM : M.Steady) (r : Decoders) {params : List Parameter}
    (hparams : ∀ p ∈ params, p.name ∉ M.closed ∧
      ∀ name ∈ names, M.name name = M.name p.name → name = p.name)
    (h : MovedOn M (Expr.outside params names) s s') {source source' : Option Expr}
    (hsource : Option.Rel (Expr.Moved M) source source') :
    Lifted (MovedOn M names) (s.enter r params source)
      (s'.enter r (params.map (Parameter.rename M.name)) source') := by
  match params, hsource with
  | [], _ => exact .ok h
  | [p], .none =>
    obtain ⟨hclosed, hp⟩ := hparams p (by simp)
    exact .ok (h.hide hp hclosed)
  | [p], .some he =>
    obtain ⟨hclosed, hp⟩ := hparams p (by simp)
    refine (Expr.element?_moved hM r p he).bind fun a b hab => ?_
    cases hab with
    | some hab => exact .ok (h.bind hp hab)
    | none => exact .ok (h.hide hp hclosed)
  | _ :: _ :: _, _ => exact .ok h

theorem enter {R : Path → Path → Prop} (hR : Path.Steady R) (r : Decoders)
    (params : List Parameter) (h : MovedOn (.ofPlaces R) (Expr.outside params names) s s')
    {source source' : Option Expr}
    (hsource : Option.Rel (Expr.Moved (.ofPlaces R)) source source') :
    Lifted (MovedOn (.ofPlaces R) names) (s.enter r params source) (s'.enter r params source') := by
  have henter := h.enter_renamed hR.relocation r
    (fun _ _ => ⟨nofun, fun _ _ hsame => hsame⟩) hsource
  rwa [show (Relocation.ofPlaces R).name = id from rfl, Parameter.rename_id, List.map_id] at henter

theorem isGrouping_parameter (h : MovedOn M names s s') (p : Parameter) :
    s.isGrouping (.parameter p) = s'.isGrouping (.parameter (p.rename M.name)) := by
  have hgroup := h.group
  unfold isGrouping
  generalize s.group = g at hgroup
  generalize s'.group = g' at hgroup
  cases hgroup with
  | none => rfl
  | some hg => simp [hg.1]

theorem isGrouping_eq (h : MovedOn M names s s') {e e' : Expr} (he : e.Moved M e') :
    s.isGrouping e = s'.isGrouping e' := by
  have hgroup := h.group
  unfold isGrouping
  generalize s.group = g at hgroup
  generalize s'.group = g' at hgroup
  cases hgroup with
  | none => rfl
  | some hg =>
    cases he with
    | parameter p => simp [hg.1]
    | current decoder h => cases h <;> simp [hg.1]
    | root p => simp [hg.1]
    | document decoder h hp => cases h <;> rfl
    | _ => rfl

theorem isSome_group_eq (h : MovedOn M names s s') : s.group.isSome = s'.group.isSome := by
  have hgroup := h.group
  generalize s.group = g at hgroup
  generalize s'.group = g' at hgroup
  cases hgroup <;> rfl

theorem document_or_keepsItem (h : MovedOn M names s s') {e e' : Expr} (he : e.Moved M e')
    (hgrouping : s.isGrouping e = true) : e.kind = .document ∨ M.KeepsItem := by
  cases he with
  | parameter p hp =>
    have hgroup := h.group
    unfold isGrouping at hgrouping
    generalize s.group = g at hgroup hgrouping
    generalize s'.group = g' at hgroup
    cases hgroup with
    | none => cases hgrouping
    | some hg => exact .inr (hg.2.1.resolve_left (of_decide_eq_true hgrouping ▸ hp))
  | current | document | root | element => exact .inl rfl
  | _ =>
    rw [isGrouping_of_kind (by simp [Expr.kind]) (by simp [Expr.kind])] at hgrouping
    cases hgrouping

end MovedOn

end Scope

/-- The parameters are not closed, and no other name that the body takes from its scope becomes the
name of a parameter. -/
def Lambda.Separates (M : Relocation) (fn : Lambda) : Prop :=
  ∀ p ∈ fn.params, p.name ∉ M.closed ∧
    ∀ name ∈ fn.body.free, M.name name = M.name p.name → name = p.name

namespace Expr

/-- A node that can be found elsewhere: lambdas separate their parameters, and nodes that are bound
already correspond to themselves. -/
def Fits (M : Relocation) : Expr → Prop
  | lambda fn => fn.Separates M
  | accumulate _ _ (some fn) _ => fn.Separates M
  | accumulate _ _ none _ => M.KeepsItem
  | field path decoder ty => Moved M (field path decoder ty) (field path decoder ty)
  | document inner path decoder =>
    Moved M (document inner path decoder) (document inner path decoder)
  | _ => True

theorem fits_ofPlaces {R : Path → Path → Prop} (hR : Path.Steady R) (e : Expr) :
    e.All (Fits (.ofPlaces R)) := by
  intro n _
  cases n with
  | lambda fn => exact fun _ _ => ⟨nofun, fun _ _ h => h⟩
  | accumulate _ _ selector =>
    cases selector with
    | none => exact hR.keepsItem
    | some fn => exact fun _ _ => ⟨nofun, fun _ _ h => h⟩
  | field | document => exact .refl hR _
  | _ => trivial

variable {M : Relocation} {names : List String} {s s' : Scope}

theorem key?_moved (h : s.MovedOn M names s') {target : Expr} (htarget : target.Fits M)
    (name : String) :
    Option.Rel (Moved M) (s.key? target name) (s'.key? (target.rename M.name) name) := by
  have hgrouping : s.isGrouping target = s'.isGrouping (target.rename M.name) := by
    cases target with
    | parameter p => exact h.isGrouping_parameter p
    | document => exact h.isGrouping_eq htarget
    | _ =>
      rw [Scope.isGrouping_of_kind (by simp [kind]) (by simp [kind]),
        Scope.isGrouping_of_kind (by rw [kind_rename]; simp [kind])
          (by rw [kind_rename]; simp [kind])]
  have hgroup := h.group
  unfold Scope.key?
  rw [hgrouping]
  generalize s.group = g at hgroup
  generalize s'.group = g' at hgroup
  cases hgroup with
  | none => exact .none
  | some hg =>
    dsimp only
    split
    · exact .some hg.2.2
    · exact .none

/-- Lambdas with the same parameters up to their names, and bodies at related places. -/
inductive MovedLambda (M : Relocation) : Lambda → Lambda → Prop
  | intro {a b : Expr} (params : List Parameter) (h : Moved M a b) :
    MovedLambda M ⟨params, a⟩ ⟨params.map (Parameter.rename M.name), b⟩

theorem Moved.accumulateWith {a b : Expr} (fn : AccumulatorFn) {selector selector' : Option Lambda}
    (ty : Ty) (hitem : a.kind = .document ∨ M.KeepsItem) (h : Moved M a b)
    (hselector : Option.Rel (MovedLambda M) selector selector') :
    Moved M (.accumulate fn a selector ty) (.accumulate fn b selector' ty) := by
  match hselector with
  | .none => exact .accumulate fn ty hitem h
  | .some (.intro params hbody) => exact .accumulateOf fn params ty h hbody

theorem counting_moved (ty : Ty) {fn fn' : Option Lambda}
    (h : Option.Rel (MovedLambda M) fn fn') :
    MovedLambda M (grouped?.counting ty fn) (grouped?.counting ty fn') := by
  match h with
  | .none => exact .intro [] (.literal _ _)
  | .some (.intro params h) =>
    exact .intro params (.conditional ty h (.literal _ _) (.literal _ _))

private theorem ofGrouping_moved (h : s.MovedOn M names s') (method : String) (ty : Ty)
    {e e' : Expr} (he : Moved M e e') {fn fn' : Option Lambda}
    (hfn : Option.Rel (MovedLambda M) fn fn') :
    Option.Rel (Moved M) (Scope.accumulator?.ofGrouping s method ty e fn)
      (Scope.accumulator?.ofGrouping s' method ty e' fn') := by
  have hsome : fn.isSome = fn'.isSome := by cases hfn <;> rfl
  simp only [Scope.accumulator?.ofGrouping, ← h.isGrouping_eq he, grouped?_eq, hsome]
  split
  case isTrue hgrouping =>
    have hitem := h.document_or_keepsItem he hgrouping
    rw [Option.map_map, Option.map_map]
    refine map_rel fun ⟨acc, counts⟩ _ => ?_
    cases counts with
    | false => exact .accumulateWith acc ty hitem he hfn
    | true => exact .accumulateWith acc ty hitem he (.some (counting_moved ty hfn))
  case isFalse => exact .none

theorem accumulator?_moved (h : s.MovedOn M names s') (method : String) (declaring : Ty)
    {as bs : List Expr} (hargs : List.Forall₂ (Moved M) as bs) (ty : Ty) :
    Option.Rel (Moved M) (s.accumulator? method declaring as ty)
      (s'.accumulator? method declaring bs ty) := by
  have single {a b : Expr} (hab : Moved M a b) := ofGrouping_moved h method ty hab .none
  match hargs with
  | .nil => simp [Scope.accumulator?]
  | .cons hab .nil =>
    simp only [Scope.accumulator?, ← h.isSome_group_eq]
    split
    · cases hab with
      | accumulate fn _ hitem hsource =>
        cases fn with
        | push => exact map_rel fun fn _ => .accumulate fn ty hitem hsource
        | _ => exact single (.accumulate _ _ hitem hsource)
      | accumulateOf fn params _ hsource hbody =>
        cases fn with
        | push => exact map_rel fun fn _ => .accumulateOf fn params ty hsource hbody
        | _ => exact single (.accumulateOf _ params _ hsource hbody)
      | root p decoder hkeeps => exact single (.root p decoder hkeeps)
      | element p decoder hp => exact single (.element p decoder hp)
      | _ => exact single (by constructor <;> assumption)
    · exact .none
  | .cons hab (.cons (a := c) hcd .nil) =>
    rcases lambda_or_kind_ne c with ⟨params, body, rfl⟩ | hc
    · cases hcd with
      | lambda _ hbody =>
        rw [accumulator?_pair, accumulator?_pair, ← h.isSome_group_eq]
        split
        · exact ofGrouping_moved h method ty hab (.some (.intro params hbody))
        · exact .none
    · rw [accumulator?_of_kind_ne _ _ _ _ hc, accumulator?_of_kind_ne _ _ _ _ (hcd.kind_eq ▸ hc)]
      exact .none
  | .cons _ (.cons _ (.cons _ _)) =>
    rw [accumulator?_of_long, accumulator?_of_long]
    exact .none

private theorem item_moved (hM : M.Steady) (r : Decoders) (name : String) (ty itemTy : Ty)
    {e e' : Expr} (hitem : e.kind = .document ∨ M.KeepsItem) (h : Moved M e e') :
    Lifted
      (Option.Rel fun a b => Option.Rel (Moved M) (a.resolve? name ty) (b.resolve? name ty))
      (e.element? r ⟨"item", itemTy⟩) (e'.element? r ⟨"item", itemTy⟩) := by
  have hread {p q : Path} (hp : M.place p q) (d : Decoder) :
      Option.Rel (Moved M) ((document (parameter ⟨"item", itemTy⟩) (some p) d).resolve? name ty)
        ((document (parameter ⟨"item", itemTy⟩) (some q) d).resolve? name ty) :=
    map_rel fun m _ => .field _ _ (hM.child _ hp)
  have hdecoder := h.itemDecoder_eq r
  cases h with
  | field decoder _ hp => exact .ok (map_rel fun d _ => hread hp d)
  | current decoder h hkeeps =>
    refine .ok (map_rel fun d hd => map_rel fun m hm => .field _ _ ?_)
    exact hkeeps.item hd m.element (Decoder.elements_of_member? hm).1
  | document decoder h hp => exact .ok (map_rel fun d _ => hread hp d)
  | root p decoder hkeeps =>
    refine .ok (map_rel fun d hd => map_rel fun m hm => .field _ _ ?_)
    exact hkeeps.item hd m.element (Decoder.elements_of_member? hm).1
  | element p decoder hp => exact .ok (map_rel fun d _ => hread hp d)
  | _ =>
    have hkept := hitem.resolve_left (by simp [kind])
    simp only [element?, hdecoder]
    generalize itemDecoder _ _ = item
    cases item with
    | ok item => exact .ok (.some (hread hkept item))
    | error fault => exact .error fault

private theorem fold_moved (hM : M.Steady) (r : Decoders) (name : String) (declaring ty : Ty)
    (fn : AccumulatorFn) {e e' source source' : Expr} (h : Moved M e e')
    (hitem : source.kind = .document ∨ M.KeepsItem) (hsource : Moved M source source') :
    Lifted (Moved M) (bindMember.fold r e name declaring ty fn source)
      (bindMember.fold r e' name declaring ty fn source') := by
  unfold bindMember.fold
  rw [hsource.ty_eq]
  refine (item_moved hM r name ty _ hitem hsource).bind fun item item' hread => ?_
  cases hread with
  | none => exact .ok (.member name declaring ty h)
  | @some a a' hread =>
    simp only [Option.bind_some]
    generalize a.resolve? name ty = x at hread
    generalize a'.resolve? name ty = x' at hread
    cases hread with
    | none => exact .ok (.member name declaring ty h)
    | some hbody => exact .ok (.accumulateOf fn [] ty hsource hbody)

theorem bindMember_moved (hM : M.Steady) (r : Decoders) (name : String) (declaring ty : Ty)
    {e e' : Expr} (h : Moved M e e') :
    Lifted (Moved M) (bindMember r e name declaring ty) (bindMember r e' name declaring ty) := by
  have hresolved := resolve?_moved hM name ty h
  unfold bindMember
  generalize e.resolve? name ty = x at hresolved
  generalize e'.resolve? name ty = x' at hresolved
  cases hresolved with
  | some hbody => exact .ok hbody
  | none =>
    have hplain : Lifted (Moved M) (ε := Fault) (.ok (member e name declaring ty))
      (.ok (member e' name declaring ty)) := .ok (.member name declaring ty h)
    cases h with
    | accumulate fn ty₀ hitem hsource =>
      have hfold := fold_moved hM r name declaring ty fn (.accumulate fn ty₀ hitem hsource) hitem
        hsource
      cases fn with
      | first | last => exact hfold
      | _ => exact hplain
    | accumulateOf fn params ty₀ hsource hbody => cases fn <;> exact hplain
    | _ => exact hplain

/-- Wherever the two scopes hold the same for an expression, it is bound to the same. -/
def BindsMoved (M : Relocation) (r : Decoders) (e : Expr) : Prop :=
  ∀ s s' : Scope, s.MovedOn M e.free s' →
    Lifted (Moved M) (e.bind r s) ((e.rename M.name).bind r s')

private theorem bindAll_moved (r : Decoders) {es : List Expr} (h : s.MovedOn M (freeAll es) s')
    (ih : ∀ e ∈ es, e.BindsMoved M r) :
    Lifted (List.Forall₂ (Moved M)) (bindAll r s es) (bindAll r s' (renameAll M.name es)) := by
  induction es with
  | nil => exact .ok .nil
  | cons e es ihs =>
    have hhead := ih e (by simp) s s' (h.mono (List.subset_append_left _ _))
    have htail := ihs (h.mono (List.subset_append_right _ _)) fun e he => ih e (by simp [he])
    exact hhead.bind fun _ _ he => htail.bind fun _ _ hes => .ok (.cons he hes)

private theorem bindArgs_moved (hM : M.Steady) (r : Decoders) {es : List Expr}
    {source source' : Option Expr} (h : s.MovedOn M (freeArgs es) s')
    (hsource : Option.Rel (Moved M) source source') (ih : ∀ e ∈ es, e.BindsMoved M r)
    (ihb : ∀ params body, lambda ⟨params, body⟩ ∈ es →
      Lambda.Separates M ⟨params, body⟩ ∧ body.BindsMoved M r) :
    Lifted (List.Forall₂ (Moved M)) (bindArgs r s source es)
      (bindArgs r s' source' (renameAll M.name es)) := by
  induction es generalizing source source' with
  | nil => exact .ok .nil
  | cons e es ihs =>
    have htail {a b : Expr} (hab : Moved M a b) (hes : s.MovedOn M (freeArgs es) s') :
        Lifted (List.Forall₂ (Moved M)) (bindArgs r s (source.or (some a)) es)
          (bindArgs r s' (source'.or (some b)) (renameAll M.name es)) := by
      refine ihs hes ?_ (fun e he => ih e (by simp [he])) fun p b hb => ihb p b (by simp [hb])
      cases hsource with
      | none => exact .some hab
      | some h => exact .some h
    rcases lambda_or_kind_ne e with ⟨params, body, rfl⟩ | he
    · obtain ⟨hseparates, hbody⟩ := ihb params body (by simp)
      have hes := h.mono (List.subset_append_right _ _)
      have hinner := (h.mono (List.subset_append_left _ _)).enter_renamed hM r hseparates hsource
      refine hinner.bind fun inner inner' hscope => ?_
      refine (hbody inner inner' hscope).bind fun b b' hb => ?_
      exact (htail (.lambda params hb) hes).bind fun _ _ hargs =>
        .ok (.cons (.lambda params hb) hargs)
    · rw [freeArgs_cons he] at h
      have hes := h.mono (List.subset_append_right _ _)
      have he' : (e.rename M.name).kind ≠ .lambda := by rwa [kind_rename]
      rw [renameAll, bindArgs_cons source he, bindArgs_cons source' he']
      refine (ih e (by simp) s s' (h.mono (List.subset_append_left _ _))).bind fun a b hab => ?_
      exact (htail hab hes).bind fun _ _ hargs => .ok (.cons hab hargs)

private theorem getD_moved {x x' : Option Expr} {e e' : Expr} (hx : Option.Rel (Moved M) x x')
    (he : Moved M e e') : Moved M (x.getD e) (x'.getD e') := by
  cases hx with
  | none => exact he
  | some h => exact h

/-- Binding in related scopes gives the same expression at related places, under the other names. -/
theorem bind_renamed (hM : M.Steady) (r : Decoders) {e : Expr} (he : e.All (Fits M)) :
    e.BindsMoved M r := by
  induction e with
  | literal value ty => exact fun _ _ _ => .ok (.literal value ty)
  | parameter p =>
    intro s s' h
    have hname : p.name ∈ (parameter p).free := List.mem_singleton_self _
    have hlookup := h.lookup p.name hname
    have hheld := fun hclosed => h.held p.name hclosed hname
    rw [rename, bind, bind, Parameter.name_rename]
    generalize s.lookup p.name = x at hlookup hheld
    generalize s'.lookup (M.name p.name) = x' at hlookup
    cases hlookup with
    | none => exact .ok (.parameter p fun hclosed => absurd (hheld hclosed) (by simp))
    | some hbound => exact .ok hbound
  | member target name declaring ty ih =>
    intro s s' h
    have htarget : target.All (Fits M) := he.part (by simp [parts])
    have hkey := key?_moved h htarget.self name
    unfold rename bind
    generalize s.key? target name = x at hkey
    generalize s'.key? (target.rename M.name) name = x' at hkey
    cases hkey with
    | some hkey => exact .ok hkey
    | none =>
      exact (ih htarget s s' h).bind fun a b hab => bindMember_moved hM r name declaring ty hab
  | binary op left right ty ihl ihr =>
    intro s s' h
    have hl := ihl (he.part (by simp [parts])) s s' (h.mono (List.subset_append_left _ _))
    have hr := ihr (he.part (by simp [parts])) s s' (h.mono (List.subset_append_right _ _))
    exact hl.bind fun _ _ hl => hr.bind fun _ _ hr => .ok (.binary op ty hl hr)
  | unary op operand ty ih =>
    intro s s' h
    exact (ih (he.part (by simp [parts])) s s' h).bind fun _ _ h => .ok (.unary op ty h)
  | conditional test ifTrue ifFalse ty iht iha ihb =>
    intro s s' h
    have ht := iht (he.part (by simp [parts])) s s' (h.mono (by simp [free]))
    have ha := iha (he.part (by simp [parts])) s s' (h.mono (by simp [free]))
    have hb := ihb (he.part (by simp [parts])) s s' (h.mono (by simp [free]))
    exact ht.bind fun _ _ ht => ha.bind fun _ _ ha => hb.bind fun _ _ hb =>
      .ok (.conditional ty ht ha hb)
  | call receiver method declaring args ty ihr iha ihb =>
    intro s s' h
    have harg (e : Expr) (hmem : e ∈ args) : e.BindsMoved M r :=
      iha e hmem (he.part (by simp [parts, hmem]))
    have hbody (params : List Parameter) (body : Expr) (hmem : lambda ⟨params, body⟩ ∈ args) :
        Lambda.Separates M ⟨params, body⟩ ∧ body.BindsMoved M r := by
      have hlambda : (lambda ⟨params, body⟩).All (Fits M) := he.part (by simp [parts, hmem])
      exact ⟨hlambda.self, ihb params body hmem (hlambda.part (by simp [parts]))⟩
    cases receiver with
    | none =>
      have hargs := bindArgs_moved hM r h .none harg hbody
      exact hargs.bind fun _ _ hargs =>
        .ok (getD_moved (accumulator?_moved h method declaring hargs ty)
          (.call method declaring ty hargs))
    | some receiver =>
      have hreceiver := ihr receiver rfl (he.part (by simp [parts])) s s'
        (h.mono (List.subset_append_left _ _))
      refine hreceiver.bind fun _ _ hreceiver => ?_
      have hargs := bindArgs_moved hM r (h.mono (List.subset_append_right _ _)) (.some hreceiver)
        harg hbody
      exact hargs.bind fun _ _ hargs =>
        .ok (getD_moved (accumulator?_moved h method declaring hargs ty)
          (.callOn method declaring ty hreceiver hargs))
  | lambda params body ih =>
    intro s s' h
    exact (ih (he.part (by simp [parts])) s s' h).bind fun _ _ h => .ok (.lambda params h)
  | construct ty parameters args members ih =>
    intro s s' h
    have hargs := bindAll_moved r h fun e hmem => ih e hmem (he.part (by simp [parts, hmem]))
    exact hargs.bind fun _ _ hargs => .ok (.construct ty parameters members hargs)
  | accumulate fn source selector ty ihs ihb =>
    intro s s' h
    have hsource := ihs (he.part (by simp [parts])) s s'
    rcases selector with _ | ⟨params, body⟩
    · exact (hsource h).bind fun _ _ h => .ok (.accumulate fn ty (.inr he.self) h)
    · refine (hsource (h.mono (List.subset_append_left _ _))).bind fun _ _ hsource => ?_
      have hinner := (h.mono (List.subset_append_right _ _)).enter_renamed hM r he.self
        (.some hsource)
      refine hinner.bind fun inner inner' hscope => ?_
      exact (ihb params body rfl (he.part (by simp [parts])) inner inner' hscope).bind
        fun _ _ hbody => .ok (.accumulateOf fn params ty hsource hbody)
  | field path decoder ty => exact fun _ _ _ => .ok he.self
  | document inner path decoder => exact fun _ _ _ => .ok he.self

theorem bind_moved {R : Path → Path → Prop} (hR : Path.Steady R) (r : Decoders) (e : Expr) :
    ∀ s s' : Scope, s.MovedOn (.ofPlaces R) e.free s' →
      Lifted (Moved (.ofPlaces R)) (e.bind r s) (e.bind r s') := by
  intro s s' h
  have hmoved := bind_renamed hR.relocation r (fits_ofPlaces hR e) s s' h
  rwa [show (Relocation.ofPlaces R).name = id from rfl, rename_id] at hmoved

/-- Binding depends on the scope at the names that the expression takes from it, and the group. -/
theorem bind_congr (r : Decoders) {e : Expr} (hlookup : ∀ n ∈ e.free, s.lookup n = s'.lookup n)
    (hgroup : s.group = s'.group) : e.bind r s = e.bind r s' := by
  have hR : Path.Steady Eq := ⟨fun _ => rfl, fun name h => by rw [h]⟩
  have hself := Scope.MovedOn.refl hR s' e.free
  have hs : s.MovedOn (.ofPlaces Eq) e.free s' := by
    refine ⟨fun n hn => ?_, fun _ hclosed => absurd hclosed List.not_mem_nil, ?_⟩
    · rw [hlookup n hn]
      exact hself.lookup n hn
    · rw [hgroup]
      exact hself.group
  exact (bind_moved hR r e s s' hs).eq fun _ _ h => h.eq_of_moved

end Expr

end QueryStage
