import QueryStage.Proofs.BindingInvariant
import QueryStage.Proofs.BindingOrigins

/-!
# Sites of binding

The subexpressions that binding comes to, each in the scope that it is bound in and below the
parameters of the lambdas around it. A lambda is entered, so that its body is bound with the one
parameter ranging over elements, if it is written as an argument of a call or as a selector. The
parameters of all other lambdas are declared as well, but the scope does not change for them.
-/

namespace QueryStage

theorem Scope.enter_document_cases {ds : Decoders} {s inner : Scope} {params : List Parameter}
    {source : Option Expr} (h : s.enter ds params source = .ok inner) :
    (inner = s ∧ params.length ≠ 1) ∨ ∃ q, params = [q] ∧ (inner = s.hide q.name ∨
      ∃ path d, inner = s.bind q.name (.document (.parameter q) path d)) := by
  rcases params with _ | ⟨q, _ | ⟨q', params⟩⟩
  · cases h
    exact .inl ⟨rfl, by simp⟩
  · refine .inr ⟨q, rfl, ?_⟩
    cases source with
    | none =>
      cases h
      exact .inl rfl
    | some source =>
      obtain ⟨element, helement, h⟩ := bind_eq_ok_iff.mp h
      cases element with
      | none =>
        cases h
        exact .inl rfl
      | some e =>
        cases h
        obtain ⟨path, d, rfl⟩ := Expr.document_of_element? helement
        exact .inr ⟨path, d, rfl⟩
  · cases h
    exact .inl ⟨rfl, by simp⟩

namespace Expr

/-- An argument or, for a lambda, its body below its parameters. -/
def argumentSite : Expr → List Parameter × Expr
  | lambda fn => (fn.params, fn.body)
  | e => ([], e)

/-- What is directly below an expression, with the parameters that are declared on the way. -/
def partSites : Expr → List (List Parameter × Expr)
  | lambda fn => [(fn.params, fn.body)]
  | call receiver _ _ args _ => receiver.toList.map (([], ·)) ++ args.map argumentSite
  | accumulate _ source selector _ =>
    ([], source) :: selector.toList.map fun fn => (fn.params, fn.body)
  | e => e.parts.map (([], ·))

mutual

/-- The expression and all that is below it, each with the parameters of the lambdas around it, the
nearest ones first. -/
def sites (around : List Parameter) : Expr → List (List Parameter × Expr)
  | literal value ty => [(around, literal value ty)]
  | parameter p => [(around, parameter p)]
  | member target name declaring ty =>
    (around, member target name declaring ty) :: target.sites around
  | binary op left right ty =>
    (around, binary op left right ty) :: (left.sites around ++ right.sites around)
  | unary op operand ty => (around, unary op operand ty) :: operand.sites around
  | conditional test ifTrue ifFalse ty =>
    (around, conditional test ifTrue ifFalse ty) ::
      (test.sites around ++ (ifTrue.sites around ++ ifFalse.sites around))
  | call none method declaring args ty =>
    (around, call none method declaring args ty) :: argumentSites around args
  | call (some receiver) method declaring args ty =>
    (around, call (some receiver) method declaring args ty) ::
      (receiver.sites around ++ argumentSites around args)
  | lambda ⟨params, body⟩ => (around, lambda ⟨params, body⟩) :: body.sites (params ++ around)
  | construct ty parameters args members =>
    (around, construct ty parameters args members) :: sitesAll around args
  | accumulate fn source none ty => (around, accumulate fn source none ty) :: source.sites around
  | accumulate fn source (some ⟨params, body⟩) ty =>
    (around, accumulate fn source (some ⟨params, body⟩) ty) ::
      (source.sites around ++ body.sites (params ++ around))
  | field path decoder ty => [(around, field path decoder ty)]
  | document inner path decoder => (around, document inner path decoder) :: inner.sites around

def sitesAll (around : List Parameter) : List Expr → List (List Parameter × Expr)
  | [] => []
  | e :: es => e.sites around ++ sitesAll around es

def argumentSites (around : List Parameter) : List Expr → List (List Parameter × Expr)
  | [] => []
  | lambda ⟨params, body⟩ :: es => body.sites (params ++ around) ++ argumentSites around es
  | e :: es => e.sites around ++ argumentSites around es

end

section Sites

variable {around : List Parameter} {e e' : Expr}

private theorem sitesAll_eq_flatMap (es : List Expr) :
    sitesAll around es = es.flatMap (sites around) := by
  induction es with
  | nil => rfl
  | cons e es ih => simp [sitesAll, ih]

private theorem argumentSites_eq_flatMap (es : List Expr) :
    argumentSites around es =
      (es.map argumentSite).flatMap fun site => site.2.sites (site.1 ++ around) := by
  induction es with
  | nil => rfl
  | cons e es ih =>
    rcases lambda_or_kind_ne e with ⟨params, body, rfl⟩ | hkind
    · simp [argumentSites, argumentSite, ih]
    · cases e with
      | lambda fn => exact absurd rfl hkind
      | _ => simp [argumentSites, argumentSite, ih]

theorem sites_eq (around : List Parameter) (e : Expr) :
    e.sites around =
      (around, e) :: e.partSites.flatMap fun site => site.2.sites (site.1 ++ around) := by
  cases e with
  | call receiver =>
    cases receiver <;> simp [sites, partSites, argumentSites_eq_flatMap, List.flatMap_map]
  | lambda fn => obtain ⟨params, body⟩ := fn; simp [sites, partSites]
  | construct => simp [sites, partSites, parts, sitesAll_eq_flatMap, List.flatMap_map]
  | accumulate fn source selector =>
    rcases selector with _ | ⟨params, body⟩ <;> simp [sites, partSites]
  | _ => simp [sites, partSites, parts]

theorem self_mem_sites (around : List Parameter) (e : Expr) : (around, e) ∈ e.sites around := by
  rw [sites_eq]
  exact List.mem_cons_self

private theorem exists_part_of_partSites {site : List Parameter × Expr} (h : site ∈ e.partSites) :
    ∃ part ∈ e.parts, site.2 ∈ part.nodes := by
  cases e with
  | lambda fn =>
    rw [List.mem_singleton.mp h]
    exact ⟨fn.body, List.mem_singleton_self _, self_mem_nodes _⟩
  | call receiver method declaring args =>
    rcases List.mem_append.mp h with h | h
    · obtain ⟨receiver, hreceiver, rfl⟩ := List.mem_map.mp h
      exact ⟨receiver, List.mem_append_left _ hreceiver, self_mem_nodes _⟩
    · obtain ⟨a, ha, rfl⟩ := List.mem_map.mp h
      refine ⟨a, List.mem_append_right _ ha, ?_⟩
      cases a with
      | lambda fn => exact body_mem_nodes fn
      | _ => exact self_mem_nodes _
  | accumulate fn source selector =>
    rcases List.mem_cons.mp h with rfl | h
    · exact ⟨source, List.mem_cons_self, self_mem_nodes _⟩
    · obtain ⟨selector, hselector, rfl⟩ := List.mem_map.mp h
      cases Option.mem_toList.mp hselector
      exact ⟨selector.body, by simp [parts], self_mem_nodes _⟩
  | _ =>
    obtain ⟨part, hpart, rfl⟩ := List.mem_map.mp h
    exact ⟨part, hpart, self_mem_nodes _⟩

theorem mem_sites_of_partSites {site : List Parameter × Expr} (h : site ∈ e.partSites) :
    (site.1 ++ around, site.2) ∈ e.sites around := by
  rw [sites_eq]
  exact List.mem_cons_of_mem _ (List.mem_flatMap.mpr ⟨site, h, self_mem_sites _ _⟩)

theorem sites_subset {ps : List Parameter} (h : (ps, e') ∈ e.sites around) :
    e'.sites ps ⊆ e.sites around := by
  induction e using induct_nodes generalizing around with
  | step e ih =>
    rw [sites_eq] at h
    rcases List.mem_cons.mp h with h | h
    · cases h
      exact List.Subset.refl _
    · obtain ⟨site, hsite, h⟩ := List.mem_flatMap.mp h
      obtain ⟨part, hpart, hnode⟩ := exists_part_of_partSites hsite
      have hbelow : site.2.sites (site.1 ++ around) ⊆ e.sites around := by
        rw [sites_eq around e]
        exact fun x hx => List.mem_cons_of_mem _ (List.mem_flatMap.mpr ⟨site, hsite, hx⟩)
      exact List.Subset.trans (ih part hpart site.2 hnode h) hbelow

end Sites

/-- Operators, conditionals and constructions, whose parts are all bound in the same scope. -/
def isUniform (e : Expr) : Bool :=
  match e.kind with
  | .binary _ | .unary _ | .conditional | .construction => true
  | _ => false

/-- An argument of a call, with the items that it ranges over if it is a lambda. -/
inductive Ranging (ds : Decoders) (s : Scope) : Option Expr → List Expr → Option Expr → Expr → Prop
  | on {receiver items a : Expr} {args : List Expr} (hreceiver : receiver.bind ds s = .ok items)
    (h : a ∈ args) : Ranging ds s (some receiver) args (some items) a
  | first (a : Expr) (args : List Expr) : Ranging ds s none (a :: args) none a
  | after {first items a : Expr} {args : List Expr} (hfirst : BoundArg ds s none first items)
    (h : a ∈ args) : Ranging ds s none (first :: args) (some items) a

/-- Binding an expression in a scope binds another one directly below it, in its own scope and below
the parameters that are declared in between. -/
inductive BindsPart (ds : Decoders) : Scope → Expr → Scope → List Parameter → Expr → Prop
  | operand {s : Scope} {e part : Expr} (huniform : e.isUniform = true) (h : part ∈ e.parts) :
    BindsPart ds s e s [] part
  | target {s : Scope} {target : Expr} {name : String} {declaring ty : Ty}
    (h : s.key? target name = none) :
    BindsPart ds s (member target name declaring ty) s [] target
  | body (s : Scope) (fn : Lambda) : BindsPart ds s (lambda fn) s fn.params fn.body
  | receiver {s : Scope} {receiver : Expr} {method : String} {declaring : Ty} {args : List Expr}
    {ty : Ty} : BindsPart ds s (call (some receiver) method declaring args ty) s [] receiver
  | argument {s : Scope} {receiver : Option Expr} {method : String} {declaring : Ty}
    {args : List Expr} {ty : Ty} {a : Expr} (h : a ∈ args) (hkind : a.kind ≠ .lambda) :
    BindsPart ds s (call receiver method declaring args ty) s [] a
  | each {s inner : Scope} {receiver source : Option Expr} {method : String} {declaring : Ty}
    {args : List Expr} {ty : Ty} {fn : Lambda}
    (hranging : Ranging ds s receiver args source (lambda fn))
    (henter : s.enter ds fn.params source = .ok inner) :
    BindsPart ds s (call receiver method declaring args ty) inner fn.params fn.body
  | source {s : Scope} {fn : AccumulatorFn} {source : Expr} {selector : Option Lambda} {ty : Ty} :
    BindsPart ds s (accumulate fn source selector ty) s [] source
  | selector {s inner : Scope} {fn : AccumulatorFn} {source items : Expr} {selector : Lambda}
    {ty : Ty} (hsource : source.bind ds s = .ok items)
    (henter : s.enter ds selector.params (some items) = .ok inner) :
    BindsPart ds s (accumulate fn source (some selector) ty) inner selector.params selector.body

/-- Binding `e₀` in `s₀` comes to bind an expression in a scope, below these parameters. -/
inductive BindsAt (ds : Decoders) (s₀ : Scope) (e₀ : Expr) : Scope → List Parameter → Expr → Prop
  | here : BindsAt ds s₀ e₀ s₀ [] e₀
  | step {s s' : Scope} {ps qs : List Parameter} {e e' : Expr} (h : BindsAt ds s₀ e₀ s ps e)
    (hpart : BindsPart ds s e s' qs e') : BindsAt ds s₀ e₀ s' (qs ++ ps) e'

/-- The lambdas directly below an expression for which the scope does not change. -/
def unentered : Expr → List Lambda
  | lambda fn => [fn]
  | call _ _ _ args _ => args.filterMap many?
  | accumulate _ _ selector _ => (selector.filter fun fn => fn.params.length ≠ 1).toList
  | _ => []
where
  many? : Expr → Option Lambda
    | lambda fn => if fn.params.length = 1 then none else some fn
    | _ => none

section Steps

variable {ds : Decoders} {s₀ s s' : Scope} {e₀ e e' : Expr} {ps qs : List Parameter}

theorem Ranging.mem {receiver source : Option Expr} {args : List Expr} {a : Expr}
    (h : Ranging ds s receiver args source a) : a ∈ args := by
  cases h with
  | on _ h => exact h
  | first => exact List.mem_cons_self
  | after _ h => exact List.mem_cons_of_mem _ h

theorem BindsPart.mem_partSites (h : BindsPart ds s e s' qs e') : (qs, e') ∈ e.partSites := by
  cases h with
  | operand huniform h =>
    cases e with
    | binary | unary | conditional | construct => exact List.mem_map_of_mem h
    | _ => cases huniform
  | target => exact List.mem_singleton_self _
  | body => exact List.mem_singleton_self _
  | receiver => exact List.mem_cons_self
  | argument h hkind =>
    refine List.mem_append_right _ (List.mem_map.mpr ⟨e', h, ?_⟩)
    cases e' with
    | lambda => exact absurd rfl hkind
    | _ => rfl
  | each hranging =>
    exact List.mem_append_right _ (List.mem_map.mpr ⟨_, hranging.mem, rfl⟩)
  | source => exact List.mem_cons_self
  | selector => exact List.mem_cons_of_mem _ (List.mem_singleton_self _)

theorem BindsAt.mem_sites (h : BindsAt ds s₀ e₀ s ps e) : (ps, e) ∈ e₀.sites [] := by
  induction h with
  | here => exact self_mem_sites [] e₀
  | step _ hpart ih => exact sites_subset ih (mem_sites_of_partSites hpart.mem_partSites)

theorem BindsAt.mem_nodes (h : BindsAt ds s₀ e₀ s ps e) : e ∈ e₀.nodes := by
  induction h with
  | here => exact self_mem_nodes e₀
  | step _ hpart ih =>
    obtain ⟨part, hmem, hnode⟩ := exists_part_of_partSites hpart.mem_partSites
    exact mem_nodes_trans ih (mem_nodes_of_part hmem hnode)

theorem BindsPart.scope_cases (h : BindsPart ds s e s' qs e') :
    (s' = s ∧ (qs = [] ∨ ∃ fn ∈ e.unentered, fn.params = qs)) ∨
      ∃ q, qs = [q] ∧ (s' = s.hide q.name ∨
        ∃ path d, s' = s.bind q.name (document (parameter q) path d)) := by
  cases h with
  | operand | target | receiver | argument | source => exact .inl ⟨rfl, .inl rfl⟩
  | body fn => exact .inl ⟨rfl, .inr ⟨fn, List.mem_singleton_self fn, rfl⟩⟩
  | each hranging henter =>
    rcases Scope.enter_document_cases henter with ⟨rfl, hmany⟩ | hone
    · refine .inl ⟨rfl, .inr ⟨_, ?_, rfl⟩⟩
      exact List.mem_filterMap.mpr ⟨_, hranging.mem, if_neg hmany⟩
    · exact .inr hone
  | selector _ henter =>
    rcases Scope.enter_document_cases henter with ⟨rfl, hmany⟩ | hone
    · exact .inl ⟨rfl, .inr ⟨_, by simp [unentered, hmany], rfl⟩⟩
    · exact .inr hone

theorem BindsAt.group (h : BindsAt ds s₀ e₀ s ps e) : s.group = s₀.group := by
  induction h with
  | here => rfl
  | step _ hpart ih =>
    rcases hpart.scope_cases with ⟨rfl, -⟩ | ⟨q, -, rfl | ⟨path, d, rfl⟩⟩ <;> exact ih

end Steps

end Expr

/-- The nearest of the parameters around that has this name. -/
def Parameter.nearest? (x : String) (around : List Parameter) : Option Parameter :=
  around.find? (·.name = x)

theorem Parameter.of_nearest? {x : String} {around : List Parameter} {q : Parameter}
    (h : nearest? x around = some q) : q ∈ around ∧ q.name = x :=
  ⟨List.mem_of_find?_eq_some h, by simpa using List.find?_some h⟩

theorem Parameter.exists_nearest? {around : List Parameter} {q : Parameter} (h : q ∈ around) :
    ∃ d, nearest? q.name around = some d :=
  Option.isSome_iff_exists.mp (List.find?_isSome.mpr ⟨q, h, by simp⟩)

namespace Scope

theorem key?_congr {s s' : Scope} (hgroup : s'.group = s.group) (target : Expr) (name : String) :
    s'.key? target name = s.key? target name := by
  rw [key?, key?, hgroup, isGrouping_congr hgroup]

/-- Every name stands for a document, of a parameter that is right for the name. -/
def StandsFor (s : Scope) (right : String → Parameter → Prop) : Prop :=
  ∀ x b, s.lookup x = some b → ∃ q path d, right x q ∧ b = .document (.parameter q) path d

variable {s : Scope} {right right' : String → Parameter → Prop}

theorem StandsFor.mono (h : s.StandsFor right) (himp : ∀ x q, right x q → right' x q) :
    s.StandsFor right' := by
  intro x b hx
  obtain ⟨q, path, d, hq, rfl⟩ := h x b hx
  exact ⟨q, path, d, himp x q hq, rfl⟩

theorem StandsFor.hide {name : String} (h : s.StandsFor right)
    (himp : ∀ x q, x ≠ name → right x q → right' x q) : (s.hide name).StandsFor right' := by
  intro x b hx
  by_cases hname : x = name
  · rw [hname, lookup_hide_self] at hx
    cases hx
  · rw [lookup_hide_of_ne s hname] at hx
    obtain ⟨q, path, d, hq, rfl⟩ := h x b hx
    exact ⟨q, path, d, himp x q hname hq, rfl⟩

theorem StandsFor.bind {q : Parameter} {path : Option Path} {d : Decoder} (h : s.StandsFor right)
    (hq : right' q.name q) (himp : ∀ x q', x ≠ q.name → right x q' → right' x q') :
    (s.bind q.name (.document (.parameter q) path d)).StandsFor right' := by
  intro x b hx
  by_cases hname : x = q.name
  · rw [hname, lookup_bind_self] at hx
    cases hx
    exact ⟨q, path, d, hname ▸ hq, rfl⟩
  · rw [lookup_bind_of_ne s hname] at hx
    obtain ⟨q', path', d', hq', rfl⟩ := h x b hx
    exact ⟨q', path', d', himp x q' hname hq', rfl⟩

end Scope

namespace Expr

variable {ds : Decoders} {s₀ s : Scope} {e₀ e : Expr} {ps outer : List Parameter}

/-- Names stand for parameters that are declared around. -/
theorem BindsAt.standsFor (hs : s₀.StandsFor fun x q => q.name = x ∧ q ∈ outer)
    (h : BindsAt ds s₀ e₀ s ps e) : s.StandsFor fun x q => q.name = x ∧ q ∈ ps ++ outer := by
  induction h with
  | here => exact hs
  | @step _ _ ps qs _ _ _ hpart ih =>
    have outward (x : String) (q : Parameter) (h : q.name = x ∧ q ∈ ps ++ outer) :
        q.name = x ∧ q ∈ (qs ++ ps) ++ outer := by
      rw [List.append_assoc]
      exact ⟨h.1, List.mem_append_right qs h.2⟩
    rcases hpart.scope_cases with ⟨rfl, -⟩ | ⟨q, rfl, rfl | ⟨path, d, rfl⟩⟩
    · exact ih.mono outward
    · exact ih.hide fun x q _ => outward x q
    · exact ih.bind ⟨rfl, List.mem_cons_self⟩ fun x q _ => outward x q

/-- A lambda that is not entered declares a name that is declared around it. -/
def Redeclares (outer : List Parameter) (e₀ : Expr) : Prop :=
  ∃ site ∈ e₀.sites [], ∃ fn ∈ site.2.unentered, ∃ q ∈ fn.params,
    q.name ∈ (site.1 ++ outer).map Parameter.name

instance (outer : List Parameter) (e₀ : Expr) : Decidable (Redeclares outer e₀) :=
  inferInstanceAs (Decidable (∃ site ∈ e₀.sites [], _))

/-- Names stand for the nearest parameters if every lambda that declares a name again is entered. -/
theorem BindsAt.standsFor_nearest
    (hs : s₀.StandsFor fun x q => Parameter.nearest? x outer = some q)
    (hapart : ¬ Redeclares outer e₀) (h : BindsAt ds s₀ e₀ s ps e) :
    s.StandsFor fun x q => Parameter.nearest? x (ps ++ outer) = some q := by
  induction h with
  | here => exact hs
  | @step _ _ ps qs e _ h hpart ih =>
    have outward (x : String) (q : Parameter) (hqs : ∀ r ∈ qs, r.name ≠ x)
        (hq : Parameter.nearest? x (ps ++ outer) = some q) :
        Parameter.nearest? x ((qs ++ ps) ++ outer) = some q := by
      have hnone : qs.find? (·.name = x) = none := List.find?_eq_none.mpr (by simpa using hqs)
      rw [Parameter.nearest?, List.append_assoc, List.find?_append, hnone]
      exact hq
    rcases hpart.scope_cases with ⟨rfl, hqs⟩ | ⟨q, rfl, rfl | ⟨path, d, rfl⟩⟩
    · refine ih.mono fun x q hq => outward x q (fun r hr hname => ?_) hq
      rcases hqs with rfl | ⟨fn, hfn, rfl⟩
      · cases hr
      · have hmem : r.name ∈ (ps ++ outer).map Parameter.name := by
          obtain ⟨hmem, rfl⟩ := Parameter.of_nearest? hq
          exact hname ▸ List.mem_map_of_mem hmem
        exact hapart ⟨(ps, e), h.mem_sites, fn, hfn, r, hr, hmem⟩
    · exact ih.hide fun x r hx => outward x r (by simpa using Ne.symm hx)
    · exact ih.bind (by simp [Parameter.nearest?]) fun x r hx =>
        outward x r (by simpa using hx.symm)

end Expr

end QueryStage
