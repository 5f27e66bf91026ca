import QueryStage.Proofs.BindingSteps
import QueryStage.Proofs.Nodes

/-!
# Invariants of binding

Binding makes new nodes only where it resolves a member, ranges over elements or accumulates, and
rebuilds the others. A property of nodes that these steps preserve, and that every node of an
expression has, holds of all nodes of the bound expression. Written expressions have it if it is one
of bound nodes only.
-/

namespace QueryStage

namespace Expr

/-- Whether an expression has this form before binding: it is no bound node and no accumulator. -/
def isWritten (e : Expr) : Bool :=
  match e.kind with
  | .accumulator | .field | .document => false
  | _ => true

/-- A property of all nodes of an expression. -/
def All (I : Expr → Prop) (e : Expr) : Prop := ∀ n ∈ e.nodes, I n

instance {I : Expr → Prop} [DecidablePred I] (e : Expr) : Decidable (e.All I) :=
  inferInstanceAs (Decidable (∀ n ∈ e.nodes, I n))

/-- An expression as it is written, without bound nodes and accumulators. -/
def Written (e : Expr) : Prop := e.All fun n => n.isWritten = true

instance (e : Expr) : Decidable e.Written :=
  inferInstanceAs (Decidable (e.All fun n => n.isWritten = true))

def isUnbound (e : Expr) : Bool :=
  match e.kind with
  | .field | .document => false
  | _ => true

/-- An expression without bound nodes, which may hold accumulators. -/
def Unbound (e : Expr) : Prop := e.All fun n => n.isUnbound = true

instance (e : Expr) : Decidable e.Unbound :=
  inferInstanceAs (Decidable (e.All fun n => n.isUnbound = true))

variable {I : Expr → Prop} {e : Expr}

theorem all_iff : e.All I ↔ I e ∧ ∀ part ∈ e.parts, part.All I := by
  constructor
  · intro h
    exact ⟨h e (self_mem_nodes e), fun part hpart n hn => h n (mem_nodes_of_part hpart hn)⟩
  · rintro ⟨hself, hparts⟩ n hn
    rcases mem_nodes_iff.mp hn with rfl | ⟨part, hpart, hn⟩
    · exact hself
    · exact hparts part hpart n hn

theorem All.self (h : e.All I) : I e := (all_iff.mp h).1

theorem All.part (h : e.All I) {part : Expr} (hpart : part ∈ e.parts) : part.All I :=
  (all_iff.mp h).2 part hpart

theorem All.below (h : e.All I) {n : Expr} (hn : n ∈ e.nodes) : n.All I :=
  fun m hm => h m (mem_nodes_trans hn hm)

theorem all_of_parts_eq_nil (h : e.parts = []) (hself : I e) : e.All I := by
  refine all_iff.mpr ⟨hself, ?_⟩
  rw [h]
  exact List.forall_mem_nil _

theorem written_iff : e.Written ↔ e.isWritten = true ∧ ∀ part ∈ e.parts, part.Written := all_iff

theorem isUnbound_of_isWritten (h : e.isWritten = true) : e.isUnbound = true := by
  cases e with
  | accumulate | field | document => cases h
  | _ => rfl

/-- Whether binding binds the parts of an expression in its own scope and changes nothing else. -/
def isPlain (e : Expr) : Bool :=
  match e.kind with
  | .parameter | .memberAccess | .call | .lambda => false
  | _ => true

theorem forall₂_parts_of_bind {ds : Decoders} {s : Scope} {b : Expr} (hplain : e.isPlain = true)
    (he : e.isWritten = true) (h : e.bind ds s = .ok b) :
    b.kind = e.kind ∧
      List.Forall₂ (fun part part' => part.bind ds s = .ok part') e.parts b.parts := by
  cases e with
  | literal =>
    cases h
    exact ⟨rfl, .nil⟩
  | binary =>
    simp only [bind, bind_eq_ok_iff, pure_eq_ok, Except.ok.injEq] at h
    obtain ⟨left', hl, right', hr, rfl⟩ := h
    exact ⟨rfl, .cons hl (.cons hr .nil)⟩
  | unary =>
    simp only [bind, bind_eq_ok_iff, pure_eq_ok, Except.ok.injEq] at h
    obtain ⟨operand', h, rfl⟩ := h
    exact ⟨rfl, .cons h .nil⟩
  | conditional =>
    simp only [bind, bind_eq_ok_iff, pure_eq_ok, Except.ok.injEq] at h
    obtain ⟨test', ht, ifTrue', ha, ifFalse', hb, rfl⟩ := h
    exact ⟨rfl, .cons ht (.cons ha (.cons hb .nil))⟩
  | construct =>
    obtain ⟨args', hargs, rfl⟩ := bind_construct_cases h
    exact ⟨rfl, hargs⟩
  | parameter | member | call | lambda => cases hplain
  | accumulate | field | document => cases he

/-- A property that holds of written nodes, and of what members and elements are made of. -/
structure Invariant (ds : Decoders) (I : Expr → Prop) : Prop where
  written : ∀ {n : Expr}, n.isWritten = true → I n
  resolve : ∀ {e b : Expr} {name : String} {ty : Ty},
    e.All I → e.resolve? name ty = some b → b.All I
  element : ∀ {source b : Expr} {p : Parameter},
    source.All I → source.element? ds p = .ok (some b) → b.All I

/-- A property that binding keeps. Of the nodes that it makes or rebuilds, constructions have it as
long as they had it before. -/
structure Persistent (ds : Decoders) (I : Expr → Prop) : Prop where
  made : ∀ {n : Expr}, n.isWritten = true → n.isConstruction = false → I n
  rebuilt : ∀ {ty : Ty} {parameters : List String} {args args' : List Expr}
    {members : Option (List String)},
    I (construct ty parameters args members) → I (construct ty parameters args' members)
  resolve : ∀ {e b : Expr} {name : String} {ty : Ty},
    e.All I → e.resolve? name ty = some b → b.All I
  element : ∀ {source b : Expr} {p : Parameter},
    source.All I → source.element? ds p = .ok (some b) → b.All I

theorem Invariant.persistent {ds : Decoders} (h : Invariant ds I) : Persistent ds I where
  made hn _ := h.written hn
  rebuilt _ := h.written rfl
  resolve := h.resolve
  element := h.element

/-- Accumulators have the property, or do not have it and are not made. -/
def Admits (I : Expr → Prop) (group : Option GroupScope) : Prop :=
  (∀ fn source selector ty, I (accumulate fn source selector ty)) ∨
    group = none ∧ ∀ fn source selector ty, ¬ I (accumulate fn source selector ty)

end Expr

/-- Everything that a scope stands for has the property at all its nodes. -/
structure Scope.All (I : Expr → Prop) (s : Scope) : Prop where
  lookup : ∀ {name : String} {e : Expr}, s.lookup name = some e → e.All I
  group : ∀ {g : GroupScope}, s.group = some g → g.key.All I

namespace Scope.All

variable {I : Expr → Prop} {s : Scope}

theorem hide (h : s.All I) (name : String) : (s.hide name).All I := by
  exact ⟨fun he => h.lookup (lookup_hide_cases he), h.group⟩

theorem bind (h : s.All I) (name : String) {e : Expr} (he : e.All I) :
    (s.bind name e).All I := by
  refine ⟨fun {n e'} he' => ?_, h.group⟩
  rcases lookup_bind_cases he' with ⟨-, rfl⟩ | he'
  · exact he
  · exact h.lookup he'

theorem enter {ds : Decoders} (hI : Expr.Persistent ds I) (h : s.All I) {params : List Parameter}
    {source : Option Expr} (hsource : ∀ items, source = some items → items.All I) {inner : Scope}
    (henter : s.enter ds params source = .ok inner) : inner.All I := by
  rcases enter_cases henter with rfl | ⟨p, -, rfl⟩ | ⟨p, items, e, -, hitems, helement, rfl⟩
  · exact h
  · exact h.hide p.name
  · exact h.bind p.name (hI.element (hsource items hitems) helement)

end Scope.All

namespace Expr

variable {ds : Decoders} {I : Expr → Prop} {s : Scope}

theorem nodes_of_counting {ty : Ty} {fn : Option Lambda} {n : Expr}
    (hn : n ∈ (grouped?.counting ty fn).body.nodes) :
    (n.kind = .literal ∨ n.kind = .conditional) ∨ ∃ f, fn = some f ∧ n ∈ f.body.nodes := by
  rcases fn with _ | ⟨params, test⟩
  · simp only [grouped?.counting, countOf, nodes, List.mem_singleton] at hn
    exact .inl (.inl (hn ▸ rfl))
  · simp only [grouped?.counting, countOf, nodes, List.mem_cons, List.mem_append,
      List.not_mem_nil, or_false] at hn
    rcases hn with rfl | hn | rfl | rfl
    · exact .inl (.inr rfl)
    · exact .inr ⟨_, rfl, hn⟩
    · exact .inl (.inl rfl)
    · exact .inl (.inl rfl)

theorem nodes_of_accumulator? {method : String} {declaring : Ty} {args : List Expr} {ty : Ty}
    {e n : Expr} (h : s.accumulator? method declaring args ty = some e) (hn : n ∈ e.nodes) :
    n = e ∨ (n.kind = .literal ∨ n.kind = .conditional) ∨ ∃ a ∈ args, n ∈ a.nodes := by
  rcases mem_nodes_iff.mp hn with rfl | ⟨part, hpart, hbelow⟩
  · exact .inl rfl
  refine .inr ?_
  rcases (accumulator?_cases h).2 with
    ⟨fn, source, selector, ty', rfl, rfl⟩ | ⟨source, fn, acc, counts, hgrouping, -, rfl⟩
  · have harg : n ∈ (accumulate .push source selector ty').nodes := mem_nodes_of_part hpart hbelow
    exact .inr ⟨_, by simp, harg⟩
  · have hsource : source ∈ args := by cases hgrouping <;> simp
    have hbody {f : Lambda} (hf : fn = some f) (hmem : n ∈ f.body.nodes) :
        ∃ a ∈ args, n ∈ a.nodes := by
      subst hf
      cases hgrouping
      exact ⟨lambda f, by simp, mem_nodes_of_part (List.mem_singleton.mpr rfl) hmem⟩
    rcases List.mem_cons.mp hpart with rfl | hpart
    · exact .inr ⟨_, hsource, hbelow⟩
    · obtain ⟨f, hf, rfl⟩ := Option.map_eq_some_iff.mp (Option.mem_toList.mp hpart)
      cases counts with
      | false => exact .inr (hbody hf hbelow)
      | true =>
        cases hf
        rcases nodes_of_counting hbelow with hcount | ⟨f, hf, hmem⟩
        · exact .inl hcount
        · exact .inr (hbody hf hmem)

private theorem admits_of_accumulator? {method : String} {declaring : Ty} {args : List Expr}
    {ty : Ty} {e : Expr} (hgroup : Admits I s.group)
    (h : s.accumulator? method declaring args ty = some e) : I e := by
  have hkind := kind_of_accumulator? h
  rcases hgroup with hacc | ⟨hnone, -⟩
  · cases e with
    | accumulate fn source selector ty => exact hacc fn source selector ty
    | _ => cases hkind
  · have hsome := (accumulator?_cases h).1
    rw [hnone] at hsome
    cases hsome

private theorem all_of_bindMember (hI : Persistent ds I) {group : Option GroupScope}
    (hgroup : Admits I group) {target b : Expr} {name : String} {declaring ty : Ty}
    (htarget : target.All I) (h : bindMember ds target name declaring ty = .ok b) : b.All I := by
  rcases bindMember_cases h with hresolve | rfl | ⟨fn, source, ty', item, body, rfl, helement,
    hbody, rfl⟩
  · exact hI.resolve htarget hresolve
  · exact all_iff.mpr ⟨hI.made rfl rfl, by simpa [parts] using htarget⟩
  · have hsource : source.All I := htarget.part (by simp [parts])
    have hself : I (accumulate fn source (some ⟨[], body⟩) ty) := by
      rcases hgroup with hacc | ⟨-, hacc⟩
      · exact hacc _ _ _ _
      · exact absurd htarget.self (hacc _ _ _ _)
    have hselector := hI.resolve (hI.element hsource helement) hbody
    exact all_iff.mpr ⟨hself, by simpa [parts] using ⟨hsource, hselector⟩⟩

private theorem all_of_boundArg (hI : Persistent ds I) (hs : s.All I) (hgroup : Admits I s.group)
    {source : Option Expr} (hsource : ∀ items, source = some items → items.All I) {e b : Expr}
    (h : BoundArg ds s source e b)
    (ih : ∀ b, e.bind ds s = .ok b → b.All I)
    (ihb : ∀ params body, e = lambda ⟨params, body⟩ → ∀ s b, s.All I → Admits I s.group →
      body.bind ds s = .ok b → b.All I) : b.All I := by
  cases h with
  | operand _ h => exact ih b h
  | @each inner params body b henter h =>
    have hinner := hs.enter hI hsource henter
    have hadmits : Admits I inner.group := Scope.group_of_enter henter ▸ hgroup
    have hbody := ihb params body rfl inner b hinner hadmits h
    exact all_iff.mpr ⟨hI.made rfl rfl, by simpa [parts] using hbody⟩

private theorem all_of_boundArgs (hI : Persistent ds I) (hs : s.All I) (hgroup : Admits I s.group)
    {receiver : Option Expr} (hreceiver : ∀ items, receiver = some items → items.All I)
    {es bs : List Expr} (h : BoundArgs ds s receiver es bs)
    (ih : ∀ e ∈ es, ∀ b, e.bind ds s = .ok b → b.All I)
    (ihb : ∀ params body, lambda ⟨params, body⟩ ∈ es → ∀ s b, s.All I → Admits I s.group →
      body.bind ds s = .ok b → b.All I) : ∀ b ∈ bs, b.All I := by
  have arg {source : Option Expr} (hsource : ∀ items, source = some items → items.All I) (e : Expr)
      (he : e ∈ es) (b : Expr) (hb : BoundArg ds s source e b) : b.All I :=
    all_of_boundArg hI hs hgroup hsource hb (ih e he)
      fun params body heq => ihb params body (heq ▸ he)
  intro b hb
  cases h with
  | on h =>
    obtain ⟨e, he, heb⟩ := exists_of_forall₂ h hb
    exact arg hreceiver e he b heb
  | nil => cases hb
  | @cons first b₀ es bs hfirst h =>
    have hb₀ := arg hreceiver first (by simp) b₀ hfirst
    rcases List.mem_cons.mp hb with rfl | hb
    · exact hb₀
    · obtain ⟨e, he, heb⟩ := exists_of_forall₂ h hb
      have he' := List.mem_cons_of_mem first he
      exact arg (fun items hitems => Option.some.inj hitems ▸ hb₀) e he' b heb

private theorem all_of_bind_call (hI : Persistent ds I) (hs : s.All I) (hgroup : Admits I s.group)
    {receiver : Option Expr} {method : String} {declaring ty : Ty} {args : List Expr} {b : Expr}
    (ihr : ∀ e, receiver = some e → ∀ b, e.bind ds s = .ok b → b.All I)
    (iha : ∀ e ∈ args, ∀ b, e.bind ds s = .ok b → b.All I)
    (ihb : ∀ params body, lambda ⟨params, body⟩ ∈ args → ∀ s b, s.All I → Admits I s.group →
      body.bind ds s = .ok b → b.All I)
    (h : (call receiver method declaring args ty).bind ds s = .ok b) : b.All I := by
  obtain ⟨receiver', args', hreceiver, hargs, h⟩ := bind_call_cases h
  have hreceiver : ∀ items, receiver' = some items → items.All I := by
    rintro items rfl
    cases hreceiver with
    | some h => exact ihr _ rfl items h
  have hargs := all_of_boundArgs hI hs hgroup hreceiver hargs iha ihb
  rcases h with hacc | rfl
  · have hself : I b := admits_of_accumulator? hgroup hacc
    intro n hn
    rcases nodes_of_accumulator? hacc hn with rfl | hcount | ⟨a, ha, hn⟩
    · exact hself
    · refine hI.made ?_ ?_
      · rcases hcount with hkind | hkind <;> rw [isWritten, hkind]
      · rcases hcount with hkind | hkind <;> rw [isConstruction, hkind] <;> rfl
    · exact hargs a ha n hn
  · refine all_iff.mpr ⟨hI.made rfl rfl, fun part hpart => ?_⟩
    rcases List.mem_append.mp hpart with hpart | hpart
    · exact hreceiver part (Option.mem_toList.mp hpart)
    · exact hargs part hpart

private theorem self_of_plain (hI : Persistent ds I) {e b : Expr} (hplain : e.isPlain = true)
    (hwritten : e.isWritten = true) (he : I e) (h : e.bind ds s = .ok b) : I b := by
  cases hconstruct : e.isConstruction with
  | false =>
    have hkind := (forall₂_parts_of_bind hplain hwritten h).1
    refine hI.made ?_ ?_
    · rwa [isWritten, hkind]
    · rwa [isConstruction, hkind]
  | true =>
    cases e with
    | construct ty parameters args members =>
      obtain ⟨args', -, rfl⟩ := bind_construct_cases h
      exact hI.rebuilt he
    | _ => cases hconstruct

private theorem all_of_bind_accumulate (hI : Persistent ds I) (hs : s.All I)
    (hgroup : Admits I s.group) {fn : AccumulatorFn} {source : Expr} {selector : Option Lambda}
    {ty : Ty} {b : Expr}
    (he : I (accumulate fn source selector ty))
    (ihs : ∀ b, source.bind ds s = .ok b → b.All I)
    (ihb : ∀ f, selector = some f → ∀ s b, s.All I → Admits I s.group →
      f.body.bind ds s = .ok b → b.All I)
    (h : (accumulate fn source selector ty).bind ds s = .ok b) : b.All I := by
  have hself (source : Expr) (selector : Option Lambda) : I (accumulate fn source selector ty) := by
    rcases hgroup with hacc | ⟨-, hacc⟩
    · exact hacc _ _ _ _
    · exact absurd he (hacc _ _ _ _)
  obtain ⟨source', hsource, ⟨-, rfl⟩ |
      ⟨params, body, inner, body', hselector, henter, hbody, rfl⟩⟩ := bind_accumulate_cases h
  · exact all_iff.mpr ⟨hself _ _, by simpa [parts] using ihs source' hsource⟩
  · have hsource := ihs source' hsource
    have hinner := hs.enter hI (fun items hitems => Option.some.inj hitems ▸ hsource) henter
    have hadmits : Admits I inner.group := Scope.group_of_enter henter ▸ hgroup
    have hbody := ihb _ hselector inner body' hinner hadmits hbody
    exact all_iff.mpr ⟨hself _ _, by simpa [parts] using ⟨hsource, hbody⟩⟩

/-- What binding keeps, and all nodes of an expression and of its scope have, all nodes of the bound
expression have. -/
theorem Persistent.all_of_bind (hI : Persistent ds I) {e : Expr} (he : e.All I) : ∀ s b, s.All I →
    Admits I s.group → e.bind ds s = .ok b → b.All I := by
  induction e using induct_nodes with
  | step e ih =>
    intro s b hs hgroup h
    have below {part n : Expr} (hpart : part ∈ e.parts) (hn : n ∈ part.nodes) : ∀ s b, s.All I →
        Admits I s.group → n.bind ds s = .ok b → b.All I :=
      ih part hpart n hn (he.below (mem_nodes_of_part hpart hn))
    cases e with
    | parameter p =>
      rcases bind_parameter_cases h with rfl | hlookup
      · exact he
      · exact hs.lookup hlookup
    | member target name declaring ty =>
      rcases bind_member_cases h with hkey | ⟨-, bound, hbound, h⟩
      · obtain ⟨-, -, g, hg, rfl⟩ := Scope.key?_cases hkey
        exact hs.group hg
      · have htarget := below (by simp [parts]) (self_mem_nodes target) s bound hs hgroup hbound
        exact all_of_bindMember hI hgroup htarget h
    | call receiver method declaring args ty =>
      refine all_of_bind_call hI hs hgroup (fun a ha b hb => ?_) (fun a ha b hb => ?_)
        (fun params body hmem => ?_) h
      · exact below (by simp [parts, ha]) (self_mem_nodes a) s b hs hgroup hb
      · exact below (by simp [parts, ha]) (self_mem_nodes a) s b hs hgroup hb
      · exact below (by simp [parts, hmem]) (body_mem_nodes ⟨params, body⟩)
    | lambda fn =>
      obtain ⟨body', hbody, rfl⟩ := bind_lambda_cases h
      have hall := below (by simp [parts]) (self_mem_nodes fn.body) s body' hs hgroup hbody
      exact all_iff.mpr ⟨hI.made rfl rfl, by simpa [parts] using hall⟩
    | accumulate fn source selector ty =>
      refine all_of_bind_accumulate hI hs hgroup he.self (fun b hb => ?_) (fun f hf => ?_) h
      · exact below (by simp [parts]) (self_mem_nodes source) s b hs hgroup hb
      · exact below (by simp [parts, hf]) (self_mem_nodes f.body)
    | field | document =>
      cases h
      exact he
    | literal | binary | unary | conditional | construct =>
      refine all_iff.mpr ⟨self_of_plain hI rfl rfl he.self h, fun part' hpart' => ?_⟩
      obtain ⟨part, hpart, hbound⟩ :=
        exists_of_forall₂ (forall₂_parts_of_bind rfl rfl h).2 hpart'
      exact below hpart (self_mem_nodes part) s part' hs hgroup hbound

theorem all_of_bind (hI : Invariant ds I) {e : Expr} (he : e.Written) : ∀ s b, s.All I →
    Admits I s.group → e.bind ds s = .ok b → b.All I :=
  hI.persistent.all_of_bind fun n hn => hI.written (he n hn)

end Expr

end QueryStage
