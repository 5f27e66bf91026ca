import QueryStage.Proofs.AccumulatorNesting
import QueryStage.Proofs.LoopHygiene
import QueryStage.Proofs.Relocation
import QueryStage.Proofs.StageParts

/-!
# Binding what is bound

A bound expression has no parameter left that its scope knows, and no member that a decoder knows,
so binding it again changes nothing. Lambdas are the exception. Whether one ranges over elements is
decided by where it is written: one that a call gets as the member of a construction is bound with
the construction at first, and ranges over elements where it then stands.
-/

namespace QueryStage

namespace Scope

/-- A scope knows none of the parameters that an expression takes from it. -/
def KnowsNone (s : Scope) (e : Expr) : Prop := ∀ x ∈ e.free, s.lookup x = none

theorem lookup_eq_none_of_enter {ds : Decoders} {s inner : Scope} {params : List Parameter}
    {source : Option Expr} (henter : s.enter ds params source = .ok inner) {x : String}
    (hx : ∀ p, params = [p] → x ≠ p.name) (h : inner.lookup x = none) : s.lookup x = none := by
  rcases enter_cases henter with rfl | ⟨p, hp, rfl⟩ | ⟨p, _, e, hp, -, -, rfl⟩
  · exact h
  · rwa [lookup_hide_of_ne s (hx p hp)] at h
  · rwa [lookup_bind_of_ne s (hx p hp)] at h

end Scope

namespace Expr

variable {r : Decoders} {s : Scope} {e b : Expr}

theorem knowsNone_of_free_eq_nil (h : b.free = []) : s.KnowsNone b := by
  intro x hx
  rw [h] at hx
  cases hx

private theorem knowsNone_of_resolve? {target : Expr} {name : String} {ty : Ty}
    (hdocument : ∀ inner path d, target = document inner path d → ∃ p, inner = parameter p)
    (htarget : s.KnowsNone target) (h : target.resolve? name ty = some b) : s.KnowsNone b := by
  rcases resolve?_cases h with ⟨_, _, _, _, -, -, rfl⟩ | ⟨_, _, _, _, -, -, rfl, -⟩ |
    ⟨_, _, _, _, rfl | ⟨path, d, rfl⟩, hb⟩
  · exact knowsNone_of_free_eq_nil rfl
  · exact knowsNone_of_free_eq_nil rfl
  · exact fun x hx => htarget x (mem_freeAll.mpr ⟨b, mem_of_constructed? hb, hx⟩)
  · obtain ⟨p, hp⟩ := hdocument _ path d rfl
    cases hp

private theorem knowsNone_of_bindMember {target : Expr} {name : String} {declaring ty : Ty}
    (hdocument : ∀ inner path d, target = document inner path d → ∃ p, inner = parameter p)
    (htarget : s.KnowsNone target) (h : bindMember r target name declaring ty = .ok b) :
    s.KnowsNone b := by
  rcases bindMember_cases h with hresolve | rfl | ⟨fn, source, ty', item, body, rfl, helement,
    hbody, rfl⟩
  · exact knowsNone_of_resolve? hdocument htarget hresolve
  · exact htarget
  · intro x hx
    rcases List.mem_append.mp hx with hx | hx
    · exact htarget x hx
    · obtain ⟨path, d, rfl⟩ := document_of_element? helement
      obtain ⟨m, -, rfl⟩ := Option.map_eq_some_iff.mp hbody
      cases (mem_of_outside hx).1

private theorem parameter_of_bind (he : e.All NoDocument) (hs : s.Plain) (hgroup : s.group = none)
    {inner : Expr} {path : Option Path} {d : Decoder}
    (h : e.bind r s = .ok (document inner path d)) : ∃ p, inner = parameter p := by
  rcases document_of_bind he hs h with hp | ⟨g, hg, -⟩
  · exact hp
  · rw [hgroup] at hg
    cases hg

theorem boundArg_of_mem {receiver : Option Expr} {es bs : List Expr}
    (h : BoundArgs r s receiver es bs) (hb : b ∈ bs) :
    ∃ source, ∃ a ∈ es, BoundArg r s source a b := by
  cases h with
  | on h =>
    obtain ⟨a, ha, h⟩ := exists_of_forall₂ h hb
    exact ⟨_, a, ha, h⟩
  | nil => cases hb
  | cons hfirst h =>
    rcases List.mem_cons.mp hb with rfl | hb
    · exact ⟨none, _, List.mem_cons_self, hfirst⟩
    · obtain ⟨a, ha, h⟩ := exists_of_forall₂ h hb
      exact ⟨_, a, List.mem_cons_of_mem _ ha, h⟩

private theorem knowsNone_of_boundArg {source : Option Expr} (h : BoundArg r s source e b)
    (ih : ∀ b, e.bind r s = .ok b → s.KnowsNone b)
    (ihb : ∀ params body, e = lambda ⟨params, body⟩ → ∀ inner b,
      s.enter r params source = .ok inner → body.bind r inner = .ok b → inner.KnowsNone b)
    {x : String} (hx : x ∈ b.free) (hne : ∀ p body, b = lambda ⟨[p], body⟩ → x ≠ p.name) :
    s.lookup x = none := by
  cases h with
  | operand _ h => exact ih b h x hx
  | @each inner params body b henter h =>
    refine Scope.lookup_eq_none_of_enter henter ?_ (ihb params body rfl inner b henter h x hx)
    rintro p rfl
    exact hne p b rfl

theorem knowsNone_of_bind (he : e.All NoDocument) : ∀ s b, s.Plain → s.group = none →
    e.bind r s = .ok b → s.KnowsNone b := by
  induction e using induct_nodes with
  | step e ih =>
    intro s b hs hgroup h
    have below {part n : Expr} (hpart : part ∈ e.parts) (hn : n ∈ part.nodes) : ∀ s b, s.Plain →
        s.group = none → n.bind r s = .ok b → s.KnowsNone b :=
      ih part hpart n hn (he.below (mem_nodes_of_part hpart hn))
    cases e with
    | parameter p =>
      rw [bind, Except.ok.injEq] at h
      subst h
      cases hlookup : s.lookup p.name with
      | none => exact fun x hx => List.mem_singleton.mp hx ▸ hlookup
      | some e =>
        obtain ⟨_, _, _, -, rfl⟩ := hs.lookup hlookup
        exact knowsNone_of_free_eq_nil rfl
    | member target name declaring ty =>
      rcases bind_member_cases h with hkey | ⟨-, bound, hbound, h⟩
      · obtain ⟨-, -, g, hg, -⟩ := Scope.key?_cases hkey
        rw [hgroup] at hg
        cases hg
      · have htarget := below (by simp [parts]) (self_mem_nodes target) s bound hs hgroup hbound
        refine knowsNone_of_bindMember ?_ htarget h
        rintro inner path d rfl
        exact parameter_of_bind (he.part (by simp [parts])) hs hgroup hbound
    | call receiver method declaring args ty =>
      obtain ⟨receiver', args', hreceiver, hargs, hacc | rfl⟩ := bind_call_cases h
      · have hsome := (accumulator?_cases hacc).1
        rw [hgroup] at hsome
        cases hsome
      · intro x hfree
        rcases mem_free_call hfree with ⟨items, rfl, hx⟩ | hx
        · cases hreceiver with
          | some hitems =>
            exact below (by simp [parts]) (self_mem_nodes _) s items hs hgroup hitems x hx
        · obtain ⟨b, hb, hx, hne⟩ := mem_freeArgs hx
          obtain ⟨source, a, ha, harg⟩ := boundArg_of_mem hargs hb
          refine knowsNone_of_boundArg harg (fun b hb => ?_) (fun params body heq => ?_) hx hne
          · exact below (by simp [parts, ha]) (self_mem_nodes a) s b hs hgroup hb
          · intro inner b henter hbody
            subst heq
            refine below (by simp [parts, ha]) (body_mem_nodes ⟨params, body⟩) inner b
              (hs.enter henter) ?_ hbody
            rw [Scope.group_of_enter henter, hgroup]
    | lambda fn =>
      obtain ⟨body', hbody, rfl⟩ := bind_lambda_cases h
      exact below (by simp [parts]) (self_mem_nodes fn.body) s body' hs hgroup hbody
    | accumulate fn source selector ty =>
      obtain ⟨source', hsource, ⟨rfl, rfl⟩ |
        ⟨params, body, inner, body', rfl, henter, hbody, rfl⟩⟩ := bind_accumulate_cases h
      · exact below (by simp [parts]) (self_mem_nodes source) s source' hs hgroup hsource
      · intro x hx
        rcases List.mem_append.mp hx with hx | hx
        · exact below (by simp [parts]) (self_mem_nodes source) s source' hs hgroup hsource x hx
        · obtain ⟨hx, hne⟩ := mem_of_outside hx
          refine Scope.lookup_eq_none_of_enter henter hne ?_
          refine below (by simp [parts]) (self_mem_nodes body) inner body' (hs.enter henter) ?_
            hbody x hx
          rw [Scope.group_of_enter henter, hgroup]
    | field | document =>
      cases h
      exact knowsNone_of_free_eq_nil rfl
    | literal | binary | unary | conditional | construct =>
      obtain ⟨hkind, hparts⟩ := forall₂_parts_of_bind rfl rfl h
      intro x hx
      rcases free_of_part hx with ⟨p, rfl, -⟩ | ⟨part', hpart', hx⟩
      · cases hkind
      · obtain ⟨part, hpart, hbound⟩ := exists_of_forall₂ hparts hpart'
        exact below hpart (self_mem_nodes part) s part' hs hgroup hbound x hx

/-- The arguments of a call that come after what its lambdas range over. -/
def ranging : Expr → List Expr
  | call (some _) _ _ args _ => args
  | call none _ _ args _ => args.tail
  | _ => []

/-- A lambda that ranges over elements is an argument itself, and not a member of a construction
that an argument reads. -/
def RangesDirectly (n : Expr) : Prop :=
  ∀ a ∈ n.ranging, ∀ fn, Reads a (lambda fn) → a.kind = .lambda

theorem mem_of_ranging {receiver : Option Expr} {method : String} {declaring ty : Ty}
    {args : List Expr} {a : Expr} (h : a ∈ (call receiver method declaring args ty).ranging) :
    a ∈ args := by
  cases receiver with
  | none => exact List.mem_of_mem_tail h
  | some => exact h

/-- It is enough that no lambda stands deeper in an argument. -/
theorem all_rangesDirectly (h : ∀ n ∈ e.nodes, ∀ a ∈ n.ranging, a.kind = .lambda ∨
    ∀ m ∈ a.nodes, m.kind ≠ .lambda) : e.All RangesDirectly := by
  intro n hn a ha fn hreads
  rcases h n hn a ha with hkind | hnone
  · exact hkind
  · exact absurd rfl (hnone _ hreads.mem_nodes)

theorem exists_reads_of_bind (he : e.All NoDocument) (hs : s.Plain) (hgroup : s.group = none)
    {fn : Lambda} (h : e.bind r s = .ok (lambda fn)) : ∃ fn', Reads e (lambda fn') := by
  induction e using induct_nodes generalizing fn with
  | step e ih =>
    cases e with
    | lambda fn' => exact ⟨fn', .refl _⟩
    | parameter p =>
      rcases bind_parameter_cases h with heq | hlookup
      · cases heq
      · obtain ⟨_, _, _, -, heq⟩ := hs.lookup hlookup
        cases heq
    | member target name declaring ty =>
      have htarget : target.All NoDocument := he.part (by simp [parts])
      rcases bind_member_cases h with hkey | ⟨-, bound, hbound, hmember⟩
      · obtain ⟨-, -, g, hg, -⟩ := Scope.key?_cases hkey
        rw [hgroup] at hg
        cases hg
      · rcases bindMember_cases hmember with hresolve | heq | ⟨_, _, _, _, _, -, -, -, heq⟩
        · rcases resolve?_cases hresolve with ⟨_, _, _, _, -, -, heq⟩ | ⟨_, _, _, _, -, -, heq, -⟩ |
            ⟨_, _, _, _, rfl | ⟨_, _, rfl⟩, hargument⟩
          · cases heq
          · cases heq
          · rcases construct_of_bind htarget hs hbound with ⟨args, hreads, hargs⟩ | ⟨g, hg, -⟩
            · obtain ⟨a, ha⟩ := chosen_of_reads hreads hargs hargument
              obtain ⟨fn', hfn'⟩ := ih target (by simp [parts]) a ha.mem_nodes
                (htarget.below ha.mem_nodes) (ha.bind_eq_ok h)
              obtain ⟨_, _, _, _, hreads, hargument⟩ := ha
              exact ⟨fn', .member hreads hargument hfn'⟩
            · rw [hgroup] at hg
              cases hg
          · obtain ⟨p, hp⟩ := parameter_of_bind htarget hs hgroup hbound
            cases hp
        · cases heq
        · cases heq
    | call receiver method declaring args ty =>
      obtain ⟨_, _, -, -, hacc | hcall⟩ := bind_call_cases h
      · cases kind_of_accumulator? hacc
      · cases hcall
    | accumulate =>
      obtain ⟨_, -, ⟨-, heq⟩ | ⟨_, _, _, _, -, -, -, heq⟩⟩ := bind_accumulate_cases h <;> cases heq
    | field | document => cases h
    | literal | binary | unary | conditional | construct =>
      cases (forall₂_parts_of_bind rfl rfl h).1

private theorem boundArg_first (hb : b.bind r s = .ok b) (hnone : s.KnowsNone b) :
    BoundArg r s none b b := by
  rcases lambda_or_kind_ne b with ⟨params, body, rfl⟩ | hkind
  · obtain ⟨body', hbody, heq⟩ := bind_lambda_cases hb
    cases heq
    rcases params with _ | ⟨p, _ | ⟨q, params⟩⟩
    · exact .each rfl hbody
    · have hagree : body.bind r (s.hide p.name) = body.bind r s := by
        refine bind_congr r (fun x hx => ?_) rfl
        by_cases hp : x = p.name
        · rw [hnone x hx, hp, Scope.lookup_hide_self]
        · exact Scope.lookup_hide_of_ne s hp
      exact .each rfl (hagree.trans hbody)
    · exact .each rfl hbody
  · exact .operand hkind hb

private theorem boundArg_again {source : Option Expr} (h : BoundArg r s source e b)
    (ih : ∀ b, e.bind r s = .ok b → b.bind r s = .ok b)
    (ihb : ∀ params body, e = lambda ⟨params, body⟩ → ∀ inner b,
      s.enter r params source = .ok inner → body.bind r inner = .ok b → b.bind r inner = .ok b)
    (hdirect : b.kind = .lambda → e.kind = .lambda) : BoundArg r s source b b := by
  cases h with
  | operand hkind h => exact .operand (fun hb => hkind (hdirect hb)) (ih b h)
  | each henter h => exact .each henter (ihb _ _ rfl _ _ henter h)

private theorem boundArgs_again {receiver receiver' : Option Expr} {args args' : List Expr}
    (hreceiver : Option.Rel (fun e e' => e.bind r s = .ok e') receiver receiver')
    (h : BoundArgs r s receiver' args args')
    (hargs : ∀ a ∈ args, ∀ b, a.bind r s = .ok b → b.bind r s = .ok b ∧ s.KnowsNone b)
    (hbodies : ∀ params body, lambda ⟨params, body⟩ ∈ args → ∀ source inner b,
      s.enter r params source = .ok inner → body.bind r inner = .ok b → b.bind r inner = .ok b)
    (method : String) (declaring ty : Ty)
    (hdirect : ∀ a ∈ (call receiver method declaring args ty).ranging, ∀ fn,
      a.bind r s = .ok (lambda fn) → a.kind = .lambda) :
    BoundArgs r s receiver' args' args' := by
  have again {source : Option Expr} {a b : Expr}
      (hrange : a ∈ (call receiver method declaring args ty).ranging)
      (h : BoundArg r s source a b) : BoundArg r s source b b := by
    have ha := mem_of_ranging hrange
    refine boundArg_again h (fun b hb => (hargs a ha b hb).1) ?_ ?_
    · rintro params body rfl inner b henter hbody
      exact hbodies params body ha source inner b henter hbody
    · intro hkind
      cases h with
      | operand _ h =>
        cases b with
        | lambda fn => exact hdirect a hrange fn h
        | _ => cases hkind
      | each => rfl
  cases h with
  | on h =>
    cases hreceiver
    refine .on (List.forall₂_same.mpr fun b hb => ?_)
    obtain ⟨a, ha, hbound⟩ := exists_of_forall₂ h hb
    exact again ha hbound
  | nil => exact .nil
  | @cons first first' _ _ hfirst h =>
    cases hreceiver
    refine .cons ?_ (List.forall₂_same.mpr fun b hb => ?_)
    · cases hfirst with
      | operand _ hfirst =>
        obtain ⟨hagain, hnone⟩ := hargs first (by simp) first' hfirst
        exact boundArg_first hagain hnone
      | each henter hbody => exact .each henter (hbodies _ _ (by simp) _ _ _ henter hbody)
    · obtain ⟨a, ha, hbound⟩ := exists_of_forall₂ h hb
      exact again ha hbound

private theorem bindMember_again {target : Expr} {name : String} {declaring ty : Ty}
    (hgroup : s.group = none) (htarget : target.bind r s = .ok target)
    (hdocument : ∀ inner path d, target = document inner path d → ∃ p, inner = parameter p)
    (h : bindMember r target name declaring ty = .ok b) : b.bind r s = .ok b := by
  rcases bindMember_cases h with hresolve | rfl | ⟨fn, source, ty', item, body, rfl, helement,
    hbody, rfl⟩
  · rcases resolve?_cases hresolve with ⟨_, _, _, _, -, -, rfl⟩ | ⟨_, _, _, _, -, -, rfl, -⟩ |
      ⟨_, _, _, _, rfl | ⟨path, d, rfl⟩, hargument⟩
    · rfl
    · rfl
    · obtain ⟨_, hargs, heq⟩ := bind_construct_cases htarget
      cases heq
      exact List.forall₂_same.mp hargs b (mem_of_constructed? hargument)
    · obtain ⟨p, hp⟩ := hdocument _ path d rfl
      cases hp
  · rw [bind, Scope.key?_of_group hgroup]
    simp only [htarget, ok_bind, h]
  · obtain ⟨path, d, rfl⟩ := document_of_element? helement
    obtain ⟨m, -, rfl⟩ := Option.map_eq_some_iff.mp hbody
    obtain ⟨_, hsource, ⟨-, heq⟩ | ⟨_, _, _, _, heq, -⟩⟩ := bind_accumulate_cases htarget
    · cases heq
      simp only [bind, hsource, ok_bind, Scope.enter, pure_eq_ok]
    · cases heq

private theorem bind_eq_self_of_parts (hplain : e.isPlain = true) (hwritten : e.isWritten = true)
    (h : ∀ part ∈ e.parts, part.bind r s = .ok part) : e.bind r s = .ok e := by
  cases e with
  | literal => rfl
  | binary op left right ty =>
    simp only [bind, h left (by simp [parts]), h right (by simp [parts]), ok_bind, pure_eq_ok]
  | unary op operand ty => simp only [bind, h operand (by simp [parts]), ok_bind, pure_eq_ok]
  | conditional test ifTrue ifFalse ty =>
    simp only [bind, h test (by simp [parts]), h ifTrue (by simp [parts]),
      h ifFalse (by simp [parts]), ok_bind, pure_eq_ok]
  | construct ty parameters args members =>
    have hargs : bindAll r s args = .ok args :=
      bindAll_eq_ok_iff.mpr (List.forall₂_same.mpr fun a ha => h a ha)
    simp only [bind, hargs, ok_bind, pure_eq_ok]
  | parameter | member | call | lambda => cases hplain
  | accumulate | field | document => cases hwritten

/-- Binding again what is bound changes nothing. -/
theorem bind_bound (he : e.All NoDocument) (hdirect : e.All RangesDirectly) : ∀ s b, s.Plain →
    s.group = none → e.bind r s = .ok b → b.bind r s = .ok b := by
  induction e using induct_nodes with
  | step e ih =>
    intro s b hs hgroup h
    have below {part n : Expr} (hpart : part ∈ e.parts) (hn : n ∈ part.nodes) : ∀ s b, s.Plain →
        s.group = none → n.bind r s = .ok b → b.bind r s = .ok b := by
      have hmem := mem_nodes_of_part hpart hn
      exact ih part hpart n hn (he.below hmem) (hdirect.below hmem)
    cases e with
    | parameter p =>
      rw [bind, Except.ok.injEq] at h
      subst h
      cases hlookup : s.lookup p.name with
      | none => simp [bind, hlookup]
      | some e =>
        obtain ⟨_, _, _, -, rfl⟩ := hs.lookup hlookup
        rfl
    | member target name declaring ty =>
      rcases bind_member_cases h with hkey | ⟨-, bound, hbound, h⟩
      · obtain ⟨-, -, g, hg, -⟩ := Scope.key?_cases hkey
        rw [hgroup] at hg
        cases hg
      · have htarget := below (by simp [parts]) (self_mem_nodes target) s bound hs hgroup hbound
        refine bindMember_again hgroup htarget ?_ h
        rintro inner path d rfl
        exact parameter_of_bind (he.part (by simp [parts])) hs hgroup hbound
    | call receiver method declaring args ty =>
      obtain ⟨receiver', args', hreceiver, hargs, hacc | rfl⟩ := bind_call_cases h
      · have hsome := (accumulator?_cases hacc).1
        rw [hgroup] at hsome
        cases hsome
      · have hagain : BoundArgs r s receiver' args' args' := by
          refine boundArgs_again hreceiver hargs (fun a ha b hb => ?_) ?_ method declaring ty
            (fun a ha fn hfn => ?_)
          · have hpart : a ∈ (call receiver method declaring args ty).parts := by simp [parts, ha]
            exact ⟨below hpart (self_mem_nodes a) s b hs hgroup hb,
              knowsNone_of_bind (he.part hpart) s b hs hgroup hb⟩
          · intro params body hmem source inner b henter hbody
            refine below (by simp [parts, hmem]) (body_mem_nodes ⟨params, body⟩) inner b
              (hs.enter henter) ?_ hbody
            rw [Scope.group_of_enter henter, hgroup]
          · -- An argument that is bound to a lambda reads one, and so is one as it is written.
            have hpart : a ∈ (call receiver method declaring args ty).parts := by
              simp [parts, mem_of_ranging ha]
            obtain ⟨fn', hreads⟩ := exists_reads_of_bind (he.part hpart) hs hgroup hfn
            exact hdirect.self a ha fn' hreads
        have hacc := Scope.accumulator?_of_group hgroup method declaring args' ty
        have hbound := bindArgs_eq_ok_iff.mpr hagain
        cases hreceiver with
        | none => simp only [bind, hbound, ok_bind, hacc, Option.getD_none, pure_eq_ok]
        | @some receiver receiver' hitems =>
          have hitems :=
            below (by simp [parts]) (self_mem_nodes receiver) s receiver' hs hgroup hitems
          simp only [bind, hitems, hbound, ok_bind, hacc, Option.getD_none, pure_eq_ok]
    | lambda fn =>
      obtain ⟨body', hbody, rfl⟩ := bind_lambda_cases h
      have hagain := below (by simp [parts]) (self_mem_nodes fn.body) s body' hs hgroup hbody
      rw [bind, hagain, ok_bind, pure_eq_ok]
    | accumulate fn source selector ty =>
      obtain ⟨source', hsource, ⟨rfl, rfl⟩ |
        ⟨params, body, inner, body', rfl, henter, hbody, rfl⟩⟩ := bind_accumulate_cases h
      · have hagain := below (by simp [parts]) (self_mem_nodes source) s source' hs hgroup hsource
        rw [bind, hagain, ok_bind, pure_eq_ok]
      · have hagain := below (by simp [parts]) (self_mem_nodes source) s source' hs hgroup hsource
        have hinner : inner.group = none := by rw [Scope.group_of_enter henter, hgroup]
        have hbody := below (by simp [parts]) (self_mem_nodes body) inner body' (hs.enter henter)
          hinner hbody
        simp only [bind, hagain, ok_bind, henter, hbody, pure_eq_ok]
    | field | document =>
      cases h
      rfl
    | literal | binary | unary | conditional | construct =>
      obtain ⟨hkind, hparts⟩ := forall₂_parts_of_bind rfl rfl h
      refine bind_eq_self_of_parts (by rw [isPlain, hkind]; rfl) (by rw [isWritten, hkind]; rfl) ?_
      intro part' hpart'
      obtain ⟨part, hpart, hbound⟩ := exists_of_forall₂ hparts hpart'
      exact below hpart (self_mem_nodes part) s part' hs hgroup hbound

end Expr

namespace Lambda

/-- Binding a projector is idempotent if no lambda that ranges over elements is read from a
construction: with the bound body in place of the body, it is bound to the same again. -/
theorem bindProjector_bound (r : Decoders) (source : Decoder) (p : Parameter) (body b : Expr)
    (hbody : body.All Expr.NoDocument) (hdirect : body.All Expr.RangesDirectly)
    (h : bindProjector r ⟨[p], body⟩ source = .ok b) :
    bindProjector r ⟨[p], b⟩ source = .ok b :=
  Expr.bind_bound hbody hdirect _ b (plain_projectorScope p source) rfl h

end Lambda

namespace Orders

open QueryStage.Expr

def quantities (items fn : Expr) : Expr :=
  named (.record "Quantities") [("All", sequenceCall "Select" items [fn] (.array .int32))]

/-- The quantities of the large items stay as they are bound. -/
theorem quantities_rebound :
    ∃ b, Lambda.bindProjector registry
        ⟨[ofOrder "o"], quantities largeItems (lambda ⟨[ofItem "i"], quantityOf "i"⟩)⟩ source =
          .ok b ∧
      Lambda.bindProjector registry ⟨[ofOrder "o"], b⟩ source = .ok b :=
  ⟨_, rfl, Lambda.bindProjector_bound registry source (ofOrder "o")
    (quantities largeItems (lambda ⟨[ofItem "i"], quantityOf "i"⟩)) _ (by decide)
    (all_rangesDirectly (by decide)) rfl⟩

/-- A selector that reads the quantity of an item, as the member of a construction. -/
def quantitySelector : Expr :=
  access (named (.record "Selector") [("Apply", lambda ⟨[ofItem "i"], quantityOf "i"⟩)]) "Apply"
    .int32

/-- Out of the construction, the selector ranges over the items when it is bound again. -/
theorem quantitySelector_rebound :
    (quantities largeItems quantitySelector).All NoDocument ∧ ∃ items,
      Lambda.bindProjector registry ⟨[ofOrder "o"], quantities largeItems quantitySelector⟩ source =
        .ok (quantities items (lambda ⟨[ofItem "i"], quantityOf "i"⟩)) ∧
      Lambda.bindProjector registry
          ⟨[ofOrder "o"], quantities items (lambda ⟨[ofItem "i"], quantityOf "i"⟩)⟩ source =
        .ok (quantities items
          (lambda ⟨[ofItem "i"], field ⟨["$i", "qty"]⟩ (.value .int32) .int32⟩)) :=
  ⟨by decide, _, rfl, rfl⟩

end Orders

end QueryStage
