import QueryStage.Proofs.AccumulatorNesting
import QueryStage.Proofs.LoopHygiene
import QueryStage.Proofs.StageParts
import QueryStage.Proofs.Tracing

/-!
# Places of bound nodes

In a bound projector the decoder of a field or document is the one that its path leads to. The path
starts at the source or, below a loop variable, at the items of the computed source that the lambda
of an enclosing call ranges over.
-/

namespace QueryStage

/-- A parameter and the bound source whose items it ranges over. -/
structure LoopRange where
  source : Expr
  parameter : Parameter

/-- What a lambda argument of a call ranges over, given the source of the call. -/
def Lambda.ranges (fn : Lambda) (source : Option Expr) : List LoopRange :=
  match fn.params, source with
  | [p], some source => [⟨source, p⟩]
  | _, _ => []

namespace Expr

/-- The lambda arguments of a call with the sources that they range over: the receiver or, in a call
that has none, the first argument. -/
inductive Loops : Expr → Option Expr → Lambda → Prop
  | receiver {receiver : Expr} {method : String} {declaring ty : Ty} {args : List Expr}
    {fn : Lambda} (h : lambda fn ∈ args) :
    Loops (call (some receiver) method declaring args ty) (some receiver) fn
  | first {method : String} {declaring ty : Ty} {fn : Lambda} {args : List Expr} :
    Loops (call none method declaring (lambda fn :: args) ty) none fn
  | following {method : String} {declaring ty : Ty} {first : Expr} {args : List Expr} {fn : Lambda}
    (h : lambda fn ∈ args) : Loops (call none method declaring (first :: args) ty) (some first) fn

/-- The parts of an expression but for the lambda arguments of a call. -/
def operands : Expr → List Expr
  | call receiver _ _ args _ => receiver.toList ++ args.filter fun e => e.kind ≠ .lambda
  | e => e.parts

/-- A node occurs in a bound expression, within lambdas that range over these sources, the innermost
one first. -/
inductive Occurs (n : Expr) : List LoopRange → Expr → Prop
  | here : Occurs n [] n
  | operand {ranges : List LoopRange} {e part : Expr} (h : part ∈ e.operands)
    (rest : Occurs n ranges part) : Occurs n ranges e
  | loop {ranges : List LoopRange} {e : Expr} {source : Option Expr} {fn : Lambda}
    (h : e.Loops source fn) (rest : Occurs n ranges (lambda fn)) :
    Occurs n (ranges ++ fn.ranges source) e

variable {n e : Expr}

theorem operand_or_loop {part : Expr} (h : part ∈ e.parts) :
    part ∈ e.operands ∨ ∃ source fn, part = lambda fn ∧ e.Loops source fn := by
  cases e with
  | call receiver method declaring args ty =>
    rcases List.mem_append.mp h with h | harg
    · exact .inl (List.mem_append_left _ h)
    · rcases lambda_or_kind_ne part with ⟨params, body, rfl⟩ | hkind
      · refine .inr ?_
        cases receiver with
        | some receiver => exact ⟨some receiver, _, rfl, .receiver harg⟩
        | none =>
          cases harg with
          | head args => exact ⟨none, _, rfl, .first⟩
          | tail first harg => exact ⟨some first, _, rfl, .following harg⟩
      · exact .inl (List.mem_append_right _ (List.mem_filter.mpr ⟨harg, by simpa using hkind⟩))
  | _ => exact .inl h

theorem exists_occurs (h : n ∈ e.nodes) : ∃ ranges, Occurs n ranges e := by
  induction e using induct_parts with
  | step e ih =>
    rcases mem_nodes_iff.mp h with rfl | ⟨part, hpart, hn⟩
    · exact ⟨[], .here⟩
    · obtain ⟨ranges, hoccurs⟩ := ih part hpart hn
      rcases operand_or_loop hpart with hoperand | ⟨source, fn, rfl, hloop⟩
      · exact ⟨ranges, .operand hoperand hoccurs⟩
      · exact ⟨_, .loop hloop hoccurs⟩

/-- The path and the decoder of a bound node. A document without a path is at the start of all
paths. -/
def place? : Expr → Option (List String × Decoder)
  | field path d _ => some (path.segments, d)
  | document _ path d => some ((path.getD ⟨[]⟩).segments, d)
  | _ => none

theorem place?_eq_none (hfield : e.kind ≠ .field) (hdocument : e.kind ≠ .document) :
    e.place? = none := by
  cases e with
  | field => exact absurd rfl hfield
  | document => exact absurd rfl hdocument
  | _ => rfl

end Expr

/-- A decoder is reached along a path from the items of a source that is no bound node. -/
def LoopRange.Reaches (r : Decoders) (range : LoopRange) (segments : List String) (d : Decoder) :
    Prop :=
  range.source.place? = none ∧ ∃ i rest, range.source.itemDecoder r = .ok i ∧
    segments = (Path.loopVariable range.parameter.name).segments ++ rest ∧ i.Traces rest d

/-- A decoder is reached along a path from the source or from the items of one of the ranges. -/
def Decoder.Reached (r : Decoders) (source : Decoder) (ranges : List LoopRange)
    (segments : List String) (d : Decoder) : Prop :=
  source.Traces segments d ∨ ∃ range ∈ ranges, range.Reaches r segments d

namespace Decoder.Reached

variable {r : Decoders} {source d d' : Decoder} {ranges ranges' : List LoopRange}
  {segments es : List String}

theorem mono (h : Reached r source ranges segments d) (hsub : ranges ⊆ ranges') :
    Reached r source ranges' segments d := by
  rcases h with htrace | ⟨range, hrange, hreaches⟩
  · exact .inl htrace
  · exact .inr ⟨range, hsub hrange, hreaches⟩

theorem trans (h : Reached r source ranges segments d) (h' : d.Traces es d') :
    Reached r source ranges (segments ++ es) d' := by
  rcases h with htrace | ⟨range, hrange, hsource, i, rest, hi, rfl, htrace⟩
  · exact .inl (htrace.trans h')
  · refine .inr ⟨range, hrange, hsource, i, rest ++ es, hi, ?_, htrace.trans h'⟩
    rw [List.append_assoc]

theorem child (h : Reached r source ranges segments d) {name : String} {m : MemberDecoder}
    (hm : d.member? name = some m) :
    Reached r source ranges (segments ++ [m.element]) m.decoder :=
  h.trans (.member hm (.refl _))

theorem each (h : Reached r source ranges segments d) {i : Decoder} (hi : d.item? = some i) :
    Reached r source ranges segments i := by
  have htrans := h.trans (.item hi (.refl i))
  rwa [List.append_nil] at htrans

end Decoder.Reached

namespace Expr

/-- A bound node has the decoder that its path leads to. -/
def Placed (r : Decoders) (source : Decoder) (ranges : List LoopRange) (n : Expr) : Prop :=
  ∀ segments d, n.place? = some (segments, d) → source.Reached r ranges segments d

/-- All bound nodes are placed, given the loops around the expression. -/
def PlacedBelow (r : Decoders) (source : Decoder) (outer : List LoopRange) (e : Expr) : Prop :=
  ∀ n ranges, Occurs n ranges e → n.Placed r source (ranges ++ outer)

variable {r : Decoders} {source : Decoder} {outer : List LoopRange} {e : Expr}

theorem placedBelow_iff : e.PlacedBelow r source outer ↔
    e.Placed r source outer ∧ (∀ part ∈ e.operands, part.PlacedBelow r source outer) ∧
      ∀ items fn, e.Loops items fn →
        (lambda fn).PlacedBelow r source (fn.ranges items ++ outer) := by
  constructor
  · intro h
    refine ⟨h e [] .here, fun part hpart n ranges hn => h n ranges (.operand hpart hn), ?_⟩
    intro items fn hloop n ranges hn
    rw [← List.append_assoc]
    exact h n _ (.loop hloop hn)
  · rintro ⟨hself, hoperands, hloops⟩ n ranges hn
    cases hn with
    | here => exact hself
    | operand hpart hn => exact hoperands _ hpart n ranges hn
    | loop hloop hn =>
      rw [List.append_assoc]
      exact hloops _ _ hloop n _ hn

theorem PlacedBelow.self (h : e.PlacedBelow r source outer) : e.Placed r source outer :=
  h e [] .here

theorem PlacedBelow.operand (h : e.PlacedBelow r source outer) {part : Expr}
    (hpart : part ∈ e.operands) : part.PlacedBelow r source outer :=
  (placedBelow_iff.mp h).2.1 part hpart

theorem PlacedBelow.mono (h : e.PlacedBelow r source outer) {outer' : List LoopRange}
    (hsub : outer ⊆ outer') : e.PlacedBelow r source outer' := by
  intro n ranges hn segments d hplace
  refine (h n ranges hn segments d hplace).mono ?_
  exact List.append_subset.mpr
    ⟨List.subset_append_left _ _, List.subset_append_of_subset_right _ hsub⟩

theorem placedBelow_of_parts (hcall : e.kind ≠ .call) (hself : e.Placed r source outer)
    (hparts : ∀ part ∈ e.parts, part.PlacedBelow r source outer) :
    e.PlacedBelow r source outer := by
  refine placedBelow_iff.mpr ⟨hself, ?_, ?_⟩
  · cases e with
    | call => exact absurd rfl hcall
    | _ => exact hparts
  · intro items fn hloop
    cases hloop <;> exact absurd rfl hcall

theorem placed_of_isWritten (h : e.isWritten = true) : e.Placed r source outer := by
  cases e with
  | field => cases h
  | document => cases h
  | _ => exact nofun

theorem placedBelow_field {path : Path} {d : Decoder} {ty : Ty}
    (h : source.Reached r outer path.segments d) :
    (field path d ty).PlacedBelow r source outer := by
  refine placedBelow_of_parts nofun ?_ nofun
  rintro _ _ ⟨⟩
  exact h

theorem placedBelow_document {v : Parameter} {path : Option Path} {d : Decoder}
    (h : source.Reached r outer (path.getD ⟨[]⟩).segments d) :
    (document (parameter v) path d).PlacedBelow r source outer := by
  refine placedBelow_of_parts nofun ?_ fun part hpart => ?_
  · rintro _ _ ⟨⟩
    exact h
  · cases List.mem_singleton.mp hpart
    exact placedBelow_of_parts nofun (placed_of_isWritten rfl) nofun

theorem PlacedBelow.resolve (he : e.PlacedBelow r source outer) {b : Expr} {name : String} {ty : Ty}
    (h : e.resolve? name ty = some b) : b.PlacedBelow r source outer := by
  rcases resolve?_cases h with ⟨path, d, ty', m, rfl, hm, rfl⟩ |
    ⟨inner, path, d, m, rfl, hm, rfl, -⟩ | ⟨ty', parameters, args, members, he', hb⟩
  · have hreached := he.self _ _ rfl
    exact placedBelow_field (by simpa using hreached.child hm)
  · have hreached := he.self _ _ rfl
    exact placedBelow_field (by simpa using hreached.child hm)
  · have hmem := mem_of_constructed? hb
    rcases he' with rfl | ⟨path, d, rfl⟩
    · exact he.operand hmem
    · have hconstruct : (construct ty' parameters args members).PlacedBelow r source outer :=
        he.operand (by simp [operands, parts])
      exact hconstruct.operand hmem

theorem PlacedBelow.element {items b : Expr} {p : Parameter}
    (hitems : items.PlacedBelow r source outer) (h : items.element? r p = .ok (some b)) :
    b.PlacedBelow r source (⟨items, p⟩ :: outer) := by
  have hself := (hitems.mono (List.subset_cons_self ⟨items, p⟩ outer)).self
  rcases element?_cases h with ⟨path, d, ty, i, rfl, hi, rfl⟩ |
    ⟨inner, path, d, i, rfl, hi, rfl⟩ | ⟨i, hfield, hdocument, hi, rfl⟩
  · have hreached := hself _ _ rfl
    exact placedBelow_document (hreached.each hi)
  · have hreached := hself _ _ rfl
    exact placedBelow_document (hreached.each hi)
  · have hplace := place?_eq_none hfield hdocument
    have hreaches : LoopRange.Reaches r ⟨items, p⟩ (Path.loopVariable p.name).segments i :=
      ⟨hplace, i, [], hi, (List.append_nil _).symm, .refl i⟩
    exact placedBelow_document (.inr ⟨_, List.mem_cons_self, hreaches⟩)

end Expr

/-- A scope of a projector, where all that a parameter stands for is placed. -/
structure Scope.Placed (r : Decoders) (source : Decoder) (outer : List LoopRange) (s : Scope) :
    Prop where
  plain : s.Plain
  group : s.group = none
  lookup : ∀ {name : String} {e : Expr}, s.lookup name = some e → e.PlacedBelow r source outer

/-- The scope of a lambda's body is placed within the loop that the lambda makes. -/
theorem Scope.Placed.enter {r : Decoders} {source : Decoder} {outer : List LoopRange} {s : Scope}
    (h : s.Placed r source outer) {items : Option Expr}
    (hitems : ∀ e, items = some e → e.PlacedBelow r source outer) {params : List Parameter}
    {inner : Scope} (henter : s.enter r params items = .ok inner) (body : Expr) :
    inner.Placed r source (Lambda.ranges ⟨params, body⟩ items ++ outer) := by
  refine ⟨h.plain.enter henter, (group_of_enter henter).trans h.group, fun {name e} he => ?_⟩
  have houter {e : Expr} (he : s.lookup name = some e) :
      e.PlacedBelow r source (Lambda.ranges ⟨params, body⟩ items ++ outer) :=
    (h.lookup he).mono (List.subset_append_right _ _)
  rcases enter_cases henter with rfl | ⟨p, -, rfl⟩ | ⟨p, source, element, rfl, rfl, helement, rfl⟩
  · exact houter he
  · exact houter (lookup_hide_cases he)
  · rcases lookup_bind_cases he with ⟨-, rfl⟩ | he
    · exact (hitems source rfl).element helement
    · exact houter he

namespace Expr

variable {r : Decoders} {source : Decoder} {outer : List LoopRange} {s : Scope}

/-- An argument of a call is placed, a lambda within the loop over the items. -/
structure PlacedArg (r : Decoders) (source : Decoder) (outer : List LoopRange)
    (items : Option Expr) (b : Expr) : Prop where
  operand : b.kind ≠ .lambda → b.PlacedBelow r source outer
  loop : ∀ fn, b = lambda fn → b.PlacedBelow r source (fn.ranges items ++ outer)

theorem PlacedArg.placedBelow {b : Expr} (h : PlacedArg r source outer none b) :
    b.PlacedBelow r source outer := by
  rcases lambda_or_kind_ne b with ⟨params, body, rfl⟩ | hkind
  · have hranges : Lambda.ranges ⟨params, body⟩ none = [] := by
      unfold Lambda.ranges
      split
      · rename_i h
        cases h
      · rfl
    have hloop := h.loop _ rfl
    rwa [hranges] at hloop
  · exact h.operand hkind

theorem placedBelow_on {receiver : Expr} {args : List Expr}
    (hreceiver : receiver.PlacedBelow r source outer)
    (hargs : ∀ b ∈ args, PlacedArg r source outer (some receiver) b) (method : String)
    (declaring ty : Ty) :
    (call (some receiver) method declaring args ty).PlacedBelow r source outer := by
  refine placedBelow_iff.mpr ⟨placed_of_isWritten rfl, fun part hpart => ?_, ?_⟩
  · rcases List.mem_append.mp hpart with hpart | hpart
    · cases Option.mem_toList.mp hpart
      exact hreceiver
    · obtain ⟨hmem, hkind⟩ := List.mem_filter.mp hpart
      exact (hargs part hmem).operand (by simpa using hkind)
  · intro items fn hloop
    cases hloop with
    | receiver hmem => exact (hargs _ hmem).loop fn rfl

theorem placedBelow_static {first : Expr} {args : List Expr}
    (hfirst : PlacedArg r source outer none first)
    (hargs : ∀ b ∈ args, PlacedArg r source outer (some first) b) (method : String)
    (declaring ty : Ty) :
    (call none method declaring (first :: args) ty).PlacedBelow r source outer := by
  refine placedBelow_iff.mpr ⟨placed_of_isWritten rfl, fun part hpart => ?_, ?_⟩
  · obtain ⟨hmem, hkind⟩ := List.mem_filter.mp hpart
    have hkind : part.kind ≠ .lambda := by simpa using hkind
    rcases List.mem_cons.mp hmem with rfl | hmem
    · exact hfirst.operand hkind
    · exact (hargs part hmem).operand hkind
  · intro items fn hloop
    cases hloop with
    | first => exact hfirst.loop fn rfl
    | following hmem => exact (hargs _ hmem).loop fn rfl

/-- Binding an expression places its nodes, in every scope of a projector that is placed. -/
def BindsPlaced (r : Decoders) (source : Decoder) (e : Expr) : Prop :=
  ∀ s outer b, s.Placed r source outer → e.bind r s = .ok b → b.PlacedBelow r source outer

private theorem placedArg_of_boundArg (hs : s.Placed r source outer)
    {items : Option Expr} (hitems : ∀ e, items = some e → e.PlacedBelow r source outer)
    {e b : Expr} (h : BoundArg r s items e b) (ih : e.BindsPlaced r source)
    (ihb : ∀ params body, e = lambda ⟨params, body⟩ → body.BindsPlaced r source) :
    PlacedArg r source outer items b := by
  cases h with
  | operand hkind h =>
    have hb := ih s outer b hs h
    exact ⟨fun _ => hb, fun fn _ => hb.mono (List.subset_append_right _ _)⟩
  | @each inner params body b henter h =>
    refine ⟨fun hkind => absurd rfl hkind, ?_⟩
    rintro _ ⟨⟩
    have hbody := ihb params body rfl inner _ b (hs.enter hitems henter b) h
    refine placedBelow_of_parts nofun (placed_of_isWritten rfl) fun part hpart => ?_
    cases List.mem_singleton.mp hpart
    exact hbody

private theorem placedBelow_of_boundArgs (hs : s.Placed r source outer)
    {receiver : Option Expr} (hreceiver : ∀ e, receiver = some e → e.PlacedBelow r source outer)
    {es bs : List Expr} (h : BoundArgs r s receiver es bs)
    (ih : ∀ e ∈ es, e.BindsPlaced r source)
    (ihb : ∀ params body, lambda ⟨params, body⟩ ∈ es → body.BindsPlaced r source)
    (method : String) (declaring ty : Ty) :
    (call receiver method declaring bs ty).PlacedBelow r source outer := by
  have arg {items : Option Expr} (hitems : ∀ e, items = some e → e.PlacedBelow r source outer)
      {e b : Expr} (he : e ∈ es) (hb : BoundArg r s items e b) : PlacedArg r source outer items b :=
    placedArg_of_boundArg hs hitems hb (ih e he)
      fun params body heq => ihb params body (heq ▸ he)
  cases h with
  | on h =>
    refine placedBelow_on (hreceiver _ rfl) (fun b hb => ?_) method declaring ty
    obtain ⟨e, he, heb⟩ := exists_of_forall₂ h hb
    exact arg hreceiver he heb
  | nil =>
    refine placedBelow_iff.mpr ⟨placed_of_isWritten rfl, nofun, fun items fn hloop => ?_⟩
    cases hloop
  | @cons e₀ b₀ es bs hfirst h =>
    have hnone : ∀ e, (none : Option Expr) = some e → e.PlacedBelow r source outer := nofun
    have hb₀ := arg hnone List.mem_cons_self hfirst
    refine placedBelow_static hb₀ (fun b hb => ?_) method declaring ty
    obtain ⟨e, he, heb⟩ := exists_of_forall₂ h hb
    refine arg ?_ (List.mem_cons_of_mem e₀ he) heb
    rintro _ ⟨⟩
    exact hb₀.placedBelow

private theorem placedBelow_of_bind_call (hs : s.Placed r source outer)
    {receiver : Option Expr} {method : String} {declaring ty : Ty} {args : List Expr} {b : Expr}
    (ihr : ∀ e, receiver = some e → e.BindsPlaced r source)
    (iha : ∀ e ∈ args, e.BindsPlaced r source)
    (ihb : ∀ params body, lambda ⟨params, body⟩ ∈ args → body.BindsPlaced r source)
    (h : (call receiver method declaring args ty).bind r s = .ok b) :
    b.PlacedBelow r source outer := by
  obtain ⟨receiver', args', hreceiver, hargs, h⟩ := bind_call_cases h
  have hreceiver : ∀ e, receiver' = some e → e.PlacedBelow r source outer := by
    rintro e rfl
    cases hreceiver with
    | some h => exact ihr _ rfl s outer e hs h
  rcases h with hacc | rfl
  · have hsome := (accumulator?_cases hacc).1
    rw [hs.group] at hsome
    cases hsome
  · exact placedBelow_of_boundArgs hs hreceiver hargs iha ihb method declaring ty

private theorem placedBelow_of_bindMember {target b : Expr} {name : String} {declaring ty : Ty}
    (htarget : target.PlacedBelow r source outer) (hacc : target.NoAccumulator)
    (h : bindMember r target name declaring ty = .ok b) : b.PlacedBelow r source outer := by
  rcases bindMember_cases h with hresolve | rfl | ⟨fn, source, ty', item, body, rfl, -⟩
  · exact htarget.resolve hresolve
  · refine placedBelow_of_parts nofun (placed_of_isWritten rfl) fun part hpart => ?_
    cases List.mem_singleton.mp hpart
    exact htarget
  · exact (hacc.false rfl).elim

/-- Binding places all nodes. -/
theorem bindsPlaced_of_written (r : Decoders) (source : Decoder) {e : Expr} (he : e.Written) :
    e.BindsPlaced r source := by
  induction e using induct_nodes with
  | step e ih =>
    intro s outer b hs h
    have below {part n : Expr} (hpart : part ∈ e.parts) (hn : n ∈ part.nodes) :
        n.BindsPlaced r source :=
      ih part hpart n hn (he.below (mem_nodes_of_part hpart hn))
    cases hplain : e.isPlain with
    | true =>
      obtain ⟨hkind, hparts⟩ := forall₂_parts_of_bind hplain he.self h
      have hwritten : b.isWritten = true := by
        have hself := he.self
        rwa [isWritten, ← hkind] at hself
      have hcall : b.kind ≠ .call := by
        intro hcall
        rw [isPlain, ← hkind, hcall] at hplain
        cases hplain
      refine placedBelow_of_parts hcall (placed_of_isWritten hwritten) fun part' hpart' => ?_
      obtain ⟨part, hpart, hbound⟩ := exists_of_forall₂ hparts hpart'
      exact below hpart (self_mem_nodes part) s outer part' hs hbound
    | false =>
      cases e with
      | parameter p =>
        rcases bind_parameter_cases h with rfl | hlookup
        · exact placedBelow_of_parts (by simp [kind]) (placed_of_isWritten rfl) (by simp [parts])
        · exact hs.lookup hlookup
      | member target name declaring ty =>
        rcases bind_member_cases h with hkey | ⟨-, bound, hbound, h⟩
        · obtain ⟨-, -, g, hg, -⟩ := Scope.key?_cases hkey
          rw [hs.group] at hg
          cases hg
        · have htarget : target ∈ (member target name declaring ty).parts :=
            List.mem_singleton_self _
          have hplaced := below htarget (self_mem_nodes target) s outer bound hs hbound
          have hacc := noAccumulator_of_bind (he.part htarget) hs.plain hs.group hbound
          exact placedBelow_of_bindMember hplaced hacc.self h
      | call receiver method declaring args ty =>
        refine placedBelow_of_bind_call hs (fun a ha => ?_) (fun a ha => ?_)
          (fun params body hmem => ?_) h
        · exact below (by simp [parts, ha]) (self_mem_nodes a)
        · exact below (by simp [parts, ha]) (self_mem_nodes a)
        · exact below (by simp [parts, hmem]) (body_mem_nodes ⟨params, body⟩)
      | lambda fn =>
        obtain ⟨body', hbody, rfl⟩ := bind_lambda_cases h
        refine placedBelow_of_parts (by simp [kind]) (placed_of_isWritten rfl) fun part hpart => ?_
        cases List.mem_singleton.mp hpart
        exact below (by simp [parts]) (self_mem_nodes fn.body) s outer body' hs hbody
      | _ => cases hplain

end Expr

namespace Lambda

theorem placed_projectorScope (r : Decoders) (p : Parameter) (source : Decoder) :
    (projectorScope p source).Placed r source [] := by
  refine ⟨plain_projectorScope p source, rfl, fun {name e} he => ?_⟩
  rcases Scope.lookup_bind_cases he with ⟨-, rfl⟩ | he
  · exact Expr.placedBelow_document (.inl (.refl source))
  · cases he

theorem loopVariable_append_inj {x y : String} {es fs : List String}
    (h : (Path.loopVariable x).segments ++ es = (Path.loopVariable y).segments ++ fs) :
    x = y ∧ es = fs := by
  simpa [Path.loopVariable] using h

/-- In a bound projector every field and document has the decoder that its path leads to. If the
path does not start at the variable of an enclosing loop over a computed source, it leads there from
the source. If it starts at a loop variable, it leads there from the items of a computed source that
an enclosing lambda with this parameter ranges over. -/
theorem decoder_at_path_of_bindProjector (r : Decoders) (source : Decoder) (projector : Lambda)
    (body : Expr) (hwritten : projector.body.Written)
    (helements : ∀ e ∈ source.elements, e.toList.head? ≠ some '$')
    (h : projector.bindProjector r source = .ok body) :
    (∀ n ∈ body.nodes, ∃ ranges, Expr.Occurs n ranges body) ∧
      ∀ (n : Expr) (ranges : List LoopRange) (segments : List String) (d : Decoder),
        n.Occurs ranges body → n.place? = some (segments, d) →
        ((∀ range ∈ ranges, range.source.place? = none →
            ¬ (Path.loopVariable range.parameter.name).segments <+: segments) →
          source.Traces segments d) ∧
        ∀ x rest, segments = (Path.loopVariable x).segments ++ rest →
          ∃ range ∈ ranges, range.parameter.name = x ∧ range.source.place? = none ∧
            ∃ i, range.source.itemDecoder r = .ok i ∧ i.Traces rest d := by
  obtain ⟨p, -, hbody⟩ := bindProjector_cases h
  have hplaced := Expr.bindsPlaced_of_written r source hwritten _ [] body
    (placed_projectorScope r p source) hbody
  refine ⟨fun n hn => Expr.exists_occurs hn, ?_⟩
  intro n ranges segments d hn hplace
  have hreached := hplaced n ranges hn segments d hplace
  rw [List.append_nil] at hreached
  constructor
  · intro hapart
    rcases hreached with htrace | ⟨range, hrange, hsource, i, rest, -, rfl, -⟩
    · exact htrace
    · exact absurd (List.prefix_append _ rest) (hapart range hrange hsource)
  · rintro x rest rfl
    rcases hreached with htrace | ⟨range, hrange, hsource, i, rest', hi, heq, htrace⟩
    · have hmem := htrace.mem_elements ("$" ++ x) (by simp [Path.loopVariable])
      exact absurd (by simp) (helements _ hmem)
    · obtain ⟨rfl, rfl⟩ := loopVariable_append_inj heq
      exact ⟨range, hrange, rfl, hsource, i, hi, htrace⟩

end Lambda

namespace Orders

open QueryStage.Expr

def largeQuantities : Lambda where
  params := [ofOrder "o"]
  body := named (.record "Quantities")
    [("Large", sequenceCall "Select" largeItems [lambda ⟨[ofItem "j"], quantityOf "j"⟩]
      (.array .int32))]

def boundLargeItems : Expr :=
  sequenceCall "Where" (field ⟨["items"]⟩ (.array (.document item)) (.array (.record "Item")))
    [lambda ⟨[ofItem "i"], binary .greaterThan (field ⟨["items", "qty"]⟩ (.value .int32) .int32)
      (field ⟨["amount"]⟩ (.value .int32) .int32) .boolean⟩]
    (.array (.record "Item"))

def boundQuantity : Expr := field ⟨["$j", "qty"]⟩ (.value .int32) .int32

def boundLargeQuantities : Expr :=
  named (.record "Quantities")
    [("Large", sequenceCall "Select" boundLargeItems [lambda ⟨[ofItem "j"], boundQuantity⟩]
      (.array .int32))]

/-- A quantity is bound below the variable of the loop over the large items, and it is decoded as
that member of their items. -/
theorem quantity_of_large_item :
    largeQuantities.body.Written ∧ (∀ e ∈ source.elements, e.toList.head? ≠ some '$') ∧
      largeQuantities.bindProjector registry source = .ok boundLargeQuantities ∧
      Occurs boundQuantity [⟨boundLargeItems, ofItem "j"⟩] boundLargeQuantities ∧
      ∃ i, boundLargeItems.itemDecoder registry = .ok i ∧ i.Traces ["qty"] (.value .int32) := by
  have hwritten : largeQuantities.body.Written := by decide
  have helements : ∀ e ∈ source.elements, e.toList.head? ≠ some '$' := by decide
  have hoccurs : Occurs boundQuantity [⟨boundLargeItems, ofItem "j"⟩] boundLargeQuantities := by
    refine .operand List.mem_cons_self ?_
    have hbody : Occurs boundQuantity [] (lambda ⟨[ofItem "j"], boundQuantity⟩) :=
      .operand List.mem_cons_self .here
    exact .loop (.following List.mem_cons_self) hbody
  obtain ⟨-, hplaces⟩ := Lambda.decoder_at_path_of_bindProjector registry source largeQuantities
    boundLargeQuantities hwritten helements rfl
  obtain ⟨range, hrange, -, -, hitems⟩ :=
    (hplaces boundQuantity _ ["$j", "qty"] (.value .int32) hoccurs rfl).2 "j" ["qty"] rfl
  cases List.mem_singleton.mp hrange
  exact ⟨hwritten, helements, rfl, hoccurs, hitems⟩

end Orders

end QueryStage
