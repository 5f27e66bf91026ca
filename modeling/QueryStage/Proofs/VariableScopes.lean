import QueryStage.Proofs.BindingOrigins
import QueryStage.Proofs.Renaming
import QueryStage.Proofs.Tracing

/-!
# Scopes of loop variables

Two names are followed through an expression. A bound node starts at the variable of one of them
only inside a lambda that declares it, and lambdas that declare them nest in one way only. Binding
keeps this, so the loop variables of a bound expression are used in their scopes.
-/

namespace QueryStage

/-- The path starts at the variable of this name. -/
def Path.AtVariable (x : String) (p : Path) : Prop := p.segments.head? = some ("$" ++ x)

/-- The path has a start, and it is the variable of one of the two names only if that is among the
names declared around it. -/
structure Path.Within (v w : String) (outer : List String) (p : Path) : Prop where
  start : p.segments ≠ []
  declared : ∀ x ∈ [v, w], p.AtVariable x → x ∈ outer

/-- Nothing in the decoder is stored under the variables of the two names. -/
def Decoder.Without (v w : String) (d : Decoder) : Prop := ∀ x ∈ [v, w], "$" ++ x ∉ d.elements

instance (v w : String) (d : Decoder) : Decidable (d.Without v w) :=
  inferInstanceAs (Decidable (∀ x ∈ [v, w], "$" ++ x ∉ d.elements))

variable {strict : Bool} {v w : String} {closed outer outer' : List String}

theorem Path.head?_child {p : Path} (h : p.segments ≠ []) (name : String) :
    (p.child name).segments.head? = p.segments.head? := by
  rw [segments_child, List.head?_append_of_ne_nil _ h]

namespace Path.Within

variable {p : Path}

theorem mono (h : p.Within v w outer) (hsub : outer ⊆ outer') : p.Within v w outer' :=
  ⟨h.start, fun x hx hp => hsub (h.declared x hx hp)⟩

theorem child (h : p.Within v w outer) (name : String) : (p.child name).Within v w outer := by
  refine ⟨by simp, fun x hx hp => h.declared x hx ?_⟩
  rwa [AtVariable, head?_child h.start] at hp

end Path.Within

theorem Path.atVariable_loopVariable {x y : String} :
    (Path.loopVariable y).AtVariable x ↔ x = y := by
  simp [AtVariable, loopVariable, eq_comm]

theorem Path.within_loopVariable {x : String} (h : x ∈ [v, w] → x ∈ outer) :
    (Path.loopVariable x).Within v w outer := by
  refine ⟨by simp [loopVariable], fun y hy hp => ?_⟩
  cases atVariable_loopVariable.mp hp
  exact h hy

namespace Decoder.Without

variable {d : Decoder}

theorem item {i : Decoder} (h : d.Without v w) (hi : d.item? = some i) : i.Without v w := by
  rw [Without, elements_of_item? hi]
  exact h

theorem within {name : String} {m : MemberDecoder} (h : d.Without v w)
    (hm : d.member? name = some m) : (Path.mk [m.element]).Within v w outer := by
  refine ⟨by simp, fun x hx hp => absurd (elements_of_member? hm).1 ?_⟩
  rw [Option.some.inj hp]
  exact h x hx

end Decoder.Without

/-- Where these names are declared around it, a lambda may declare these parameters: `w` by itself
and not inside another `w`. If the two are to be strictly apart, neither is inside the other. -/
structure Nests (strict : Bool) (v w : String) (outer params : List String) : Prop where
  alone : w ∈ params → params = [w]
  once : w ∈ params → w ∉ outer
  second : strict = true → w ∈ params → v ∉ outer
  first : strict = true → v ∈ params → w ∉ outer

theorem nests_nil : Nests strict v w outer [] := ⟨nofun, nofun, nofun, nofun⟩

namespace Expr

/-- The parts of an expression, each with the names that are declared for it. -/
def scopedParts : Expr → List (List String × Expr)
  | lambda fn => [(fn.params.map Parameter.name, fn.body)]
  | accumulate _ source (some fn) _ => [([], source), (fn.params.map Parameter.name, fn.body)]
  | document (parameter _) _ _ => []
  | e => e.parts.map fun part => ([], part)

/-- A bound node starts at no variable out of its scope, and the current document holds none. No
parameter of a closed name stands by itself. Where a member is read from an accumulated element, the
elements have a place or their name `item` is none of the two. -/
def Held (v w : String) (closed outer : List String) : Expr → Prop
  | parameter p => p.name ∉ closed
  | field path _ _ => path.Within v w outer
  | document _ (some path) _ => path.Within v w outer
  | document _ none d => d.Without v w
  | accumulate _ source none _ => source.kind = .document ∨ "item" ∉ [v, w]
  | _ => True

/-- All nodes are held where they stand. -/
inductive Scoped (strict : Bool) (v w : String) (closed : List String) : List String → Expr → Prop
  | intro {outer : List String} {e : Expr} (self : e.Held v w closed outer)
    (nests : ∀ part ∈ e.scopedParts, Nests strict v w outer part.1)
    (parts : ∀ part ∈ e.scopedParts, Scoped strict v w closed (part.1 ++ outer) part.2) :
    Scoped strict v w closed outer e

variable {e b : Expr}

/-- Whether the parts of a node are in the same scope. -/
def isOpen (e : Expr) : Bool :=
  match e.kind with
  | .lambda | .accumulator | .document => false
  | _ => true

theorem scopedParts_of_isOpen (h : e.isOpen = true) :
    e.scopedParts = e.parts.map fun part => ([], part) := by
  cases e with
  | lambda => cases h
  | accumulate => cases h
  | document => cases h
  | _ => rfl

/-- The node is an accumulator of whole elements, whose members are read under the name `item`. -/
def isBare : Expr → Bool
  | accumulate _ _ none _ => true
  | _ => false

/-- The node is not bound, and it reads no elements under one of the two names. -/
def Renamable (v w : String) (n : Expr) : Prop :=
  n.isUnbound = true ∧ (n.isBare = true → "item" ∉ [v, w])

theorem renamable_of_unbound (he : e.Unbound)
    (hbare : "item" ∈ [v, w] → e.All fun n => n.isBare = false) : e.All (Renamable v w) := by
  refine fun n hn => ⟨he n hn, fun h hitem => ?_⟩
  rw [hbare hitem n hn] at h
  cases h

theorem Renamable.unbound (he : e.All (Renamable v w)) : e.Unbound := fun n hn => (he n hn).1

theorem Renamable.of_rename {f : String → String} (he : (e.rename f).All (Renamable v w)) :
    e.All (Renamable v w) := by
  refine all_of_rename (fun n hn => ?_) he
  obtain ⟨hunbound, hbare⟩ := hn
  rw [isUnbound_rename] at hunbound
  refine ⟨⟨hunbound, fun h => hbare ?_⟩, kind_ne_document hunbound⟩
  cases n with
  | accumulate _ _ selector =>
    cases selector with
    | none => rfl
    | some => cases h
  | _ => cases h

theorem Held.mono (h : e.Held v w closed outer) (hsub : outer ⊆ outer') :
    e.Held v w closed outer' := by
  cases e with
  | field => exact Path.Within.mono h hsub
  | document _ path =>
    cases path with
    | none => exact h
    | some path => exact Path.Within.mono h hsub
  | accumulate _ _ selector => cases selector <;> exact h
  | _ => exact h

namespace Scoped

theorem self (h : e.Scoped strict v w closed outer) : e.Held v w closed outer := by
  cases h with
  | intro self => exact self

theorem nests (h : e.Scoped strict v w closed outer) {names : List String} {part : Expr}
    (hpart : (names, part) ∈ e.scopedParts) : Nests strict v w outer names := by
  cases h with
  | intro _ nests => exact nests _ hpart

theorem scopedPart (h : e.Scoped strict v w closed outer) {names : List String} {part : Expr}
    (hpart : (names, part) ∈ e.scopedParts) : part.Scoped strict v w closed (names ++ outer) := by
  cases h with
  | intro _ _ parts => exact parts _ hpart

theorem part (h : e.Scoped strict v w closed outer) (hopen : e.isOpen = true) {part : Expr}
    (hpart : part ∈ e.parts) : part.Scoped strict v w closed outer := by
  have hmem : ([], part) ∈ e.scopedParts := by
    rw [scopedParts_of_isOpen hopen]
    exact List.mem_map_of_mem hpart
  exact h.scopedPart hmem

theorem inner {inner : Expr} {path : Option Path} {d : Decoder}
    (h : (document inner path d).Scoped strict v w closed outer)
    (hinner : inner.kind ≠ .parameter) : inner.Scoped strict v w closed outer := by
  have hmem : ([], inner) ∈ (document inner path d).scopedParts := by
    cases inner with
    | parameter => exact absurd rfl hinner
    | _ => exact List.mem_singleton_self _
  exact h.scopedPart hmem

theorem source {fn : AccumulatorFn} {source : Expr} {selector : Option Lambda} {ty : Ty}
    (h : (accumulate fn source selector ty).Scoped strict v w closed outer) :
    source.Scoped strict v w closed outer := by
  have hmem : ([], source) ∈ (accumulate fn source selector ty).scopedParts := by
    cases selector <;> simp [scopedParts, parts]
  exact h.scopedPart hmem

end Scoped

theorem scoped_of_parts (hself : e.Held v w closed outer) (hopen : e.isOpen = true)
    (hparts : ∀ part ∈ e.parts, part.Scoped strict v w closed outer) :
    e.Scoped strict v w closed outer := by
  have hscoped := scopedParts_of_isOpen hopen
  refine .intro hself (fun part hpart => ?_) fun part hpart => ?_
  · rw [hscoped] at hpart
    obtain ⟨part, -, rfl⟩ := List.mem_map.mp hpart
    exact nests_nil
  · rw [hscoped] at hpart
    obtain ⟨e, he, rfl⟩ := List.mem_map.mp hpart
    exact hparts e he

theorem scoped_field {path : Path} {d : Decoder} {ty : Ty} (h : path.Within v w outer) :
    (field path d ty).Scoped strict v w closed outer :=
  scoped_of_parts h rfl nofun

theorem scoped_document {p : Parameter} {path : Option Path} {d : Decoder}
    (h : (document (parameter p) path d).Held v w closed outer) :
    (document (parameter p) path d).Scoped strict v w closed outer :=
  .intro h nofun nofun

theorem Scoped.resolve (he : e.Scoped strict v w closed outer) {name : String} {ty : Ty}
    (h : e.resolve? name ty = some b) : b.Scoped strict v w closed outer := by
  rcases resolve?_cases h with ⟨path, d, ty', m, rfl, hm, rfl⟩ |
    ⟨inner, path, d, m, rfl, hm, rfl, -⟩ | ⟨ty', parameters, args, members, he', hb⟩
  · exact scoped_field (Path.Within.child he.self _)
  · cases path with
    | none => exact scoped_field (Decoder.Without.within he.self hm)
    | some path => exact scoped_field (Path.Within.child he.self _)
  · have hmem := mem_of_constructed? hb
    rcases he' with rfl | ⟨path, d, rfl⟩
    · exact he.part rfl hmem
    · have hconstruct : (construct ty' parameters args members).Scoped strict v w closed outer :=
        he.inner nofun
      exact hconstruct.part rfl hmem

theorem Scoped.element {r : Decoders} {source : Expr} {p : Parameter}
    (hsource : source.Scoped strict v w closed outer) (h : source.element? r p = .ok (some b))
    (hp : p.name ∈ [v, w] → p.name ∈ outer') (hsub : outer ⊆ outer') :
    b.Scoped strict v w closed outer' := by
  have hself := hsource.self.mono hsub
  rcases element?_cases h with ⟨path, d, ty, i, rfl, hi, rfl⟩ |
    ⟨inner, path, d, i, rfl, hi, rfl⟩ | ⟨i, -, -, -, rfl⟩
  · exact scoped_document hself
  · cases path with
    | none => exact scoped_document (Decoder.Without.item hself hi)
    | some path => exact scoped_document hself
  · exact scoped_document (Path.within_loopVariable hp)

theorem Scoped.elementAt {r : Decoders} {source : Expr} {p : Parameter}
    (hsource : source.Scoped strict v w closed outer) (hkind : source.kind = .document)
    (h : source.element? r p = .ok (some b)) : b.Scoped strict v w closed outer := by
  have hself := hsource.self
  rcases element?_cases h with ⟨path, d, ty, i, rfl, -, -⟩ |
    ⟨inner, path, d, i, rfl, hi, rfl⟩ | ⟨i, -, hdocument, -⟩
  · cases hkind
  · cases path with
    | none => exact scoped_document (Decoder.Without.item hself hi)
    | some path => exact scoped_document hself
  · exact absurd hkind hdocument

end Expr

/-- What the parameters in scope stand for is scoped here and further inside, and the key of the
group everywhere. The closed names stand for something, unless they are not met at all, and the
name of the grouping is closed unless the name of its elements is none of the two. -/
structure Scope.Scoped (strict : Bool) (v w : String) (unmet closed outer : List String)
    (s : Scope) : Prop where
  lookup : ∀ {name : String} {e : Expr}, s.lookup name = some e →
    ∀ inner, outer ⊆ inner → e.Scoped strict v w closed inner
  held : ∀ x ∈ closed, x ∈ unmet ∨ (s.lookup x).isSome = true
  item : ∀ {g : GroupScope}, s.group = some g → g.parameter ∈ closed ∨ "item" ∉ [v, w]
  key : ∀ {g : GroupScope}, s.group = some g → ∀ inner, g.key.Scoped strict v w closed inner

namespace Scope.Scoped

variable {unmet : List String} {s : Scope}

theorem mono (h : s.Scoped strict v w unmet closed outer) (hsub : outer ⊆ outer') :
    s.Scoped strict v w unmet closed outer' :=
  ⟨fun he inner hinner => h.lookup he inner fun _ hx => hinner (hsub hx), h.held, h.item, h.key⟩

theorem enter {r : Decoders} (h : s.Scoped strict v w unmet closed outer) {params : List Parameter}
    (hparams : ∀ x ∈ closed, x ∉ params.map Parameter.name) {source : Option Expr}
    (hsource : ∀ e, source = some e → e.Scoped strict v w closed outer) {inner : Scope}
    (henter : s.enter r params source = .ok inner) :
    inner.Scoped strict v w unmet closed (params.map Parameter.name ++ outer) := by
  have hgroup := group_of_enter henter
  refine ⟨fun {name e} he scope hsub => ?_, fun x hx => (h.held x hx).imp_right fun hheld => ?_,
    hgroup ▸ h.item, hgroup ▸ h.key⟩
  · have hsub' : outer ⊆ scope := fun x hx => hsub (List.mem_append_right _ hx)
    rcases enter_cases henter with rfl | ⟨p, -, rfl⟩ |
      ⟨p, items, element, rfl, rfl, helement, rfl⟩
    · exact h.lookup he scope hsub'
    · exact h.lookup (lookup_hide_cases he) scope hsub'
    · rcases lookup_bind_cases he with ⟨-, rfl⟩ | he
      · exact (hsource items rfl).element helement (fun _ => hsub (by simp)) hsub'
      · exact h.lookup he scope hsub'
  · have hne {p : Parameter} (hp : params = [p]) : x ≠ p.name := by
      rintro rfl
      exact hparams _ hx (by simp [hp])
    rcases enter_cases henter with rfl | ⟨p, hp, rfl⟩ | ⟨p, items, element, hp, -, -, rfl⟩
    · exact hheld
    · rwa [lookup_hide_of_ne s (hne hp)]
    · rwa [lookup_bind_of_ne s (hne hp)]

end Scope.Scoped

namespace Expr

variable {r : Decoders} {unmet : List String} {s : Scope} {e b : Expr}

end Expr

end QueryStage
