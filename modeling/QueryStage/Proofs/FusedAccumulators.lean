import QueryStage.Proofs.AccumulatorNesting

/-!
# Fused accumulators

Inside a group projector, values that are selected from the group, passed on and then reduced are
accumulated at once: the result is the accumulator of the reduction with the selector. In the same
way a member of the first or last element is the first or last of the selected members.
-/

namespace QueryStage

namespace Scope

/-- Scopes inside a group projector in which `g` denotes the grouping: that of its body, and those
of the lambdas in it that do not take the name for themselves. -/
inductive InGroup (ds : Decoders) (g : Parameter) (element : Decoder) (key : Expr) : Scope → Prop
  | projector : InGroup ds g element key (Lambda.groupScope g element key)
  | lambda {s inner : Scope} {params : List Parameter} {source : Option Expr}
    (hs : InGroup ds g element key s) (hparams : ∀ p ∈ params, p.name ≠ g.name)
    (henter : s.enter ds params source = .ok inner) : InGroup ds g element key inner

namespace InGroup

variable {ds : Decoders} {g : Parameter} {element : Decoder} {key : Expr} {s : Scope}

theorem group (hs : s.InGroup ds g element key) : s.group = some ⟨g.name, key⟩ := by
  induction hs with
  | projector => rfl
  | lambda _ _ henter ih => rw [group_of_enter henter, ih]

theorem lookup (hs : s.InGroup ds g element key) :
    s.lookup g.name = some (Lambda.root g (.array element)) := by
  induction hs with
  | projector => exact lookup_bind_self _ _ _
  | lambda _ hparams henter ih =>
    rw [← ih]
    rcases enter_cases henter with rfl | ⟨p, rfl, rfl⟩ | ⟨p, items, e, rfl, -, -, rfl⟩
    · rfl
    · exact lookup_hide_of_ne _ (hparams p List.mem_cons_self).symm
    · exact lookup_bind_of_ne _ (hparams p List.mem_cons_self).symm e

theorem isGrouping_root (hs : s.InGroup ds g element key) (d : Decoder) :
    s.isGrouping (Lambda.root g d) = true := by
  simp [isGrouping, Lambda.root, hs.group]

theorem isGrouping_of_ne (hs : s.InGroup ds g element key) {x : Parameter} (hx : x.name ≠ g.name) :
    s.isGrouping (.parameter x) = false := by
  simp [isGrouping, hs.group, hx]

end InGroup

end Scope

namespace Expr

/-- A sequence that calls pass on, each a method with the type of its result. -/
def passedOn (e : Expr) (calls : List (String × Ty)) : Expr :=
  calls.foldl (fun e c => sequenceCall c.1 e [] c.2) e

/-- The methods that yield the items of a sequence as they are. -/
def passingMethods : List String := ["ToList", "ToArray", "AsEnumerable"]

theorem named_of_passing {method : String} (h : method ∈ passingMethods) :
    SequenceMethod.named method = SequenceMethod.keep := by
  simp only [passingMethods, List.mem_cons, List.not_mem_nil, or_false] at h
  rcases h with rfl | rfl | rfl <;> rfl

theorem kind_passedOn {e : Expr} (h : e.kind ≠ .lambda) (calls : List (String × Ty)) :
    (e.passedOn calls).kind ≠ .lambda := by
  induction calls generalizing e with
  | nil => exact h
  | cons c calls ih => exact ih (by simp [sequenceCall, kind])

/-- The values that `sel` yields for the elements of the group, passed on by `calls` and then
handed to `method`. -/
def selectThen (g : Parameter) (sel : Lambda) (selectTy : Ty) (calls : List (String × Ty))
    (method : String) (ty : Ty) : Expr :=
  sequenceCall method
    ((sequenceCall "Select" (parameter g) [lambda sel] selectTy).passedOn calls) [] ty

section Calls

variable {ds : Decoders} {s : Scope}

theorem bind_sequenceCall (method : String) {source : Expr} (hkind : source.kind ≠ .lambda)
    (ty : Ty) : (sequenceCall method source [] ty).bind ds s = (do
      let b ← source.bind ds s
      return (s.accumulator? method .enumerable [b] ty).getD (sequenceCall method b [] ty)) := by
  rw [sequenceCall, bind, bindArgs_cons none hkind]
  cases source.bind ds s with
  | error fault => rfl
  | ok b => rfl

theorem bind_sequenceCall_each (method : String) {source b : Expr}
    (hkind : source.kind ≠ .lambda) (hsource : source.bind ds s = .ok b) (fn : Lambda) (ty : Ty) :
    (sequenceCall method source [lambda fn] ty).bind ds s = (do
      let inner ← s.enter ds fn.params (some b)
      let body ← fn.body.bind ds inner
      let args := [lambda ⟨fn.params, body⟩]
      return (s.accumulator? method .enumerable (b :: args) ty).getD
        (sequenceCall method b args ty)) := by
  obtain ⟨params, body⟩ := fn
  rw [sequenceCall, bind, bindArgs_cons none hkind, hsource, ok_bind]
  simp only [bindArgs, Option.none_or]
  cases s.enter ds params (some b) with
  | error fault => rfl
  | ok inner =>
    rw [ok_bind, ok_bind]
    cases body.bind ds inner with
    | error fault => rfl
    | ok body => rfl

end Calls

section Selected

variable {ds : Decoders} {g : Parameter} {element : Decoder} {key : Expr} {s : Scope}

/-- The selector of an accumulator, with its parameter bound to the elements of the group. -/
def boundSelector (ds : Decoders) (s : Scope) (g : Parameter) (element : Decoder) (fn : Lambda) :
    Except Fault Lambda := do
  let inner ← s.enter ds fn.params (some (Lambda.root g (.array element)))
  return ⟨fn.params, ← fn.body.bind ds inner⟩

/-- The accumulator of the values that a selector yields for the elements of the group. -/
def accumulated (g : Parameter) (element : Decoder) (fn : AccumulatorFn) (ty : Ty)
    (selector : Lambda) : Expr :=
  accumulate fn (Lambda.root g (.array element)) (some selector) ty

theorem bind_grouping (hs : s.InGroup ds g element key) :
    (parameter g).bind ds s = .ok (Lambda.root g (.array element)) := by
  rw [bind, hs.lookup]
  rfl

theorem bind_selecting (hs : s.InGroup ds g element key) {method : String} {fn : AccumulatorFn}
    (hmethod : accumulating? method true = some (fn, false)) (sel : Lambda) (ty : Ty) :
    (sequenceCall method (parameter g) [lambda sel] ty).bind ds s =
      accumulated g element fn ty <$> boundSelector ds s g element sel := by
  have haccumulator (sel' : Lambda) :
      s.accumulator? method .enumerable [Lambda.root g (.array element), lambda sel'] ty =
        some (accumulated g element fn ty sel') := by
    simp [accumulator?_pair, hs.group, Scope.accumulator?.ofGrouping, hs.isGrouping_root,
      grouped?_eq, hmethod, accumulated]
  rw [bind_sequenceCall_each method (by simp [kind]) (bind_grouping hs)]
  simp only [haccumulator, boundSelector, map_bind, map_pure, Option.getD_some]

theorem bind_following (hs : s.InGroup ds g element key) {method : String} {fn : AccumulatorFn}
    (hmethod : AccumulatorFn.following? method = some fn) {e : Expr} (hkind : e.kind ≠ .lambda)
    {ty' : Ty} {selector : Except Fault Lambda}
    (h : e.bind ds s = accumulated g element .push ty' <$> selector) (ty : Ty) :
    (sequenceCall method e [] ty).bind ds s = accumulated g element fn ty <$> selector := by
  have haccumulator (sel' : Lambda) : s.accumulator? method .enumerable
      [accumulated g element .push ty' sel'] ty = some (accumulated g element fn ty sel') := by
    simp [Scope.accumulator?, accumulated, hs.group, hmethod]
  rw [bind_sequenceCall method hkind, h, bind_map_left]
  simp only [haccumulator, Option.getD_some, bind_pure_comp]

theorem following?_of_passing {method : String} (h : method ∈ passingMethods) :
    AccumulatorFn.following? method = some .push := by
  simp only [passingMethods, List.mem_cons, List.not_mem_nil, or_false] at h
  rcases h with rfl | rfl | rfl <;> rfl

/-- Selected values that are passed on are still collected. The induction is on the calls, and each
of them may change the type of the collection. -/
theorem bind_passedOn (hs : s.InGroup ds g element key) {calls : List (String × Ty)}
    (hcalls : ∀ c ∈ calls, c.1 ∈ passingMethods) {e : Expr} (hkind : e.kind ≠ .lambda) {ty : Ty}
    {selector : Except Fault Lambda}
    (h : e.bind ds s = accumulated g element .push ty <$> selector) :
    ∃ ty', (e.passedOn calls).bind ds s = accumulated g element .push ty' <$> selector := by
  induction calls generalizing e ty with
  | nil => exact ⟨ty, h⟩
  | cons c calls ih =>
    have hpush := following?_of_passing (hcalls c List.mem_cons_self)
    exact ih (fun c' hc' => hcalls c' (List.mem_cons_of_mem _ hc')) (by simp [sequenceCall, kind])
      (bind_following hs hpush hkind h c.2)

/-- Values that are selected, passed on and then accumulated make one accumulator. -/
theorem bind_selectThen (hs : s.InGroup ds g element key) {calls : List (String × Ty)}
    (hcalls : ∀ c ∈ calls, c.1 ∈ passingMethods) {method : String} {fn : AccumulatorFn}
    (hmethod : AccumulatorFn.following? method = some fn) (sel : Lambda) (selectTy ty : Ty) :
    (selectThen g sel selectTy calls method ty).bind ds s =
      accumulated g element fn ty <$> boundSelector ds s g element sel := by
  have hpush : accumulating? "Select" true = some (.push, false) := rfl
  have hselect := bind_selecting hs hpush sel selectTy
  have hkind : (sequenceCall "Select" (parameter g) [lambda sel] selectTy).kind ≠ .lambda := by
    simp [sequenceCall, kind]
  obtain ⟨ty', hpassed⟩ := bind_passedOn hs hcalls hkind hselect
  exact bind_following hs hmethod (kind_passedOn hkind calls) hpassed ty

theorem resolve?_root {name : String} {m : MemberDecoder} (hm : element.member? name = some m)
    (x : Parameter) (ty : Ty) :
    (Lambda.root x element).resolve? name ty = some (field ⟨[m.element]⟩ m.decoder ty) := by
  simp [Lambda.root, resolve?, resolve?.declared?, hm, Path.child]

theorem boundSelector_member (hs : s.InGroup ds g element key) {name : String} {m : MemberDecoder}
    (hm : element.member? name = some m) {x : Parameter} (hx : x.name ≠ g.name)
    (declaring ty : Ty) :
    boundSelector ds s g element ⟨[x], member (parameter x) name declaring ty⟩ =
      .ok ⟨[x], field ⟨[m.element]⟩ m.decoder ty⟩ := by
  let inner := s.bind x.name (Lambda.root x element)
  have henter : s.enter ds [x] (some (Lambda.root g (.array element))) = .ok inner := rfl
  have hinner : inner.InGroup ds g element key := by
    refine .lambda hs ?_ henter
    intro p hp
    rwa [List.mem_singleton.mp hp]
  have hkey : inner.key? (parameter x) name = none :=
    Scope.key?_of_isGrouping_eq_false (hinner.isGrouping_of_ne hx) name
  have hparameter : (parameter x).bind ds inner = .ok (Lambda.root x element) := by
    rw [bind, Scope.lookup_bind_self]
    rfl
  rw [boundSelector, henter, ok_bind, bind, hkey]
  simp only [hparameter, ok_bind, bindMember_of_resolve? (resolve?_root hm x ty)]
  rfl

/-- The methods that yield one element of the group, and their accumulators. -/
def ofOneElement : List (String × AccumulatorFn) := [("First", .first), ("Last", .last)]

theorem ofOneElement_cases {method : String} {fn : AccumulatorFn}
    (h : (method, fn) ∈ ofOneElement) :
    (method = "First" ∧ fn = .first) ∨ (method = "Last" ∧ fn = .last) := by
  simpa [ofOneElement] using h

theorem bind_one (hs : s.InGroup ds g element key) {method : String} {fn : AccumulatorFn}
    (hmethod : (method, fn) ∈ ofOneElement) (ty : Ty) :
    (sequenceCall method (parameter g) [] ty).bind ds s =
      .ok (accumulate fn (Lambda.root g (.array element)) none ty) := by
  have haccumulator : s.accumulator? method .enumerable [Lambda.root g (.array element)] ty =
      some (accumulate fn (Lambda.root g (.array element)) none ty) := by
    have hgrouping := hs.isGrouping_root (.array element)
    unfold Lambda.root at hgrouping ⊢
    rcases ofOneElement_cases hmethod with ⟨rfl, rfl⟩ | ⟨rfl, rfl⟩ <;>
      simp [Scope.accumulator?, Scope.accumulator?.ofGrouping, grouped?, hs.group, hgrouping]
  rw [bind_sequenceCall method (by simp [kind]), bind_grouping hs, ok_bind, haccumulator]
  rfl

theorem bindMember_one {method : String} {fn : AccumulatorFn}
    (hmethod : (method, fn) ∈ ofOneElement) {name : String} {m : MemberDecoder}
    (hm : element.member? name = some m) (elementTy declaring ty : Ty) :
    bindMember ds (accumulate fn (Lambda.root g (.array element)) none elementTy) name declaring
      ty = .ok (accumulated g element fn ty ⟨[], field ⟨[m.element]⟩ m.decoder ty⟩) := by
  have hitem (p : Parameter) : (Lambda.root g (.array element)).element? ds p =
      .ok (some (Lambda.root p element)) := rfl
  have hnone : (accumulate fn (Lambda.root g (.array element)) none elementTy).resolve? name ty =
      none := rfl
  rcases ofOneElement_cases hmethod with ⟨-, rfl⟩ | ⟨-, rfl⟩ <;>
    simp only [bindMember, hnone, bindMember.fold, hitem, ok_bind, Option.bind_some,
      resolve?_root hm, pure_eq_ok, accumulated]

theorem bind_member_one (hs : s.InGroup ds g element key) {method : String} {fn : AccumulatorFn}
    (hmethod : (method, fn) ∈ ofOneElement) {name : String} {m : MemberDecoder}
    (hm : element.member? name = some m) (elementTy declaring ty : Ty) :
    (member (sequenceCall method (parameter g) [] elementTy) name declaring ty).bind ds s =
      .ok (accumulated g element fn ty ⟨[], field ⟨[m.element]⟩ m.decoder ty⟩) := by
  have hkey : s.key? (sequenceCall method (parameter g) [] elementTy) name = none :=
    Scope.key?_of_isGrouping_eq_false (Scope.isGrouping_of_kind (by simp [sequenceCall, kind])
      (by simp [sequenceCall, kind])) name
  rw [bind, hkey]
  simp only [bind_one hs hmethod, ok_bind]
  exact bindMember_one hmethod hm elementTy declaring ty

end Selected

/-- Inside a group projector, values that are selected from the group, passed on any number of times
and then reduced bind to the accumulator of the reduction by that selector. A member of the first or
last element and the first or last of the selected members are the same aggregation, with the same
decoder. -/
theorem selections_fuse (ds : Decoders) (g : Parameter) (element : Decoder) (key : Expr) (s : Scope)
    (hs : s.InGroup ds g element key) (calls : List (String × Ty))
    (hcalls : ∀ c ∈ calls, c.1 ∈ passingMethods) (selectTy ty : Ty) :
    (∀ sel method fn, (method, fn) ∈ [("Min", AccumulatorFn.min), ("Max", .max), ("Sum", .sum),
        ("Average", .avg)] →
      (selectThen g sel selectTy calls method ty).bind ds s =
          (sequenceCall method (parameter g) [lambda sel] ty).bind ds s ∧
        (sequenceCall method (parameter g) [lambda sel] ty).bind ds s =
          accumulated g element fn ty <$> boundSelector ds s g element sel) ∧
    ∀ method fn, (method, fn) ∈ ofOneElement →
      ∀ name m, element.member? name = some m →
      ∀ (x : Parameter) (elementTy declaring memberTy declaring' memberTy' : Ty), x.name ≠ g.name →
      ∃ folded fused,
        (member (sequenceCall method (parameter g) [] elementTy) name declaring memberTy).bind ds s
          = .ok folded ∧
        (selectThen g ⟨[x], member (parameter x) name declaring' memberTy'⟩ selectTy calls method
          ty).bind ds s = .ok fused ∧
        (∀ unit paths,
          let value := Bson.string (paths ⟨[m.element]⟩).reference
          folded.lower unit paths = .ok (Bson.apply fn.operator value) ∧
            fused.lower unit paths = .ok (Bson.apply fn.operator value)) ∧
        folded.decoder ds = .ok m.decoder ∧ fused.decoder ds = .ok m.decoder := by
  constructor
  · intro sel method fn hmethod
    have hboth : accumulating? method true = some (fn, false) ∧
        AccumulatorFn.following? method = some fn := by
      simp only [List.mem_cons, Prod.mk.injEq, List.not_mem_nil, or_false] at hmethod
      rcases hmethod with ⟨rfl, rfl⟩ | ⟨rfl, rfl⟩ | ⟨rfl, rfl⟩ | ⟨rfl, rfl⟩ <;> exact ⟨rfl, rfl⟩
    have hdirect := bind_selecting hs hboth.1 sel ty
    exact ⟨(bind_selectThen hs hcalls hboth.2 sel selectTy ty).trans hdirect.symm, hdirect⟩
  · intro method fn hmethod name m hm x elementTy declaring memberTy declaring' memberTy' hx
    have hfolded := bind_member_one hs hmethod hm elementTy declaring memberTy
    have hfn : AccumulatorFn.following? method = some fn ∧
        ∀ d, Decoder.ofAccumulator ds fn d = .ok d := by
      rcases ofOneElement_cases hmethod with ⟨rfl, rfl⟩ | ⟨rfl, rfl⟩ <;> exact ⟨rfl, fun _ => rfl⟩
    have hfused := bind_selectThen hs hcalls hfn.1
      ⟨[x], member (parameter x) name declaring' memberTy'⟩ selectTy ty
    rw [boundSelector_member hs hm hx] at hfused
    exact ⟨_, _, hfolded, hfused, fun unit paths => ⟨rfl, rfl⟩, hfn.2 _, hfn.2 _⟩

end Expr

namespace Orders

open QueryStage.Expr

def amount : Lambda :=
  ⟨[ofOrder "o"], access (parameter (ofOrder "o")) "Amount" .int32⟩

/-- The sum of the listed amounts of a group is accumulated as their sum, and the first of them is
the amount of the first order. -/
theorem amounts_fuse :
    let g := ofGroup "g" .boolean
    let s := Lambda.groupScope g source (field ⟨["express"]⟩ (.value .boolean) .boolean)
    let calls := [("ToList", Ty.array .int32), ("AsEnumerable", .array .int32)]
    (selectThen g amount (.array .int32) calls "Sum" .int32).bind registry s =
        (sequenceCall "Sum" (parameter g) [lambda amount] .int32).bind registry s ∧
      ∃ folded fused,
        (access (sequenceCall "First" (parameter g) [] (.record "Order")) "Amount" .int32).bind
          registry s = .ok folded ∧
        (selectThen g amount (.array .int32) calls "First" .int32).bind registry s = .ok fused ∧
        folded.lower .codePoints id = fused.lower .codePoints id ∧
        folded.decoder registry = .ok (.value .int32) := by
  intro g s calls
  obtain ⟨hreduced, hone⟩ := selections_fuse registry g source _ s .projector calls (by decide)
    (.array .int32) .int32
  obtain ⟨folded, fused, hfolded, hfused, hlower, hdecoder, -⟩ :=
    hone "First" .first (by decide) "Amount" ⟨"amount", .value .int32⟩ rfl (ofOrder "o")
      (.record "Order") (.record "Order") .int32 (.record "Order") .int32 (by decide)
  refine ⟨(hreduced amount "Sum" .sum (by decide)).1, folded, fused, hfolded, hfused, ?_, hdecoder⟩
  rw [(hlower .codePoints id).1, (hlower .codePoints id).2]

end Orders

end QueryStage
