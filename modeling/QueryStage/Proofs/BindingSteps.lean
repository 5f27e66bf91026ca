import QueryStage.Binding.Basic
import QueryStage.Proofs.Outcome

/-!
# Steps of binding

What each step of binding can do: entering a lambda, binding the arguments of a call, resolving a
member, and turning a call into an accumulator. Later modules argue about binding through these
lemmas alone.
-/

namespace QueryStage

namespace Entries

variable {α β : Type} {R : α → β → Prop}

theorem get?_rel {as : Entries α} {bs : Entries β} (key : String)
    (h : List.Forall₂ (fun a b => a.1 = b.1 ∧ R a.2 b.2) as bs) :
    Option.Rel R (get? key as) (get? key bs) := by
  induction h with
  | nil => exact .none
  | @cons a b as bs hab _ ih =>
    obtain ⟨k, x⟩ := a
    obtain ⟨k', y⟩ := b
    obtain ⟨rfl, hxy⟩ : k = k' ∧ R x y := hab
    simp only [get?]
    split
    · exact .some hxy
    · exact ih

theorem forall₂_zip (names : List String) {as : List α} {bs : List β} (h : List.Forall₂ R as bs) :
    List.Forall₂ (fun a b => a.1 = b.1 ∧ R a.2 b.2) (names.zip as) (names.zip bs) := by
  induction h generalizing names with
  | nil => simp
  | cons hab _ ih =>
    cases names with
    | nil => exact .nil
    | cons name names => exact .cons ⟨rfl, hab⟩ (ih names)

end Entries

namespace Scope

theorem lookup_bind_cases {s : Scope} {name x : String} {e b : Expr}
    (h : (s.bind name e).lookup x = some b) : (x = name ∧ b = e) ∨ s.lookup x = some b := by
  by_cases hx : x = name
  · rw [hx, lookup_bind_self] at h
    exact .inl ⟨hx, (Option.some.inj h).symm⟩
  · rw [lookup_bind_of_ne s hx] at h
    exact .inr h

theorem lookup_hide_cases {s : Scope} {name x : String} {b : Expr}
    (h : (s.hide name).lookup x = some b) : s.lookup x = some b := by
  by_cases hx : x = name
  · rw [hx, lookup_hide_self] at h
    cases h
  · rwa [lookup_hide_of_ne s hx] at h

theorem enter_cases {ds : Decoders} {s inner : Scope} {params : List Parameter}
    {source : Option Expr} (h : s.enter ds params source = .ok inner) :
    inner = s ∨ (∃ p, params = [p] ∧ inner = s.hide p.name) ∨
      ∃ p items e, params = [p] ∧ source = some items ∧ items.element? ds p = .ok (some e) ∧
        inner = s.bind p.name e := by
  match params, source with
  | [], _ => cases h; exact .inl rfl
  | _ :: _ :: _, _ => cases h; exact .inl rfl
  | [p], none => cases h; exact .inr (.inl ⟨p, rfl, rfl⟩)
  | [p], some items =>
    obtain ⟨element, helement, h⟩ := bind_eq_ok_iff.mp h
    cases element with
    | none => cases h; exact .inr (.inl ⟨p, rfl, rfl⟩)
    | some e => cases h; exact .inr (.inr ⟨p, items, e, rfl, rfl, helement, rfl⟩)

theorem group_of_enter {ds : Decoders} {s inner : Scope} {params : List Parameter}
    {source : Option Expr} (h : s.enter ds params source = .ok inner) : inner.group = s.group := by
  rcases enter_cases h with rfl | ⟨p, -, rfl⟩ | ⟨p, items, e, -, -, -, rfl⟩ <;> rfl

theorem lookup_of_enter {ds : Decoders} {s inner : Scope} {v : Parameter} {source : Option Expr}
    (h : s.enter ds [v] source = .ok inner) {name : String} (hname : name ≠ v.name) :
    inner.lookup name = s.lookup name := by
  rcases enter_cases h with rfl | ⟨p, hp, rfl⟩ | ⟨p, items, e, hp, -, -, rfl⟩
  · rfl
  · cases hp
    exact lookup_hide_of_ne s hname
  · cases hp
    exact lookup_bind_of_ne s hname e

theorem key?_cases {s : Scope} {target key : Expr} {name : String}
    (h : s.key? target name = some key) :
    name = "Key" ∧ s.isGrouping target = true ∧ ∃ g, s.group = some g ∧ g.key = key := by
  unfold key? at h
  split at h
  · rename_i g hg
    split at h
    · rename_i hkey
      rw [Bool.and_eq_true, decide_eq_true_eq] at hkey
      exact ⟨hkey.1, hkey.2, g, hg, Option.some.inj h⟩
    · cases h
  · cases h

theorem isGrouping_of_kind {s : Scope} {e : Expr} (hparameter : e.kind ≠ .parameter)
    (hdocument : e.kind ≠ .document) : s.isGrouping e = false := by
  cases e with
  | parameter => exact absurd rfl hparameter
  | document => exact absurd rfl hdocument
  | _ => cases hg : s.group <;> simp [isGrouping, hg]

theorem key?_of_group {s : Scope} (h : s.group = none) (target : Expr) (name : String) :
    s.key? target name = none := by
  simp [key?, h]

theorem accumulator?_of_group {s : Scope} (h : s.group = none) (method : String) (declaring : Ty)
    (args : List Expr) (ty : Ty) : s.accumulator? method declaring args ty = none := by
  simp [accumulator?, h]

theorem key?_of_isGrouping_eq_false {s : Scope} {e : Expr} (h : s.isGrouping e = false)
    (name : String) : s.key? e name = none := by
  unfold key?
  rw [h, Bool.and_false]
  cases s.group <;> rfl

end Scope

namespace Expr

variable {ds : Decoders} {s : Scope}

theorem lambda_or_kind_ne (e : Expr) :
    (∃ params body, e = lambda ⟨params, body⟩) ∨ e.kind ≠ .lambda := by
  cases e with
  | lambda fn => obtain ⟨params, body⟩ := fn; exact .inl ⟨params, body, rfl⟩
  | _ => exact .inr nofun

/-- The accumulator for a sequence method on the grouping, and whether it counts. It depends on
whether there is a lambda, not on which. -/
def accumulating? : String → Bool → Option (AccumulatorFn × Bool)
  | "First", false => some (.first, false)
  | "Last", false => some (.last, false)
  | "Min", _ => some (.min, false)
  | "Max", _ => some (.max, false)
  | "Sum", _ => some (.sum, false)
  | "Average", _ => some (.avg, false)
  | "Select", true => some (.push, false)
  | "Count", _ => some (.sum, true)
  | "LongCount", _ => some (.sum, true)
  | _, _ => none

theorem grouped?_eq (method : String) (fn : Option Lambda) (ty : Ty) :
    grouped? method fn ty = (accumulating? method fn.isSome).map fun (acc, counts) =>
      (acc, if counts then some (grouped?.counting ty fn) else fn) := by
  unfold grouped? accumulating?
  cases fn with
  | none => split <;> simp_all
  | some fn => split <;> simp_all

theorem accumulator?_pair (s : Scope) (method : String) (declaring : Ty) (a : Expr) (fn : Lambda)
    (ty : Ty) : s.accumulator? method declaring [a, lambda fn] ty =
      if s.group.isSome && declaring = .enumerable then
        Scope.accumulator?.ofGrouping s method ty a (some fn) else none := by
  simp [Scope.accumulator?]

theorem accumulator?_of_kind_ne (s : Scope) (method : String) (declaring : Ty) (a : Expr)
    {b : Expr} (hb : b.kind ≠ .lambda) (ty : Ty) :
    s.accumulator? method declaring [a, b] ty = none := by
  cases b with
  | lambda fn => exact absurd rfl hb
  | _ => simp [Scope.accumulator?]

theorem accumulator?_of_long (s : Scope) (method : String) (declaring : Ty) (a b c : Expr)
    (es : List Expr) (ty : Ty) : s.accumulator? method declaring (a :: b :: c :: es) ty = none := by
  simp [Scope.accumulator?]

/-- The lambda of a call on the grouping, as its bound arguments give it. -/
inductive GroupingArgs (source : Expr) : Option Lambda → List Expr → Prop
  | alone : GroupingArgs source none [source]
  | each (fn : Lambda) : GroupingArgs source (some fn) [source, lambda fn]

private theorem ofGrouping_cases {method : String} {ty : Ty} {source e : Expr}
    {fn : Option Lambda}
    (h : Scope.accumulator?.ofGrouping s method ty source fn = some e) :
    s.isGrouping source = true ∧ ∃ acc counts, e = accumulate acc source
      (if counts = true then some (grouped?.counting ty fn) else fn) ty := by
  unfold Scope.accumulator?.ofGrouping at h
  split at h
  · rename_i hgrouping
    rw [grouped?_eq, Option.map_map, Option.map_eq_some_iff] at h
    obtain ⟨⟨acc, counts⟩, -, rfl⟩ := h
    exact ⟨hgrouping, acc, counts, rfl⟩
  · cases h

/-- An accumulator is made of another one that follows a selection, or of the grouping. -/
theorem accumulator?_cases {method : String} {declaring : Ty} {args : List Expr} {ty : Ty}
    {e : Expr} (h : s.accumulator? method declaring args ty = some e) :
    s.group.isSome = true ∧
      ((∃ fn source selector ty', args = [accumulate .push source selector ty'] ∧
          e = accumulate fn source selector ty) ∨
        ∃ source fn acc counts, GroupingArgs source fn args ∧ s.isGrouping source = true ∧
          e = accumulate acc source
            (if counts = true then some (grouped?.counting ty fn) else fn) ty) := by
  unfold Scope.accumulator? at h
  split at h
  · rename_i hgroup
    refine ⟨(Bool.and_eq_true _ _ ▸ hgroup).1, ?_⟩
    split at h
    · obtain ⟨fn, -, rfl⟩ := Option.map_eq_some_iff.mp h
      exact .inl ⟨fn, _, _, _, rfl, rfl⟩
    · obtain ⟨hgrouping, acc, counts, rfl⟩ := ofGrouping_cases h
      exact .inr ⟨_, none, acc, counts, .alone, hgrouping, rfl⟩
    · obtain ⟨hgrouping, acc, counts, rfl⟩ := ofGrouping_cases h
      exact .inr ⟨_, some _, acc, counts, .each _, hgrouping, rfl⟩
    · cases h
  · cases h

theorem kind_of_accumulator? {method : String} {declaring : Ty} {args : List Expr} {ty : Ty}
    {e : Expr} (h : s.accumulator? method declaring args ty = some e) :
    e.kind = .accumulator := by
  rcases (accumulator?_cases h).2 with ⟨_, _, _, _, -, rfl⟩ | ⟨_, _, _, _, -, -, rfl⟩ <;> rfl

theorem declaring_of_accumulator? {method : String} {declaring : Ty} {args : List Expr} {ty : Ty}
    {e : Expr} (h : s.accumulator? method declaring args ty = some e) :
    declaring = .enumerable := by
  unfold Scope.accumulator? at h
  split at h
  · rename_i hgroup
    rw [Bool.and_eq_true, decide_eq_true_eq] at hgroup
    exact hgroup.2
  · cases h

/-- An argument and its bound form. A lambda ranges over the items of `source`. -/
inductive BoundArg (ds : Decoders) (s : Scope) (source : Option Expr) : Expr → Expr → Prop
  | operand {e b : Expr} (hkind : e.kind ≠ .lambda) (h : e.bind ds s = .ok b) :
    BoundArg ds s source e b
  | each {inner : Scope} {params : List Parameter} {body b : Expr}
    (henter : s.enter ds params source = .ok inner) (h : body.bind ds inner = .ok b) :
    BoundArg ds s source (lambda ⟨params, body⟩) (lambda ⟨params, b⟩)

theorem bindArgs_cons (source : Option Expr) {e : Expr} (h : e.kind ≠ .lambda) (es : List Expr) :
    bindArgs ds s source (e :: es) = (do
      let bound ← e.bind ds s
      return bound :: (← bindArgs ds s (source.or (some bound)) es)) := by
  cases e with
  | lambda fn => exact absurd rfl h
  | _ => rfl

/-- Binds one argument of a call. A lambda ranges over the items of `source`. -/
def bindArg (ds : Decoders) (s : Scope) (source : Option Expr) : Expr → Except Fault Expr
  | lambda ⟨params, body⟩ => do
    let inner ← s.enter ds params source
    return lambda ⟨params, ← body.bind ds inner⟩
  | e => e.bind ds s

theorem bindArg_of_kind_ne (source : Option Expr) {e : Expr} (h : e.kind ≠ .lambda) :
    bindArg ds s source e = e.bind ds s := by
  cases e with
  | lambda fn => exact absurd rfl h
  | _ => rfl

theorem bindArg_eq_ok_iff {source : Option Expr} {e b : Expr} :
    bindArg ds s source e = .ok b ↔ BoundArg ds s source e b := by
  constructor
  · intro h
    rcases lambda_or_kind_ne e with ⟨params, body, rfl⟩ | hkind
    · simp only [bindArg, bind_eq_ok_iff, pure_eq_ok, Except.ok.injEq] at h
      obtain ⟨inner, henter, b, hb, rfl⟩ := h
      exact .each henter hb
    · rw [bindArg_of_kind_ne source hkind] at h
      exact .operand hkind h
  · intro h
    cases h with
    | operand hkind h => rwa [bindArg_of_kind_ne source hkind]
    | each henter h => rw [bindArg, henter, ok_bind, h, ok_bind, pure_eq_ok]

theorem bindArgs_eq_bindArg (source : Option Expr) (e : Expr) (es : List Expr) :
    bindArgs ds s source (e :: es) = (do
      let bound ← bindArg ds s source e
      return bound :: (← bindArgs ds s (source.or (some bound)) es)) := by
  rcases lambda_or_kind_ne e with ⟨params, body, rfl⟩ | hkind
  · simp only [bindArgs, bindArg, bind_assoc, pure_bind]
  · rw [bindArgs_cons source hkind, bindArg_of_kind_ne source hkind]

theorem bindArgs_on (items : Expr) (es : List Expr) :
    bindArgs ds s (some items) es = es.mapM (bindArg ds s (some items)) := by
  induction es with
  | nil => rfl
  | cons e es ih => simp only [bindArgs_eq_bindArg, Option.some_or, ih, List.mapM_cons]

/-- The bound arguments of a call. All lambdas range over the receiver or, in a call that has
none, those after the first argument range over that. -/
inductive BoundArgs (ds : Decoders) (s : Scope) : Option Expr → List Expr → List Expr → Prop
  | on {receiver : Expr} {es bs : List Expr}
    (h : List.Forall₂ (BoundArg ds s (some receiver)) es bs) : BoundArgs ds s (some receiver) es bs
  | nil : BoundArgs ds s none [] []
  | cons {e b : Expr} {es bs : List Expr} (hfirst : BoundArg ds s none e b)
    (h : List.Forall₂ (BoundArg ds s (some b)) es bs) : BoundArgs ds s none (e :: es) (b :: bs)

private theorem bindArgs_on_eq_ok_iff {items : Expr} {es bs : List Expr} :
    bindArgs ds s (some items) es = .ok bs ↔ List.Forall₂ (BoundArg ds s (some items)) es bs := by
  simp only [bindArgs_on, mapM_eq_ok_iff, bindArg_eq_ok_iff]

theorem bindArgs_eq_ok_iff {receiver : Option Expr} {es bs : List Expr} :
    bindArgs ds s receiver es = .ok bs ↔ BoundArgs ds s receiver es bs := by
  constructor
  · intro h
    cases receiver with
    | some receiver => exact .on (bindArgs_on_eq_ok_iff.mp h)
    | none =>
      cases es with
      | nil => cases h; exact .nil
      | cons e es =>
        simp only [bindArgs_eq_bindArg, bind_eq_ok_iff, pure_eq_ok, Except.ok.injEq] at h
        obtain ⟨b, hb, bs', hbs, rfl⟩ := h
        exact .cons (bindArg_eq_ok_iff.mp hb) (bindArgs_on_eq_ok_iff.mp hbs)
  · intro h
    cases h with
    | on h => exact bindArgs_on_eq_ok_iff.mpr h
    | nil => rfl
    | cons hfirst h =>
      rw [bindArgs_eq_bindArg, bindArg_eq_ok_iff.mpr hfirst, ok_bind, Option.none_or,
        bindArgs_on_eq_ok_iff.mpr h, ok_bind, pure_eq_ok]

theorem bind_call_cases {receiver : Option Expr} {method : String} {declaring ty : Ty}
    {args : List Expr} {b : Expr}
    (h : (call receiver method declaring args ty).bind ds s = .ok b) :
    ∃ receiver' args', Option.Rel (fun e e' => e.bind ds s = .ok e') receiver receiver' ∧
      BoundArgs ds s receiver' args args' ∧
      (s.accumulator? method declaring args' ty = some b ∨
        b = call receiver' method declaring args' ty) := by
  have result (x : Option Expr) (e : Expr) : x = some (x.getD e) ∨ x.getD e = e := by
    cases x with
    | none => exact .inr rfl
    | some a => exact .inl rfl
  cases receiver with
  | none =>
    simp only [bind, bind_eq_ok_iff, pure_eq_ok, Except.ok.injEq] at h
    obtain ⟨args', hargs, rfl⟩ := h
    exact ⟨none, args', .none, bindArgs_eq_ok_iff.mp hargs, result _ _⟩
  | some receiver =>
    simp only [bind, bind_eq_ok_iff, pure_eq_ok, Except.ok.injEq] at h
    obtain ⟨receiver', hreceiver, args', hargs, rfl⟩ := h
    exact ⟨some receiver', args', .some hreceiver, bindArgs_eq_ok_iff.mp hargs, result _ _⟩

theorem bind_parameter_cases {p : Parameter} {b : Expr} (h : (parameter p).bind ds s = .ok b) :
    b = parameter p ∨ s.lookup p.name = some b := by
  rw [bind, Except.ok.injEq] at h
  cases hlookup : s.lookup p.name with
  | none =>
    rw [hlookup] at h
    exact .inl h.symm
  | some x =>
    rw [hlookup] at h
    exact .inr (congrArg some h)

theorem bind_member_cases {target b : Expr} {name : String} {declaring ty : Ty}
    (h : (member target name declaring ty).bind ds s = .ok b) :
    s.key? target name = some b ∨ s.key? target name = none ∧
      ∃ bound, target.bind ds s = .ok bound ∧ bindMember ds bound name declaring ty = .ok b := by
  rw [bind] at h
  split at h
  · rename_i key hkey
    exact .inl (hkey.trans (congrArg some (Except.ok.inj h)))
  · exact .inr ⟨‹_›, bind_eq_ok_iff.mp h⟩

theorem bind_lambda_cases {fn : Lambda} {b : Expr} (h : (lambda fn).bind ds s = .ok b) :
    ∃ body, fn.body.bind ds s = .ok body ∧ b = lambda ⟨fn.params, body⟩ := by
  obtain ⟨params, body⟩ := fn
  simp only [bind, bind_eq_ok_iff, pure_eq_ok, Except.ok.injEq] at h
  obtain ⟨body', h, rfl⟩ := h
  exact ⟨body', h, rfl⟩

theorem bindAll_eq_mapM (es : List Expr) : bindAll ds s es = es.mapM (bind ds s) := by
  induction es with
  | nil => rfl
  | cons e es ih => rw [bindAll, ih, List.mapM_cons]

theorem bindAll_eq_ok_iff {es bs : List Expr} :
    bindAll ds s es = .ok bs ↔ List.Forall₂ (fun e b => e.bind ds s = .ok b) es bs := by
  rw [bindAll_eq_mapM, mapM_eq_ok_iff]

theorem bind_construct_cases {ty : Ty} {parameters : List String} {args : List Expr}
    {members : Option (List String)} {b : Expr}
    (h : (construct ty parameters args members).bind ds s = .ok b) :
    ∃ args', List.Forall₂ (fun a a' => a.bind ds s = .ok a') args args' ∧
      b = construct ty parameters args' members := by
  simp only [bind, bind_eq_ok_iff, pure_eq_ok, Except.ok.injEq] at h
  obtain ⟨args', h, rfl⟩ := h
  exact ⟨args', bindAll_eq_ok_iff.mp h, rfl⟩

theorem bind_accumulate_cases {fn : AccumulatorFn} {source : Expr} {selector : Option Lambda}
    {ty : Ty} {b : Expr} (h : (accumulate fn source selector ty).bind ds s = .ok b) :
    ∃ source', source.bind ds s = .ok source' ∧
      ((selector = none ∧ b = accumulate fn source' none ty) ∨
        ∃ params body inner body', selector = some ⟨params, body⟩ ∧
          s.enter ds params (some source') = .ok inner ∧ body.bind ds inner = .ok body' ∧
          b = accumulate fn source' (some ⟨params, body'⟩) ty) := by
  rcases selector with _ | ⟨params, body⟩
  · simp only [bind, bind_eq_ok_iff, pure_eq_ok, Except.ok.injEq] at h
    obtain ⟨source', hsource, rfl⟩ := h
    exact ⟨source', hsource, .inl ⟨rfl, rfl⟩⟩
  · simp only [bind, bind_eq_ok_iff, pure_eq_ok, Except.ok.injEq] at h
    obtain ⟨source', hsource, inner, henter, body', hbody, rfl⟩ := h
    exact ⟨source', hsource, .inr ⟨params, body, inner, body', rfl, henter, hbody, rfl⟩⟩

theorem mem_of_constructed? {name : String} {parameters : List String} {args : List Expr}
    {members : Option (List String)} {e : Expr}
    (h : constructed? name parameters args members = some e) : e ∈ args := by
  have hzip : ∀ (ps : List String) (es : List Expr),
      Entries.get? name (ps.zip es) = some e → e ∈ es := by
    intro ps
    induction ps with
    | nil => exact fun _ h => by cases h
    | cons q ps ih =>
      intro es h
      cases es with
      | nil => cases h
      | cons a es =>
        rw [List.zip_cons_cons, Entries.get?] at h
        split at h
        · cases h
          exact List.mem_cons_self
        · exact List.mem_cons_of_mem _ (ih es h)
  unfold constructed? at h
  split at h
  · split at h
    · exact hzip parameters args h
    · cases h
  · cases h

theorem constructed?_rel {R : Expr → Expr → Prop} (name : String) (parameters : List String)
    (members : Option (List String)) {as bs : List Expr} (h : List.Forall₂ R as bs) :
    Option.Rel R (constructed? name parameters as members)
      (constructed? name parameters bs members) := by
  cases members with
  | none => exact .none
  | some members =>
    simp only [constructed?]
    split
    · exact Entries.get?_rel name (Entries.forall₂_zip parameters h)
    · exact .none

/-- A resolved member is a deeper field, or an argument of a construction. -/
theorem resolve?_cases {e b : Expr} {name : String} {ty : Ty} (h : e.resolve? name ty = some b) :
    (∃ p d ty' m, e = field p d ty' ∧ d.member? name = some m ∧
        b = field (p.child m.element) m.decoder ty) ∨
      (∃ inner path d m, e = document inner path d ∧ d.member? name = some m ∧
        b = field ((path.getD ⟨[]⟩).child m.element) m.decoder ty ∧
        ∀ ty' parameters args members, inner = construct ty' parameters args members →
          constructed? name parameters args members = none) ∨
      ∃ ty' parameters args members, (e = construct ty' parameters args members ∨
          ∃ path d, e = document (construct ty' parameters args members) path d) ∧
        constructed? name parameters args members = some b := by
  unfold resolve? at h
  split at h
  · rename_i p d ty'
    obtain ⟨m, hm, rfl⟩ := Option.map_eq_some_iff.mp h
    exact .inl ⟨p, d, ty', m, rfl, hm, rfl⟩
  · rename_i ty' parameters args members path d
    split at h
    · cases h
      exact .inr (.inr ⟨ty', parameters, args, members, .inr ⟨path, d, rfl⟩, ‹_›⟩)
    · rename_i hnone
      obtain ⟨m, hm, rfl⟩ := Option.map_eq_some_iff.mp h
      refine .inr (.inl ⟨_, path, d, m, rfl, hm, rfl, ?_⟩)
      rintro _ _ _ _ ⟨⟩
      exact hnone
  · rename_i inner path d hinner
    obtain ⟨m, hm, rfl⟩ := Option.map_eq_some_iff.mp h
    refine .inr (.inl ⟨inner, path, d, m, rfl, hm, rfl, ?_⟩)
    rintro ty' parameters args members rfl
    exact (hinner ty' parameters args members rfl).elim
  · exact .inr (.inr ⟨_, _, _, _, .inl rfl, h⟩)
  · cases h

/-- A parameter ranges over the items at a place, or over computed ones at its own variable. -/
theorem element?_cases {source b : Expr} {p : Parameter}
    (h : source.element? ds p = .ok (some b)) :
    (∃ path d ty i, source = field path d ty ∧ d.item? = some i ∧
        b = document (parameter p) (some path) i) ∨
      (∃ inner path d i, source = document inner path d ∧ d.item? = some i ∧
        b = document (parameter p) path i) ∨
      ∃ i, source.kind ≠ .field ∧ source.kind ≠ .document ∧ source.itemDecoder ds = .ok i ∧
        b = document (parameter p) (some (Path.loopVariable p.name)) i := by
  unfold element? at h
  split at h
  · rw [Except.ok.injEq, Option.map_eq_some_iff] at h
    obtain ⟨i, hi, rfl⟩ := h
    exact .inl ⟨_, _, _, i, rfl, hi, rfl⟩
  · rw [Except.ok.injEq, Option.map_eq_some_iff] at h
    obtain ⟨i, hi, rfl⟩ := h
    exact .inr (.inl ⟨_, _, _, i, rfl, hi, rfl⟩)
  · rename_i hfield hdocument
    simp only [bind_eq_ok_iff, pure_eq_ok, Except.ok.injEq, Option.some.injEq] at h
    obtain ⟨i, hi, rfl⟩ := h
    refine .inr (.inr ⟨i, ?_, ?_, hi, rfl⟩)
    · intro hkind
      cases source with
      | field => exact hfield _ _ _ rfl
      | _ => cases hkind
    · intro hkind
      cases source with
      | document => exact hdocument _ _ _ rfl
      | _ => cases hkind

theorem bindMember_of_resolve? {target b : Expr} {name : String} {declaring ty : Ty}
    (h : target.resolve? name ty = some b) : bindMember ds target name declaring ty = .ok b := by
  unfold bindMember
  rw [h]

/-- A member is resolved, or left in place, or accumulated if its target is the first or the last
element of the group. -/
theorem bindMember_cases {target b : Expr} {name : String} {declaring ty : Ty}
    (h : bindMember ds target name declaring ty = .ok b) :
    target.resolve? name ty = some b ∨ b = member target name declaring ty ∨
      ∃ fn source ty' item body, target = accumulate fn source none ty' ∧
        source.element? ds ⟨"item", source.ty.item?.getD .document⟩ = .ok (some item) ∧
        item.resolve? name ty = some body ∧ b = accumulate fn source (some ⟨[], body⟩) ty := by
  unfold bindMember at h
  split at h
  · cases h
    exact .inl ‹_›
  · have fold {fn : AccumulatorFn} {source : Expr} {ty' : Ty}
        (htarget : target = accumulate fn source none ty')
        (h : bindMember.fold ds target name declaring ty fn source = .ok b) :
        b = member target name declaring ty ∨ ∃ fn source ty' item body,
          target = accumulate fn source none ty' ∧
          source.element? ds ⟨"item", source.ty.item?.getD .document⟩ = .ok (some item) ∧
          item.resolve? name ty = some body ∧
          b = accumulate fn source (some ⟨[], body⟩) ty := by
      simp only [bindMember.fold, bind_eq_ok_iff] at h
      obtain ⟨element, helement, h⟩ := h
      split at h
      · rename_i body hbody
        obtain ⟨item, rfl, hitem⟩ := Option.bind_eq_some_iff.mp hbody
        cases h
        exact .inr ⟨fn, source, ty', item, body, htarget, helement, hitem, rfl⟩
      · cases h
        exact .inl rfl
    refine .inr ?_
    split at h
    · exact fold rfl h
    · exact fold rfl h
    · cases h
      exact .inl rfl

end Expr

end QueryStage
