import QueryStage.Proofs.PassThrough

/-!
# Arguments over arrays that are passed through

What binding makes of an array that is passed through, of the arguments of a call over it and of the
members of what holds it. The elements of the array are read below its place, and those of what is
passed through at the variable of the lambda over them.
-/

namespace QueryStage

theorem Decoder.member?_of_item? {d i : Decoder} (h : d.item? = some i) (name : String) :
    d.member? name = none := by
  induction d with
  | value => rfl
  | nullable d ih => exact ih h
  | array => rfl
  | document => cases h

/-- A scope without a group, in which parameters are bound at places with a start. -/
structure Scope.Projecting (s : Scope) : Prop where
  started : s.All Expr.HasStart
  group : s.group = none

namespace Expr

variable {r : Decoders} {s : Scope} {e e' a a' : Expr}

theorem hasStart_of_isUnbound (h : e.isUnbound = true) : e.HasStart := by
  cases e with
  | field | document => cases h
  | _ => exact fun _ hpath => by cases hpath

theorem invariant_hasStart (r : Decoders) : Invariant r HasStart where
  written h := hasStart_of_isUnbound (isUnbound_of_isWritten h)
  resolve {e b name ty} he h := by
    rcases resolve?_cases h with ⟨p, d, ty', m, rfl, -, rfl⟩ | ⟨inner, path, d, m, rfl, -, rfl, -⟩ |
      ⟨ty', parameters, args, members, hconstruct, hb⟩
    · refine all_of_parts_eq_nil rfl ?_
      rintro _ ⟨⟩
      simp
    · refine all_of_parts_eq_nil rfl ?_
      rintro _ ⟨⟩
      simp
    · have harg : b ∈ (construct ty' parameters args members).parts := mem_of_constructed? hb
      rcases hconstruct with rfl | ⟨path, d, rfl⟩
      · exact he.part harg
      · exact (he.part (List.mem_singleton_self _)).part harg
  element {source b p} hsource h := by
    have item {path : Option Path} {d : Decoder} (hpath : ∀ q, path = some q → q.segments ≠ []) :
        (document (parameter p) path d).All HasStart := by
      refine all_iff.mpr ⟨fun q hq => hpath q hq, fun part hpart => ?_⟩
      cases List.mem_singleton.mp hpart
      exact all_of_parts_eq_nil rfl (hasStart_of_isUnbound rfl)
    rcases element?_cases h with ⟨path, d, ty, i, rfl, -, rfl⟩ | ⟨inner, path, d, i, rfl, -, rfl⟩ |
      ⟨i, -, -, -, rfl⟩
    · exact item hsource.self
    · exact item hsource.self
    · refine item ?_
      rintro _ ⟨⟩
      simp [Path.loopVariable]

theorem admits_hasStart (group : Option GroupScope) : Admits HasStart group :=
  .inl fun _ _ _ _ _ h => by cases h

theorem hasStart_of_bind (he : e.Unbound) (hs : s.Projecting) {b : Expr}
    (h : e.bind r s = .ok b) : b.All HasStart :=
  (invariant_hasStart r).persistent.all_of_bind (fun n hn => hasStart_of_isUnbound (he n hn)) s b
    hs.started (admits_hasStart _) h

end Expr

namespace Scope.Projecting

variable {r : Decoders} {s : Scope}

theorem enter (h : s.Projecting) {params : List Parameter} {source : Option Expr}
    (hsource : ∀ items, source = some items → items.All Expr.HasStart) {inner : Scope}
    (henter : s.enter r params source = .ok inner) : inner.Projecting where
  started := h.started.enter (Expr.invariant_hasStart r).persistent hsource henter
  group := by rw [Scope.group_of_enter henter, h.group]

end Scope.Projecting

namespace Expr

variable {r : Decoders} {s : Scope} {e e' a a' : Expr} {R : Path → Path → Prop}

theorem RangedOver.refl (hR : Path.Steady R) (e : Expr) : RangedOver R e e :=
  ⟨.refl hR e, fun _ => rfl⟩

/-- The elements of an array are below it, and those of what is passed through at the variable. -/
theorem Passed.element?_eq (h : Passed r a a') (p : Parameter) :
    ∃ path i, a.boundPath? = some path ∧ path.segments ≠ [] ∧
      a.element? r p = .ok (some (document (parameter p) (some path) i)) ∧
      a'.element? r p =
        .ok (some (document (parameter p) (some (Path.loopVariable p.name)) i)) := by
  have hdecoder := (Interposed.passed h).decoder_eq
  cases h with
  | @intro path d i ty method _ hstart hitem _ _ =>
    refine ⟨path, i, rfl, hstart, by simp [element?, hitem], ?_⟩
    rw [element?, itemDecoder, ← hdecoder]
    · simp [decoder, Decoder.itemOf, hitem, ok_bind, pure_eq_ok]
    · exact fun _ _ _ hfield => by cases hfield
    · exact fun _ _ _ hdocument => by cases hdocument

/-- A lambda that ranges over an array has its body moved when the array is passed through. -/
theorem bindArg_passed (hR : Path.Steady R) (h : Passed r a a') (x : Expr)
    (hx : ∀ path p body, path.segments ≠ [] → a.boundPath? = some path →
      x = lambda ⟨[p], body⟩ → R path (Path.loopVariable p.name)) :
    Lifted (RangedOver R) (bindArg r s (some a) x) (bindArg r s (some a') x) := by
  rcases lambda_or_kind_ne x with ⟨params, body, rfl⟩ | hkind
  · have henter : Lifted (Scope.MovedOn (.ofPlaces R) body.free) (s.enter r params (some a))
        (s.enter r params (some a')) := by
      have hself := Scope.MovedOn.refl hR s (outside params body.free)
      rcases params with _ | ⟨p, _ | ⟨q, params⟩⟩
      · exact .ok hself
      · obtain ⟨path, i, hpath, hstart, hleft, hright⟩ := h.element?_eq p
        simp only [Scope.enter, hleft, hright, ok_bind]
        refine .ok (hself.bind (fun _ _ hname => hname) (.element p i ?_))
        exact hx path p body hstart hpath rfl
      · exact .ok hself
    refine henter.bind fun inner inner' hinner => ?_
    refine (bind_moved hR r body inner inner' hinner).bind fun b b' hb => .ok ⟨?_, ?_⟩
    · have hlambda := Moved.lambda params hb
      rwa [show params.map (Parameter.rename (Relocation.ofPlaces R).name) = params from
        List.map_id params] at hlambda
    · exact fun hlambda => absurd rfl hlambda
  · rw [bindArg_of_kind_ne _ hkind, bindArg_of_kind_ne _ hkind]
    exact .of_refl (RangedOver.refl hR) _

private theorem steady_anywhere : Path.Steady fun _ _ => True :=
  ⟨fun _ => trivial, fun _ _ => trivial⟩

theorem bindArgs_passed_anywhere (h : Passed r a a') (es : List Expr) :
    Lifted (List.Forall₂ (RangedOver fun _ _ => True)) (bindArgs r s (some a) es)
      (bindArgs r s (some a') es) := by
  rw [bindArgs_on, bindArgs_on]
  exact Lifted.mapM (List.forall₂_same.mpr fun x _ =>
    bindArg_passed steady_anywhere h x fun _ _ _ _ _ _ => trivial)

theorem Passed.bind_body_eq (h : Passed r a a') {params : List Parameter} {body : Expr}
    (hunread : ∀ p, params = [p] → p.name ∉ body.free) :
    (do let inner ← s.enter r params (some a); body.bind r inner) =
      (do let inner ← s.enter r params (some a'); body.bind r inner) := by
  rcases params with _ | ⟨p, _ | ⟨q, params⟩⟩
  · rfl
  · obtain ⟨path, i, -, -, hleft, hright⟩ := h.element?_eq p
    simp only [Scope.enter, hleft, hright, ok_bind, pure_eq_ok]
    refine bind_congr r (fun name hname => ?_) rfl
    have hne : name ≠ p.name := fun heq => hunread p rfl (heq ▸ hname)
    rw [Scope.lookup_bind_of_ne _ hne, Scope.lookup_bind_of_ne _ hne]
  · rfl

theorem Passed.bindArgs_eq (h : Passed r a a') {es : List Expr}
    (hunread : ∀ p body, lambda ⟨[p], body⟩ ∈ es → p.name ∉ body.free) :
    bindArgs r s (some a) es = bindArgs r s (some a') es := by
  have harg (x : Expr) (hx : x ∈ es) : bindArg r s (some a) x = bindArg r s (some a') x := by
    rcases lambda_or_kind_ne x with ⟨params, body, rfl⟩ | hkind
    · have hunread : ∀ p, params = [p] → p.name ∉ body.free := by
        rintro p rfl
        exact hunread p body hx
      simp only [bindArg, ← bind_assoc, h.bind_body_eq hunread]
    · rw [bindArg_of_kind_ne _ hkind, bindArg_of_kind_ne _ hkind]
  have hargs : List.Forall₂ (fun x y =>
      Lifted Eq (bindArg r s (some a) x) (bindArg r s (some a') y)) es es :=
    List.forall₂_same.mpr fun x hx => by rw [harg x hx]; exact .refl _
  rw [bindArgs_on, bindArgs_on]
  exact (Lifted.mapM hargs).eq fun _ _ h => by rwa [List.forall₂_eq_eq_eq] at h

theorem enter_congr (h : ∀ p, a.element? r p = a'.element? r p) (params : List Parameter) :
    s.enter r params (some a) = s.enter r params (some a') := by
  rcases params with _ | ⟨p, _ | ⟨q, params⟩⟩
  · rfl
  · simp only [Scope.enter, h p]
  · rfl

theorem bindArgs_congr (h : ∀ p, a.element? r p = a'.element? r p) (es : List Expr) :
    bindArgs r s (some a) es = bindArgs r s (some a') es := by
  have harg (x : Expr) : bindArg r s (some a) x = bindArg r s (some a') x := by
    rcases lambda_or_kind_ne x with ⟨params, body, rfl⟩ | hkind
    · simp only [bindArg, enter_congr h]
    · rw [bindArg_of_kind_ne _ hkind, bindArg_of_kind_ne _ hkind]
  rw [bindArgs_on, bindArgs_on, funext harg]

theorem hasStart_of_bindArg {source : Option Expr} (he : e.Unbound) (hs : s.Projecting)
    (hsource : ∀ items, source = some items → items.All HasStart) {b : Expr}
    (h : bindArg r s source e = .ok b) : b.All HasStart := by
  cases bindArg_eq_ok_iff.mp h with
  | operand _ h => exact hasStart_of_bind he hs h
  | each henter hbound =>
    have hbody := hasStart_of_bind (he.part (List.mem_singleton_self _))
      (hs.enter hsource henter) hbound
    refine all_iff.mpr ⟨hasStart_of_isUnbound rfl, fun part hpart => ?_⟩
    cases List.mem_singleton.mp hpart
    exact hbody

/-- The bound arguments of a call, with arrays passed through in the first or in later ones. -/
inductive InterposedArgs (r : Decoders) : List Expr → List Expr → Prop
  | ranged {a a' : Expr} {as bs : List Expr} (h : Passed r a a')
    (hargs : List.Forall₂ (RangedOver (Path.SameElements a.placeNames)) as bs)
    (htakes : ∀ x ∈ as, x.kind = .lambda → x.TakesElements) : InterposedArgs r (a :: as) (a' :: bs)
  | first {a a' : Expr} (h : Interposed r a a') (hplace : a.boundPath? = a'.boundPath?)
    (rest : List Expr) : InterposedArgs r (a :: rest) (a' :: rest)
  | later {as bs : List Expr} (first : Expr) (h : List.Forall₂ (Interposed r) as bs) :
    InterposedArgs r (first :: as) (first :: bs)

theorem InterposedArgs.call {as bs : List Expr} (h : InterposedArgs r as bs)
    (receiver : Option Expr) (method : String) (declaring ty : Ty) :
    Interposed r (.call receiver method declaring as ty)
      (.call receiver method declaring bs ty) := by
  have hreceiver : Option.Rel (Interposed r) receiver receiver := by
    cases receiver with
    | none => exact .none
    | some e => exact .some (.same e)
  cases h with
  | ranged h hargs htakes => exact .ranged receiver method declaring ty h hargs htakes
  | first h hplace rest =>
    have hargs := List.forall₂_same.mpr fun e (_ : e ∈ rest) => Interposed.same (r := r) e
    exact .node hplace rfl (.call method declaring ty hreceiver (.cons h hargs))
  | later first h =>
    exact .node rfl rfl (.call method declaring ty hreceiver (.cons (.same first) h))

theorem bindArgs_passed (h : Passed r a a') {es : List Expr}
    (htakes : ∀ as, bindArgs r s (some a) es = .ok as →
      ∀ x ∈ as, x.kind = .lambda → x.TakesElements) :
    Lifted (List.Forall₂ (RangedOver (Path.SameElements a.placeNames)))
      (bindArgs r s (some a) es) (bindArgs r s (some a') es) := by
  -- The names of the parameters are known only where the lambdas are bound.
  refine (bindArgs_passed_anywhere h es).of_ok fun as has => ?_
  have htakes := htakes as has
  rw [bindArgs_on, mapM_eq_ok_iff] at has
  rw [bindArgs_on, bindArgs_on]
  refine Lifted.mapM (List.forall₂_same.mpr fun e he => ?_)
  refine bindArg_passed (Path.steady_sameElements a.placeNames) h e ?_
  rintro path p body hstart hpath rfl
  rw [placeNames, hpath]
  obtain ⟨x, hx, hbound⟩ := exists_of_forall₂ has.flip he
  simp only [bindArg, bind_eq_ok_iff, pure_eq_ok, Except.ok.injEq] at hbound
  obtain ⟨inner, -, b, -, rfl⟩ := hbound
  exact Path.sameElements_loopVariable hstart (htakes _ hx rfl).self

theorem bindArgs_first {source : Option Expr} {x x' : Expr}
    (hx : Lifted (Interposed r) (bindArg r s source x) (bindArg r s source x')) {after : List Expr}
    (hafter : ∀ b as, bindArgs r s source (x :: after) = .ok (b :: as) → b.kind = .field →
      ∀ y ∈ as, y.kind = .lambda → y.TakesElements) :
    Lifted (InterposedArgs r) (bindArgs r s source (x :: after))
      (bindArgs r s source (x' :: after)) := by
  rw [bindArgs_eq_bindArg, bindArgs_eq_bindArg]
  refine (hx.ensuring fun b hb => hb).bind fun b b' hb => ?_
  obtain ⟨h, hbound⟩ := hb
  rcases h.place_cases with hpassed | ⟨hplace, helement⟩
  · have htakes : ∀ as, bindArgs r s (source.or (some b)) after = .ok as →
        ∀ y ∈ as, y.kind = .lambda → y.TakesElements := by
      intro as has
      refine hafter b as ?_ hpassed.kind_eq
      rw [bindArgs_eq_bindArg, hbound, ok_bind, has, ok_bind, pure_eq_ok]
    -- The later arguments range over the passed array, or over the receiver and do not change.
    have hrest : Lifted (List.Forall₂ (RangedOver (Path.SameElements b.placeNames)))
        (bindArgs r s (source.or (some b)) after) (bindArgs r s (source.or (some b')) after) := by
      cases source with
      | none => exact bindArgs_passed hpassed htakes
      | some items =>
        have hR := Path.steady_sameElements b.placeNames
        exact .of_refl (fun as => List.forall₂_same.mpr fun c _ => .refl hR c) _
    exact (hrest.ensuring htakes).bind fun as bs has => .ok (.ranged hpassed has.1 has.2)
  · have hsame : bindArgs r s (source.or (some b)) after =
        bindArgs r s (source.or (some b')) after := by
      cases source with
      | none => exact bindArgs_congr helement after
      | some items => rfl
    rw [hsame]
    refine (Lifted.refl _).bind ?_
    rintro as _ rfl
    exact .ok (.first h hplace as)

theorem bindArgs_later {source : Option Expr} {first x x' : Expr} {before after : List Expr}
    (hx : ∀ b items, bindArg r s source first = .ok b → source.or (some b) = some items →
      Lifted (Interposed r) (bindArg r s (some items) x) (bindArg r s (some items) x')) :
    Lifted (InterposedArgs r) (bindArgs r s source (first :: (before ++ x :: after)))
      (bindArgs r s source (first :: (before ++ x' :: after))) := by
  rw [bindArgs_eq_bindArg, bindArgs_eq_bindArg]
  refine ((Lifted.refl (bindArg r s source first)).ensuring fun b hb => hb).bind ?_
  rintro b _ ⟨rfl, hb⟩
  obtain ⟨items, hitems⟩ : ∃ items, source.or (some b) = some items := by cases source <;> simp
  rw [hitems, bindArgs_on, bindArgs_on]
  have same (es : List Expr) : List.Forall₂ (fun y y' =>
      Lifted (Interposed r) (bindArg r s (some items) y) (bindArg r s (some items) y')) es es :=
    List.forall₂_same.mpr fun y _ => .of_refl .same _
  have hargs := List.rel_append (same before) (.cons (hx b items hb hitems) (same after))
  exact (Lifted.mapM hargs).bind fun as bs h => .ok (.later b h)

theorem bind_call_eq (hs : s.Projecting) {receiver bound : Option Expr}
    (h : Option.Rel (fun e b => e.bind r s = .ok b) receiver bound) (method : String)
    (declaring : Ty) (args : List Expr) (ty : Ty) :
    (call receiver method declaring args ty).bind r s =
      (do return call bound method declaring (← bindArgs r s bound args) ty) := by
  cases h with
  | none => simp only [bind, Scope.accumulator?_of_group hs.group, Option.getD_none]
  | some h => simp only [bind, h, ok_bind, Scope.accumulator?_of_group hs.group, Option.getD_none]

theorem bind_call_args (hs : s.Projecting) {receiver : Option Expr} {args args' : List Expr}
    (h : ∀ bound, Option.Rel (fun e b => e.bind r s = .ok b) receiver bound →
      Lifted (InterposedArgs r) (bindArgs r s bound args) (bindArgs r s bound args'))
    (method : String) (declaring ty : Ty) :
    Lifted (Interposed r) ((call receiver method declaring args ty).bind r s)
      ((call receiver method declaring args' ty).bind r s) := by
  have bound {receiver' : Option Expr}
      (hreceiver : Option.Rel (fun e b => e.bind r s = .ok b) receiver receiver') :
      Lifted (Interposed r) ((call receiver method declaring args ty).bind r s)
        ((call receiver method declaring args' ty).bind r s) := by
    rw [bind_call_eq hs hreceiver, bind_call_eq hs hreceiver]
    exact (h _ hreceiver).bind fun as bs hargs => .ok (hargs.call receiver' method declaring ty)
  cases receiver with
  | none => exact bound .none
  | some e =>
    cases hreceiver : e.bind r s with
    | ok b => exact bound (.some hreceiver)
    | error fault =>
      simp only [bind, hreceiver]
      exact .error fault

private theorem fold_interposed {target target' : Expr} (htarget : Interposed r target target')
    (h : Interposed r a a') (name : String) (declaring ty : Ty) (fn : AccumulatorFn)
    (hfold : Passed r a a' → ∀ b, bindMember.fold r target name declaring ty fn a = .ok b →
      b.kind ≠ .accumulator) :
    Lifted (Interposed r) (bindMember.fold r target name declaring ty fn a)
      (bindMember.fold r target' name declaring ty fn a') := by
  have kept : Lifted (Interposed r) (.ok (member target name declaring ty) : Except Fault Expr)
      (.ok (member target' name declaring ty)) :=
    .ok (.node rfl rfl (.member name declaring ty htarget))
  rcases h.place_cases with hpassed | ⟨-, helement⟩
  · have hfold := hfold hpassed
    obtain ⟨path, i, -, -, hleft, hright⟩ :=
      hpassed.element?_eq ⟨"item", a.ty.item?.getD .document⟩
    simp only [bindMember.fold, ← h.ty_eq, hleft, hright, ok_bind, Option.bind_some] at hfold ⊢
    generalize parameter ⟨"item", a.ty.item?.getD .document⟩ = item at hfold ⊢
    have hmember := resolve?_moved steady_anywhere.relocation name ty
      (.document (p := path) (q := .loopVariable "item") i (.refl steady_anywhere item) trivial)
    generalize (document item (some path) i).resolve? name ty = x at hmember hfold ⊢
    generalize (document item (some (.loopVariable "item")) i).resolve? name ty = y at hmember ⊢
    cases hmember with
    | none => exact kept
    | some _ => exact absurd rfl (hfold _ rfl)
  · simp only [bindMember.fold, h.ty_eq, helement]
    refine (Lifted.refl _).bind ?_
    rintro element _ rfl
    cases element.bind (resolve? name ty) with
    | none => exact kept
    | some body => exact .ok (.node rfl rfl (.accumulateOf fn [] ty h (.same body)))

theorem bindMember_interposed (h : Interposed r a a') (name : String) (declaring ty : Ty)
    (hfold : ∀ fn path d ty₁ ty₂ b, a = accumulate fn (field path d ty₁) none ty₂ →
      bindMember r a name declaring ty = .ok b → b.kind ≠ .accumulator) :
    Lifted (Interposed r) (bindMember r a name declaring ty)
      (bindMember r a' name declaring ty) := by
  have kept : Lifted (Interposed r) (.ok (member a name declaring ty) : Except Fault Expr)
      (.ok (member a' name declaring ty)) := .ok (.node rfl rfl (.member name declaring ty h))
  have htarget := h
  cases h with
  | same => exact .of_refl .same _
  | passed h =>
    cases h with
    | intro _ _ hitem =>
      simp only [bindMember, resolve?, Decoder.member?_of_item? hitem, Option.map_none]
      exact kept
  | ranged | on => exact kept
  | node _ _ h =>
    cases h with
    | @construct as bs _ parameters members hargs =>
      have hconstructed := constructed?_rel name parameters members hargs
      simp only [bindMember, resolve?]
      generalize constructed? name parameters as members = x at hconstructed
      generalize constructed? name parameters bs members = y at hconstructed
      cases hconstructed with
      | some h => exact .ok h
      | none => exact kept
    | @accumulate source source' fn ty' h =>
      have hover : Passed r source source' → ∀ b,
          bindMember r (.accumulate fn source none ty') name declaring ty = .ok b →
          b.kind ≠ .accumulator := by
        intro hpassed b hb
        cases hpassed
        exact hfold _ _ _ _ _ b rfl hb
      cases fn with
      | first => exact fold_interposed htarget h name declaring ty .first hover
      | last => exact fold_interposed htarget h name declaring ty .last hover
      | _ => exact kept
    | accumulateOf fn => cases fn <;> exact kept
    | _ => exact kept

end Expr

end QueryStage
