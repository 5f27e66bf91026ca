import QueryStage.Proofs.FusedAccumulators
import QueryStage.Proofs.GroupReferences
import QueryStage.Proofs.ShapeAgreement

/-!
# Composite keys

A key that is a construction is followed by name in three places: binding takes a member of the key
to an argument, lowering puts that argument under its name, and the decoder of the key has a member
of the name. The three meet in the same argument, however deep it is nested.
-/

namespace QueryStage

theorem Entries.get?_reverse_zip {α : Type} {names : List String} (h : names.Nodup) (as : List α)
    (name : String) : get? name (names.zip as).reverse = get? name (names.zip as) := by
  have hnodup : (keys (names.zip as)).Nodup := by
    rw [List.zip_eq_zip_take_min, keys_zip (by simp)]
    exact h.sublist (List.take_sublist _ _)
  rw [← get?_collect, collect_of_nodup hnodup]

namespace Expr

/-- One access of a chain: the member, the type that declares it and the type that it has. -/
structure Access where
  name : String
  declaring : Ty
  ty : Ty

def accesses (e : Expr) (chain : List Access) : Expr :=
  chain.foldl (fun e m => member e m.name m.declaring m.ty) e

/-- The member that a chain of accesses leads to from a bound target. -/
def bindMembers (ds : Decoders) (target : Expr) (chain : List Access) : Except Fault Expr :=
  chain.foldlM (fun b m => bindMember ds b m.name m.declaring m.ty) target

theorem bind_accesses {ds : Decoders} {s : Scope} {e : Expr} (hkey : ∀ name, s.key? e name = none)
    (chain : List Access) :
    (e.accesses chain).bind ds s = e.bind ds s >>= fun b => bindMembers ds b chain := by
  induction chain generalizing e with
  | nil => exact (bind_pure _).symm
  | cons m chain ih =>
    have hnone (name : String) : s.key? (member e m.name m.declaring m.ty) name = none :=
      Scope.key?_of_isGrouping_eq_false (isGrouping_member s e m.name m.declaring m.ty) name
    have hstep : (member e m.name m.declaring m.ty).bind ds s =
        e.bind ds s >>= fun b => bindMember ds b m.name m.declaring m.ty := by
      rw [bind, hkey]
    have hchain := ih hnone
    rw [hstep, bind_assoc] at hchain
    exact hchain

theorem bindMembers_append (ds : Decoders) (target : Expr) (chain further : List Access) :
    target.bindMembers ds (chain ++ further) =
      target.bindMembers ds chain >>= fun b => b.bindMembers ds further :=
  List.foldlM_append

/-- The members of the key are found in the key of the group. -/
theorem bind_key_accesses {ds : Decoders} {g : Parameter} {source : Decoder} {key : Expr}
    {s : Scope} (hs : s.InGroup ds g source key) (declaring ty : Ty) (chain : List Access) :
    ((member (parameter g) "Key" declaring ty).accesses chain).bind ds s =
      key.bindMembers ds chain := by
  have hkey : (member (parameter g) "Key" declaring ty).bind ds s = .ok key := by
    simp [bind, Scope.key?, Scope.isGrouping, hs.group]
  have hnone (name : String) : s.key? (member (parameter g) "Key" declaring ty) name = none :=
    Scope.key?_of_isGrouping_eq_false (isGrouping_member s _ _ declaring ty) name
  rw [bind_accesses hnone, hkey, ok_bind]

/-- The argument that names lead to, through constructions with distinct parameters. -/
inductive Argument : List String → Expr → Expr → Prop
  | here (e : Expr) : Argument [] e e
  | inner {ty : Ty} {parameters : List String} {args : List Expr} {members : Option (List String)}
    {name : String} {names : List String} {e a : Expr} (hnodup : parameters.Nodup)
    (hname : Entries.get? name (parameters.zip args) = some e) (rest : Argument names e a) :
    Argument (name :: names) (construct ty parameters args members) a

variable {ds : Decoders} {unit : StringUnit} {paths : Path → Path} {names : List String}
  {e a : Expr}

theorem Argument.construction {name : String} (h : e.Argument (name :: names) a) :
    ∃ ty parameters args members, e = construct ty parameters args members := by
  cases h
  exact ⟨_, _, _, _, rfl⟩

theorem Argument.bind {s : Scope} {b : Expr} (h : e.Argument names a) (hb : e.bind ds s = .ok b) :
    ∃ a', a.bind ds s = .ok a' ∧ b.Argument names a' := by
  induction h generalizing b with
  | here e => exact ⟨b, hb, .here b⟩
  | @inner _ parameters _ _ name _ _ _ hnodup hname _ ih =>
    obtain ⟨args', hargs, rfl⟩ := bind_construct_cases hb
    have hrel := Entries.get?_rel name (Entries.forall₂_zip parameters hargs)
    rw [hname] at hrel
    obtain ⟨e', he', hbind⟩ := exists_of_rel_some hrel
    obtain ⟨a', ha', hrest⟩ := ih hbind
    exact ⟨a', ha', .inner hnodup he' hrest⟩

theorem Argument.lower {v : Bson} (h : e.Argument names a) (hv : e.lower unit paths = .ok v) :
    ∃ x, a.lower unit paths = .ok x ∧ v.below? names = some x := by
  induction h generalizing v with
  | here e => exact ⟨v, hv, rfl⟩
  | inner hnodup hname _ ih =>
    obtain ⟨shape, hshape, rfl⟩ := lower_construct_cases hv
    rw [← Entries.get?_reverse_zip hnodup] at hname
    obtain ⟨y, hy, hlower⟩ := field_of_shapeOf hshape hname
    obtain ⟨x, hx, hbelow⟩ := ih hlower
    have hdocument : emitShape shape = .document shape := by
      cases shape with
      | nil => cases hy
      | cons => rfl
    refine ⟨x, hx, ?_⟩
    rw [hdocument, Bson.below?, hy]
    exact hbelow

theorem Argument.decoder {d : Decoder} (h : e.Argument names a) (hd : e.decoder ds = .ok d) :
    ∃ d', a.decoder ds = .ok d' ∧ d.follow (names.map .argument) = some d' := by
  induction h generalizing d with
  | here e => exact ⟨d, hd, rfl⟩
  | inner hnodup hname _ ih =>
    rw [← Entries.get?_reverse_zip hnodup] at hname
    obtain ⟨m, hm, hdecoder⟩ := member_of_decoder hd hname
    obtain ⟨d', hd', hfollow⟩ := ih hdecoder
    refine ⟨d', hd', ?_⟩
    rw [List.map_cons, Decoder.follow, Decoder.step?, hm]
    exact hfollow

theorem constructed?_of_decoder {ty : Ty} {parameters : List String} {args : List Expr}
    {members : Option (List String)} {d : Decoder}
    (hd : (construct ty parameters args members).decoder ds = .ok d) (hnodup : parameters.Nodup)
    {name : String} (hname : Entries.get? name (parameters.zip args) = some e) :
    constructed? name parameters args members = some e := by
  obtain ⟨m, hm, -⟩ :=
    member_of_decoder hd ((Entries.get?_reverse_zip hnodup args name).trans hname)
  obtain ⟨declared, shape, rfl, rfl, -, hdeclared⟩ := Decoder.ofConstruction_cases hd
  rw [constructed?, List.contains_iff_mem.mpr (hdeclared name m hm).2, if_pos rfl, hname]

theorem Argument.bindMembers {d : Decoder} (h : e.Argument names a) (hd : e.decoder ds = .ok d)
    {chain : List Access} (hchain : chain.map Access.name = names) :
    e.bindMembers ds chain = .ok a := by
  induction h generalizing d chain with
  | here e =>
    rw [List.map_eq_nil_iff.mp hchain]
    rfl
  | @inner ty parameters args members _ _ e _ hnodup hname _ ih =>
    obtain ⟨m, chain, rfl, rfl, hrest⟩ := List.map_eq_cons_iff.mp hchain
    obtain ⟨_, -, hdecoder⟩ :=
      member_of_decoder hd ((Entries.get?_reverse_zip hnodup _ m.name).trans hname)
    have hresolve : (construct ty parameters args members).resolve? m.name m.ty = some e :=
      constructed?_of_decoder hd hnodup hname
    rw [Expr.bindMembers, List.foldlM_cons, bindMember_of_resolve? hresolve, ok_bind]
    exact ih hdecoder hrest

/-- A document that holds a construction has the members of the construction. -/
theorem bindMembers_held {d : Decoder} {m : Access} {chain : List Access}
    (h : e.Argument ((m :: chain).map Access.name) a) (hd : e.decoder ds = .ok d) :
    (document e none d).bindMembers ds (m :: chain) = .ok a := by
  have hmembers := h.bindMembers hd rfl
  cases h with
  | @inner ty parameters args members _ _ e' _ hnodup hname _ =>
    have hconstructed := constructed?_of_decoder hd hnodup hname
    have hresolve : (construct ty parameters args members).resolve? m.name m.ty = some e' :=
      hconstructed
    have hheld : (document (construct ty parameters args members) none d).resolve? m.name m.ty =
        some e' := by
      rw [resolve?, hconstructed]
    rw [Expr.bindMembers, List.foldlM_cons, bindMember_of_resolve? hheld]
    rwa [Expr.bindMembers, List.foldlM_cons, bindMember_of_resolve? hresolve] at hmembers

/-- How the argument `a` of a key selector, bound to `e`, is met as a member of the key. -/
structure MetInKey (ds : Decoders) (unit : StringUnit) (g : Parameter) (source : Decoder)
    (key : Expr) (selecting : Scope) (names : List String) (a e : Expr) : Prop where
  /-- The argument is bound in the key selector. -/
  bound : a.bind ds selecting = .ok e
  /-- The members of the key lead to the bound argument, and any further members to what they lead
  to from the argument in the key selector. -/
  reached : ∀ s, s.InGroup ds g source key → ∀ declaring ty chain,
    chain.map Access.name = names →
      ((member (parameter g) "Key" declaring ty).accesses chain).bind ds s = .ok e ∧
      ∀ further, ((member (parameter g) "Key" declaring ty).accesses (chain ++ further)).bind ds s =
        (a.accesses further).bind ds selecting
  /-- The lowered key has the lowered argument under the names, wherever its paths are moved. -/
  lowered : ∀ paths v, key.lower unit paths = .ok v →
    ∃ x, e.lower unit paths = .ok x ∧ v.below? names = some x
  /-- The decoder of the key has the decoder of the argument under the names. -/
  decoded : ∃ d d', key.decoder ds = .ok d ∧ e.decoder ds = .ok d' ∧
    d.follow (names.map .argument) = some d'

end Expr

namespace Stage

open QueryStage.Expr

/-- In an accepted group whose key is a construction, the members of the key are the arguments of
the construction, also of the constructions nested in it: names that lead to an argument of the key
selector lead to the same bound expression from the key, to its lowered form in the lowered key, and
to its decoder in the decoder of the key. -/
theorem key_members_are_arguments (ds : Decoders) (options : Options) (source : Decoder)
    (keySelector projector : Lambda) (stage : Stage)
    (h : ofGroup ds options source keySelector projector = .ok stage) :
    ∃ p g bound key keyValue shape, keySelector.params = [p] ∧ projector.params = [g] ∧
      keySelector.body.bind ds (Lambda.projectorScope p source) = .ok bound ∧
      keyOf ds bound = .ok key ∧ key.lower options.stringUnit id = .ok keyValue ∧
      stage.specification = grouping keyValue shape ∧
      ∀ name names a, keySelector.body.Argument (name :: names) a →
        ∃ e, MetInKey ds options.stringUnit g source key (Lambda.projectorScope p source)
          (name :: names) a e := by
  obtain ⟨bound, key, keyValue, body, shape, hbound, hkey, hvalue, hbody, -, hspec⟩ :=
    ofGroup_cases h
  obtain ⟨p, hp, hbound⟩ := Lambda.bindProjector_cases hbound
  obtain ⟨g, hg, -⟩ := Lambda.bindGroupProjector_cases hbody
  refine ⟨p, g, bound, key, keyValue, shape, hp, hg, hbound, hkey, hvalue, hspec, ?_⟩
  intro name names a ha
  obtain ⟨e, he, hargument⟩ := ha.bind hbound
  obtain ⟨ty, parameters, args, members, rfl⟩ := hargument.construction
  obtain ⟨d, hd, hkey⟩ := bind_eq_ok_iff.mp hkey
  cases hkey
  refine ⟨e, he, ?_, fun paths v hv => hargument.lower hv, ?_⟩
  · intro s hs declaring ty chain hchain
    obtain ⟨m, chain, rfl, rfl, rfl⟩ := List.map_eq_cons_iff.mp hchain
    have hreached := bindMembers_held hargument hd
    have hfurther (further : List Access) := bind_key_accesses hs declaring ty
      (m :: chain ++ further)
    refine ⟨?_, fun further => ?_⟩
    · rw [← List.append_nil (m :: chain), hfurther, List.append_nil, hreached]
    · rw [hfurther, bindMembers_append, hreached, bind_accesses (fun _ => rfl), he]
  · obtain ⟨d', hd', hfollow⟩ := hargument.decoder hd
    exact ⟨d, d', rfl, hd', hfollow⟩

end Stage

namespace Orders

open QueryStage.Expr

/-- Where an order goes and whether it is in a hurry. The members of the place are declared in
another order than the parameters. -/
def byRoute : Lambda where
  params := [ofOrder "o"]
  body := named (.record "Route")
    [("Place", construct (.record "Place") ["Zip", "City"]
      [access homeOf "Zip" .string, access homeOf "City" .string] (some ["City", "Zip"])),
      ("Express", access (parameter (ofOrder "o")) "Express" .boolean)]
where
  homeOf : Expr := access (parameter (ofOrder "o")) "Home" (.record "Address")

def routeCities : Lambda where
  params := [ofGroup "g" (.record "Route")]
  body := named (.record "Cities")
    [("City", (access (parameter (ofGroup "g" (.record "Route"))) "Key" (.record "Route")).accesses
      [⟨"Place", .record "Route", .record "Place"⟩, ⟨"City", .record "Place", .string⟩])]

/-- The city of a route is bound as the city of the order, and so is its length. -/
theorem route_city_is_argument :
    let g := ofGroup "g" (.record "Route")
    let place : Access := ⟨"Place", .record "Route", .record "Place"⟩
    let city : Access := ⟨"City", .record "Place", .string⟩
    let length : Access := ⟨"Length", .string, .int32⟩
    let selecting := Lambda.projectorScope (ofOrder "o") source
    let route := access (parameter g) "Key" (.record "Route")
    ∃ stage key, Stage.ofGroup registry {} source byRoute routeCities = .ok stage ∧
      (route.accesses [place, city]).bind registry (Lambda.groupScope g source key) =
        .ok (field ⟨["home", "city"]⟩ (.value .string) .string) ∧
      (route.accesses [place, city, length]).bind registry (Lambda.groupScope g source key) =
        ((access byRoute.homeOf "City" .string).accesses [length]).bind registry selecting := by
  intro g place city length selecting route
  obtain ⟨_, _, bound, key, keyValue, shape, hp, hg, -, -, -, -, harguments⟩ :=
    Stage.key_members_are_arguments registry {} source byRoute routeCities _ rfl
  cases hp
  cases hg
  have hcity : byRoute.body.Argument ["Place", "City"] (access byRoute.homeOf "City" .string) :=
    .inner (by decide) rfl (.inner (by decide) rfl (.here _))
  obtain ⟨e, hmet⟩ := harguments "Place" ["City"] _ hcity
  obtain ⟨hreached, hfurther⟩ := hmet.reached _ .projector g.ty (.record "Route") [place, city] rfl
  cases hmet.bound
  exact ⟨_, key, rfl, hreached, hfurther [length]⟩

end Orders

end QueryStage
