import QueryStage.Proofs.BindingInvariant
import QueryStage.Proofs.References
import QueryStage.Proofs.Shapes
import QueryStage.Proofs.StageParts

/-!
# Carried decoders

Bound nodes carry decoders, and constructions name fields. New decoders are made of known and
carried ones: for the items and the members of a decoder, for an array of them, and for a
construction from its names and the decoders of its arguments. A property that these steps keep
holds of all decoders that a bound expression carries, and of the decoder of the expression.
-/

namespace QueryStage

/-- Properties of decoders and of names that every new decoder has if the parts have them. -/
structure Decoders.Sustains (ds : Decoders) (D : Decoder → Prop) (N : String → Prop) : Prop where
  known : ∀ {ty : Ty} {d : Decoder}, ds.lookup ty = some d → D d
  array : ∀ {d : Decoder}, D d → D (.array d)
  item : ∀ {d i : Decoder}, D d → d.item? = some i → D i
  member : ∀ {d : Decoder} {name : String} {m : MemberDecoder},
    D d → d.member? name = some m → D m.decoder
  constructed : ∀ {typeName : String} {parameters : List String} {args : List Decoder},
    parameters.length = args.length → (∀ x ∈ parameters, N x) → (∀ d ∈ args, D d) →
      D (.document ⟨typeName, Decoder.declared parameters args, parameters⟩)

theorem Registry.lookup_of_classes {r : Registry} {D : Decoder → Prop}
    (hvalue : ∀ ty, D (.value ty)) (hnullable : ∀ d, D d → D (.nullable d))
    (harray : ∀ d, D d → D (.array d)) (hclasses : ∀ entry ∈ r.classes, D (.document entry.2))
    {ty : Ty} {d : Decoder} (h : r.lookup ty = some d) : D d := by
  fun_induction Registry.lookup r ty generalizing d with
  | case1 _ ih =>
    obtain ⟨inner, hinner, rfl⟩ := Option.map_eq_some_iff.mp h
    exact hnullable inner (ih hinner)
  | case2 _ ih | case3 _ ih | case4 _ _ ih =>
    obtain ⟨inner, hinner, rfl⟩ := Option.map_eq_some_iff.mp h
    exact harray inner (ih hinner)
  | case5 name =>
    obtain ⟨c, hc, rfl⟩ := Option.map_eq_some_iff.mp h
    exact hclasses _ (Entries.mem_of_get? hc)
  | case6 =>
    cases h
    exact hvalue _

namespace Decoders.Sustains

variable {ds : Decoders} {D : Decoder → Prop} {N : String → Prop} (h : ds.Sustains D N)

include h

theorem decoderFor (ty : Ty) : Ensures D (ds.decoderFor ty) := by
  unfold Decoders.decoderFor
  split
  · exact .ok (h.known ‹_›)
  · exact .error _

theorem itemOf (ty : Ty) {d : Decoder} (hd : D d) : Ensures D (Decoder.itemOf ty d) := by
  unfold Decoder.itemOf
  split
  · exact .ok (h.item hd ‹_›)
  · exact .error _

theorem ofAccumulator (fn : AccumulatorFn) {d : Decoder} (hd : D d) :
    Ensures D (Decoder.ofAccumulator ds fn d) := by
  cases fn with
  | avg => exact h.decoderFor _
  | push | addToSet => exact .ok (h.array hd)
  | _ => exact .ok hd

theorem ofConstruction (ty : Ty) {parameters : List String} (members : Option (List String))
    {args : List (Except Fault Decoder)} (hnames : ∀ x ∈ parameters, N x)
    (hargs : ∀ x ∈ args, Ensures D x) :
    Ensures D (Decoder.ofConstruction ty parameters members args) := by
  intro d hd
  obtain ⟨made, hmade, hlength, rfl⟩ := Decoder.ofConstruction_eq_ok hd
  refine h.constructed hlength hnames fun d hmem => ?_
  obtain ⟨arg, harg, hok⟩ := exists_of_forall₂ hmade hmem
  exact hargs arg harg d hok

end Decoders.Sustains

namespace Expr

def carried? : Expr → Option Decoder
  | field _ d _ => some d
  | document _ _ d => some d
  | _ => none

def fieldNames : Expr → List String
  | construct _ parameters _ _ => parameters
  | _ => []

/-- The decoder and the names at a node have these properties. -/
structure Carries (D : Decoder → Prop) (N : String → Prop) (e : Expr) : Prop where
  decoder : ∀ d, e.carried? = some d → D d
  names : ∀ x ∈ e.fieldNames, N x

variable {ds : Decoders} {D : Decoder → Prop} {N : String → Prop}

theorem selectedDecoder_cases {args : List Expr} {item : Except Fault Decoder}
    (h : selectedDecoder ds args = some item) :
    ∃ source params body rest, args = source :: lambda ⟨params, body⟩ :: rest ∧
      item = body.decoder ds := by
  unfold selectedDecoder at h
  split at h
  · split at h
    · cases h
      exact ⟨_, _, _, _, rfl, rfl⟩
    · cases h
  · cases h

/-- The decoder of an expression is made of known ones and of those that its nodes carry. -/
theorem ensures_decoder (h : ds.Sustains D N) {e : Expr} (he : e.All (Carries D N)) :
    Ensures D (e.decoder ds) := by
  induction e with
  | literal | parameter | member | unary => exact h.decoderFor _
  | lambda => exact h.decoderFor _
  | binary op left right ty ihl =>
    rw [decoder]
    split
    · exact ihl (he.part (by simp [parts]))
    · exact h.decoderFor _
  | conditional test ifTrue ifFalse ty _ iha =>
    rw [decoder]
    split
    · exact iha (he.part (by simp [parts]))
    · exact h.decoderFor _
  | call receiver method declaring args ty _ _ ihb =>
    rw [decoder]
    split
    · split
      · rename_i item hitem
        obtain ⟨source, params, body, rest, rfl, rfl⟩ := selectedDecoder_cases hitem
        have hlambda : (lambda ⟨params, body⟩).All (Carries D N) := he.part (by simp [parts])
        have hbody := ihb params body (by simp) (hlambda.part (by simp [parts]))
        exact hbody.bind fun d hd => .ok (h.array hd)
      · exact h.decoderFor _
    · exact h.decoderFor _
  | construct ty parameters args members ih =>
    rw [decoder, decoders_eq_map]
    refine h.ofConstruction ty members he.self.names fun x hx => ?_
    obtain ⟨a, ha, rfl⟩ := List.mem_map.mp hx
    exact ih a ha (he.part ha)
  | accumulate fn source selector ty ihs ihb =>
    rcases selector with _ | ⟨params, body⟩
    · have hsource := ihs (he.part (by simp [parts]))
      exact hsource.bind fun d hd => (h.itemOf _ hd).bind fun i hi => h.ofAccumulator fn hi
    · have hbody := ihb params body rfl (he.part (by simp [parts]))
      exact hbody.bind fun d hd => h.ofAccumulator fn hd
  | field path d ty => exact .ok (he.self.decoder d rfl)
  | document inner path d => exact .ok (he.self.decoder d rfl)

theorem all_carries_field {d : Decoder} (path : Path) (ty : Ty) (hd : D d) :
    (field path d ty).All (Carries D N) := by
  refine all_of_parts_eq_nil rfl ⟨?_, List.forall_mem_nil _⟩
  rintro _ ⟨⟩
  exact hd

theorem all_carries_root {d : Decoder} (p : Parameter) (path : Option Path) (hd : D d) :
    (document (parameter p) path d).All (Carries D N) := by
  have hp : (parameter p).All (Carries D N) :=
    all_of_parts_eq_nil rfl ⟨by rintro _ ⟨⟩, List.forall_mem_nil _⟩
  refine all_iff.mpr ⟨⟨?_, List.forall_mem_nil _⟩, by simpa [parts] using hp⟩
  rintro _ ⟨⟩
  exact hd

/-- Binding makes nodes that carry decoders of members and items only, and no names. -/
theorem persistent_carries (h : ds.Sustains D N) : Persistent ds (Carries D N) where
  made := by
    intro n hwritten hconstruct
    cases n with
    | construct => cases hconstruct
    | field | document | accumulate => cases hwritten
    | _ => exact ⟨by rintro _ ⟨⟩, List.forall_mem_nil _⟩
  rebuilt hn := ⟨by rintro _ ⟨⟩, hn.names⟩
  resolve := by
    intro e b name ty he hb
    rcases resolve?_cases hb with ⟨path, d, ty', m, rfl, hm, rfl⟩ |
      ⟨inner, path, d, m, rfl, hm, rfl, -⟩ | ⟨ty', parameters, args, members, he', hb⟩
    · exact all_carries_field _ _ (h.member (he.self.decoder d rfl) hm)
    · exact all_carries_field _ _ (h.member (he.self.decoder d rfl) hm)
    · have hmem := mem_of_constructed? hb
      rcases he' with rfl | ⟨path, d, rfl⟩
      · exact he.part hmem
      · have hinner : (construct ty' parameters args members).All (Carries D N) :=
          he.part (by simp [parts])
        exact hinner.part hmem
  element := by
    intro source b p hsource hb
    rcases element?_cases hb with ⟨path, d, ty, i, rfl, hi, rfl⟩ |
      ⟨inner, path, d, i, rfl, hi, rfl⟩ | ⟨i, -, -, hi, rfl⟩
    · exact all_carries_root p _ (h.item (hsource.self.decoder d rfl) hi)
    · exact all_carries_root p _ (h.item (hsource.self.decoder d rfl) hi)
    · have hitem := (ensures_decoder h hsource).bind fun d hd => h.itemOf source.ty hd
      exact all_carries_root p _ (hitem i hi)

theorem admits_carries (group : Option GroupScope) : Admits (Carries D N) group :=
  .inl fun _ _ _ _ => ⟨by rintro _ ⟨⟩, List.forall_mem_nil _⟩

end Expr

namespace Lambda

open QueryStage.Expr

variable {ds : Decoders} {D : Decoder → Prop} {N : String → Prop} {fn : Lambda} {source : Decoder}

theorem all_carries_of_bindProjector (h : ds.Sustains D N) (hsource : D source)
    (hfn : fn.body.All (Carries D N)) {bound : Expr}
    (hbound : fn.bindProjector ds source = .ok bound) : bound.All (Carries D N) := by
  obtain ⟨p, -, hbound⟩ := bindProjector_cases hbound
  have hempty : ({} : Scope).All (Carries D N) := ⟨by rintro _ _ ⟨⟩, by rintro _ ⟨⟩⟩
  have hscope := hempty.bind p.name (all_carries_root p none hsource)
  exact (persistent_carries h).all_of_bind hfn _ bound hscope (admits_carries _) hbound

theorem all_carries_of_bindGroupProjector (h : ds.Sustains D N) (hsource : D source)
    (hfn : fn.body.All (Carries D N)) {key body : Expr} (hkey : key.All (Carries D N))
    (hbody : fn.bindGroupProjector ds source key = .ok body) : body.All (Carries D N) := by
  obtain ⟨g, -, hbody⟩ := bindGroupProjector_cases hbody
  have hgroup : ({ group := some ⟨g.name, key⟩ } : Scope).All (Carries D N) :=
    ⟨by rintro _ _ ⟨⟩, by rintro _ ⟨⟩; exact hkey⟩
  have hscope := hgroup.bind g.name (all_carries_root g none (h.array hsource))
  exact (persistent_carries h).all_of_bind hfn _ body hscope (admits_carries _) hbody

end Lambda

theorem Stage.all_carries_of_keyOf {ds : Decoders} {D : Decoder → Prop} {N : String → Prop}
    (h : ds.Sustains D N) {bound key : Expr} (hbound : bound.All (Expr.Carries D N))
    (hkey : keyOf ds bound = .ok key) : key.All (Expr.Carries D N) := by
  have hdocument {d : Decoder} (hd : bound.decoder ds = .ok d) :
      (Expr.document bound none d).All (Expr.Carries D N) := by
    have hd := Expr.ensures_decoder h hbound d hd
    refine Expr.all_iff.mpr ⟨⟨?_, List.forall_mem_nil _⟩, by simpa [Expr.parts] using hbound⟩
    rintro _ ⟨⟩
    exact hd
  rcases keyOf_cases hkey with ⟨-, rfl⟩ | ⟨_, _, _, _, d, -, hd, rfl⟩ | ⟨d, -, hd, rfl⟩
  · exact hbound
  · exact hdocument hd
  · exact hdocument hd

end QueryStage
