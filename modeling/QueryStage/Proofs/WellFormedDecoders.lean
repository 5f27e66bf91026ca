import QueryStage.Decoder.Decode
import QueryStage.Proofs.CarriedDecoders
import QueryStage.Proofs.Orders

/-!
# Well-formed decoders

A decoder is well-formed if every parameter of a constructor in it, at any depth, is a declared
member. A constructed shape declares a member for each of its parameters, and all else that a
decoder is made of is found in known decoders. So stages over well-formed decoders have well-formed
decoders, and decoding with one of these never asks for an unknown parameter.
-/

namespace QueryStage

namespace Decoder

mutual

/-- The document decoders inside a decoder, at any depth. -/
def shapes : Decoder → List DocumentDecoder
  | value _ => []
  | nullable d => d.shapes
  | array d => d.shapes
  | document ⟨typeName, members, creator⟩ => ⟨typeName, members, creator⟩ :: shapesOf members

def shapesOf : List (String × MemberDecoder) → List DocumentDecoder
  | [] => []
  | (_, ⟨_, d⟩) :: members => d.shapes ++ shapesOf members

end

/-- Every parameter of a constructor is a declared member, at any depth. -/
def WellFormed (d : Decoder) : Prop :=
  ∀ shape ∈ d.shapes, ∀ parameter ∈ shape.creator, parameter ∈ Entries.keys shape.members

instance (d : Decoder) : Decidable d.WellFormed :=
  inferInstanceAs (Decidable (∀ shape ∈ d.shapes, ∀ parameter ∈ shape.creator,
    parameter ∈ Entries.keys shape.members))

theorem mem_shapesOf {shape : DocumentDecoder} {members : List (String × MemberDecoder)} :
    shape ∈ shapesOf members ↔ ∃ entry ∈ members, shape ∈ entry.2.decoder.shapes := by
  induction members with
  | nil => simp [shapesOf]
  | cons entry members ih =>
    obtain ⟨name, element, d⟩ := entry
    simp [shapesOf, ih]

theorem wellFormed_document_iff {typeName : String} {members : Entries MemberDecoder}
    {creator : List String} :
    (document ⟨typeName, members, creator⟩).WellFormed ↔
      (∀ parameter ∈ creator, parameter ∈ Entries.keys members) ∧
        ∀ entry ∈ members, entry.2.decoder.WellFormed := by
  simp only [WellFormed, shapes, List.forall_mem_cons]
  refine and_congr_right fun _ => ⟨fun h entry hentry shape hshape => ?_, fun h shape hshape => ?_⟩
  · exact h shape (mem_shapesOf.mpr ⟨entry, hentry, hshape⟩)
  · obtain ⟨entry, hentry, hshape⟩ := mem_shapesOf.mp hshape
    exact h entry hentry shape hshape

variable {d : Decoder}

theorem WellFormed.item {i : Decoder} (h : d.WellFormed) (hi : d.item? = some i) :
    i.WellFormed := by
  induction d with
  | nullable d ih => exact ih h hi
  | array d => cases hi; exact h
  | value | document => cases hi

theorem WellFormed.member {name : String} {m : MemberDecoder} (h : d.WellFormed)
    (hm : d.member? name = some m) : m.decoder.WellFormed := by
  induction d with
  | nullable d ih => exact ih h hm
  | document typeName members creator =>
    exact (wellFormed_document_iff.mp h).2 (name, m) (Entries.mem_of_get? hm)
  | value | array => cases hm

theorem wellFormed_declared {typeName : String} {parameters : List String} {ds : List Decoder}
    (hlength : parameters.length = ds.length) (hds : ∀ d ∈ ds, d.WellFormed) :
    (document ⟨typeName, declared parameters ds, parameters⟩).WellFormed := by
  refine wellFormed_document_iff.mpr ⟨fun parameter hparameter => ?_, ?_⟩
  · rw [declared, Entries.keys_mapValues, Entries.keys_collect, Entries.keys_zip hlength]
    exact List.mem_eraseDups.mpr hparameter
  · rw [declared, ← Entries.collect_mapValues]
    apply Entries.forall_mem_extend (P := fun m : MemberDecoder => m.decoder.WellFormed)
      (List.forall_mem_nil _)
    intro entry hentry
    obtain ⟨⟨name, d⟩, hmem, rfl⟩ := List.mem_map.mp hentry
    exact hds d (List.of_mem_zip hmem).2

theorem decodeMember_fault {typeName parameter : String} {fields : Entries Bson}
    {members : Entries MemberDecoder} {fault : DecodeFault}
    (hdeclared : parameter ∈ Entries.keys members)
    (h : decodeMember typeName fields parameter members = .error fault) :
    (∃ element, fault = .missingElement typeName element) ∨
      ∃ entry ∈ members, ∃ b, entry.2.decoder.decode b = .error fault := by
  rw [decodeMember_eq] at h
  cases hm : Entries.get? parameter members with
  | none => exact absurd hdeclared ((Entries.get?_eq_none_iff parameter members).mp hm)
  | some m =>
    rw [hm] at h
    dsimp only at h
    split at h
    · exact .inr ⟨(parameter, m), Entries.mem_of_get? hm, _, h⟩
    · cases h
      exact .inl ⟨m.element, rfl⟩

/-- A scalar that is not decoded is of another type, or out of the range of its own. -/
theorem decode_fault {ty : Ty} {b : Bson} {fault : DecodeFault} (h : ty.decode b = .error fault) :
    (∃ found, fault = .typeMismatch ty found) ∨ ∃ written, fault = .outOfRange written ty := by
  unfold Ty.decode at h
  split at h
  case h_4 | h_5 => exact .inr ⟨_, Ty.fault_of_narrowed h⟩
  case h_6 | h_9 =>
    split at h
    · cases h
    · cases h
      exact .inr ⟨_, rfl⟩
  all_goals cases h
  exact .inl ⟨_, rfl⟩

/-- Decoding with a well-formed decoder never asks for an unknown parameter. -/
theorem WellFormed.decode_ne (h : d.WellFormed) (b : Bson) (typeName parameter : String) :
    d.decode b ≠ .error (.unknownCreatorParameter typeName parameter) := by
  induction d generalizing b with
  | value ty =>
    intro hfault
    rcases decode_fault hfault with ⟨_, hfault⟩ | ⟨_, hfault⟩
    · cases hfault
    · cases hfault
  | nullable d ih =>
    cases b with
    | null | undefined => rintro ⟨⟩
    | _ => exact ih h _
  | array d ih =>
    cases b with
    | array items =>
      intro hfault
      rcases bind_eq_error_iff.mp hfault with hfault | ⟨_, _, hfault⟩
      · obtain ⟨item, _, hfault⟩ := exists_of_mapM_eq_error hfault
        exact ih h item hfault
      · cases hfault
    | _ => rintro ⟨⟩
  | document name members creator ih =>
    obtain ⟨hcreator, hmembers⟩ := wellFormed_document_iff.mp h
    cases b with
    | document fields =>
      intro hfault
      rcases bind_eq_error_iff.mp hfault with hfault | ⟨_, _, hfault⟩
      · obtain ⟨taken, htaken, hfault⟩ := exists_of_mapM_eq_error hfault
        rcases bind_eq_error_iff.mp hfault with hfault | ⟨_, _, hfault⟩
        · rcases decodeMember_fault (hcreator taken htaken) hfault with ⟨_, hfault⟩ |
            ⟨entry, hentry, b, hfault⟩
          · cases hfault
          · exact ih entry hentry (hmembers entry hentry) b hfault
        · cases hfault
      · cases hfault
    | _ => rintro ⟨⟩

end Decoder

/-- All known decoders are well-formed. -/
def Decoders.WellFormed (ds : Decoders) : Prop := ∀ ty d, ds.lookup ty = some d → d.WellFormed

theorem Decoders.WellFormed.sustains {ds : Decoders} (h : ds.WellFormed) :
    ds.Sustains Decoder.WellFormed fun _ => True where
  known hd := h _ _ hd
  array hd := hd
  item hd hi := hd.item hi
  member hd hm := hd.member hm
  constructed hlength _ hargs := Decoder.wellFormed_declared hlength hargs

theorem Registry.wellFormed_decoders {r : Registry}
    (h : ∀ entry ∈ r.classes, (Decoder.document entry.2).WellFormed) : r.decoders.WellFormed :=
  fun _ _ => lookup_of_classes (fun _ => List.forall_mem_nil _) (fun _ => id) (fun _ => id) h

/-- The bound nodes that are already in an expression carry well-formed decoders. -/
def Expr.CarriesWellFormed (e : Expr) : Prop :=
  ∀ n ∈ e.nodes, ∀ d, n.carried? = some d → d.WellFormed

instance (e : Expr) : Decidable e.CarriesWellFormed :=
  inferInstanceAs (Decidable (∀ n ∈ e.nodes, ∀ d ∈ n.carried?, d.WellFormed))

theorem Expr.CarriesWellFormed.all {e : Expr} (h : e.CarriesWellFormed) :
    e.All (Carries Decoder.WellFormed fun _ => True) :=
  fun n hn => ⟨h n hn, fun _ _ => trivial⟩

namespace Stage

variable {ds : Decoders} {options : Options} {source : Decoder} {stage : Stage}

theorem ofProjector_wellFormed (hds : ds.WellFormed) (hsource : source.WellFormed)
    {projector : Lambda} (hprojector : projector.body.CarriesWellFormed)
    (h : ofProjector ds options source projector = .ok stage) : stage.decoder.WellFormed := by
  obtain ⟨body, -, hbody, hdecoder, -, -⟩ := ofProjector_cases h
  have hall := Lambda.all_carries_of_bindProjector hds.sustains hsource hprojector.all hbody
  exact Expr.ensures_decoder hds.sustains hall _ hdecoder

theorem ofGroup_wellFormed (hds : ds.WellFormed) (hsource : source.WellFormed)
    {keySelector projector : Lambda} (hselector : keySelector.body.CarriesWellFormed)
    (hprojector : projector.body.CarriesWellFormed)
    (h : ofGroup ds options source keySelector projector = .ok stage) :
    stage.decoder.WellFormed := by
  obtain ⟨bound, key, -, body, -, hbound, hkeyOf, -, hbody, hdecoder, -, -⟩ := ofGroup_parts h
  have hbound := Lambda.all_carries_of_bindProjector hds.sustains hsource hselector.all hbound
  have hkey := all_carries_of_keyOf hds.sustains hbound hkeyOf
  have hall :=
    Lambda.all_carries_of_bindGroupProjector hds.sustains hsource hprojector.all hkey hbody
  exact Expr.ensures_decoder hds.sustains hall _ hdecoder

/-- Over well-formed decoders every stage has a well-formed decoder, also if the lambdas hold bound
nodes that carry such decoders, and decoding with a well-formed decoder never asks for a parameter
that is no member. -/
theorem no_dangling_parameters (hds : ds.WellFormed) (hsource : source.WellFormed)
    (options : Options) :
    (∀ projector stage, projector.body.CarriesWellFormed →
      ofProjector ds options source projector = .ok stage → stage.decoder.WellFormed) ∧
    (∀ keySelector projector stage, keySelector.body.CarriesWellFormed →
      projector.body.CarriesWellFormed →
        ofGroup ds options source keySelector projector = .ok stage → stage.decoder.WellFormed) ∧
    ∀ d : Decoder, d.WellFormed → ∀ b typeName parameter,
      d.decode b ≠ .error (.unknownCreatorParameter typeName parameter) := by
  refine ⟨?_, ?_, fun d hd b => hd.decode_ne b⟩
  · intro projector stage hprojector h
    exact ofProjector_wellFormed hds hsource hprojector h
  · intro keySelector projector stage hselector hprojector h
    exact ofGroup_wellFormed hds hsource hselector hprojector h

end Stage

namespace Orders

open QueryStage.Expr

theorem wellFormed_registry : (registry : Decoders).WellFormed := by
  apply Registry.wellFormed_decoders
  decide

def homeOf (name : String) : Expr := access (parameter (ofOrder name)) "Home" (.record "Address")

/-- Where an order goes, and the bound address that it comes from. The name of the city is given
twice. -/
def route : Lambda where
  params := [ofOrder "o"]
  body := named (.record "Route")
    [("To", named (.record "Place")
        [("City", access (homeOf "o") "Zip" .string),
          ("City", access (homeOf "o") "City" .string)]),
      ("From", document (parameter (ofOrder "o")) (some ⟨["origin"]⟩) (.document address))]

def byAddressee : Lambda := ⟨[ofOrder "o"], homeOf "o"⟩

def deliveredTo : Lambda where
  params := [ofGroup "g" (.record "Address")]
  body := named (.record "Delivered")
    [("To", access (parameter (ofGroup "g" (.record "Address"))) "Key" (.record "Address")),
      ("Routes", sequenceCall "Select" (parameter (ofGroup "g" (.record "Address")))
        [lambda ⟨[ofOrder "o"], route.body⟩] (.array (.record "Route")))]

/-- The decoder of a route within a list of them is well-formed, and so is the key's. -/
theorem routes_never_dangle :
    source.WellFormed ∧ route.body.CarriesWellFormed ∧ deliveredTo.body.CarriesWellFormed ∧
      (∃ stage, Stage.ofProjector registry {} source route = .ok stage ∧
        stage.decoder.WellFormed ∧ ∀ b, stage.decoder.decode b ≠
          .error (.unknownCreatorParameter "Place" "City")) ∧
      ∃ stage, Stage.ofGroup registry {} source byAddressee deliveredTo = .ok stage ∧
        stage.decoder.shapes.map DocumentDecoder.typeName =
          ["Delivered", "Address", "Route", "Place", "Address"] ∧ stage.decoder.WellFormed := by
  have hsource : source.WellFormed := by decide
  have hroute : route.body.CarriesWellFormed := by decide
  have hdelivered : deliveredTo.body.CarriesWellFormed := by decide
  obtain ⟨hproject, hgroup, hdecode⟩ := Stage.no_dangling_parameters wellFormed_registry hsource {}
  have hstage := hproject route _ hroute rfl
  refine ⟨hsource, hroute, hdelivered, ⟨_, rfl, hstage, fun b => hdecode _ hstage b _ _⟩,
    ⟨_, rfl, ?_, hgroup byAddressee deliveredTo _ (by decide) hdelivered rfl⟩⟩
  decide

end Orders

end QueryStage
