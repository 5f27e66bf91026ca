import QueryStage.Proofs.DistinctNames
import QueryStage.Proofs.Tracing

/-!
# Reading along a trace

From an expression that is bound to a place, every place that its decoder traces can be read: a
member by naming it, and the items of an array by a selection with the array as receiver, whose
loop does not move paths. What is selected is constructed, so no decoder is looked up for it.
-/

namespace QueryStage.Expr

/-- A bound node at a place, with its decoder. It stands for no construction, so its members are
found in the decoder. -/
inductive At : Expr → List String → Decoder → Prop
  | field (es : List String) (d : Decoder) (ty : Ty) : At (field ⟨es⟩ d ty) es d
  | current {inner : Expr} (d : Decoder) (h : inner.isConstruction = false) :
    At (document inner none d) [] d
  | document {inner : Expr} (es : List String) (d : Decoder) (h : inner.isConstruction = false) :
    At (document inner (some ⟨es⟩) d) es d

namespace At

variable {b : Expr} {es : List String} {d : Decoder}

theorem resolve? (h : At b es d) {name : String} {m : MemberDecoder}
    (hm : d.member? name = some m) (ty : Ty) :
    b.resolve? name ty = some (.field ⟨es ++ [m.element]⟩ m.decoder ty) := by
  have hdeclared (path : Option Path) : resolve?.declared? name ty path d =
      some (.field ((path.getD ⟨[]⟩).child m.element) m.decoder ty) := by
    rw [resolve?.declared?, hm]
    rfl
  cases h with
  | field => rw [Expr.resolve?, hm]; rfl
  | @current inner _ h =>
    cases inner with
    | construct => cases h
    | _ => exact hdeclared none
  | @document inner _ _ h =>
    cases inner with
    | construct => cases h
    | _ => exact hdeclared (some ⟨es⟩)

theorem element? (h : At b es d) {i : Decoder} (hi : d.item? = some i) (r : Decoders)
    (p : Parameter) : ∃ e, b.element? r p = .ok (some e) ∧ At e es i := by
  cases h with
  | field => exact ⟨_, by rw [Expr.element?, hi]; rfl, .document es i rfl⟩
  | current => exact ⟨_, by rw [Expr.element?, hi]; rfl, .current i rfl⟩
  | document => exact ⟨_, by rw [Expr.element?, hi]; rfl, .document es i rfl⟩

theorem lower (h : At b es d) (hes : es ≠ []) (unit : StringUnit) :
    b.lower unit id = .ok (.string (Path.reference ⟨es⟩)) := by
  cases h with
  | field => rfl
  | current => exact absurd rfl hes
  | document => rfl

theorem decoder (h : At b es d) (r : Decoders) : b.decoder r = .ok d := by cases h <;> rfl

end At

/-- A reference that some written expression makes in this scope. -/
def Readable (r : Decoders) (unit : StringUnit) (s : Scope) (ref : String) : Prop :=
  ∃ (e b : Expr) (d : Decoder) (v : Bson), e.Written ∧ e.bind r s = .ok b ∧
    b.decoder r = .ok d ∧ b.lower unit id = .ok v ∧ ref ∈ v.fieldReferences

def valueRecord (e : Expr) : Expr := named (.record "Reading") [("Value", e)]

section Reading

variable {r : Decoders} {s : Scope} {unit : StringUnit} {e b : Expr} {d : Decoder} {v : Bson}

theorem written_valueRecord (h : e.Written) : (valueRecord e).Written :=
  written_iff.mpr ⟨rfl, by simpa [valueRecord, named, parts] using h⟩

theorem bind_valueRecord (h : e.bind r s = .ok b) :
    (valueRecord e).bind r s = .ok (valueRecord b) := by
  simp only [valueRecord, named, List.map_cons, List.map_nil, bind, bindAll, h, ok_bind, pure_eq_ok]

theorem decoder_valueRecord (h : b.decoder r = .ok d) :
    (valueRecord b).decoder r = .ok (Decoder.ofFields (.record "Reading") ["Value"] [d]) := by
  have hconstruction : Decoder.ofConstruction (.record "Reading") ["Value"] (some ["Value"])
      ([d].map .ok) = .ok (Decoder.ofFields (.record "Reading") ["Value"] [d]) :=
    Decoder.ofConstruction_of_nodup rfl (by simp) (by simp)
  rw [← hconstruction, List.map_singleton, ← h]
  rfl

theorem lowerShape_valueRecord (h : b.lower unit id = .ok v) :
    (valueRecord b).lowerShape unit = .ok [("Value", v)] := by
  have hfields : shapeOf (.record "Reading") ["Value"] ([v].map .ok) = .ok [("Value", v)] :=
    shapeOf_of_nodup [v] rfl (by simp)
  rw [List.map_singleton, ← h] at hfields
  exact hfields

theorem lower_valueRecord (h : b.lower unit id = .ok v) :
    (valueRecord b).lower unit id = .ok (.document [("Value", v)]) := by
  have hfields : shapeOf (.record "Reading") ["Value"] [b.lower unit id] = .ok [("Value", v)] :=
    lowerShape_valueRecord h
  simp only [valueRecord, named, List.map_cons, List.map_nil, lower, lowerEach, hfields, ok_bind]
  rfl

end Reading

def element (s : Scope) : Parameter :=
  ⟨(s.group.elim "" GroupScope.parameter) ++ "x", .document⟩

theorem isGrouping_element (s : Scope) : s.isGrouping (parameter (element s)) = false := by
  unfold Scope.isGrouping element
  cases s.group with
  | none => rfl
  | some g =>
    have hne : g.parameter ++ "x" ≠ g.parameter := by
      intro heq
      have hlength := congrArg String.length heq
      rw [String.length_append] at hlength
      have hx : "x".length = 1 := rfl
      omega
    simp [hne]

/-- The selection of a record for each item of the receiver. -/
def selectOn (receiver : Expr) (p : Parameter) (body : Expr) : Expr :=
  call (some receiver) "Select" .enumerable
    [literal .null .boolean, lambda ⟨[p], valueRecord body⟩] .boolean

theorem bind_selectOn {r : Decoders} {s inner : Scope} {receiver receiver' body body' : Expr}
    {p : Parameter} (hreceiver : receiver.bind r s = .ok receiver')
    (hinner : s.enter r [p] (some receiver') = .ok inner) (hbody : body.bind r inner = .ok body') :
    (selectOn receiver p body).bind r s = .ok (selectOn receiver' p body') := by
  have hargs : bindArgs r s (some receiver')
        [literal .null .boolean, lambda ⟨[p], valueRecord body⟩] =
      .ok [literal .null .boolean, lambda ⟨[p], valueRecord body'⟩] := by
    rw [bindArgs_cons _ (by decide)]
    simp only [bindArgs, bind, ok_bind, Option.or, hinner, bind_valueRecord hbody]
    rfl
  have hacc : s.accumulator? "Select" .enumerable
      [literal .null .boolean, lambda ⟨[p], valueRecord body'⟩] .boolean = none := by
    have hgrouping : s.isGrouping (literal .null .boolean) = false := by
      unfold Scope.isGrouping
      cases s.group <;> rfl
    rw [accumulator?_pair, Scope.accumulator?.ofGrouping, hgrouping]
    simp
  rw [selectOn, bind, hreceiver, ok_bind, hargs, ok_bind, hacc]
  rfl

theorem lower_selectOn (receiver : Expr) (p : Parameter) {body : Expr} {unit : StringUnit}
    {v : Bson} (h : body.lower unit id = .ok v) :
    (selectOn receiver p body).lower unit id =
      .ok (LoopKind.map.emit p.name .null (.document [("Value", v)])) := by
  have hloop : lowerLoop unit id [literal .null .boolean, lambda ⟨[p], valueRecord body⟩] =
      some ⟨[p], .ok (.document [("Value", v)]), none⟩ := by
    rw [← lower_valueRecord h]
    rfl
  rw [selectOn, lower, hloop]
  rfl

theorem decoder_selectOn (receiver : Expr) (p : Parameter) {body : Expr} {r : Decoders}
    {d : Decoder} (h : body.decoder r = .ok d) :
    (selectOn receiver p body).decoder r =
      .ok (.array (Decoder.ofFields (.record "Reading") ["Value"] [d])) := by
  have hselected : selectedDecoder r [literal .null .boolean, lambda ⟨[p], valueRecord body⟩] =
      some (.ok (Decoder.ofFields (.record "Reading") ["Value"] [d])) := by
    rw [← decoder_valueRecord h]
    rfl
  rw [selectOn, decoder, hselected]
  rfl

theorem written_selectOn {receiver body : Expr} (p : Parameter) (hreceiver : receiver.Written)
    (hbody : body.Written) : (selectOn receiver p body).Written := by
  have hnull : (literal .null .boolean).Written := written_iff.mpr ⟨rfl, nofun⟩
  have hlambda : (lambda ⟨[p], valueRecord body⟩).Written :=
    written_iff.mpr ⟨rfl, by simpa [parts] using written_valueRecord hbody⟩
  refine written_iff.mpr ⟨rfl, ?_⟩
  simpa [selectOn, parts] using ⟨hreceiver, hnull, hlambda⟩

theorem mem_fieldReferences_map {ref binder : String} {input v : Bson}
    (h : ref ∈ v.fieldReferences) :
    ref ∈ (LoopKind.map.emit binder input (.document [("Value", v)])).fieldReferences := by
  have hvalue : ref ∈ Bson.referencesUnder (Bson.bindsVariable "Value") v := h
  simp [LoopKind.emit, Bson.fieldReferences, Bson.apply, Bson.referencesUnder, Bson.referencesOf,
    Bson.bindsVariable] at hvalue ⊢
  exact .inr hvalue

theorem bind_member {r : Decoders} {s : Scope} {e b : Expr} {es : List String} {d : Decoder}
    (hgrouping : s.isGrouping e = false) (hb : e.bind r s = .ok b) (hat : At b es d) {name : String}
    {m : MemberDecoder} (hm : d.member? name = some m) (declaring ty : Ty) :
    (member e name declaring ty).bind r s = .ok (field ⟨es ++ [m.element]⟩ m.decoder ty) := by
  rw [bind, Scope.key?_of_isGrouping_eq_false hgrouping]
  dsimp only
  rw [hb, ok_bind]
  exact bindMember_of_resolve? (hat.resolve? hm ty)

theorem isGrouping_member (s : Scope) (e : Expr) (name : String) (declaring ty : Ty) :
    s.isGrouping (member e name declaring ty) = false := by
  unfold Scope.isGrouping
  cases s.group <;> rfl

/-- Whatever the decoder of a bound node traces can be read from it. -/
theorem readable_of_traces (r : Decoders) (unit : StringUnit) {d d' : Decoder} {es : List String}
    (h : d.Traces es d') : ∀ (s : Scope) (e b : Expr) (start : List String), e.Written →
      s.isGrouping e = false → e.bind r s = .ok b → At b start d → start ++ es ≠ [] →
      isFieldReference (Path.reference ⟨start ++ es⟩) = true →
      Readable r unit s (Path.reference ⟨start ++ es⟩) := by
  induction h with
  | refl d =>
    intro s e b start he _ hb hat hne hfield
    rw [List.append_nil] at hne hfield ⊢
    refine ⟨e, b, d, _, he, hb, hat.decoder r, hat.lower hne unit, ?_⟩
    simp [Bson.fieldReferences, Bson.referencesUnder, hfield]
  | @member d d' name m es hm _ ih =>
    intro s e b start he hgrouping hb hat hne hfield
    have hpath : start ++ m.element :: es = (start ++ [m.element]) ++ es := by simp
    rw [hpath] at hne hfield ⊢
    have hwritten : (member e name .document .document).Written :=
      written_iff.mpr ⟨rfl, by simpa [parts] using he⟩
    have hmember := bind_member hgrouping hb hat hm .document .document
    exact ih s _ _ _ hwritten (isGrouping_member s e name _ _) hmember (.field _ _ _) hne hfield
  | @item d i d' es hi _ ih =>
    intro s e b start he hgrouping hb hat hne hfield
    obtain ⟨x, hx, hxat⟩ := hat.element? hi r (element s)
    have hinner : s.enter r [element s] (some b) = .ok (s.bind (element s).name x) := by
      rw [Scope.enter, hx]
      rfl
    have hparameter : (parameter (element s)).bind r (s.bind (element s).name x) = .ok x := by
      rw [bind, Scope.lookup_bind_self]
      rfl
    obtain ⟨body, body', _, v, hwritten, hbody, hdecoder, hlower, hmem⟩ :=
      ih (s.bind (element s).name x) (parameter (element s)) x start
        (all_of_parts_eq_nil rfl rfl) (isGrouping_element s) hparameter hxat hne hfield
    exact ⟨_, _, _, _, written_selectOn (element s) he hwritten, bind_selectOn hb hinner hbody,
      decoder_selectOn b (element s) hdecoder, lower_selectOn b (element s) hlower,
      mem_fieldReferences_map hmem⟩

end QueryStage.Expr
