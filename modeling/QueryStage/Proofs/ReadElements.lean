import Mathlib.Logic.Relation
import QueryStage.Decoder.Decode
import QueryStage.Proofs.DistinctNames
import QueryStage.Proofs.NumericDecoding
import QueryStage.Proofs.Orders
import QueryStage.Proofs.References
import QueryStage.Proofs.RelatedLowering

/-!
# Elements that decoding reads

Decoding looks at a document through the constructor parameters of its decoder alone. Values that
agree on the elements of these parameters, at every depth, decode to the same value or fail with
the same fault. So the order of elements does not matter, and neither does an element that no
parameter reads.
-/

namespace QueryStage

namespace Bson

def fields? : Bson → Option (Entries Bson)
  | document fields => some fields
  | _ => none

def isAbsent : Bson → Bool
  | null | undefined => true
  | _ => false

end Bson

namespace Decoder

variable {same : Bson → Bson → Prop}

mutual

/-- Two values that a decoder cannot tell apart. What it takes as a whole is the same in both, and
of documents it sees the elements of its constructor parameters. -/
def Related (same : Bson → Bson → Prop) : Decoder → Bson → Bson → Prop
  | value _, v, w => same v w
  | nullable d, v, w => (v.isAbsent = true ∧ w.isAbsent = true ∧ same v w) ∨ d.Related same v w
  | array d, v, w =>
    Option.Rel (List.Forall₂ (d.Related same)) v.items? w.items? ∧ (v.items? = none → same v w)
  | document ⟨_, members, creator⟩, v, w =>
    Option.Rel (fun fields fields' => ∀ p ∈ creator, RelatedMember same fields fields' p members)
      v.fields? w.fields? ∧ (v.fields? = none → same v w)

/-- The element of a parameter that is a declared member is missing in both documents, or it is
present in both and related. -/
def RelatedMember (same : Bson → Bson → Prop) (fields fields' : Entries Bson) (parameter : String) :
    List (String × MemberDecoder) → Prop
  | [] => True
  | (name, ⟨element, d⟩) :: members =>
    if name = parameter then
      Option.Rel (d.Related same) (fields.get? element) (fields'.get? element)
    else RelatedMember same fields fields' parameter members

end

theorem relatedMember_iff {fields fields' : Entries Bson} {parameter : String}
    {members : Entries MemberDecoder} :
    RelatedMember same fields fields' parameter members ↔
      ∀ m, members.get? parameter = some m →
        Option.Rel (m.decoder.Related same) (fields.get? m.element) (fields'.get? m.element) := by
  induction members with
  | nil => simp [RelatedMember]
  | cons entry members ih =>
    obtain ⟨name, element, d⟩ := entry
    by_cases h : name = parameter
    · simp [RelatedMember, Entries.get?, h]
    · simp [RelatedMember, Entries.get?, h, ih]

/-- Two documents are related if every declared parameter finds related elements in them. -/
theorem related_document {typeName : String} {members : Entries MemberDecoder}
    {creator : List String} {fields fields' : Entries Bson}
    (h : ∀ p ∈ creator, ∀ m, members.get? p = some m →
      Option.Rel (m.decoder.Related same) (fields.get? m.element) (fields'.get? m.element)) :
    (document ⟨typeName, members, creator⟩).Related same (.document fields)
      (.document fields') := by
  refine ⟨.some fun p hp => relatedMember_iff.mpr (h p hp), fun hnone => ?_⟩
  cases hnone

theorem related_refl (h : ∀ b, same b b) (d : Decoder) (b : Bson) : d.Related same b b := by
  induction d generalizing b with
  | value ty => exact h b
  | nullable d ih => exact .inr (ih b)
  | array d ih =>
    have hitems (items : List Bson) : List.Forall₂ (d.Related same) items items :=
      List.forall₂_same.mpr fun b _ => ih b
    exact ⟨rel_refl hitems _, fun _ => h b⟩
  | document typeName members creator ih =>
    refine ⟨rel_refl (fun fields p _ => relatedMember_iff.mpr fun m hm => ?_) _, fun _ => h b⟩
    exact rel_refl (ih (p, m) (Entries.mem_of_get? hm)) _

end Decoder

/-- A relation of decoded values that decoding makes of a relation of BSON values: scalars decode to
related values or fail alike, and related values are put together to related ones. -/
structure Transports (same : Bson → Bson → Prop) (R : Value → Value → Prop) : Prop where
  scalar : ∀ (ty : Ty) {v w : Bson}, same v w → Lifted R (ty.decode v) (ty.decode w)
  elementType : ∀ {v w : Bson}, same v w → v.elementType = w.elementType
  null : R .null .null
  array : ∀ {vs ws : List Value}, List.Forall₂ R vs ws → R (.array vs) (.array ws)
  composite : ∀ (typeName : String) {as bs : Entries Value}, as.Rel R bs →
    R (.composite typeName as) (.composite typeName bs)

namespace Decoder

theorem decode_nullable_eq (d : Decoder) (b : Bson) :
    (nullable d).decode b = if b.isAbsent then .ok .null else d.decode b := by
  cases b <;> rfl

theorem decode_array_eq (d : Decoder) (b : Bson) :
    (array d).decode b = match b.items? with
      | some items => do return .array (← items.mapM d.decode)
      | none => .error (.typeMismatch (.array .document) b.elementType) := by
  cases b <;> rfl

theorem decode_document_eq (typeName : String) (members : Entries MemberDecoder)
    (creator : List String) (b : Bson) :
    (document ⟨typeName, members, creator⟩).decode b = match b.fields? with
      | some fields => do
        let arguments ← creator.mapM fun parameter => do
          return (parameter, ← decodeMember typeName fields parameter members)
        return .composite typeName arguments
      | none =>
        if b.elementType = "Null" then .ok .null
        else .error (.typeMismatch (.record typeName) b.elementType) := by
  cases b <;> rfl

end Decoder

namespace Transports

variable {same : Bson → Bson → Prop} {R : Value → Value → Prop}

theorem isAbsent (h : Transports same R) {d : Decoder} {v w : Bson} (hvw : d.Related same v w) :
    v.isAbsent = w.isAbsent := by
  have habsent (b : Bson) :
      b.isAbsent = decide (b.elementType = "Null" ∨ b.elementType = "Undefined") := by
    cases b <;> rfl
  have hitems {b : Bson} {items : List Bson} (hb : b.items? = some items) : b.isAbsent = false := by
    cases b <;> first | rfl | cases hb
  have hfields {b : Bson} {fields : Entries Bson} (hb : b.fields? = some fields) :
      b.isAbsent = false := by
    cases b <;> first | rfl | cases hb
  have hsame (hvw : same v w) : v.isAbsent = w.isAbsent := by
    rw [habsent, habsent, h.elementType hvw]
  induction d with
  | value => exact hsame hvw
  | nullable d ih =>
    rcases hvw with ⟨-, -, hvw⟩ | hvw
    · exact hsame hvw
    · exact ih hvw
  | array d =>
    obtain ⟨hrel, hother⟩ := hvw
    rcases rel_cases hrel with ⟨hv, -⟩ | ⟨_, _, hv, hw, -⟩
    · exact hsame (hother hv)
    · rw [hitems hv, hitems hw]
  | document typeName members creator =>
    obtain ⟨hrel, hother⟩ := hvw
    rcases rel_cases hrel with ⟨hv, -⟩ | ⟨_, _, hv, hw, -⟩
    · exact hsame (hother hv)
    · rw [hfields hv, hfields hw]

/-- A parameter decodes to related arguments, or is refused alike: as unknown, or for its missing
element. -/
theorem decodeMember {typeName parameter : String} {fields fields' : Entries Bson}
    {members : Entries MemberDecoder}
    (hdecode : ∀ entry ∈ members, ∀ v w : Bson, entry.2.decoder.Related same v w →
      Lifted R (entry.2.decoder.decode v) (entry.2.decoder.decode w))
    (hrel : Decoder.RelatedMember same fields fields' parameter members) :
    Lifted R (Decoder.decodeMember typeName fields parameter members)
      (Decoder.decodeMember typeName fields' parameter members) := by
  rw [Decoder.decodeMember_eq, Decoder.decodeMember_eq]
  cases hm : members.get? parameter with
  | none => exact .error _
  | some m =>
    have helement := Decoder.relatedMember_iff.mp hrel m hm
    rcases rel_cases helement with ⟨hv, hw⟩ | ⟨v, w, hv, hw, hvw⟩
    · simp only [hv, hw]
      exact .error _
    · simp only [hv, hw]
      exact hdecode (parameter, m) (Entries.mem_of_get? hm) v w hvw

theorem decode (h : Transports same R) (d : Decoder) : ∀ v w, d.Related same v w →
    Lifted R (d.decode v) (d.decode w) := by
  induction d with
  | value ty => exact fun v w hvw => h.scalar ty hvw
  | nullable d ih =>
    intro v w hvw
    rw [Decoder.decode_nullable_eq, Decoder.decode_nullable_eq, h.isAbsent hvw]
    split
    · exact .ok h.null
    · rename_i hpresent
      rcases hvw with ⟨-, habsent, -⟩ | hvw
      · exact absurd habsent hpresent
      · exact ih v w hvw
  | array d ih =>
    rintro v w ⟨hrel, hother⟩
    rw [Decoder.decode_array_eq, Decoder.decode_array_eq]
    rcases rel_cases hrel with ⟨hv, hw⟩ | ⟨vs, ws, hv, hw, hitems⟩
    · rw [hv, hw, h.elementType (hother hv)]
      exact .error _
    · rw [hv, hw]
      have hdecoded := Lifted.mapM (hitems.imp ih)
      exact hdecoded.bind fun _ _ hvalues => .ok (h.array hvalues)
  | document typeName members creator ih =>
    rintro v w ⟨hrel, hother⟩
    rw [Decoder.decode_document_eq, Decoder.decode_document_eq]
    rcases rel_cases hrel with ⟨hv, hw⟩ | ⟨fields, fields', hv, hw, hfields⟩
    · rw [hv, hw, h.elementType (hother hv)]
      dsimp only
      split
      · exact .ok h.null
      · exact .error _
    · rw [hv, hw]
      have hargument (p : String) (hp : p ∈ creator) :
          Lifted (fun a b => a.1 = b.1 ∧ R a.2 b.2)
            (do return (p, ← Decoder.decodeMember typeName fields p members))
            (do return (p, ← Decoder.decodeMember typeName fields' p members)) :=
        (decodeMember ih (hfields p hp)).bind fun _ _ hab => .ok ⟨rfl, hab⟩
      have harguments := Lifted.mapM (List.forall₂_same.mpr hargument)
      exact harguments.bind fun _ _ hargs => .ok (h.composite typeName (.of_forall₂ hargs))

end Transports

theorem Entries.Rel.eq {α : Type} {as bs : Entries α} (h : as.Rel Eq bs) : as = bs := by
  induction h with
  | nil => rfl
  | cons key hab _ ih => rw [hab, ih]

theorem transports_eq : Transports Eq Eq where
  scalar ty _ _ h := h ▸ .refl _
  elementType h := h ▸ rfl
  null := rfl
  array h := by
    rw [List.forall₂_eq_eq_eq] at h
    rw [h]
  composite typeName _ _ h := by rw [h.eq]

-- Doubles compare as numbers and documents without regard to order, so equal values need not be the
-- same. They decode to equal values.

namespace Binary64

theorem toInt64?_of_isZero {x : Binary64} (h : x.isZero = true) : x.toInt64? = some 0 := by
  simp only [isZero, Bool.and_eq_true, decide_eq_true_eq] at h
  have hsignificand : x.significand = 0 := by simp [significand, h]
  have hpower : ¬ 0 ≤ x.power := by simp [power, h]
  have hint : x.toInt? = some 0 := by
    simp [toInt?, isFinite, h.1, hpower, hsignificand, signed]
  simp [toInt64?, hint]

theorem valueEq_cases {x y : Binary64} (h : x.valueEq y = true) :
    x = y ∨ x.toInt64? = some 0 ∧ y.toInt64? = some 0 := by
  simp only [valueEq, Bool.and_eq_true, Bool.or_eq_true, decide_eq_true_eq] at h
  rcases h.2 with h | ⟨hx, hy⟩
  · exact .inl h
  · exact .inr ⟨toInt64?_of_isZero hx, toInt64?_of_isZero hy⟩

end Binary64

theorem Bson.elementType_of_valueEq {v w : Bson} (h : v.valueEq w = true) :
    v.elementType = w.elementType := by
  unfold valueEq at h
  split at h
  all_goals first | rfl | cases h

namespace Ty

theorem log2_toInt (n : Int32) : n.toInt.natAbs.log2 ≤ 1022 := by
  rw [← Int32.toInt_toInt64]
  exact log2_natAbs_le _

theorem decode_self (ty : Ty) {b : Bson} (hdouble : ∀ x, b ≠ .double x)
    (hdocument : ∀ fields, b ≠ .document fields) :
    Lifted (fun a b => a.valueEq b = true) (ty.decode b) (ty.decode b) := by
  have hrounded (n : Int) (hn : n.natAbs.log2 ≤ 1022) :
      (Value.double (.ofInt n)).valueEq (.double (.ofInt n)) = true := by
    simp [Value.valueEq, Binary64.valueEq, Binary64.isNaN_ofInt hn]
  unfold decode
  split
  all_goals first
    | exact absurd rfl (hdouble _)
    | exact absurd rfl (hdocument _)
    | exact narrowed_cases (motive := fun r => Lifted _ r r) _ _
        (fun i => .ok (by simp [Value.valueEq])) (.error _)
    | exact .ok (hrounded _ (log2_natAbs_le _))
    | exact .ok (hrounded _ (log2_toInt _))
    | exact .error _
    | exact .ok (by simp [Value.valueEq])

theorem decode_double (ty : Ty) {x y : Binary64} (h : x.valueEq y = true) :
    Lifted (fun a b => a.valueEq b = true) (ty.decode (.double x)) (ty.decode (.double y)) := by
  have hread : x.toInt64? = y.toInt64? ∧ (x.toInt64?.bind narrow? = none → x.text = y.text) := by
    rcases Binary64.valueEq_cases h with rfl | ⟨hx, hy⟩
    · exact ⟨rfl, fun _ => rfl⟩
    · exact ⟨hx.trans hy.symm, fun hnone => by rw [hx] at hnone; cases hnone⟩
  cases ty with
  | double => exact .ok h
  | int32 =>
    simp only [decode, ← hread.1]
    cases hfound : x.toInt64?.bind narrow? with
    | none => rw [hread.2 hfound]; exact .error _
    | some i => exact .ok (by simp [Value.valueEq])
  | int64 =>
    simp only [decode, ← hread.1]
    cases hfound : x.toInt64? with
    | none => rw [hread.2 (by rw [hfound]; rfl)]; exact .error _
    | some n => exact .ok (by simp [Value.valueEq])
  | _ => exact .error _

theorem decode_of_valueEq (ty : Ty) {v w : Bson} (h : v.valueEq w = true) :
    Lifted (fun a b => a.valueEq b = true) (ty.decode v) (ty.decode w) := by
  have hdocument {fields fields' : Entries Bson}
      (h : (Bson.document fields).valueEq (.document fields') = true) :
      Lifted (fun a b => a.valueEq b = true) (ty.decode (.document fields))
        (ty.decode (.document fields')) := by
    cases ty with
    | document => exact .ok (by rwa [Value.valueEq])
    | _ => exact .error _
  have hequal := h
  unfold Bson.valueEq at h
  split at h
  all_goals first
    | exact decode_double ty h
    | exact hdocument hequal
    | obtain rfl := of_decide_eq_true h
      exact decode_self ty (by simp) (by simp)
    | exact decode_self ty (by simp) (by simp)
    | cases ty <;> exact .error _
    | cases h
    | obtain ⟨hs, hb⟩ := (Bool.and_eq_true _ _).mp h
      obtain rfl := of_decide_eq_true hs
      obtain rfl := of_decide_eq_true hb
      exact decode_self ty (by simp) (by simp)

end Ty

theorem Value.itemsEq_of_forall₂ {as bs : List Value}
    (h : List.Forall₂ (fun a b => a.valueEq b = true) as bs) : itemsEq as bs = true := by
  induction h with
  | nil => rfl
  | cons hab _ ih => rw [itemsEq, hab, ih, Bool.and_self]

theorem Value.argumentsEq_of_rel {as bs : Entries Value}
    (h : as.Rel (fun a b => a.valueEq b = true) bs) : argumentsEq as bs = true := by
  induction h with
  | nil => rfl
  | cons key hab _ ih => simp [argumentsEq, hab, ih]

theorem transports_valueEq :
    Transports (fun v w => v.valueEq w = true) (fun a b => a.valueEq b = true) where
  scalar ty _ _ h := ty.decode_of_valueEq h
  elementType h := Bson.elementType_of_valueEq h
  null := rfl
  array h := by rw [Value.valueEq, Value.itemsEq_of_forall₂ h]
  composite typeName _ _ h := by simp [Value.valueEq, Value.argumentsEq_of_rel h]

theorem decodedEq_of_lifted {x y : Except DecodeFault Value}
    (h : Lifted (fun a b => a.valueEq b = true) x y) : decodedEq x y = true := by
  cases h with
  | ok h => exact h
  | error fault => simp [decodedEq]

namespace Entries

variable {α : Type}

theorem get?_of_perm {es es' : Entries α} (hkeys : es.keys.Nodup) (h : es.Perm es')
    (key : String) : es'.get? key = es.get? key := by
  have hkeys' : (keys es').Nodup := (h.map Prod.fst).nodup_iff.mp hkeys
  cases hfound : get? key es with
  | some a => exact get?_of_mem hkeys' (h.mem_iff.mp (mem_of_get? hfound))
  | none =>
    rw [get?_eq_none_iff] at hfound ⊢
    rwa [keys, ← (h.map Prod.fst).mem_iff]

end Entries

namespace Decoder

/-- One edit of a value, at any depth that a decoder looks into: elements of a document change their
order, or an element is added that no constructor parameter reads. Where several parameters read
the same element, an edit within it is one for each of them. -/
inductive Edit : Decoder → Bson → Bson → Prop
  | reorder {shape : DocumentDecoder} {fields fields' : Entries Bson}
    (hkeys : fields.keys.Nodup) (h : fields.Perm fields') :
    Edit (.document shape) (.document fields) (.document fields')
  | add {typeName : String} {members : Entries MemberDecoder} {creator : List String}
    {before after : Entries Bson} {key : String} (b : Bson)
    (h : ∀ p ∈ creator, ∀ m, members.get? p = some m → m.element ≠ key) :
    Edit (.document ⟨typeName, members, creator⟩) (.document (before ++ after))
      (.document (before ++ (key, b) :: after))
  | element {typeName : String} {members : Entries MemberDecoder} {creator : List String}
    {before after : Entries Bson} {key : String} {a b : Bson}
    (h : ∀ p ∈ creator, ∀ m, members.get? p = some m → m.element = key → Edit m.decoder a b) :
    Edit (.document ⟨typeName, members, creator⟩) (.document (before ++ (key, a) :: after))
      (.document (before ++ (key, b) :: after))
  | item {d : Decoder} {before after : List Bson} {a b : Bson} (h : Edit d a b) :
    Edit (.array d) (.array (before ++ a :: after)) (.array (before ++ b :: after))
  | present {d : Decoder} {a b : Bson} (h : Edit d a b) : Edit (.nullable d) a b

theorem Edit.related {d : Decoder} {v w : Bson} (h : d.Edit v w) : d.Related Eq v w := by
  have hrefl (d : Decoder) (x : Option Bson) : Option.Rel (d.Related Eq) x x :=
    rel_refl (related_refl (fun _ => rfl) d) x
  induction h with
  | @reorder shape fields fields' hkeys h =>
    obtain ⟨typeName, members, creator⟩ := shape
    refine related_document fun p _ m _ => ?_
    rw [Entries.get?_of_perm hkeys h]
    exact hrefl _ _
  | add b h =>
    refine related_document fun p hp m hm => ?_
    rw [Entries.get?_append, Entries.get?_append, Entries.get?_cons_of_ne (h p hp m hm).symm]
    exact hrefl _ _
  | @element _ _ _ before after key a b _ ih =>
    refine related_document fun p hp m hm => ?_
    rw [Entries.get?_append, Entries.get?_append]
    by_cases hkey : key = m.element
    · subst hkey
      rw [Entries.get?_cons_self, Entries.get?_cons_self]
      cases before.get? m.element with
      | none => exact .some (ih p hp m hm rfl)
      | some x => exact hrefl _ _
    · rw [Entries.get?_cons_of_ne hkey, Entries.get?_cons_of_ne hkey]
      exact hrefl _ _
  | @item d _ _ _ _ _ ih =>
    have hself (items : List Bson) : List.Forall₂ (d.Related Eq) items items :=
      List.forall₂_same.mpr fun b _ => related_refl (fun _ => rfl) d b
    refine ⟨.some (List.rel_append (hself _) (.cons ih (hself _))), fun hnone => ?_⟩
    cases hnone
  | present _ ih => exact .inr ih

/-- Decoding depends only on what its decoder names. Related values decode to the same value or to
the same fault, and to equal ones if they are related by equality of numbers and documents. So no
sequence of edits that reorders elements, or adds and removes elements that no constructor
parameter reads, at any depth, changes what a value decodes to. -/
theorem decode_depends_on_read_elements (d : Decoder) (v w : Bson) :
    (d.Related Eq v w → d.decode v = d.decode w) ∧
      (d.Related (fun a b => a.valueEq b = true) v w →
        decodedEq (d.decode v) (d.decode w) = true) ∧
      (Relation.EqvGen d.Edit v w → d.decode v = d.decode w) := by
  have hsame (v w : Bson) (h : d.Related Eq v w) : d.decode v = d.decode w :=
    (transports_eq.decode d v w h).eq fun _ _ hab => hab
  refine ⟨hsame v w, fun h => ?_, fun h => ?_⟩
  · exact decodedEq_of_lifted (transports_valueEq.decode d v w h)
  · induction h with
    | rel v w h => exact hsame v w h.related
    | refl v => rfl
    | symm v w _ ih => exact ih.symm
    | trans u v w _ _ ih ih' => exact ih.trans ih'

end Decoder

namespace Orders

def soldOut (zero : Binary64) : Bson :=
  .array [.document [("name", .string "pen"), ("qty", .double zero)]]

def negativeZero : Binary64 := ⟨9223372036854775808⟩

def identified (zero : Binary64) : Bson :=
  .array [.document [("_id", .int32 7), ("qty", .double zero), ("name", .string "pen")]]

theorem related_identified {same : Bson → Bson → Prop} {x y : Binary64}
    (hname : same (.string "pen") (.string "pen")) (hzero : same (.double x) (.double y)) :
    (Decoder.array (.document item)).Related same (soldOut x) (identified y) := by
  refine ⟨.some (.cons (Decoder.related_document ?_) .nil), fun hnone => by cases hnone⟩
  intro p hp m hm
  rcases List.mem_cons.mp hp with rfl | hp
  · cases hm
    exact .some hname
  · cases List.mem_singleton.mp hp
    cases hm
    exact .some hzero

/-- An identifier and the order of elements make no difference to a list of items, and neither does
the sign of a zero. -/
theorem items_decode_alike :
    let items : Decoder := .array (.document item)
    items.Related Eq (soldOut ⟨0⟩) (identified ⟨0⟩) ∧
      Relation.EqvGen items.Edit (soldOut ⟨0⟩) (identified ⟨0⟩) ∧
      items.Related (fun a b => a.valueEq b = true) (soldOut ⟨0⟩) (identified negativeZero) ∧
      items.decode (soldOut ⟨0⟩) = items.decode (identified ⟨0⟩) ∧
      decodedEq (items.decode (soldOut ⟨0⟩)) (items.decode (identified negativeZero)) = true := by
  intro items
  have hrelated : items.Related Eq (soldOut ⟨0⟩) (identified ⟨0⟩) := related_identified rfl rfl
  have hequal : items.Related (fun a b => a.valueEq b = true) (soldOut ⟨0⟩)
      (identified negativeZero) := related_identified (by decide) (by decide)
  have hedits : Relation.EqvGen items.Edit (soldOut ⟨0⟩) (identified ⟨0⟩) := by
    refine .trans _ (.array [.document [("qty", .double ⟨0⟩), ("name", .string "pen")]]) _
      (.rel _ _ ?_) (.rel _ _ ?_)
    · exact @Decoder.Edit.item _ [] [] _ _ (.reorder (by decide) (.swap _ _ _))
    · exact @Decoder.Edit.item _ [] [] _ _ (@Decoder.Edit.add _ _ _ [] _ _ (.int32 7) (by decide))
  have hsame := Decoder.decode_depends_on_read_elements items (soldOut ⟨0⟩) (identified ⟨0⟩)
  have hnegative :=
    Decoder.decode_depends_on_read_elements items (soldOut ⟨0⟩) (identified negativeZero)
  exact ⟨hrelated, hedits, hequal, hsame.1 hrelated, hnegative.2.1 hequal⟩

end Orders

end QueryStage
