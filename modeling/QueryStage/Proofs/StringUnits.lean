import QueryStage.Proofs.JoinedLowering
import QueryStage.Proofs.LiteralTexts

/-!
# Units of strings

Strings are counted in bytes or in code points. The unit decides between two sets of operators and
nothing else: the stages of one unit are those of the other with these operators renamed, wherever
they stand, and no stage has operators of both.
-/

namespace QueryStage

namespace StringUnit

variable {u u' : StringUnit} {key : String}

/-- The operator of the other unit in place of one that counts in this unit. -/
def translate (u u' : StringUnit) (key : String) : String :=
  if key = u.lengthOperator then u'.lengthOperator
  else if key = u.substringOperator then u'.substringOperator
  else if key = u.indexOperator then u'.indexOperator
  else key

theorem translate_of_not_mem (h : key ∉ u.operators) : u.translate u' key = key := by
  simp only [operators, List.mem_cons, List.not_mem_nil, or_false, not_or] at h
  rw [translate, if_neg h.1, if_neg h.2.1, if_neg h.2.2]

theorem translate_mem (h : key ∈ u.operators) : u.translate u' key ∈ u'.operators := by
  unfold translate
  split
  · simp [operators]
  · split
    · simp [operators]
    · split
      · simp [operators]
      · simp_all [operators]

theorem translate_length (u u' : StringUnit) :
    u.translate u' u.lengthOperator = u'.lengthOperator := by
  rw [translate, if_pos rfl]

theorem translate_substring (u u' : StringUnit) :
    u.translate u' u.substringOperator = u'.substringOperator := by
  cases u <;> cases u' <;> decide

theorem translate_index (u u' : StringUnit) :
    u.translate u' u.indexOperator = u'.indexOperator := by
  cases u <;> cases u' <;> decide

theorem not_mem_operators (h : u ≠ u') (hkey : key ∈ u'.operators) : key ∉ u.operators := by
  have hdisjoint : ∀ key ∈ u'.operators, key ∉ u.operators := by
    cases u with
    | bytes =>
      cases u' with
      | bytes => exact absurd rfl h
      | codePoints => decide
    | codePoints =>
      cases u' with
      | bytes => decide
      | codePoints => exact absurd rfl h
  exact hdisjoint key hkey

theorem not_mem_operators_of_not_reference (h : Literal.readsAsReference key = false)
    (u : StringUnit) : key ∉ u.operators := by
  have hreads : ∀ operator ∈ u.operators, Literal.readsAsReference operator = true := by
    cases u <;> decide
  intro hkey
  rw [hreads key hkey] at h
  cases h

end StringUnit

namespace Bson

mutual

/-- Renames the keys of all documents inside a value. -/
def mapKeys (f : String → String) : Bson → Bson
  | array items => array (mapKeysEach f items)
  | document fields => document (mapKeysOf f fields)
  | scopedCode text scope => scopedCode text (mapKeysOf f scope)
  | b => b

def mapKeysEach (f : String → String) : List Bson → List Bson
  | [] => []
  | b :: bs => b.mapKeys f :: mapKeysEach f bs

def mapKeysOf (f : String → String) : List (String × Bson) → List (String × Bson)
  | [] => []
  | (key, b) :: fields => (f key, b.mapKeys f) :: mapKeysOf f fields

end

mutual

/-- The keys of all documents inside a value. -/
def keysWithin : Bson → List String
  | array items => keysAmong items
  | document fields => keysOf fields
  | scopedCode _ scope => keysOf scope
  | _ => []

def keysAmong : List Bson → List String
  | [] => []
  | b :: bs => b.keysWithin ++ keysAmong bs

def keysOf : List (String × Bson) → List String
  | [] => []
  | (key, b) :: fields => key :: (b.keysWithin ++ keysOf fields)

end

mutual

theorem keysWithin_mapKeys (f : String → String) : ∀ b : Bson,
    (b.mapKeys f).keysWithin = b.keysWithin.map f
  | .array items => keysAmong_mapKeys f items
  | .document fields => keysOf_mapKeys f fields
  | .scopedCode _ scope => keysOf_mapKeys f scope
  | .null | .boolean _ | .int32 _ | .int64 _ | .double _ | .decimal128 _ | .string _ | .dateTime _
  | .objectId _ | .binary _ _ | .undefined | .minKey | .maxKey | .symbol _ | .code _
  | .regularExpression _ _ | .timestamp _ _ | .dbPointer _ _ => rfl

theorem keysAmong_mapKeys (f : String → String) : ∀ items : List Bson,
    keysAmong (mapKeysEach f items) = (keysAmong items).map f
  | [] => rfl
  | b :: bs => by
    rw [mapKeysEach, keysAmong, keysAmong, List.map_append, keysWithin_mapKeys f b,
      keysAmong_mapKeys f bs]

theorem keysOf_mapKeys (f : String → String) : ∀ fields : List (String × Bson),
    keysOf (mapKeysOf f fields) = (keysOf fields).map f
  | [] => rfl
  | (key, b) :: fields => by
    rw [mapKeysOf, keysOf, keysOf, List.map_cons, List.map_append, keysWithin_mapKeys f b,
      keysOf_mapKeys f fields]

end

@[simp] theorem mapKeysEach_eq_map (f : String → String) (items : List Bson) :
    mapKeysEach f items = items.map (mapKeys f) := by
  induction items with
  | nil => rfl
  | cons b bs ih => simp [mapKeysEach, ih]

theorem mapKeys_apply (f : String → String) (operator : String) (b : Bson) :
    (apply operator b).mapKeys f = apply (f operator) (b.mapKeys f) := rfl

theorem mapKeys_applyAll (f : String → String) (operator : String) (operands : List Bson) :
    (applyAll operator operands).mapKeys f =
      applyAll (f operator) (operands.map (mapKeys f)) := by
  rw [applyAll, mapKeys_apply, mapKeys, mapKeysEach_eq_map, applyAll]

theorem isDocument_mapKeys (f : String → String) (b : Bson) :
    (b.mapKeys f).isDocument = b.isDocument := by
  cases b <;> rfl

theorem chained?_mapKeys {f : String → String} {operator : String}
    (h : ∀ key, f key = operator ↔ key = operator) (b : Bson) :
    (b.mapKeys f).chained? operator = (b.chained? operator).map (List.map (mapKeys f)) := by
  have hitems (b : Bson) : (b.mapKeys f).items? = b.items?.map (List.map (mapKeys f)) := by
    cases b with
    | array items => simp [mapKeys, items?]
    | _ => rfl
  cases b with
  | document fields =>
    rcases fields with _ | ⟨⟨key, b⟩, _ | ⟨next, rest⟩⟩
    · rfl
    · by_cases hkey : key = operator
      · subst hkey
        simp [mapKeys, mapKeysOf, chained?, hitems, (h key).mpr rfl]
      · have hkey' : f key ≠ operator := fun heq => hkey ((h key).mp heq)
        simp [mapKeys, mapKeysOf, chained?, hkey', hkey]
    · rfl
  | _ => rfl

theorem mapKeys_not (f : String → String) (hf : f "$not" = "$not") (b : Bson) :
    (UnaryOp.not.emit b).mapKeys f = UnaryOp.not.emit (b.mapKeys f) := by
  rw [UnaryOp.emit_not, UnaryOp.emit_not, isDocument_mapKeys]
  split
  · rw [mapKeys_applyAll, hf, List.map_singleton]
  · rw [mapKeys_apply, hf]

variable {u u' : StringUnit}

/-- What counts in the one unit and what counts in the other, but for that the same. -/
def Recounts (u u' : StringUnit) (a b : Bson) : Prop := a.mapKeys (u.translate u') = b

theorem map_of_recounts {as bs : List Bson} (h : List.Forall₂ (Recounts u u') as bs) :
    as.map (mapKeys (u.translate u')) = bs := by
  induction h with
  | nil => rfl
  | cons hab _ ih => rw [List.map_cons, hab, ih]

theorem recounts_apply {operator operator' : String} {a b : Bson}
    (hoperator : u.translate u' operator = operator') (h : Recounts u u' a b) :
    Recounts u u' (apply operator a) (apply operator' b) := by
  rw [Recounts, mapKeys_apply, hoperator, h]

theorem recounts_applyAll {operator operator' : String} {as bs : List Bson}
    (hoperator : u.translate u' operator = operator')
    (h : List.Forall₂ (Recounts u u') as bs) :
    Recounts u u' (applyAll operator as) (applyAll operator' bs) := by
  rw [Recounts, mapKeys_applyAll, hoperator, map_of_recounts h]

theorem recounts_document {as bs : Entries Bson} (hkeys : ∀ key ∈ as.keys, key ∉ u.operators)
    (h : as.Rel (Recounts u u') bs) : Recounts u u' (document as) (document bs) := by
  have hfields : mapKeysOf (u.translate u') as = bs := by
    induction h with
    | nil => rfl
    | cons key hab _ ih =>
      have hkey : u.translate u' key = key :=
        StringUnit.translate_of_not_mem (hkeys key (by simp [Entries.keys]))
      have hrest := ih fun key hkey => hkeys key (List.mem_cons_of_mem _ hkey)
      rw [mapKeysOf, hkey, hab, hrest]
  rw [Recounts, mapKeys, hfields]

theorem recounts_literal {value : Literal} {ty : Ty} {b : Bson} (h : value.lower ty = .ok b) :
    Recounts u u' b b := by
  have hliteral : u.translate u' "$literal" = "$literal" :=
    StringUnit.translate_of_not_mem (by cases u <;> decide)
  cases value with
  | string s =>
    rw [Literal.lower, Except.ok.injEq] at h
    subst h
    split
    · exact recounts_apply hliteral rfl
    · rfl
  | comparison => cases h
  | _ => cases h; rfl

theorem operatorOn_not_mem (op : BinaryOp) (ty : Ty) (u : StringUnit) :
    op.operatorOn ty ∉ u.operators := by
  unfold BinaryOp.operatorOn
  split
  · cases u <;> decide
  · cases u <;> cases op <;> decide

theorem recounts_binary (op : BinaryOp) (ty : Ty) {a b c d : Bson} (hab : Recounts u u' a b)
    (hcd : Recounts u u' c d) : Recounts u u' (op.emit ty a c) (op.emit ty b d) := by
  have hoperator : u.translate u' (op.operatorOn ty) = op.operatorOn ty :=
    StringUnit.translate_of_not_mem (operatorOn_not_mem op ty u)
  have hother (key : String) :
      u.translate u' key = op.operatorOn ty ↔ key = op.operatorOn ty := by
    refine ⟨fun heq => ?_, fun heq => heq ▸ hoperator⟩
    by_cases hkey : key ∈ u.operators
    · have hmem : u.translate u' key ∈ u'.operators := StringUnit.translate_mem hkey
      rw [heq] at hmem
      exact absurd hmem (operatorOn_not_mem op ty u')
    · rw [← heq, StringUnit.translate_of_not_mem hkey]
  rw [Recounts] at hab hcd
  rw [BinaryOp.emit_eq, BinaryOp.emit_eq, ← hab, chained?_mapKeys hother]
  have hpair : List.Forall₂ (Recounts u u') [a, c] [a.mapKeys (u.translate u'), d] :=
    .cons rfl (.cons hcd .nil)
  cases op.flattens with
  | false => exact recounts_applyAll hoperator hpair
  | true =>
    simp only [if_true]
    cases a.chained? (op.operatorOn ty) with
    | none => exact recounts_applyAll hoperator hpair
    | some operands =>
      rw [Recounts, mapKeys_applyAll, hoperator, List.map_append, List.map_singleton, hcd]
      rfl

/-- Between two units the forms of all operators agree. -/
theorem joins_recounts (u u' : StringUnit) :
    Expr.Joins u u' (fun x => Literal.readsAsReference x = false) BinaryOp.emit BinaryOp.emit
      (Recounts u u') where
  text _ := rfl
  joined := recounts_binary
  forms := {
    literal := recounts_literal
    current := rfl
    plain := fun hplain h => recounts_apply
      (StringUnit.translate_of_not_mem ((not_mem_of_isPlain hplain).2 u)) h
    plainAll := fun hplain h => recounts_applyAll
      (StringUnit.translate_of_not_mem ((not_mem_of_isPlain hplain).2 u)) h
    fields := fun hkeys h => recounts_document
      (fun key hkey => StringUnit.not_mem_operators_of_not_reference (hkeys key hkey) u) h
    argument := by decide
    length := recounts_apply (StringUnit.translate_length u u')
    substring := recounts_applyAll (StringUnit.translate_substring u u')
    index := recounts_applyAll (StringUnit.translate_index u u')
    negated := by
      intro a b h
      have hnot : u.translate u' "$not" = "$not" :=
        StringUnit.translate_of_not_mem (by cases u <;> decide)
      rw [Recounts, mapKeys_not _ hnot, h] }

theorem not_mem_operators_of_recounts (hne : u ≠ u') {a b : Bson} (h : Recounts u u' a b) :
    ∀ key ∈ b.keysWithin, key ∉ u.operators := by
  rw [Recounts] at h
  subst h
  rw [keysWithin_mapKeys]
  intro key hkey
  obtain ⟨key, -, rfl⟩ := List.mem_map.mp hkey
  by_cases hmem : key ∈ u.operators
  · exact StringUnit.not_mem_operators hne (StringUnit.translate_mem hmem)
  · rwa [StringUnit.translate_of_not_mem hmem]

end Bson

namespace Expr

/-- No construction has a field that would be read as an operator. -/
def PlainNames (e : Expr) : Prop :=
  e.All fun n => ∀ x ∈ n.fieldNames, Literal.readsAsReference x = false

instance (e : Expr) : Decidable e.PlainNames :=
  inferInstanceAs (Decidable (∀ n ∈ e.nodes, ∀ x ∈ n.fieldNames,
    Literal.readsAsReference x = false))

theorem lower_recounts (u u' : StringUnit) {e : Expr} (he : e.PlainNames) (paths : Path → Path) :
    Lifted (Bson.Recounts u u') (e.lower u paths) (e.lower u' paths) := by
  have hrel := (Bson.joins_recounts u u').lowerBy he paths
  rwa [lowerBy_emit, lowerBy_emit] at hrel

theorem lowerShape_recounts (u u' : StringUnit) {e : Expr} (he : e.PlainNames) :
    Lifted (fun as bs => as.Rel (Bson.Recounts u u') bs ∧ ∀ key ∈ as.keys, key ∉ u.operators)
      (e.lowerShape u) (e.lowerShape u') := by
  by_cases hkind : e.kind = .construction
  · cases e with
    | construct ty parameters args members =>
      have hargs : List.Forall₂ (Lifted (Bson.Recounts u u')) (args.map (lower u id))
          (args.map (lower u' id)) := by
        rw [List.forall₂_map_left_iff, List.forall₂_map_right_iff, List.forall₂_same]
        exact fun a ha => lower_recounts u u' (he.part ha) id
      refine (shapeOf_rel ty parameters hargs).ensuring fun shape hshape key hkey => ?_
      rw [keys_of_shapeOf hshape, List.mem_eraseDups] at hkey
      exact StringUnit.not_mem_operators_of_not_reference (he.self key hkey) u
    | _ => cases hkind
  · rw [lowerShape_of_kind u hkind, lowerShape_of_kind u' hkind]
    exact .error _

theorem PlainNames.all {e : Expr} (h : e.PlainNames) :
    e.All (Carries (fun _ => True) fun x => Literal.readsAsReference x = false) :=
  fun n hn => ⟨fun _ _ => trivial, h n hn⟩

theorem plainNames_of_all {e : Expr}
    (h : e.All (Carries (fun _ => True) fun x => Literal.readsAsReference x = false)) :
    e.PlainNames :=
  fun n hn => (h n hn).names

end Expr

theorem Decoders.sustains_true (ds : Decoders) (N : String → Prop) :
    ds.Sustains (fun _ => True) N :=
  ⟨fun _ => trivial, fun _ => trivial, fun _ _ => trivial, fun _ _ => trivial,
    fun _ _ _ => trivial⟩

namespace Stage

variable {ds : Decoders} {source : Decoder} {u u' : StringUnit}

/-- Stages of one kind with the same decoder. With the operators of the one unit renamed to those of
the other, wherever they stand, they have the same document. -/
structure Recounts (u u' : StringUnit) (s s' : Stage) : Prop where
  kind : s.kind = s'.kind
  decoder : s.decoder = s'.decoder
  document : s.document.mapKeys (u.translate u') = s'.document

theorem recounts_of_specification (kind : StageKind) (decoder : Decoder) {as bs : Entries Bson}
    (hkeys : ∀ key ∈ as.keys, key ∉ u.operators) (h : as.Rel (Bson.Recounts u u') bs) :
    Recounts u u' ⟨kind, as, decoder⟩ ⟨kind, bs, decoder⟩ := by
  have hoperator : u.translate u' kind.operator = kind.operator :=
    StringUnit.translate_of_not_mem (by cases u <;> cases kind <;> decide)
  exact ⟨rfl, rfl, Bson.recounts_apply hoperator (Bson.recounts_document hkeys h)⟩

theorem mem_keys_projection {shape : Entries Bson} {key : String}
    (h : key ∈ (projection shape).keys) : key = "_id" ∨ key ∈ shape.keys := by
  unfold projection at h
  split at h
  · exact .inr h
  · exact List.mem_cons.mp h

theorem mem_keys_grouping {value : Bson} {shape : Entries Bson} {key : String}
    (h : key ∈ (grouping value shape).keys) : key = "_id" ∨ key ∈ shape.keys := by
  rcases List.mem_cons.mp h with h | h
  · exact .inl h
  · obtain ⟨field, hfield, rfl⟩ := List.mem_map.mp h
    exact .inr (List.mem_map_of_mem (List.mem_of_mem_filter hfield))

theorem finish_recounts (kind : StageKind) {specify specify' : Entries Bson → Entries Bson}
    (hspecify : ∀ {as bs}, as.Rel (Bson.Recounts u u') bs →
      (specify as).Rel (Bson.Recounts u u') (specify' bs))
    (hspecified : ∀ {as key}, key ∈ (specify as).keys → key = "_id" ∨ key ∈ as.keys)
    {body : Expr} (hbody : body.PlainNames) :
    Lifted (Recounts u u')
      (do
        let decoder ← body.decoder ds
        let shape ← body.lowerShape u
        return { kind, specification := specify shape, decoder })
      (do
        let decoder ← body.decoder ds
        let shape ← body.lowerShape u'
        return { kind, specification := specify' shape, decoder }) := by
  have hid : "_id" ∉ u.operators := by cases u <;> decide
  apply (Lifted.refl _).bind
  rintro decoder _ rfl
  apply (Expr.lowerShape_recounts u u' hbody).bind
  rintro as bs ⟨hrel, hkeys⟩
  refine .ok (recounts_of_specification kind decoder (fun key hkey => ?_) (hspecify hrel))
  rcases hspecified hkey with rfl | hkey
  · exact hid
  · exact hkeys key hkey

theorem ofProjector_recounts (u u' : StringUnit) {projector : Lambda}
    (hprojector : projector.body.PlainNames) :
    Lifted (Recounts u u') (ofProjector ds ⟨u⟩ source projector)
      (ofProjector ds ⟨u'⟩ source projector) := by
  have hbound (body : Expr) (h : projector.bindProjector ds source = .ok body) :
      body.PlainNames :=
    Expr.plainNames_of_all (Lambda.all_carries_of_bindProjector (ds.sustains_true _) trivial
      hprojector.all h)
  unfold ofProjector
  apply (Lifted.refl _).bind
  rintro _ _ rfl
  apply ((Lifted.refl _).ensuring hbound).bind
  rintro body _ ⟨rfl, hbody⟩
  exact finish_recounts .project (projection_rel_of_zero rfl) mem_keys_projection hbody

theorem ofGroup_recounts (u u' : StringUnit) {keySelector projector : Lambda}
    (hselector : keySelector.body.PlainNames) (hprojector : projector.body.PlainNames) :
    Lifted (Recounts u u') (ofGroup ds ⟨u⟩ source keySelector projector)
      (ofGroup ds ⟨u'⟩ source keySelector projector) := by
  have hds := ds.sustains_true fun x => Literal.readsAsReference x = false
  unfold ofGroup
  apply (Lifted.refl _).bind
  rintro _ _ rfl
  apply ((Lifted.refl _).ensuring fun bound h =>
    Lambda.all_carries_of_bindProjector hds trivial hselector.all h).bind
  rintro bound _ ⟨rfl, hbound⟩
  apply ((Lifted.refl _).ensuring fun key h => all_carries_of_keyOf hds hbound h).bind
  rintro key _ ⟨rfl, hkey⟩
  apply (Expr.lower_recounts u u' (Expr.plainNames_of_all hkey) id).bind
  intro value value' hvalue
  apply ((Lifted.refl _).ensuring fun body h => Expr.plainNames_of_all
    (Lambda.all_carries_of_bindGroupProjector hds trivial hprojector.all hkey h)).bind
  rintro body _ ⟨rfl, hbody⟩
  exact finish_recounts .group (grouping_rel hvalue) mem_keys_grouping hbody

/-- A stage that is also made in the other unit has only operators of its own. -/
theorem unmixed_of_recounts {x x' : Except Fault Stage} (h : Lifted (Recounts u' u) x' x)
    {stage : Stage} (hstage : x = .ok stage) (hne : u' ≠ u) :
    ∀ key ∈ stage.document.keysWithin, key ∉ u'.operators := by
  subst hstage
  cases h with
  | ok h => exact Bson.not_mem_operators_of_recounts hne h.document

/-- The unit in which strings are counted decides between two sets of operators and nothing else. In
both units there is the same fault, or stages of one kind with the same decoder that have the same
document once the operators of the one unit are renamed to those of the other. No stage has
operators of another unit than its own. -/
theorem units_differ_in_operators (ds : Decoders) (source : Decoder) :
    (∀ projector, projector.body.PlainNames →
      (∀ u u', Lifted (Recounts u u') (ofProjector ds ⟨u⟩ source projector)
        (ofProjector ds ⟨u'⟩ source projector)) ∧
      ∀ options stage, ofProjector ds options source projector = .ok stage →
        ∀ u ≠ options.stringUnit, ∀ key ∈ stage.document.keysWithin, key ∉ u.operators) ∧
    ∀ keySelector projector, keySelector.body.PlainNames → projector.body.PlainNames →
      (∀ u u', Lifted (Recounts u u') (ofGroup ds ⟨u⟩ source keySelector projector)
        (ofGroup ds ⟨u'⟩ source keySelector projector)) ∧
      ∀ options stage, ofGroup ds options source keySelector projector = .ok stage →
        ∀ u ≠ options.stringUnit, ∀ key ∈ stage.document.keysWithin, key ∉ u.operators := by
  constructor
  · intro projector hprojector
    refine ⟨fun u u' => ofProjector_recounts u u' hprojector, fun options stage h u hne => ?_⟩
    exact unmixed_of_recounts (ofProjector_recounts u options.stringUnit hprojector) h hne
  · intro keySelector projector hselector hprojector
    refine ⟨fun u u' => ofGroup_recounts u u' hselector hprojector,
      fun options stage h u hne => ?_⟩
    exact unmixed_of_recounts (ofGroup_recounts u options.stringUnit hselector hprojector) h hne

end Stage

namespace Orders

open QueryStage.Expr

def dashOf (name : String) : Expr :=
  instanceCall (cityOf name) "IndexOf" [ofLiteral (.string "-")] .int32

/-- The first letter of a city, the length of its name and the place of a dash in it. -/
def initials : Lambda where
  params := [ofOrder "o"]
  body := named (.record "Initials")
    [("First", instanceCall (cityOf "o") "Substring" [ofLiteral (.int32 0), ofLiteral (.int32 1)]
        .string),
      ("Length", access (cityOf "o") "Length" .int32), ("Dash", dashOf "o")]

def byLength : Lambda := ⟨[ofOrder "o"], access (cityOf "o") "Length" .int32⟩

def lastDash : Lambda where
  params := [ofGroup "g" .int32]
  body := named (.record "LastDash")
    [("Dash", sequenceCall "Max" (parameter (ofGroup "g" .int32))
      [lambda ⟨[ofOrder "o"], dashOf "o"⟩] .int32)]

/-- All operators that count occur, at the top of a field, in the key and in an accumulator. -/
theorem initials_in_both_units :
    initials.body.PlainNames ∧ byLength.body.PlainNames ∧ lastDash.body.PlainNames ∧
      (∃ s s', Stage.ofProjector registry ⟨.bytes⟩ source initials = .ok s ∧
        Stage.ofProjector registry ⟨.codePoints⟩ source initials = .ok s' ∧
        s.document.keysWithin = ["$project", "_id", "First", "$substrBytes", "Length",
          "$strLenBytes", "Dash", "$indexOfBytes"] ∧ Stage.Recounts .bytes .codePoints s s' ∧
        ∀ key ∈ s.document.keysWithin, key ∉ StringUnit.codePoints.operators) ∧
      ∃ s s', Stage.ofGroup registry ⟨.codePoints⟩ source byLength lastDash = .ok s ∧
        Stage.ofGroup registry ⟨.bytes⟩ source byLength lastDash = .ok s' ∧
        s.document.keysWithin = ["$group", "_id", "$strLenCP", "Dash", "$max", "$indexOfCP"] ∧
        Stage.Recounts .codePoints .bytes s s' ∧
        ∀ key ∈ s.document.keysWithin, key ∉ StringUnit.bytes.operators := by
  have hinitials : initials.body.PlainNames := by decide
  have hbyLength : byLength.body.PlainNames := by decide
  have hlastDash : lastDash.body.PlainNames := by decide
  obtain ⟨hproject, hgroup⟩ := Stage.units_differ_in_operators registry source
  obtain ⟨hproject, hprojected⟩ := hproject initials hinitials
  obtain ⟨hgroup, hgrouped⟩ := hgroup byLength lastDash hbyLength hlastDash
  obtain ⟨s, hs, hrecounts⟩ := (hproject .bytes .codePoints).exists_ok rfl
  obtain ⟨t, ht, hrecounted⟩ := (hgroup .codePoints .bytes).exists_ok rfl
  refine ⟨hinitials, hbyLength, hlastDash, ⟨_, s, rfl, hs, rfl, hrecounts, ?_⟩,
    ⟨_, t, rfl, ht, rfl, hrecounted, ?_⟩⟩
  · exact hprojected ⟨.bytes⟩ _ rfl .codePoints (by decide)
  · exact hgrouped ⟨.codePoints⟩ _ rfl .bytes (by decide)

end Orders

end QueryStage
