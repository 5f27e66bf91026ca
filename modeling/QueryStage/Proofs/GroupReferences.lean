import QueryStage.Proofs.KeyReadings
import QueryStage.Proofs.Orders
import QueryStage.Proofs.StageParts

/-!
# References of group stages

A group projector reads the source elements through the grouping and the key through its `Key`. A
key that is no bound node and no construction is held as a document without a path, and so its
members are taken for fields of the source. The references of all projectors over such a key are
fields of the source just when the decoder of the key reaches no others.
-/

namespace QueryStage

namespace Decoder

private theorem mem_of_declared {name : String} {m : MemberDecoder}
    {entries : List (String × Decoder)} {b : DecoderBuilder}
    (h : Entries.get? name (entries.foldl ofConstruction.declare b).members = some m) :
    Entries.get? name b.members = some m ∨ ∃ e ∈ entries, e.1 = name := by
  induction entries generalizing b with
  | nil => exact .inl h
  | cons e entries ih =>
    rcases ih h with h | ⟨e', he', hname⟩
    · simp only [ofConstruction.declare, DecoderBuilder.member, DecoderBuilder.creatorParameter,
        Entries.get?_insert] at h
      split at h
      · exact .inr ⟨e, by simp, ‹_›⟩
      · exact .inl h
    · exact .inr ⟨e', List.mem_cons_of_mem _ he', hname⟩

theorem ofConstruction_cases {ty : Ty} {parameters : List String} {members : Option (List String)}
    {args : List (Except Fault Decoder)} {d : Decoder}
    (h : ofConstruction ty parameters members args = .ok d) :
    ∃ declared shape, members = some declared ∧ d = .document shape ∧
      parameters.length = args.length ∧
      ∀ name m, shape.member? name = some m → name ∈ parameters ∧ name ∈ declared := by
  unfold ofConstruction at h
  split at h
  · cases h
  · rename_i declared
    split at h
    · cases h
    · rename_i hlength
      obtain ⟨entries, hentries, h⟩ := bind_eq_ok_iff.mp h
      cases h
      have hnames : ∀ e ∈ entries, e.1 ∈ parameters ∧ e.1 ∈ declared := by
        refine Ensures.mapM (fun entry hentry => ?_) entries hentries
        obtain ⟨parameter, decoder⟩ := entry
        have hparameter := (List.of_mem_zip hentry).1
        dsimp only
        split
        · rename_i hdeclared
          have hany : Ensures (fun _ => True) decoder := fun _ _ => trivial
          exact hany.bind fun _ _ => .ok ⟨hparameter, List.contains_iff_mem.mp hdeclared⟩
        · exact .error _
      refine ⟨declared, _, rfl, rfl, not_not.mp hlength, fun name m hm => ?_⟩
      rcases mem_of_declared hm with hnew | ⟨e, he, rfl⟩
      · cases hnew
      · exact hnames e he

end Decoder

namespace Expr

private theorem isSome_get?_zip {name : String} {parameters : List String} {args : List Expr}
    (hlength : parameters.length = args.length) (hname : name ∈ parameters) :
    (Entries.get? name (parameters.zip args)).isSome = true := by
  rw [Option.isSome_iff_ne_none, Ne, Entries.get?_eq_none_iff, Entries.keys_zip hlength]
  exact not_not.mpr hname

theorem covers_of_decoder {r : Decoders} {ty : Ty} {parameters : List String} {args : List Expr}
    {members : Option (List String)} {d : Decoder}
    (h : (construct ty parameters args members).decoder r = .ok d) :
    Covers parameters args members d := by
  rw [decoder] at h
  obtain ⟨declared, shape, rfl, rfl, hlength, hmembers⟩ := Decoder.ofConstruction_cases h
  refine ⟨rfl, fun name m hm => ?_⟩
  obtain ⟨hparameter, hdeclared⟩ := hmembers name m hm
  rw [decoders_eq_map, List.length_map] at hlength
  rw [constructed?, List.contains_iff_mem.mpr hdeclared, if_pos rfl]
  exact isSome_get?_zip hlength hparameter

end Expr

namespace Stage

/-- The decoders at the start of paths: that of the grouping, and that of a computed key. -/
def groupRoots (r : Decoders) (source : Decoder) (bound : Expr) (d : Decoder) : Prop :=
  d = .array source ∨ bound.isComputed = true ∧ bound.decoder r = .ok d

section Located

variable {r : Decoders} {source : Decoder} {bound key : Expr}

private theorem located_root {roots : Decoder → Prop} {d : Decoder}
    (h : Path.Located roots ⟨[]⟩ d) (p : Parameter) :
    (Lambda.root p d).All (Expr.Located roots) :=
  Expr.all_document h trivial

private theorem admits_located (roots : Decoder → Prop) (group : Option GroupScope) :
    Expr.Admits (Expr.Located roots) group :=
  .inl fun _ _ _ _ => trivial

theorem located_bindProjector {keySelector : Lambda} (hwritten : keySelector.body.Written)
    (h : keySelector.bindProjector r source = .ok bound) :
    bound.All (Expr.Located (groupRoots r source bound)) := by
  obtain ⟨p, -, h⟩ := Lambda.bindProjector_cases h
  have hroot : Path.Located (groupRoots r source bound) ⟨[]⟩ source :=
    .inr ⟨.array source, .inl rfl, .item rfl (.refl source)⟩
  have hscope : (Lambda.projectorScope p source).All (Expr.Located (groupRoots r source bound)) :=
    Scope.All.bind ⟨nofun, nofun⟩ p.name (located_root hroot p)
  exact Expr.all_of_bind (Expr.invariant_located r _) hwritten _ bound hscope
    (admits_located _ _) h

theorem located_keyOf (hbound : bound.All (Expr.Located (groupRoots r source bound)))
    (h : keyOf r bound = .ok key) : key.All (Expr.Located (groupRoots r source bound)) := by
  have hdocument {d : Decoder} (hd : (Expr.document bound none d).Located
      (groupRoots r source bound)) :
      (Expr.document bound none d).All (Expr.Located (groupRoots r source bound)) :=
    Expr.all_iff.mpr ⟨hd, by simpa [Expr.parts] using hbound⟩
  rcases keyOf_cases h with ⟨-, rfl⟩ | ⟨ty, parameters, args, members, d, rfl, hd, rfl⟩ |
    ⟨d, hcomputed, hd, rfl⟩
  · exact hbound
  · exact hdocument (Expr.covers_of_decoder hd)
  · refine hdocument ?_
    have hroot : Path.Located (groupRoots r source bound) ⟨[]⟩ d :=
      .inr ⟨d, .inr ⟨hcomputed, hd⟩, .refl d⟩
    cases bound with
    | construct => cases hcomputed
    | _ => exact hroot

theorem located_bindGroupProjector {projector : Lambda} {body : Expr}
    (hwritten : projector.body.Written)
    (hkey : key.All (Expr.Located (groupRoots r source bound)))
    (h : projector.bindGroupProjector r source key = .ok body) :
    body.All (Expr.Located (groupRoots r source bound)) := by
  obtain ⟨g, -, h⟩ := Lambda.bindGroupProjector_cases h
  have hroot : Path.Located (groupRoots r source bound) ⟨[]⟩ (.array source) :=
    .inr ⟨.array source, .inl rfl, .refl _⟩
  have hscope : (Lambda.groupScope g source key).All
      (Expr.Located (groupRoots r source bound)) := by
    refine Scope.All.bind ⟨nofun, ?_⟩ g.name (located_root hroot g)
    rintro g ⟨⟩
    exact hkey
  exact Expr.all_of_bind (Expr.invariant_located r _) hwritten _ body hscope
    (admits_located _ _) h

/-- A located expression refers to what the roots reach. -/
theorem refers_of_located {roots : Decoder → Prop} {S : String → Prop} {e : Expr}
    (he : e.All (Expr.Located roots))
    (hS : ∀ root ref, roots root → isFieldReference ref = true → root.Reaches ref → S ref) :
    ∀ p ∈ e.boundPaths, (id p).Refers S := by
  intro p hp
  obtain ⟨n, hn, hpath⟩ := Expr.mem_boundPaths.mp hp
  have hlocated := he n hn
  cases n with
  | field q d ty =>
    cases hpath
    exact hlocated.2.refers hlocated.1 hS
  | document inner q d =>
    cases hpath
    exact hlocated.2.refers hlocated.1 hS
  | _ => cases hpath

end Located

theorem forall_mem_grouping {P : Bson → Prop} {keyValue : Bson} {shape : Entries Bson}
    (hkey : P keyValue) (hshape : ∀ field ∈ shape, P field.2) :
    ∀ field ∈ grouping keyValue shape, P field.2 := by
  refine List.forall_mem_cons.mpr ⟨?_, fun field hfield => ?_⟩
  · cases hid : Entries.get? "_id" shape with
    | none => exact hkey
    | some b => exact hshape _ (Entries.mem_of_get? hid)
  · exact hshape field (List.mem_filter.mp hfield).1

/-- Every reference of a group stage is reached from a root. -/
theorem refers_of_ofGroup {r : Decoders} {options : Options} {source : Decoder}
    {keySelector projector : Lambda} {bound : Expr} {stage : Stage} {S : String → Prop}
    (hkeyWritten : keySelector.body.Written) (hwritten : projector.body.Written)
    (hbound : keySelector.bindProjector r source = .ok bound)
    (hS : ∀ root ref, groupRoots r source bound root → isFieldReference ref = true →
      root.Reaches ref → S ref)
    (h : ofGroup r options source keySelector projector = .ok stage) :
    ∀ field ∈ stage.specification, field.2.Refers S := by
  obtain ⟨bound', key, keyValue, body, shape, hbound', hkey, hvalue, hbody, hshape, hspec⟩ :=
    ofGroup_cases h
  cases hbound.symm.trans hbound'
  have hkeyLocated := located_keyOf (located_bindProjector hkeyWritten hbound) hkey
  have hbodyLocated := located_bindGroupProjector hwritten hkeyLocated hbody
  have hkeyRefers := Expr.lowers_of_boundPaths options.stringUnit key id
    (refers_of_located hkeyLocated hS) keyValue hvalue
  rw [hspec]
  exact forall_mem_grouping hkeyRefers
    (Expr.refers_of_lowerShape (refers_of_located hbodyLocated hS) shape hshape)

/-- A projector that reads one expression over the grouping `g`. -/
def projectorOf (g : Parameter) (e : Expr) : Lambda := ⟨[g], .valueRecord e⟩

theorem ofGroup_projectorOf {r : Decoders} {options : Options} {source : Decoder}
    {keySelector : Lambda} {bound key : Expr} {keyValue : Bson} {g : Parameter} {e b : Expr}
    {d : Decoder} {v : Bson} (hbound : keySelector.bindProjector r source = .ok bound)
    (hkey : keyOf r bound = .ok key) (hvalue : key.lower options.stringUnit id = .ok keyValue)
    (hb : e.bind r (Lambda.groupScope g source key) = .ok b) (hd : b.decoder r = .ok d)
    (hv : b.lower options.stringUnit id = .ok v) :
    ∃ stage, ofGroup r options source keySelector (projectorOf g e) = .ok stage ∧
      ("Value", v) ∈ stage.specification := by
  have hbody : (projectorOf g e).bindGroupProjector r source key = .ok (.valueRecord b) :=
    Expr.bind_valueRecord hb
  refine ⟨⟨.group, grouping keyValue [("Value", v)],
    Decoder.ofFields (.record "Reading") ["Value"] [d]⟩, ?_, ?_⟩
  · rw [ofGroup, hbound, ok_bind, hkey, ok_bind, hvalue, ok_bind, hbody, ok_bind,
      Expr.decoder_valueRecord hd, ok_bind, Expr.lowerShape_valueRecord hv]
    rfl
  · exact List.mem_cons_of_mem _ (List.mem_filter.mpr ⟨by simp, by simp⟩)

/-- What a computed key reaches is a reference of some group stage. -/
theorem exists_ofGroup_of_reaches {r : Decoders} {options : Options} {source : Decoder}
    {keySelector : Lambda} {bound key : Expr} {keyValue : Bson}
    (hbound : keySelector.bindProjector r source = .ok bound)
    (hkey : keyOf r bound = .ok key) (hvalue : key.lower options.stringUnit id = .ok keyValue)
    {d : Decoder} (hcomputed : bound.isComputed = true) (hd : bound.decoder r = .ok d)
    {ref : String} (hfield : isFieldReference ref = true) (href : d.Reaches ref) :
    ∃ projector stage, projector.body.Written ∧
      ofGroup r options source keySelector projector = .ok stage ∧
      ∃ field ∈ stage.specification, ref ∈ field.2.fieldReferences := by
  obtain ⟨es, d', hes, htrace, rfl⟩ := href
  have hdocument : key = .document bound none d := by
    rcases keyOf_cases hkey with ⟨hbound, -⟩ | ⟨ty, parameters, args, members, d, rfl, -, -⟩ |
      ⟨d', -, hd', hkey⟩
    · rw [hcomputed] at hbound
      cases hbound
    · cases hcomputed
    · cases hd.symm.trans hd'
      exact hkey
  have hat : Expr.At key [] d := by
    rw [hdocument]
    refine .current d ?_
    cases bound with
    | construct => cases hcomputed
    | _ => rfl
  let g : Parameter := ⟨"g", .document⟩
  have hread : (Expr.member (.parameter g) "Key" .document .document).bind r
      (Lambda.groupScope g source key) = .ok key := rfl
  have hwritten : (Expr.member (.parameter g) "Key" .document .document).Written := by decide
  obtain ⟨e, b, decoder, v, he, hb, hdecoder, hv, hmem⟩ :=
    Expr.readable_of_traces r options.stringUnit htrace (Lambda.groupScope g source key) _ key []
      hwritten (Expr.isGrouping_member _ _ _ _ _) hread hat hes hfield
  obtain ⟨stage, hstage, hvalue⟩ := ofGroup_projectorOf hbound hkey hvalue hb hdecoder hv
  exact ⟨projectorOf g e, stage, Expr.written_valueRecord he, hstage, _, hvalue, hmem⟩

/-- All references of all group stages over a key are fields of the source just when the decoder of
the key, if the key is computed, reaches no other fields. -/
theorem group_references_reached_iff (r : Decoders) (options : Options) (source : Decoder)
    (keySelector : Lambda) (bound key : Expr) (keyValue : Bson)
    (hwritten : keySelector.body.Written)
    (hbound : keySelector.bindProjector r source = .ok bound) (hkey : keyOf r bound = .ok key)
    (hvalue : key.lower options.stringUnit id = .ok keyValue) :
    (∀ projector stage, projector.body.Written →
        ofGroup r options source keySelector projector = .ok stage →
        ∀ field ∈ stage.specification, ∀ ref ∈ field.2.fieldReferences, source.Reaches ref) ↔
      ∀ d, bound.isComputed = true → bound.decoder r = .ok d →
        ∀ ref, isFieldReference ref = true → d.Reaches ref → source.Reaches ref := by
  constructor
  · intro h d hcomputed hd ref hfield href
    obtain ⟨projector, stage, hprojector, hstage, field, hmem, href⟩ :=
      exists_ofGroup_of_reaches hbound hkey hvalue hcomputed hd hfield href
    exact h projector stage hprojector hstage field hmem ref href
  · intro h projector stage hprojector hstage
    refine refers_of_ofGroup hwritten hprojector hbound ?_ hstage
    intro root ref hroot hfield href
    rcases hroot with rfl | ⟨hcomputed, hd⟩
    · obtain ⟨es, d, hes, htrace, rfl⟩ := href
      exact ⟨es, d, hes, htrace.of_array hes, rfl⟩
    · exact h root hcomputed hd ref hfield href

end Stage

namespace Orders

open QueryStage.Expr

/-- The orders with the same address to send to: the home of express orders, else the work. -/
def byAddress : Lambda where
  params := [ofOrder "o"]
  body := choose (access (parameter (ofOrder "o")) "Express" .boolean)
    (access (parameter (ofOrder "o")) "Home" (.record "Address"))
    (access (parameter (ofOrder "o")) "Work" (.nullable (.record "Address")))

def cityTotals : Lambda where
  params := [ofGroup "g" (.record "Address")]
  body := named (.record "CityTotal")
    [("City", access (access (parameter (ofGroup "g" (.record "Address"))) "Key"
        (.record "Address")) "City" .string),
      ("Total", sequenceCall "Sum" (parameter (ofGroup "g" (.record "Address")))
        [lambda ⟨[ofOrder "o"], access (parameter (ofOrder "o")) "Amount" .int32⟩] .int32)]

/-- A place, which has the elements of an address itself beside the addresses before and after. -/
def place : DocumentDecoder where
  typeName := "Place"
  members :=
    [("City", ⟨"city", .value .string⟩), ("Zip", ⟨"zip", .value .string⟩),
      ("Moved", ⟨"moved", .value .boolean⟩), ("Former", ⟨"former", .nullable (.document address)⟩),
      ("Next", ⟨"next", .nullable (.document address)⟩)]
  creator := ["City", "Zip", "Moved", "Former", "Next"]

/-- The places with the same other address: the former one of those that have moved. -/
def byOther : Lambda where
  params := [⟨"p", .record "Place"⟩]
  body := choose (access (parameter ⟨"p", .record "Place"⟩) "Moved" .boolean)
    (access (parameter ⟨"p", .record "Place"⟩) "Former" (.nullable (.record "Address")))
    (access (parameter ⟨"p", .record "Place"⟩) "Next" (.nullable (.record "Address")))

def cityCounts : Lambda where
  params := [⟨"g", .grouping (.record "Address") (.record "Place")⟩]
  body := named (.record "CityCount")
    [("City", access (access (parameter ⟨"g", .grouping (.record "Address") (.record "Place")⟩)
        "Key" (.nullable (.record "Address"))) "City" .string),
      ("Count", sequenceCall "Count"
        (parameter ⟨"g", .grouping (.record "Address") (.record "Place")⟩) [] .int32)]

theorem reaches_place {ref : String}
    (h : (Decoder.nullable (.document address)).Reaches ref) :
    (Decoder.document place).Reaches ref := by
  obtain ⟨es, d, hes, htrace, rfl⟩ := h
  cases htrace with
  | refl => exact absurd rfl hes
  | item hitem => cases hitem
  | @member _ _ name m es hm htrace =>
    have hmember : (name, m) ∈ address.members := Entries.mem_of_get? hm
    have hsame : (Decoder.document place).member? name = some m := by
      simp only [address, List.mem_cons, List.not_mem_nil, or_false, Prod.mk.injEq] at hmember
      rcases hmember with ⟨rfl, rfl⟩ | ⟨rfl, rfl⟩ <;> rfl
    exact ⟨_, d, hes, .member hsame htrace, rfl⟩

/-- A key that is computed: its decoder reaches the elements of an address, and so does that of a
place. -/
theorem reached_of_byOther :
    ∃ stage, Stage.ofGroup registry {} (.document place) byOther cityCounts = .ok stage ∧
    stage.specification = [("_id", Bson.applyAll "$cond"
        [.string "$moved", .string "$former", .string "$next"]),
      ("City", .string "$city"), ("Count", Bson.apply "$sum" (.int32 1))] ∧
    ∀ field ∈ stage.specification, ∀ ref ∈ field.2.fieldReferences,
      (Decoder.document place).Reaches ref := by
  refine ⟨_, rfl, rfl, ?_⟩
  have hiff := Stage.group_references_reached_iff registry {} (.document place) byOther _ _ _
    (by decide) rfl rfl rfl
  refine hiff.mpr (fun d _ hd ref _ href => ?_) cityCounts _ (by decide) rfl
  cases hd
  exact reaches_place href

theorem not_reaches_city : ¬ source.Reaches "$city" := by
  rintro ⟨es, d, hes, htrace, href⟩
  cases htrace with
  | refl => exact hes rfl
  | item h => cases h
  | @member _ _ name m es h _ =>
    have hmember : (name, m) ∈ order.members := Entries.mem_of_get? h
    obtain ⟨tail, htail⟩ := Path.toList_joined_cons m.element es
    have htext : "city".toList = m.element.toList ++ tail := by
      rw [← htail]
      have hlist := congrArg String.toList href
      simpa [Path.reference, Path.text] using hlist
    have helement : m.element ∈ ["express", "amount", "home", "work", "items"] := by
      have hmap := List.mem_map_of_mem (f := fun e => e.2.element) hmember
      simpa [order] using hmap
    simp only [List.mem_cons, List.not_mem_nil, or_false] at helement
    rcases helement with h | h | h | h | h <;> rw [h] at htext <;> cases htext

/-- By an address that is computed, the city of the key is read from the order, which has none. -/
theorem city_of_byAddress :
    (Stage.ofGroup registry {} source byAddress cityTotals).map Stage.specification =
      .ok [("_id", Bson.applyAll "$cond" [.string "$express", .string "$home", .string "$work"]),
        ("City", .string "$city"), ("Total", Bson.apply "$sum" (.string "$amount"))] ∧
      byAddress.body.Written ∧ cityTotals.body.Written ∧
      "$city" ∈ (Bson.string "$city").fieldReferences ∧ ¬ source.Reaches "$city" :=
  ⟨rfl, by decide, by decide, by decide, not_reaches_city⟩

end Orders

end QueryStage
