import QueryStage.Decoder.Decode
import QueryStage.Proofs.DistinctNames
import QueryStage.Proofs.Evaluation
import QueryStage.Proofs.Orders
import QueryStage.Proofs.PathText
import QueryStage.Proofs.StageParts

/-!
# Projections of members and constructions

A projector that only follows members of its parameter and constructs named shapes from them always
has a stage, and decoding what the stage yields for a document gives the shape that the projector
constructs from the decoded document.
-/

namespace QueryStage

namespace Decoder

/-- A declared member that the constructor takes, also of a nullable document. -/
def created? (name : String) : Decoder → Option MemberDecoder
  | document d => if d.creator.contains name then d.member? name else none
  | nullable d => d.created? name
  | value _ => none
  | array _ => none

theorem member?_of_created? {d : Decoder} {name : String} {m : MemberDecoder}
    (h : d.created? name = some m) : d.member? name = some m := by
  induction d with
  | value ty => cases h
  | nullable d ih => exact ih h
  | array d => cases h
  | document typeName members creator =>
    simp only [created?] at h
    split at h
    · exact h
    · cases h

private theorem get?_of_created {f : String → Except DecodeFault Value} {creator : List String}
    {arguments : List (String × Value)} {name : String}
    (h : List.Forall₂ (fun q a => (do return (q, ← f q)) = Except.ok a) creator arguments)
    (hn : name ∈ creator) : ∃ v, f name = .ok v ∧ Entries.get? name arguments = some v := by
  induction h with
  | nil => cases hn
  | @cons q a creator arguments hq _ ih =>
    obtain ⟨v, hv, ha⟩ := bind_eq_ok_iff.mp hq
    cases ha
    by_cases hqn : q = name
    · subst hqn
      exact ⟨v, hv, Entries.get?_cons_self _ _ _⟩
    · have hn' : name ∈ creator := (List.mem_cons.mp hn).resolve_left fun e => hqn e.symm
      obtain ⟨w, hw, hg⟩ := ih hn'
      exact ⟨w, hw, by rw [Entries.get?_cons_of_ne hqn, hg]⟩

/-- Where a decoded value is not null, an argument that its constructor takes was decoded from the
element that the member names. -/
theorem decode_created? {d : Decoder} {name : String} {m : MemberDecoder} {b : Bson} {v : Value}
    (hm : d.created? name = some m) (hd : d.decode b = .ok v) (hv : v ≠ .null) :
    ∃ x w, b.below? [m.element] = some x ∧ m.decoder.decode x = .ok w ∧
      v.argument? name = some w := by
  induction d with
  | value ty => cases hm
  | array d => cases hm
  | nullable d ih =>
    cases b with
    | null => cases hd; exact absurd rfl hv
    | undefined => cases hd; exact absurd rfl hv
    | _ => exact ih hm hd
  | document typeName members creator =>
    cases b with
    | null => cases hd; exact absurd rfl hv
    | document fields =>
      simp only [decode, bind_eq_ok_iff, pure_eq_ok, Except.ok.injEq] at hd
      obtain ⟨arguments, hargs, rfl⟩ := hd
      simp only [created?] at hm
      split at hm
      · rename_i hc
        have hmem : name ∈ creator := by simpa using hc
        obtain ⟨w, hw, hg⟩ := get?_of_created (mapM_eq_ok_iff.mp hargs) hmem
        have hget : Entries.get? name members = some m := hm
        rw [decodeMember_eq, hget] at hw
        cases hx : Entries.get? m.element fields with
        | none => simp [hx] at hw
        | some x =>
          simp only [hx] at hw
          exact ⟨x, w, by simp [Bson.below?, hx], hw, hg⟩
      · cases hm
    | _ => simp [decode] at hd

end Decoder

namespace Bson

private theorem below?_append (ss ts : List String) (b : Bson) :
    b.below? (ss ++ ts) = (b.below? ss).bind (below? ts) := by
  induction ss generalizing b with
  | nil => rfl
  | cons s ss ih =>
    cases b with
    | document fields =>
      simp only [List.cons_append, below?]
      cases Entries.get? s fields with
      | none => rfl
      | some x => exact ih x
    | _ => rfl

private theorem evaluateText_reference (root : Bson) {s : String} {ss : List String}
    (hplain : ∀ t ∈ s :: ss, Path.PlainSegment t) (hs : Literal.readsAsReference s = false) :
    evaluateText root (Path.reference ⟨s :: ss⟩) = root.below? (s :: ss) := by
  have htext : (Path.reference ⟨s :: ss⟩).toList = '$' :: (Path.text ⟨s :: ss⟩).toList := by
    simp [Path.reference]
  obtain ⟨c, cs, hc⟩ : ∃ c cs, s.toList = c :: cs := by
    cases hl : s.toList with
    | nil => exact absurd (String.toList_eq_nil_iff.mp hl) (hplain s (by simp)).nonempty
    | cons c cs => exact ⟨c, cs, rfl⟩
  have hdollar : c ≠ '$' := by simpa [Literal.readsAsReference, hc] using hs
  have hhead : ∃ rest, (Path.text ⟨s :: ss⟩).toList = c :: rest := by
    cases ss with
    | nil => exact ⟨cs, by simp [Path.text, Path.joined, hc]⟩
    | cons t ss => exact ⟨cs ++ '.' :: (Path.joined (t :: ss)).toList,
        by simp [Path.text, Path.joined, hc]⟩
  obtain ⟨rest, hrest⟩ := hhead
  have hne : Path.reference ⟨s :: ss⟩ ≠ "$$ROOT" := by
    intro he
    have hl : '$' :: c :: rest = "$$ROOT".toList := by rw [← he, htext, hrest]
    have hc : c = '$' ∧ rest = ['R', 'O', 'O', 'T'] := by simpa using hl
    exact hdollar hc.1
  have hread : Path.ofText (Path.text ⟨s :: ss⟩) = ⟨s :: ss⟩ := Path.Plain.ofText_text hplain
  rw [evaluateText, if_neg hne, htext]
  simp only [String.ofList_toList, hread]

end Bson

namespace Value

private theorem follow_append (ms ns : List String) (v : Value) :
    v.follow (ms ++ ns) = (v.follow ms).bind (follow ns) := by
  induction ms generalizing v with
  | nil => rfl
  | cons m ms ih =>
    simp only [List.cons_append, follow]
    cases v.argument? m with
    | none => rfl
    | some w => exact ih w

end Value

namespace Expr

/-- No member of `c` that an expression goes through on the way to another is null. -/
def PassesNoNull (e : Expr) (c : Value) : Prop :=
  ∀ chain ∈ e.chains, ∀ n < chain.length, c.follow (chain.take n) ≠ some .null

/-- A chain of members of the parameter `name`, with the elements that it leads through and the
decoder that it ends at. -/
inductive Chain (name : String) (source : Decoder) : Expr → List String → Decoder → Prop where
  | root {p : Parameter} (hp : p.name = name) : Chain name source (.parameter p) [] source
  | member {target : Expr} {elements : List String} {d : Decoder} {m : String}
      {info : MemberDecoder} {declaring ty : Ty} (front : Chain name source target elements d)
      (created : d.created? m = some info) (plain : Path.PlainSegment info.element)
      (text : Literal.readsAsReference info.element = false) :
      Chain name source (.member target m declaring ty) (elements ++ [info.element]) info.decoder

namespace Chain

variable {name : String} {source : Decoder} {e : Expr} {elements : List String} {d : Decoder}

theorem access {target : Expr} {d' : Decoder} {m element : String}
    (front : Chain name source target elements d) (ty : Ty)
    (created : d.created? m = some ⟨element, d'⟩)
    (plain : Path.PlainSegment element ∧ Literal.readsAsReference element = false) :
    Chain name source (target.access m ty) (elements ++ [element]) d' :=
  .member front created plain.1 plain.2

theorem chains_eq (h : Chain name source e elements d) :
    ∃ ms, e.chains = [ms] ∧ ∀ c, e.reading c = c.follow ms := by
  induction h with
  | root => exact ⟨[], rfl, fun c => rfl⟩
  | @member target elements d m info declaring ty _ _ _ _ ih =>
    obtain ⟨ms, hms, hread⟩ := ih
    refine ⟨ms ++ [m], by simp [chains, hms], fun c => ?_⟩
    rw [reading, hread, Value.follow_append]
    cases c.follow ms with
    | none => rfl
    | some v => simp [Value.follow]

theorem plain (h : Chain name source e elements d) :
    ∀ s ∈ elements, Path.PlainSegment s ∧ Literal.readsAsReference s = false := by
  induction h with
  | root => simp
  | member _ _ hplain htext ih =>
    intro s hs
    rcases List.mem_append.mp hs with hs | hs
    · exact ih s hs
    · rw [List.mem_singleton.mp hs]
      exact ⟨hplain, htext⟩

theorem bind_eq {p : Parameter} (h : Chain p.name source e elements d) (r : Decoders) :
    (elements = [] ∧ d = source ∧
        e.bind r (Lambda.projectorScope p source) = .ok (Lambda.root p source)) ∨
      (elements ≠ [] ∧
        e.bind r (Lambda.projectorScope p source) = .ok (field ⟨elements⟩ d e.ty)) := by
  induction h with
  | root hp => exact .inl ⟨rfl, rfl, by simp [bind, hp, Lambda.projectorScope]⟩
  | @member target elements d m info declaring ty _ hm _ _ ih =>
    have hm' := Decoder.member?_of_created? hm
    refine .inr ⟨by simp, ?_⟩
    have hkey : (Lambda.projectorScope p source).key? target m = none := rfl
    rcases ih with ⟨rfl, rfl, htarget⟩ | ⟨_, htarget⟩
    · simp [bind, hkey, htarget, ok_bind, bindMember, Lambda.root, resolve?, resolve?.declared?,
        hm', Path.child, Expr.ty]
    · simp [bind, hkey, htarget, ok_bind, bindMember, resolve?, hm', Path.child, Expr.ty]

/-- The value below a document at the elements of a chain decodes to what the chain reads. -/
theorem decode_below (h : Chain name source e elements d) {b : Bson} {c : Value}
    (hc : source.decode b = .ok c) (hnull : e.PassesNoNull c) :
    ∃ x v, b.below? elements = some x ∧ d.decode x = .ok v ∧ e.reading c = some v := by
  induction h with
  | root => exact ⟨b, c, rfl, hc, rfl⟩
  | @member target elements d m info declaring ty htarget hm _ _ ih =>
    obtain ⟨ms, hms, hread⟩ := htarget.chains_eq
    have hchain : ms ++ [m] ∈ (Expr.member target m declaring ty).chains := by simp [chains, hms]
    have hfront : target.PassesNoNull c := by
      intro chain hmem n hn
      rw [hms, List.mem_singleton] at hmem
      subst hmem
      have hstep := hnull _ hchain n (by simp; omega)
      rwa [List.take_append_of_le_length (by omega)] at hstep
    obtain ⟨x, v, hx, hv, hr⟩ := ih hfront
    have hne : v ≠ .null := by
      rintro rfl
      have hlast := hnull _ hchain ms.length (by simp)
      rw [List.take_left, ← hread, hr] at hlast
      exact hlast rfl
    obtain ⟨y, w, hy, hw, harg⟩ := Decoder.decode_created? hm hv hne
    exact ⟨y, w, by rw [Bson.below?_append, hx]; exact hy, hw, by rw [reading, hr]; exact harg⟩

end Chain

/-- The expressions over the parameter `name` that are the parameter itself, chains of its members,
or constructions of such expressions under distinct names. -/
inductive Core (name : String) (source : Decoder) : Expr → Prop where
  | chain {e : Expr} {elements : List String} {d : Decoder} (h : Chain name source e elements d) :
      Core name source e
  | construct {ty : Ty} {parameters members : List String} {args : List Expr}
      (length : parameters.length = args.length) (nodup : parameters.Nodup)
      (declared : ∀ q ∈ parameters, q ∈ members)
      (text : ∀ q ∈ parameters, Literal.readsAsReference q = false)
      (core : ∀ e ∈ args, Core name source e) :
      Core name source (.construct ty parameters args (some members))

/-- The bound form of an expression, with its decoder and its lowered form. -/
structure Translated where
  bound : Expr
  decoder : Decoder
  emitted : Bson

/-- A translation of `e` whose value on a document decodes to what `e` reads of the decoded
document. -/
structure Translated.Rebuilds (r : Decoders) (unit : StringUnit) (p : Parameter) (source : Decoder)
    (e : Expr) (t : Translated) : Prop where
  bind : e.bind r (Lambda.projectorScope p source) = .ok t.bound
  decoder : t.bound.decoder r = .ok t.decoder
  lower : t.bound.lower unit id = .ok t.emitted
  kept : ∀ key, Bson.suppresses (key, t.emitted) = false
  decode : ∀ b c, source.decode b = .ok c → e.PassesNoNull c →
    ∃ x v, Bson.evaluate b t.emitted = some x ∧ t.decoder.decode x = .ok v ∧ e.reading c = some v

section

variable {r : Decoders} {unit : StringUnit} {p : Parameter} {source : Decoder}

private theorem Chain.rebuilds {e : Expr} {elements : List String} {d : Decoder}
    (h : Chain p.name source e elements d) :
    ∃ t : Translated, t.Rebuilds r unit p source e := by
  rcases h.bind_eq r with ⟨rfl, rfl, hbind⟩ | ⟨hne, hbind⟩
  · refine ⟨⟨Lambda.root p d, d, .string "$$ROOT"⟩, hbind, rfl, rfl, fun _ => rfl, ?_⟩
    intro b c hc hnull
    obtain ⟨x, v, hx, hv, hr⟩ := h.decode_below hc hnull
    exact ⟨x, v, hx, hv, hr⟩
  · refine ⟨⟨field ⟨elements⟩ d e.ty, d, .string (Path.reference ⟨elements⟩)⟩, hbind, rfl, rfl,
      fun _ => rfl, ?_⟩
    intro b c hc hnull
    obtain ⟨x, v, hx, hv, hr⟩ := h.decode_below hc hnull
    cases elements with
    | nil => exact absurd rfl hne
    | cons s ss =>
      have htext := Bson.evaluateText_reference b
        (fun t ht => (h.plain t ht).1) (h.plain s (by simp)).2
      exact ⟨x, v, by rw [Bson.evaluate, htext, hx], hv, hr⟩

private theorem exists_rebuilds {args : List Expr}
    (h : ∀ e ∈ args, ∃ t : Translated, t.Rebuilds r unit p source e) :
    ∃ ts : List Translated, List.Forall₂ (fun e t => t.Rebuilds r unit p source e) args ts := by
  induction args with
  | nil => exact ⟨[], .nil⟩
  | cons e args ih =>
    obtain ⟨t, ht⟩ := h e (by simp)
    obtain ⟨ts, hts⟩ := ih fun e he => h e (List.mem_cons_of_mem _ he)
    exact ⟨t :: ts, .cons ht hts⟩

variable {args : List Expr} {ts : List Translated}

private theorem bindAll_eq (h : List.Forall₂ (fun e t => t.Rebuilds r unit p source e) args ts) :
    bindAll r (Lambda.projectorScope p source) args = .ok (ts.map Translated.bound) := by
  induction h with
  | nil => rfl
  | cons ht _ ih => simp [bindAll, ht.bind, ih, ok_bind, pure_eq_ok]

private theorem decoders_eq (h : List.Forall₂ (fun e t => t.Rebuilds r unit p source e) args ts) :
    (ts.map Translated.bound).map (Expr.decoder r) = (ts.map Translated.decoder).map .ok := by
  induction h with
  | nil => rfl
  | cons ht _ ih => simpa [ht.decoder] using ih

private theorem lower_eq (h : List.Forall₂ (fun e t => t.Rebuilds r unit p source e) args ts) :
    (ts.map Translated.bound).map (Expr.lower unit id) = (ts.map Translated.emitted).map .ok := by
  induction h with
  | nil => rfl
  | cons ht _ ih => simpa [ht.lower] using ih

private theorem exists_values (h : List.Forall₂ (fun e t => t.Rebuilds r unit p source e) args ts)
    {b : Bson} {c : Value} (hc : source.decode b = .ok c) (hnull : ∀ e ∈ args, e.PassesNoNull c) :
    ∃ xs vs, List.Forall₂ (fun t x => Bson.evaluate b t.emitted = some x) ts xs ∧
      List.Forall₂ (fun d (xv : Bson × Value) => d.decode xv.1 = .ok xv.2)
        (ts.map Translated.decoder) (xs.zip vs) ∧
      xs.length = vs.length ∧ readings c args = some vs := by
  induction h with
  | nil => exact ⟨[], [], .nil, .nil, rfl, rfl⟩
  | @cons e t args ts ht _ ih =>
    obtain ⟨x, v, hx, hv, hr⟩ := ht.decode b c hc (hnull e (by simp))
    obtain ⟨xs, vs, hxs, hvs, hlen, hrs⟩ := ih fun e he => hnull e (List.mem_cons_of_mem _ he)
    refine ⟨x :: xs, v :: vs, .cons hx hxs, .cons hv hvs, by simp [hlen], ?_⟩
    simp [readings, hr, hrs]

private theorem evaluateFields_zip {b : Bson} {xs : List Bson} {parameters : List String}
    (hlen : parameters.length = ts.length)
    (h : List.Forall₂ (fun t x => Bson.evaluate b t.emitted = some x) ts xs) :
    Bson.evaluateFields b (parameters.zip (ts.map Translated.emitted)) = parameters.zip xs := by
  induction h generalizing parameters with
  | nil => simp [Bson.evaluateFields]
  | cons hx _ ih =>
    cases parameters with
    | nil => cases hlen
    | cons q parameters =>
      simp only [List.map_cons, List.zip_cons_cons, Bson.evaluateFields, hx]
      rw [ih (by simpa using hlen)]

private theorem not_suppressed (h : List.Forall₂ (fun e t => t.Rebuilds r unit p source e) args ts)
    {parameters : List String} :
    ∀ e ∈ parameters.zip (ts.map Translated.emitted), Bson.suppresses e = false := by
  rintro ⟨key, x⟩ he
  obtain ⟨t, ht, rfl⟩ := List.mem_map.mp (List.of_mem_zip he).2
  obtain ⟨n, hn, rfl⟩ := List.mem_iff_getElem.mp ht
  exact (h.get (h.length_eq ▸ hn) hn).kept key

private theorem quoted?_eq_none {fields : List (String × Bson)}
    (h : ∀ e ∈ fields, Literal.readsAsReference e.1 = false) : Bson.quoted? fields = none := by
  match fields with
  | [] => rfl
  | [(key, x)] =>
    have hkey : key ≠ "$literal" := by
      intro he
      have hk : Literal.readsAsReference key = false := h (key, x) (by simp)
      rw [he] at hk
      exact absurd hk (by decide)
    simp [Bson.quoted?, hkey]
  | _ :: _ :: _ => rfl

private theorem evaluate_emitShape {b : Bson} {xs : List Bson} {parameters : List String}
    (hlen : parameters.length = ts.length)
    (htext : ∀ q ∈ parameters, Literal.readsAsReference q = false)
    (h : List.Forall₂ (fun t x => Bson.evaluate b t.emitted = some x) ts xs) :
    Bson.evaluate b (emitShape (parameters.zip (ts.map Translated.emitted))) =
      some (.document (parameters.zip xs)) := by
  have hfields := evaluateFields_zip hlen h
  rw [emitShape]
  split
  · rename_i hempty
    rw [List.isEmpty_iff.mp hempty] at hfields
    simp [Bson.apply, Bson.evaluate, Bson.quoted?, ← hfields, Bson.evaluateFields]
  · have hquoted : Bson.quoted? (parameters.zip (ts.map Translated.emitted)) = none :=
      quoted?_eq_none fun e he => htext e.1 (List.of_mem_zip he).1
    rw [Bson.evaluate, hquoted, hfields]

end

end Expr

namespace Decoder

private theorem forall₂_decodeMember (typeName : String) {fields : Entries Bson}
    {members : Entries MemberDecoder} {parameters : List String} {ds : List Decoder}
    {xs : List Bson} {vs : List Value} (hlen : parameters.length = ds.length)
    (h : List.Forall₂ (fun d (xv : Bson × Value) => d.decode xv.1 = .ok xv.2) ds (xs.zip vs))
    (hfields : ∀ q x, (q, x) ∈ parameters.zip xs → Entries.get? q fields = some x)
    (hmembers : ∀ q d, (q, d) ∈ parameters.zip ds → Entries.get? q members = some ⟨q, d⟩) :
    List.Forall₂ (fun q a => (do return (q, ← decodeMember typeName fields q members)) =
      Except.ok a) parameters (parameters.zip vs) := by
  induction ds generalizing parameters xs vs with
  | nil =>
    rw [List.length_eq_zero_iff.mp hlen]
    exact .nil
  | cons d ds ih =>
    match parameters, xs, vs, h with
    | q :: parameters, x :: xs, v :: vs, .cons hv hvs =>
      refine .cons ?_ (ih (by simpa using hlen) hvs
        (fun q x hm => hfields q x (List.mem_cons_of_mem _ hm))
        (fun q d hm => hmembers q d (List.mem_cons_of_mem _ hm)))
      have hx := hfields q x (by simp)
      have hd := hmembers q d (by simp)
      have hv : d.decode x = .ok v := hv
      simp [decodeMember_eq, hx, hd, hv, ok_bind, pure_eq_ok]

theorem decode_ofFields {ty : Ty} {parameters : List String} {ds : List Decoder} {xs : List Bson}
    {vs : List Value} (hnd : parameters.Nodup) (hds : parameters.length = ds.length)
    (hxs : parameters.length = xs.length)
    (h : List.Forall₂ (fun d (xv : Bson × Value) => d.decode xv.1 = .ok xv.2) ds (xs.zip vs)) :
    (ofFields ty parameters ds).decode (.document (parameters.zip xs)) =
      .ok (.composite (constructedName ty) (parameters.zip vs)) := by
  have hfields : ∀ q x, (q, x) ∈ parameters.zip xs →
      Entries.get? q (parameters.zip xs) = some x := fun q x hm =>
    Entries.get?_of_mem (by rwa [Entries.keys_zip hxs]) hm
  have hmembers : ∀ q d, (q, d) ∈ parameters.zip ds → Entries.get? q
      ((parameters.zip ds).map fun e => (e.1, (⟨e.1, e.2⟩ : MemberDecoder))) = some ⟨q, d⟩ := by
    intro q d hm
    refine Entries.get?_of_mem ?_ (List.mem_map.mpr ⟨(q, d), hm, rfl⟩)
    have hfst : (parameters.zip ds).map (Prod.fst ∘ fun e =>
        (e.1, (⟨e.1, e.2⟩ : MemberDecoder))) = parameters := Entries.keys_zip hds
    rw [Entries.keys, List.map_map, hfst]
    exact hnd
  have hargs := mapM_eq_ok_iff.mpr
    (forall₂_decodeMember (constructedName ty) hds h hfields hmembers)
  rw [ofFields, decode, hargs]
  rfl

end Decoder

namespace Expr

variable {p : Parameter} {source : Decoder}

/-- A construction whose arguments have been translated, with all that is made of it. -/
private theorem rebuilds_construct {r : Decoders} {unit : StringUnit} (ty : Ty)
    {parameters members : List String} {args : List Expr} {ts : List Translated}
    (hlen : parameters.length = args.length) (hnd : parameters.Nodup)
    (hdecl : ∀ q ∈ parameters, q ∈ members)
    (htext : ∀ q ∈ parameters, Literal.readsAsReference q = false)
    (hts : List.Forall₂ (fun e t => t.Rebuilds r unit p source e) args ts) :
    Translated.Rebuilds r unit p source (construct ty parameters args (some members))
      ⟨construct ty parameters (ts.map Translated.bound) (some members),
        Decoder.ofFields ty parameters (ts.map Translated.decoder),
        emitShape (parameters.zip (ts.map Translated.emitted))⟩ := by
  have hlen' : parameters.length = ts.length := hlen.trans hts.length_eq
  refine ⟨?_, ?_, ?_, ?_, ?_⟩
  · simp [bind, bindAll_eq hts, ok_bind, pure_eq_ok]
  · simp only [decoder, decoders_eq_map, decoders_eq hts]
    exact Decoder.ofConstruction_of_nodup (by simpa using hlen') hnd hdecl
  · simp only [lower, lowerEach_eq_map, lower_eq hts,
      shapeOf_of_nodup (ts.map Translated.emitted) (by simpa using hlen') hnd, ok_bind,
      pure_eq_ok]
  · intro key
    simp only [emitShape]
    split <;> rfl
  · intro b c hc hnull
    have hargs : ∀ e ∈ args, e.PassesNoNull c := fun e he chain hchain =>
      hnull chain (by simpa [chains] using ⟨e, he, hchain⟩)
    obtain ⟨xs, vs, hxs, hvs, hlenv, hread⟩ := exists_values hts hc hargs
    have hlenx : parameters.length = xs.length := hlen'.trans hxs.length_eq
    exact ⟨_, _, evaluate_emitShape hlen' htext hxs,
      Decoder.decode_ofFields hnd (by simpa using hlen') hlenx hvs, by simp [reading, hread]⟩

theorem Core.rebuilds {e : Expr} (h : Core p.name source e) (r : Decoders) (unit : StringUnit) :
    ∃ t : Translated, t.Rebuilds r unit p source e := by
  induction h with
  | chain h => exact h.rebuilds
  | construct hlen hnd hdecl htext _ ih =>
    obtain ⟨ts, hts⟩ := exists_rebuilds ih
    exact ⟨_, rebuilds_construct _ hlen hnd hdecl htext hts⟩

end Expr

namespace Stage

private theorem projection_filter {shape : Entries Bson}
    (h : ∀ e ∈ shape, Bson.suppresses e = false) :
    (projection shape).filter (fun e => !Bson.suppresses e) = shape := by
  have hshape : shape.filter (fun e => !Bson.suppresses e) = shape :=
    List.filter_eq_self.mpr fun e he => by simp [h e he]
  rw [projection]
  split
  · exact hshape
  · rw [List.filter_cons_of_neg (by decide), hshape]

/-- The stage of a projector that constructs a shape from its parameter, from chains of members and
from further constructions yields, for every document that decodes without a null on the way of a
chain, a document that decodes to the constructed shape. -/
theorem decode_output_of_core (r : Decoders) (options : Options) (source : Decoder) (p : Parameter)
    (ty : Ty) (parameters members : List String) (args : List Expr)
    (h : Expr.Core p.name source (.construct ty parameters args (some members))) :
    ∃ stage, ofProjector r options source ⟨[p], .construct ty parameters args (some members)⟩ =
        .ok stage ∧
      ∀ fields c, source.decode (.document fields) = .ok c →
        (Expr.construct ty parameters args (some members)).PassesNoNull c →
          ∃ values, Expr.readings c args = some values ∧
            stage.decoder.decode (.document (stage.output fields)) =
              .ok (.composite (Decoder.constructedName ty) (parameters.zip values)) := by
  cases h with
  | chain h => cases h
  | construct hlen hnd hdecl htext hcore =>
    obtain ⟨ts, hts⟩ := Expr.exists_rebuilds fun e he =>
      (hcore e he).rebuilds r options.stringUnit
    have hall := Expr.rebuilds_construct ty hlen hnd hdecl htext hts
    have hlen' : parameters.length = ts.length := hlen.trans hts.length_eq
    refine ⟨{ kind := .project
              specification := projection (parameters.zip (ts.map Expr.Translated.emitted))
              decoder := Decoder.ofFields ty parameters (ts.map Expr.Translated.decoder) }, ?_, ?_⟩
    · have hbind :
          Lambda.bindProjector r ⟨[p], .construct ty parameters args (some members)⟩ source =
            .ok (.construct ty parameters (ts.map Expr.Translated.bound) (some members)) :=
        hall.bind
      have hshape : Expr.lowerShape options.stringUnit
          (.construct ty parameters (ts.map Expr.Translated.bound) (some members)) =
            .ok (parameters.zip (ts.map Expr.Translated.emitted)) := by
        rw [Expr.lowerShape, Expr.lower_eq hts]
        exact shapeOf_of_nodup _ (by simpa using hlen') hnd
      have hbody :
          requireConstruction ⟨[p], .construct ty parameters args (some members)⟩ = .ok () := rfl
      rw [ofProjector, hbody, ok_bind, hbind, ok_bind, hall.decoder, ok_bind, hshape]
      rfl
    · intro fields c hc hnull
      have hargs : ∀ e ∈ args, e.PassesNoNull c := fun e he chain hchain =>
        hnull chain (by simpa [Expr.chains] using ⟨e, he, hchain⟩)
      obtain ⟨xs, vs, hxs, hvs, -, hread⟩ := Expr.exists_values hts hc hargs
      refine ⟨vs, hread, ?_⟩
      rw [output, projection_filter (Expr.not_suppressed hts), Expr.evaluateFields_zip hlen' hxs]
      exact Decoder.decode_ofFields hnd (by simpa using hlen') (hlen'.trans hxs.length_eq) hvs

end Stage

namespace Orders

open QueryStage.Expr

/-- The city of the home address beside the whole order and a nested shape, which holds the zip of
the optional address and an empty shape. -/
def summaryArguments : List Expr :=
  [((parameter (ofOrder "o")).access "Home" (.record "Address")).access "City" .string,
    parameter (ofOrder "o"),
    construct (.record "Place") ["Zip", "Note"]
      [access (access (parameter (ofOrder "o")) "Work" (.nullable (.record "Address"))) "Zip"
          .string,
        construct (.record "Note") [] [] (some [])]
      (some ["Zip", "Note"])]

theorem core_summaryArguments : ∀ e ∈ summaryArguments, Core "o" source e := by
  have hplain : ∀ s ∈ ["home", "city", "work", "zip"],
      Path.PlainSegment s ∧ Literal.readsAsReference s = false := by
    intro s hs
    simp only [List.mem_cons, List.not_mem_nil, or_false] at hs
    rcases hs with rfl | rfl | rfl | rfl <;> exact ⟨⟨by decide, by decide⟩, by decide⟩
  have hroot : Chain "o" source (parameter (ofOrder "o")) [] source := .root rfl
  have hhome := hroot.access (m := "Home") (.record "Address") rfl (hplain "home" (by simp))
  have hwork := hroot.access (m := "Work") (.nullable (.record "Address")) rfl
    (hplain "work" (by simp))
  have hzip := hwork.access (m := "Zip") .string rfl (hplain "zip" (by simp))
  have hnote : Core "o" source (construct (.record "Note") [] [] (some [])) :=
    .construct rfl .nil (by simp) (by simp) (by simp)
  intro e he
  simp only [summaryArguments, List.mem_cons, List.not_mem_nil, or_false] at he
  rcases he with rfl | rfl | rfl
  · exact .chain (hhome.access .string rfl (hplain "city" (by simp)))
  · exact .chain hroot
  · refine .construct rfl (by decide) (by decide) (by decide) fun e he => ?_
    simp only [List.mem_cons, List.not_mem_nil, or_false] at he
    rcases he with rfl | rfl
    · exact .chain hzip
    · exact hnote

def sampleOrder : Entries Bson :=
  [("express", .boolean true), ("amount", .int32 5),
    ("home", .document [("city", .string "Ulm"), ("zip", .string "89073")]),
    ("work", .document [("zip", .string "10115"), ("city", .string "Berlin")]),
    ("items", .array [])]

def sampleValue : Value :=
  .composite "Order"
    [("Express", .boolean true), ("Amount", .int32 5),
      ("Home", .composite "Address" [("City", .string "Ulm"), ("Zip", .string "89073")]),
      ("Work", .composite "Address" [("City", .string "Berlin"), ("Zip", .string "10115")]),
      ("Items", .array [])]

theorem decode_output_of_summary :
    ∃ stage, Stage.ofProjector registry {} source ⟨[ofOrder "o"],
        construct (.record "Summary") ["City", "_id", "Place"] summaryArguments
          (some ["City", "_id", "Place"])⟩ = .ok stage ∧
      stage.decoder.decode (.document (stage.output sampleOrder)) =
        .ok (.composite "Summary"
          [("City", .string "Ulm"), ("_id", sampleValue),
            ("Place", .composite "Place"
              [("Zip", .string "10115"), ("Note", .composite "Note" [])])]) := by
  have hcore : Core (ofOrder "o").name source (construct (.record "Summary")
      ["City", "_id", "Place"] summaryArguments (some ["City", "_id", "Place"])) :=
    .construct rfl (by decide) (by decide) (by decide) core_summaryArguments
  obtain ⟨stage, hstage, hdecode⟩ := Stage.decode_output_of_core registry {} source (ofOrder "o")
    (.record "Summary") ["City", "_id", "Place"] ["City", "_id", "Place"] summaryArguments hcore
  refine ⟨stage, hstage, ?_⟩
  have hnull : (construct (.record "Summary") ["City", "_id", "Place"] summaryArguments
      (some ["City", "_id", "Place"])).PassesNoNull sampleValue := by
    intro chain hchain n hn
    have hmem : chain ∈ [["Home", "City"], [], ["Work", "Zip"]] := hchain
    simp only [List.mem_cons, List.not_mem_nil, or_false] at hmem
    rcases hmem with rfl | rfl | rfl
    · match n, hn with
      | 0, _ => exact nofun
      | 1, _ => exact nofun
    · exact absurd hn (by simp)
    · match n, hn with
      | 0, _ => exact nofun
      | 1, _ => exact nofun
  obtain ⟨values, hvalues, hresult⟩ := hdecode sampleOrder sampleValue rfl hnull
  cases hvalues
  exact hresult

end Orders

end QueryStage
