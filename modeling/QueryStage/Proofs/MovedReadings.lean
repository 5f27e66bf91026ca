import QueryStage.Proofs.ElementNames
import QueryStage.Proofs.RelatedNodes

/-!
# Elements read at other places

An expression whose bound nodes are moved to places with the same element names is lowered to a
value that reads elements of the same names. The loops in it may be emitted in different forms: a
dotted reference on the one side may be a loop with a variable on the other.
-/

namespace QueryStage

namespace Expr

variable {known : List String} {unit : StringUnit} {f g : Path → Path}

/-- The path of a bound node has a start. -/
def HasStart (e : Expr) : Prop := ∀ path, e.boundPath? = some path → path.segments ≠ []

/-- Whether a lambda takes one element, by a name that a variable can have. A lambda with other
parameters is emitted only if it selects at a place, so its body may also be bound nowhere. -/
def takesElement : Expr → Bool
  | lambda ⟨[p], _⟩ => namesVariable p.name
  | lambda ⟨_, body⟩ => body.boundPath?.isNone
  | _ => true

def TakesElements (e : Expr) : Prop := e.All fun n => n.takesElement = true

instance (e : Expr) : Decidable e.TakesElements :=
  inferInstanceAs (Decidable (e.All fun n => n.takesElement = true))

theorem takesElement_cases {params : List Parameter} {body : Expr}
    (h : (lambda ⟨params, body⟩).takesElement = true) :
    (∃ v, params = [v] ∧ namesVariable v.name = true) ∨
      params.length ≠ 1 ∧ body.boundPath? = none := by
  rcases params with _ | ⟨v, _ | ⟨w, params⟩⟩
  · exact .inr ⟨by simp, Option.isNone_iff_eq_none.mp h⟩
  · exact .inl ⟨v, rfl, h⟩
  · exact .inr ⟨by simp, Option.isNone_iff_eq_none.mp h⟩

/-- The names of the elements that lead to a bound node. -/
def placeNames (e : Expr) : List String := e.boundPath?.elim [] Path.elementNames

theorem lower_of_boundPath? {e : Expr} {path : Path} (h : e.boundPath? = some path) :
    e.lower unit f = .ok (.string (f path).reference) := by
  cases e with
  | field => cases h; rfl
  | document inner place =>
    cases place with
    | none => cases h
    | some place => cases h; rfl
  | _ => cases h

theorem selection?_cases {root? : Option Path} {body : Expr} {selection : Selection}
    (h : selection? f root? body = some selection) :
    ∃ root path, root? = some root ∧ body.boundPath? = some path ∧
      ((f path).startsWith root = true ∧ selection = .field (f path).reference ∨
        f path = root ∧ selection = .element) := by
  unfold selection? at h
  split at h
  · rename_i root path _ _
    split at h
    · cases h
      exact ⟨root, path, rfl, rfl, .inl ⟨‹_›, rfl⟩⟩
    · cases h
  · rename_i root _ path _
    split at h
    · cases h
      exact ⟨root, path, rfl, rfl, .inr ⟨‹_›, rfl⟩⟩
    · cases h
  · cases h

/-- A lambda without the one parameter of a loop is not emitted, unless it selects at a place. -/
theorem emit_of_length {source body : Expr} {params : List Parameter} (hparams : params.length ≠ 1)
    (hbody : body.boundPath? = none) (kind : LoopKind) (input : Lowered) :
    (loopOver unit f source params body).emit kind input =
      .error (.elementParameterCount params.length) := by
  have hselection : (loopOver unit f source params body).selection = none := by
    rw [Option.eq_none_iff_forall_ne_some]
    intro selection hselection
    obtain ⟨_, path, -, hpath, -⟩ := selection?_cases hselection
    rw [hbody] at hpath
    cases hpath
  have hbinder : (loopOver unit f source params body).binder =
      .error (.elementParameterCount params.length) := by
    rcases params with _ | ⟨v, _ | ⟨w, params⟩⟩
    · rfl
    · exact absurd rfl hparams
    · rfl
  have hiterate : (loopOver unit f source params body).iterate kind input =
      .error (.elementParameterCount params.length) := by
    rw [Loop.iterate, hbinder]
    rfl
  rw [Loop.emit_eq, hselection]
  cases kind with
  | map => exact hiterate
  | filter => exact hiterate

theorem emit_refused {B : Bson → Bson → Prop} {source source' body body' : Expr}
    {params params' : List Parameter} (hparams : params.length ≠ 1)
    (hlength : params'.length = params.length) (hbody : body.boundPath? = none)
    (hbody' : body'.boundPath? = none) (kind : LoopKind) (input input' : Lowered) :
    Lifted B ((loopOver unit f source params body).emit kind input)
      ((loopOver unit g source' params' body').emit kind input') := by
  rw [emit_of_length hparams hbody, emit_of_length (hlength ▸ hparams) hbody', hlength]
  exact .error _

/-- A loop that only selects reads the same elements as if it were run. -/
theorem emit_reads_iterate (unit : StringUnit) {source : Expr} (body : Expr) {v : Parameter}
    (hf : Path.Neutral known f) (hv : namesVariable v.name = true) (hstart : source.HasStart)
    (kind : LoopKind) :
    Lifted (Bson.ReadsSame []) ((loopOver unit f source [v] body).emit kind (source.lower unit f))
      ((loopOver unit f source [v] body).iterate kind (source.lower unit f)) := by
  have hsame : Lifted (Bson.ReadsSame [])
      ((loopOver unit f source [v] body).iterate kind (source.lower unit f))
      ((loopOver unit f source [v] body).iterate kind (source.lower unit f)) :=
    .of_refl (Bson.ReadsSame.refl []) _
  rw [Loop.emit_eq]
  cases kind with
  | filter => exact hsame
  | map =>
    cases hselection : (loopOver unit f source [v] body).selection with
    | none => exact hsame
    | some selection =>
      obtain ⟨root, path, hroot, hpath, hselected⟩ := selection?_cases hselection
      obtain ⟨place, hplace, rfl⟩ := Option.map_eq_some_iff.mp hroot
      have hrootStart := (hf place (hstart place hplace)).1
      have hloop : (loopOver unit f source [v] body).iterate .map (source.lower unit f) =
          .ok (LoopKind.map.emit v.name (.string (f place).reference)
            (.string (Path.reroot (f place) (Path.loopVariable v.name) (f path)).reference)) := by
        simp [Loop.iterate, Loop.binder, loopOver, lower_of_boundPath? hplace,
          lower_of_boundPath? hpath, hplace, loopPaths, ok_bind, pure_eq_ok]
      rw [hloop]
      have hvariable : (Path.loopVariable v.name).segments ≠ [] := by simp [Path.loopVariable]
      rcases hselected with ⟨hstarts, rfl⟩ | ⟨hsource, rfl⟩
      · obtain ⟨rest, hrest⟩ := (Path.startsWith_iff _ _).mp hstarts
        have hpath' : f path = ⟨(f place).segments ++ rest⟩ := by rw [← hrest]
        refine .ok ?_
        rw [Bson.ReadsSame, Bson.elementNames_loop _ hv, hpath', Path.reroot_append]
        simp only [Bson.elementNames_reference, Path.elementNames_append hrootStart,
          Path.elementNames_append hvariable, Path.elementNames_loopVariable hv, List.nil_append]
        exact .refl _ _
      · dsimp only
        rw [lower_of_boundPath? hplace]
        have hself := Path.reroot_append (f place) (Path.loopVariable v.name) []
        rw [List.append_nil, List.append_nil] at hself
        refine .ok ?_
        rw [Bson.ReadsSame, Bson.elementNames_loop _ hv, hsource, hself]
        simp only [Bson.elementNames_reference, Path.elementNames_loopVariable hv, List.append_nil]
        exact .refl _ _

theorem placeNames_subset {source : Expr} (hf : Path.Neutral known f) (hstart : source.HasStart)
    {a : Bson} (h : source.lower unit f = .ok a) :
    known ++ source.placeNames ⊆ known ++ a.elementNames := by
  rw [placeNames]
  cases hplace : source.boundPath? with
  | none => simp
  | some place =>
    rw [lower_of_boundPath? hplace, Except.ok.injEq] at h
    rw [← h, Bson.elementNames_reference]
    have hnames := (hf place (hstart place hplace)).2.symm.subset
    exact List.append_subset.mpr ⟨List.subset_append_left _ _, hnames⟩

theorem neutral_loopPaths {source : Expr} {v : Parameter} (hf : Path.Neutral known f)
    (hv : namesVariable v.name = true) (hstart : source.HasStart) :
    Path.Neutral (known ++ source.placeNames) (loopPaths f (source.boundPath?.map f) [v]) := by
  rw [placeNames]
  cases hplace : source.boundPath? with
  | none => exact hf.mono (List.subset_append_left _ _)
  | some place => exact hf.loopPaths (hstart place hplace) hv

/-- Two loops read the same elements if their sources do, and their bodies do but for the names that
lead to the sources. -/
theorem emit_reads_same {source source' body body' : Expr} {v : Parameter}
    (hf : Path.Neutral known f) (hg : Path.Neutral known g) (hv : namesVariable v.name = true)
    (hstart : source.HasStart) (hstart' : source'.HasStart)
    (hplaces : source'.placeNames ⊆ known ++ source.placeNames)
    (hsource : Lifted (Bson.ReadsSame known) (source.lower unit f) (source'.lower unit g))
    (hbody : Path.Neutral (known ++ source.placeNames)
        (loopPaths f (source.boundPath?.map f) [v]) →
      Path.Neutral (known ++ source.placeNames) (loopPaths g (source'.boundPath?.map g) [v]) →
      Lifted (Bson.ReadsSame (known ++ source.placeNames)) (loopOver unit f source [v] body).body
        (loopOver unit g source' [v] body').body)
    (kind : LoopKind) :
    Lifted (Bson.ReadsSame known)
      ((loopOver unit f source [v] body).emit kind (source.lower unit f))
      ((loopOver unit g source' [v] body').emit kind (source'.lower unit g)) := by
  have hleft := neutral_loopPaths hf hv hstart
  have hright := (neutral_loopPaths hg hv hstart').mono
    (List.append_subset.mpr ⟨List.subset_append_left _ _, hplaces⟩)
  have hiterate : Lifted (Bson.ReadsSame known)
      ((loopOver unit f source [v] body).iterate kind (source.lower unit f))
      ((loopOver unit g source' [v] body').iterate kind (source'.lower unit g)) := by
    refine (hbody hleft hright).bind fun b b' hb => ?_
    refine (hsource.ensuring fun a => placeNames_subset hf hstart).bind fun a a' ha => ?_
    exact .ok (Bson.readsSame_loop kind hv ha.1 hb ha.2)
  -- Either side may select without a loop, so both are compared with the loops as they are run.
  have hrun := emit_reads_iterate unit body hf hv hstart kind
  have hrun' := (emit_reads_iterate unit body' hg hv hstart' kind).symm
  refine ((hrun.trans hiterate).trans hrun').mono ?_
  rintro a d ⟨c, ⟨b, hab, hbc⟩, hdc⟩
  exact (SameOff.mono hab (List.nil_subset _)).trans
    (SameOff.trans hbc (SameOff.mono hdc (List.nil_subset _)).symm)

variable {near : List String} {R : Path → Path → Prop} {e e' : Expr}

theorem Moved.sameNode (h : Moved (.ofPlaces R) e e') (hunbound : e.isUnbound = true) :
    SameNode (Moved (.ofPlaces R)) e e' := by
  have same (params : List Parameter) :
      params.map (Parameter.rename (Relocation.ofPlaces R).name) = params := List.map_id params
  cases h with
  | literal value ty => exact .literal value ty
  | parameter p => exact .parameter p
  | member name declaring ty h => exact .member name declaring ty h
  | binary op ty hl hr => exact .binary op ty hl hr
  | unary op ty h => exact .unary op ty h
  | conditional ty ht ha hb => exact .conditional ty ht ha hb
  | call method declaring ty hargs => exact .call method declaring ty .none hargs
  | callOn method declaring ty h hargs => exact .call method declaring ty (.some h) hargs
  | lambda params h =>
    rw [same]
    exact .lambda params h
  | construct ty parameters members hargs => exact .construct ty parameters members hargs
  | accumulate fn ty _ h => exact .accumulate fn ty h
  | accumulateOf fn params ty h hbody =>
    rw [same]
    exact .accumulateOf fn params ty h hbody
  | field | current | document | root | element => cases hunbound

theorem Moved.placeNames_subset (h : Moved (.ofPlaces (Path.SameElements near)) e e')
    (hnear : near ⊆ known) : e'.placeNames ⊆ known ++ e.placeNames := by
  have hplaces := h.boundPath?_rel
  rw [placeNames, placeNames]
  generalize e.boundPath? = place at hplaces
  generalize e'.boundPath? = place' at hplaces
  cases hplaces with
  | none => simp
  | some hplace => exact (hplace.sameOff.symm.mono hnear).subset

theorem Moved.boundPath?_eq_none (h : Moved (.ofPlaces R) e e') (hplace : e.boundPath? = none) :
    e'.boundPath? = none := by
  have hplaces := h.boundPath?_rel
  rw [hplace] at hplaces
  generalize e'.boundPath? = place' at hplaces
  cases hplaces
  rfl

theorem Moved.hasStart (h : Moved (.ofPlaces (Path.SameElements near)) e e')
    (hstart : e.HasStart) : e'.HasStart := by
  have hplaces := h.boundPath?_rel
  unfold HasStart at hstart ⊢
  generalize e.boundPath? = place at hplaces hstart
  generalize e'.boundPath? = place' at hplaces
  cases hplaces with
  | none => exact fun _ hnone => by cases hnone
  | some hplace =>
    rintro path ⟨⟩
    exact hplace.start (hstart _ rfl)

/-- Wherever an expression is moved to, it reads elements of the same names. -/
def ReadsMoved (near : List String) (unit : StringUnit) (e : Expr) : Prop :=
  ∀ e' known f g, Moved (.ofPlaces (Path.SameElements near)) e e' → near ⊆ known →
    Path.Neutral known f → Path.Neutral known g →
    Lifted (Bson.ReadsSame known) (e.lower unit f) (e'.lower unit g)

theorem ReadsMoved.operandRel (h : e.ReadsMoved near unit)
    (hmoved : Moved (.ofPlaces (Path.SameElements near)) e e') (hnear : near ⊆ known)
    (hf : Path.Neutral known f) (hg : Path.Neutral known g) :
    OperandRel (Bson.ReadsSame known) unit f g e e' where
  lowered := h e' known f g hmoved hnear hf hg
  comparison := by cases hmoved <;> rfl
  overGroup := by rw [overGroup, overGroup, isAccumulator, isAccumulator, hmoved.kind_eq,
    hmoved.ty_eq]
  isLambda := by rw [hmoved.kind_eq]

private theorem readsMoved_call {receiver receiver' : Option Expr} {method : String}
    {declaring ty : Ty} {as bs : List Expr}
    (hreceiver : Option.Rel (Moved (.ofPlaces (Path.SameElements near))) receiver receiver')
    (hargs : List.Forall₂ (Moved (.ofPlaces (Path.SameElements near))) as bs)
    (hstart : (call receiver method declaring as ty).All HasStart)
    (htakes : (call receiver method declaring as ty).TakesElements)
    (ih : ∀ part ∈ (call receiver method declaring as ty).parts, ∀ n ∈ part.nodes,
      n.ReadsMoved near unit)
    (hnear : near ⊆ known) (hf : Path.Neutral known f) (hg : Path.Neutral known g) :
    Lifted (Bson.ReadsSame known) ((call receiver method declaring as ty).lower unit f)
      ((call receiver' method declaring bs ty).lower unit g) := by
  have arg {a : Expr} (ha : a ∈ as) : a ∈ (call receiver method declaring as ty).parts :=
    List.mem_append_right _ ha
  have hmem : List.Forall₂ (fun a b => a ∈ as ∧ Moved (.ofPlaces (Path.SameElements near)) a b)
      as bs := (List.forall₂_and_left as bs).mpr ⟨fun _ ha => ha, hargs⟩
  refine lower_call_rel (Bson.congruence_readsSame known) ?_ ?_ ?_
  · cases hreceiver with
    | none => exact .none
    | some h =>
      exact .some (ih _ (by simp [parts]) _ (self_mem_nodes _) _ known f g h hnear hf hg)
  · exact hmem.imp fun a b hab =>
      (ih a (arg hab.1) a (self_mem_nodes a)).operandRel hab.2 hnear hf hg
  · rintro - source source' params params' body body' rfl rfl kind
    have hlambda : lambda ⟨params, body⟩ ∈ [source, lambda ⟨params, body⟩] := by simp
    have htakes := (htakes.part (arg hlambda)).self
    cases hargs with
    | cons hsource hrest =>
      cases hrest with
      | cons hmoved _ =>
        cases hmoved with
        | lambda _ hbody =>
          rcases takesElement_cases htakes with ⟨v, rfl, hv⟩ | ⟨hparams, hplace⟩
          case inr =>
            exact emit_refused hparams (List.length_map _) hplace (hbody.boundPath?_eq_none hplace)
              kind _ _
          have hbound := (hstart.part (arg List.mem_cons_self)).self
          have hlowered := ih source (arg (by simp)) source (self_mem_nodes _) _ known f g hsource
            hnear hf hg
          refine emit_reads_same hf hg hv hbound (hsource.hasStart hbound)
            (hsource.placeNames_subset hnear) hlowered (fun hleft hright => ?_) kind
          exact ih _ (arg hlambda) body (body_mem_nodes _) _ _ _ _ hbody
            (List.Subset.trans hnear (List.subset_append_left _ _)) hleft hright

theorem readsMoved (near : List String) (unit : StringUnit) (hstart : e.All HasStart)
    (htakes : e.TakesElements) : e.ReadsMoved near unit := by
  induction e using induct_nodes with
  | step e ih =>
    intro e' known f g hmoved hnear hf hg
    have below {part n : Expr} (hpart : part ∈ e.parts) (hn : n ∈ part.nodes) :
        n.ReadsMoved near unit :=
      ih part hpart n hn (hstart.below (mem_nodes_of_part hpart hn))
        (htakes.below (mem_nodes_of_part hpart hn))
    have hB := Bson.congruence_readsSame known
    have hplace {p q : Path} (hp : p.segments ≠ []) (hpq : Path.SameElements near p q) :
        Bson.ReadsSame known (.string (f p).reference) (.string (g q).reference) := by
      rw [Bson.ReadsSame, Bson.elementNames_reference, Bson.elementNames_reference]
      exact ((hf p hp).2.trans (hpq.sameOff.mono hnear)).trans (hg q (hpq.start hp)).2.symm
    cases hunbound : e.isUnbound with
    | true =>
      have hnode := hmoved.sameNode hunbound
      by_cases hcall : e.kind = .call
      · cases hnode with
        | call method declaring ty hreceiver hargs =>
          exact readsMoved_call hreceiver hargs hstart htakes (fun _ hpart _ => below hpart) hnear
            hf hg
        | _ => cases hcall
      · exact hnode.lower_of_parts hB hcall (fun _ _ _ h => h.ty_eq) fun a ha b hab =>
          below ha (self_mem_nodes a) b known f g hab hnear hf hg
    | false =>
      cases hmoved with
      | field decoder ty hp => exact .ok (hplace (hstart.self _ rfl) hp)
      | document decoder h hp => exact .ok (hplace (hstart.self _ rfl) hp)
      | element v decoder hp => exact .ok (hplace (hstart.self _ rfl) hp)
      | root => exact .ok hB.current
      | @current a b decoder h =>
        rw [lower, lower, isParameter, isParameter, ← h.kind_eq]
        by_cases hkind : a.kind = .parameter
        · simp only [hkind, decide_true, if_true]
          exact .ok hB.current
        · simp only [hkind, decide_false, Bool.false_eq_true, if_false]
          exact below (by simp [parts]) (self_mem_nodes _) _ known f g h hnear hf hg
      | _ => cases hunbound

end Expr

end QueryStage
