import QueryStage.Proofs.Outcome
import QueryStage.Stage

/-!
# Parts of a stage

The scopes in which projectors are bound, and what a group stage is made of: the bound key selector,
the key as it is held, and the projector bound in the scope of the group.
-/

namespace QueryStage

namespace Expr

/-- An expression that is neither a bound node nor a construction. -/
def isComputed (e : Expr) : Bool :=
  match e.kind with
  | .field | .document | .construction => false
  | _ => true

end Expr

namespace Lambda

theorem params_of_single {fn : Lambda} {p : Parameter} (h : fn.single = .ok p) :
    fn.params = [p] := by
  unfold single at h
  split at h
  · rename_i q hq
    cases h
    exact hq
  · cases h

theorem single_rel {R : Expr → Expr → Prop} {params : List Parameter} {e e' : Expr}
    {f g : Parameter → Except Fault Expr} (h : ∀ p, params = [p] → Lifted R (f p) (g p)) :
    Lifted R (single ⟨params, e⟩ >>= f) (single ⟨params, e'⟩ >>= g) := by
  rcases params with _ | ⟨p, _ | ⟨q, params⟩⟩
  · exact .error _
  · exact h p rfl
  · exact .error _

/-- The scope of a projector whose parameter `p` stands for the current document. -/
def projectorScope (p : Parameter) (source : Decoder) : Scope :=
  ({} : Scope).bind p.name (root p source)

/-- The scope of a group projector whose parameter `g` stands for the grouping. -/
def groupScope (g : Parameter) (source : Decoder) (key : Expr) : Scope :=
  ({ group := some ⟨g.name, key⟩ } : Scope).bind g.name (root g (.array source))

theorem bindProjector_cases {ds : Decoders} {fn : Lambda} {source : Decoder} {bound : Expr}
    (h : fn.bindProjector ds source = .ok bound) :
    ∃ p, fn.params = [p] ∧ fn.body.bind ds (projectorScope p source) = .ok bound := by
  obtain ⟨p, hp, h⟩ := bind_eq_ok_iff.mp h
  exact ⟨p, params_of_single hp, h⟩

theorem bindGroupProjector_cases {ds : Decoders} {fn : Lambda} {source : Decoder} {key body : Expr}
    (h : fn.bindGroupProjector ds source key = .ok body) :
    ∃ g, fn.params = [g] ∧ fn.body.bind ds (groupScope g source key) = .ok body := by
  obtain ⟨g, hg, h⟩ := bind_eq_ok_iff.mp h
  exact ⟨g, params_of_single hg, h⟩

end Lambda

namespace Stage

/-- A key is held as it is bound or, if it is none of the bound nodes, as a document. -/
theorem keyOf_cases {ds : Decoders} {bound key : Expr} (h : keyOf ds bound = .ok key) :
    (bound.isComputed = false ∧ key = bound) ∨
      (∃ ty parameters args members d, bound = .construct ty parameters args members ∧
        bound.decoder ds = .ok d ∧ key = .document bound none d) ∨
      ∃ d, bound.isComputed = true ∧ bound.decoder ds = .ok d ∧ key = .document bound none d := by
  unfold keyOf at h
  split at h
  · cases h
    exact .inl ⟨rfl, rfl⟩
  · cases h
    exact .inl ⟨rfl, rfl⟩
  · rename_i hfield hdocument
    simp only [bind_eq_ok_iff, pure_eq_ok, Except.ok.injEq] at h
    obtain ⟨d, hd, rfl⟩ := h
    cases bound with
    | construct ty parameters args members =>
      exact .inr (.inl ⟨ty, parameters, args, members, d, rfl, hd, rfl⟩)
    | field path decoder ty => exact (hfield _ _ _ rfl).elim
    | document inner path decoder => exact (hdocument _ _ _ rfl).elim
    | _ => exact .inr (.inr ⟨d, rfl, hd, rfl⟩)

theorem ofProjector_cases {ds : Decoders} {options : Options} {source : Decoder}
    {projector : Lambda} {stage : Stage}
    (h : ofProjector ds options source projector = .ok stage) :
    ∃ body shape, projector.bindProjector ds source = .ok body ∧
      body.decoder ds = .ok stage.decoder ∧ body.lowerShape options.stringUnit = .ok shape ∧
      stage.specification = projection shape := by
  simp only [ofProjector, bind_eq_ok_iff, pure_eq_ok, Except.ok.injEq] at h
  obtain ⟨_, -, body, hbody, decoder, hdecoder, shape, hshape, rfl⟩ := h
  exact ⟨body, shape, hbody, hdecoder, hshape, rfl⟩

theorem isConstruction_of_ofProjector {ds : Decoders} {options : Options} {source : Decoder}
    {projector : Lambda} {stage : Stage}
    (h : ofProjector ds options source projector = .ok stage) :
    projector.body.isConstruction = true := by
  obtain ⟨_, hrequired, -⟩ := bind_eq_ok_iff.mp h
  unfold requireConstruction at hrequired
  split at hrequired
  · assumption
  · cases hrequired

/-- What a group stage and its decoder are made of. -/
theorem ofGroup_parts {ds : Decoders} {options : Options} {source : Decoder}
    {keySelector projector : Lambda} {stage : Stage}
    (h : ofGroup ds options source keySelector projector = .ok stage) :
    ∃ bound key keyValue body shape, keySelector.bindProjector ds source = .ok bound ∧
      keyOf ds bound = .ok key ∧ key.lower options.stringUnit id = .ok keyValue ∧
      projector.bindGroupProjector ds source key = .ok body ∧
      body.decoder ds = .ok stage.decoder ∧ body.lowerShape options.stringUnit = .ok shape ∧
      stage.specification = grouping keyValue shape := by
  simp only [ofGroup, bind_eq_ok_iff, pure_eq_ok, Except.ok.injEq] at h
  obtain ⟨_, -, bound, hbound, key, hkey, keyValue, hvalue, body, hbody, decoder, hdecoder, shape,
    hshape, rfl⟩ := h
  exact ⟨bound, key, keyValue, body, shape, hbound, hkey, hvalue, hbody, hdecoder, hshape, rfl⟩

theorem ofGroup_cases {ds : Decoders} {options : Options} {source : Decoder}
    {keySelector projector : Lambda} {stage : Stage}
    (h : ofGroup ds options source keySelector projector = .ok stage) :
    ∃ bound key keyValue body shape, keySelector.bindProjector ds source = .ok bound ∧
      keyOf ds bound = .ok key ∧ key.lower options.stringUnit id = .ok keyValue ∧
      projector.bindGroupProjector ds source key = .ok body ∧
      body.lowerShape options.stringUnit = .ok shape ∧
      stage.specification = grouping keyValue shape := by
  obtain ⟨bound, key, keyValue, body, shape, hbound, hkey, hvalue, hbody, -, hshape, hspec⟩ :=
    ofGroup_parts h
  exact ⟨bound, key, keyValue, body, shape, hbound, hkey, hvalue, hbody, hshape, hspec⟩

end Stage

end QueryStage
