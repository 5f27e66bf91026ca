import QueryStage.Proofs.AccumulatorNesting
import QueryStage.Proofs.BoundPlaces
import QueryStage.Proofs.Withholding

/-!
# Uses of the grouping

Only accumulators have a meaning for the elements of a group. Lowering does not keep to that: where
a projector hands the grouping on as a value, it is emitted as the current document. What is emitted
is made of accumulators over the grouping alone just when the projector does not hand it on.
-/

namespace QueryStage

/-- The key of the group holds `n` at most as a whole. -/
def Scope.KeyApart (n : Expr) (s : Scope) : Prop :=
  ∀ g, s.group = some g → ∀ part ∈ g.key.parts, n ∉ part.nodes

namespace Scope.KeyApart

variable {n : Expr} {s s' : Scope}

theorem congr (hs : s.KeyApart n) (h : s'.group = s.group) : s'.KeyApart n := by
  intro g hg
  exact hs g (h ▸ hg)

theorem not_mem (hs : s.KeyApart n) {g : GroupScope} (hg : s.group = some g) {c part : Expr}
    (hc : c ∈ g.key.nodes) (hpart : part ∈ c.parts) : n ∉ part.nodes := by
  intro hn
  rcases Expr.mem_nodes_iff.mp hc with rfl | ⟨part', hpart', hmem⟩
  · exact hs g hg part hpart hn
  · exact hs g hg part' hpart' (Expr.mem_nodes_trans hmem (Expr.mem_nodes_of_part hpart hn))

end Scope.KeyApart

namespace Expr

/-- On the way that binding takes through an expression, one is the value `n` and is handed on: it
is not the argument that a call accumulates over, and not the target of the key. -/
inductive HandsOn (r : Decoders) (n : Expr) : Scope → Expr → Prop
  | value {s : Scope} {e : Expr} (h : e.bind r s = .ok n) : HandsOn r n s e
  | operand {s : Scope} {e part : Expr} (hplain : e.isPlain = true) (h : part ∈ e.parts)
    (rest : HandsOn r n s part) : HandsOn r n s e
  | target {s : Scope} {target : Expr} {name : String} {declaring ty : Ty}
    (hkey : s.key? target name = none) (hkept : ∀ a, ¬ Chosen target name a)
    (rest : HandsOn r n s target) : HandsOn r n s (member target name declaring ty)
  | chosen {s : Scope} {target a : Expr} {name : String} {declaring ty : Ty}
    (h : Chosen target name a) (rest : HandsOn r n s a) :
    HandsOn r n s (member target name declaring ty)
  | receiver {s : Scope} {receiver : Expr} {method : String} {declaring ty : Ty} {args : List Expr}
    (h : declaring ≠ .enumerable) (rest : HandsOn r n s receiver) :
    HandsOn r n s (call (some receiver) method declaring args ty)
  | argument {s : Scope} {receiver : Option Expr} {method : String} {declaring ty : Ty}
    {args : List Expr} {a : Expr} (h : a ∈ args) (hkind : a.kind ≠ .lambda)
    (hkept : ∀ a', a.bind r s = .ok a' → s.isGrouping a' = true →
      ¬ Accumulates r s (call receiver method declaring args ty))
    (rest : HandsOn r n s a) : HandsOn r n s (call receiver method declaring args ty)
  | body {s inner : Scope} {e : Expr} {fn : Lambda} (h : Ranges r s e inner fn)
    (rest : HandsOn r n inner fn.body) : HandsOn r n s e

variable {r : Decoders} {s : Scope} {n e b : Expr} {g : Parameter} {d : Decoder}

theorem mem_nodes_of_loweredArg {a : Expr} (h : n ∈ a.loweredArg.nodes) : n ∈ a.nodes := by
  cases a with
  | lambda fn => exact mem_nodes_trans (body_mem_nodes fn) h
  | _ => exact h

theorem mem_nodes_of_loweredPart {part : Expr} (h : part ∈ e.loweredParts) (hn : n ∈ part.nodes) :
    n ∈ e.nodes := by
  cases e with
  | call receiver method declaring args ty =>
    rw [loweredParts, List.mem_append] at h
    rcases h with h | h
    · split at h
      · cases h
      · exact mem_nodes_of_part (List.mem_append_left _ h) hn
    · obtain ⟨a, ha, rfl⟩ := List.mem_map.mp h
      exact mem_nodes_of_part (List.mem_append_right _ ha) (mem_nodes_of_loweredArg hn)
  | accumulate fn source selector ty =>
    cases selector with
    | none =>
      cases List.mem_singleton.mp h
      exact mem_nodes_of_part (by simp [parts]) hn
    | some fn =>
      cases List.mem_singleton.mp h
      exact mem_nodes_of_part (by simp [parts]) hn
  | document => cases h
  | _ => exact mem_nodes_of_part h hn

theorem Uses.mem_nodes (h : Uses n e) : n ∈ e.nodes := by
  induction h with
  | here => exact self_mem_nodes n
  | part hpart _ _ ih => exact mem_nodes_of_loweredPart hpart ih

theorem Uses.document {inner : Expr} {path : Option Path} (h : Uses n (document inner path d)) :
    Expr.document inner path d = n := by
  cases h with
  | here => rfl
  | part hpart => cases hpart

theorem not_uses_of_loweredParts_nil (hparts : e.loweredParts = []) (hkind : e.kind ≠ .document) :
    ¬ Uses (Lambda.root g d) e := by
  intro h
  cases h with
  | here => exact hkind rfl
  | part hpart =>
    rw [hparts] at hpart
    cases hpart

theorem eq_of_uses_of_mem_key (hs : s.KeyApart n) {k : GroupScope} (hk : s.group = some k)
    (he : e ∈ k.key.nodes) (h : Uses n e) : e = n := by
  rcases mem_nodes_iff.mp h.mem_nodes with rfl | ⟨part, hpart, hmem⟩
  · rfl
  · exact (hs.not_mem hk he hpart hmem).elim

theorem uses_loweredArg_iff {a : Expr} : Uses (Lambda.root g d) a.loweredArg ↔
    Uses (Lambda.root g d) a := by
  cases a with
  | lambda fn =>
    constructor
    · intro h
      exact .part (List.mem_singleton_self fn.body) nofun h
    · intro h
      cases h with
      | part hpart _ h =>
        rw [List.mem_singleton.mp hpart] at h
        exact h
  | _ => exact Iff.rfl

theorem Uses.accumulate {fn fn' : AccumulatorFn} {source : Expr} {selector : Option Lambda}
    {ty ty' : Ty} (h : Uses (Lambda.root g d) (accumulate fn source selector ty)) :
    Uses (Lambda.root g d) (Expr.accumulate fn' source selector ty') := by
  cases h with
  | part hpart hkept h =>
    refine .part (by cases selector <;> exact hpart) ?_ h
    rintro fn'' ty'' heq
    cases heq
    exact hkept fn ty rfl

theorem not_uses_grouping (h : s.isGrouping e = true) (hne : e ≠ Lambda.root g d) :
    ¬ Uses (Lambda.root g d) e := by
  intro huses
  obtain ⟨_, _, -, -, rfl | ⟨_, rfl⟩⟩ := Scope.isGrouping_cases h
  · exact not_uses_of_loweredParts_nil rfl (by simp [kind]) huses
  · exact hne huses.document

theorem not_uses_over_grouping {acc : AccumulatorFn} {source : Expr} {ty : Ty}
    (hsource : s.isGrouping source = true) :
    ¬ Uses (Lambda.root g d) (accumulate acc source none ty) := by
  intro h
  cases h with
  | part hpart hkept h =>
    rw [List.mem_singleton.mp hpart] at h
    refine not_uses_grouping hsource ?_ h
    rintro rfl
    exact hkept acc ty rfl

theorem uses_selector_iff {acc : AccumulatorFn} {source : Expr} {fn : Lambda} {ty : Ty} :
    Uses (Lambda.root g d) (accumulate acc source (some fn) ty) ↔
      Uses (Lambda.root g d) fn.body := by
  constructor
  · intro h
    cases h with
    | part hpart _ h =>
      rw [List.mem_singleton.mp hpart] at h
      exact h
  · exact .part (List.mem_singleton_self fn.body) nofun

theorem uses_counting_iff {ty : Ty} {fn : Option Lambda} :
    Uses (Lambda.root g d) (grouped?.counting ty fn).body ↔
      ∃ f, fn = some f ∧ Uses (Lambda.root g d) f.body := by
  have hcount (n : Int32) : ¬ Uses (Lambda.root g d) (countOf n ty) :=
    not_uses_of_loweredParts_nil rfl (by simp [countOf, kind])
  cases fn with
  | none =>
    constructor
    · exact fun h => (hcount 1 h).elim
    · rintro ⟨_, heq, -⟩
      cases heq
  | some f =>
    obtain ⟨params, test⟩ := f
    constructor
    · intro h
      cases h with
      | part hpart _ h =>
        rcases List.mem_cons.mp hpart with heq | hpart
        · exact ⟨_, rfl, heq ▸ h⟩
        rcases List.mem_pair.mp hpart with rfl | rfl
        · exact (hcount 1 h).elim
        · exact (hcount 0 h).elim
    · rintro ⟨_, ⟨⟩, h⟩
      exact .part List.mem_cons_self (by simp [grouped?.counting]) h

theorem uses_grouping_iff {acc : AccumulatorFn} {source : Expr} {fn : Option Lambda}
    {counts : Bool} {ty : Ty} (hsource : s.isGrouping source = true) :
    Uses (Lambda.root g d) (accumulate acc source
      (if counts = true then some (grouped?.counting ty fn) else fn) ty) ↔
      ∃ f, fn = some f ∧ Uses (Lambda.root g d) f.body := by
  cases counts with
  | true => exact uses_selector_iff.trans uses_counting_iff
  | false =>
    cases fn with
    | some f =>
      refine uses_selector_iff.trans ⟨fun h => ⟨f, rfl, h⟩, ?_⟩
      rintro ⟨_, ⟨⟩, h⟩
      exact h
    | none =>
      refine iff_of_false (not_uses_over_grouping hsource) ?_
      rintro ⟨_, heq, -⟩
      cases heq

/-- An accumulator uses what its arguments use, but for the grouping. -/
theorem uses_accumulator?_iff {method : String} {declaring ty : Ty} {args : List Expr}
    (h : s.accumulator? method declaring args ty = some b) :
    Uses (Lambda.root g d) b ↔
      ∃ a ∈ args, s.isGrouping a = false ∧ Uses (Lambda.root g d) a := by
  have hlambda (fn : Lambda) : s.isGrouping (lambda fn) = false :=
    Scope.isGrouping_of_kind (by simp [kind]) (by simp [kind])
  rcases (accumulator?_cases h).2 with
    ⟨fn, source, selector, ty', rfl, rfl⟩ | ⟨source, fn, acc, counts, hargs, hgrouping, rfl⟩
  · constructor
    · intro huses
      have hno : s.isGrouping (accumulate .push source selector ty') = false :=
        Scope.isGrouping_of_kind (by simp [kind]) (by simp [kind])
      exact ⟨_, List.mem_singleton_self _, hno, huses.accumulate⟩
    · rintro ⟨a, ha, -, huses⟩
      rw [List.mem_singleton.mp ha] at huses
      exact huses.accumulate
  · rw [uses_grouping_iff hgrouping]
    cases hargs with
    | alone => simp [hgrouping]
    | each f =>
      have hbody : Uses (Lambda.root g d) f.body ↔ Uses (Lambda.root g d) (lambda f) :=
        uses_loweredArg_iff (a := lambda f)
      simpa [hgrouping, hlambda] using hbody

theorem uses_of_callResult {args : List Expr} (h : CallResult s args b) {a : Expr} (ha : a ∈ args)
    (hkept : s.isGrouping a = true → b.isAccumulator = false) (huses : Uses (Lambda.root g d) a) :
    Uses (Lambda.root g d) b := by
  obtain ⟨receiver, method, declaring, ty, haccumulator | rfl⟩ := h
  · refine (uses_accumulator?_iff haccumulator).mpr ⟨a, ha, ?_, huses⟩
    refine Bool.eq_false_iff.mpr fun hgrouping => ?_
    have hno := hkept hgrouping
    rw [isAccumulator, kind_of_accumulator? haccumulator] at hno
    cases hno
  · refine .part (List.mem_append_right _ (List.mem_map_of_mem ha)) (by simp) ?_
    exact uses_loweredArg_iff.mpr huses

theorem loweredParts_of_kind_eq (hkind : b.kind = e.kind) (hplain : e.isPlain = true)
    (he : e.isWritten = true) : b.loweredParts = b.parts := by
  rw [isPlain, ← hkind] at hplain
  rw [isWritten, ← hkind] at he
  cases b with
  | parameter | member | call | lambda => cases hplain
  | accumulate | document => cases he
  | _ => rfl

section Groups

variable {source : Decoder}

theorem not_uses_of_resolve? {target bound : Expr} {name : String} {ty : Ty}
    (htarget : target.Written) (hs : s.Plain) (hapart : s.KeyApart (Lambda.root g (.array source)))
    (hkept : ∀ a, ¬ Chosen target name a) (hbound : target.bind r s = .ok bound)
    (h : bound.resolve? name ty = some b) : ¬ Uses (Lambda.root g (.array source)) bound := by
  intro huses
  have hroot : (Lambda.root g (.array source)).resolve? name ty = none := rfl
  rcases target_of_resolve? htarget.noDocument hs hkept hbound h with
    hfield | ⟨p, path, d, rfl⟩ | ⟨k, hk, hmem⟩
  · cases bound with
    | field => exact not_uses_of_loweredParts_nil rfl (by simp [kind]) huses
    | _ => cases hfield
  · rw [huses.document, hroot] at h
    cases h
  · rw [eq_of_uses_of_mem_key hapart hk hmem huses, hroot] at h
    cases h

theorem not_uses_resolved {target bound : Expr} {name : String} {ty : Ty}
    (htarget : target.Written) (hs : s.Plain) (hapart : s.KeyApart (Lambda.root g (.array source)))
    (hkept : ∀ a, ¬ Chosen target name a) (hbound : target.bind r s = .ok bound)
    (h : bound.resolve? name ty = some b) : ¬ Uses (Lambda.root g (.array source)) b := by
  intro huses
  rcases nodes_of_resolve? h huses.mem_nodes with hfield | ⟨hmem, hne⟩
  · cases hfield
  rcases target_of_resolve? htarget.noDocument hs hkept hbound h with
    hfield | ⟨p, path, d, rfl⟩ | ⟨k, hk, hkey⟩
  · cases bound with
    | field => cases List.mem_singleton.mp hmem
    | _ => cases hfield
  · exact hne p path d rfl
  · rcases mem_nodes_iff.mp hmem with rfl | ⟨part, hpart, hmem⟩
    · exact hne g none _ rfl
    · exact hapart.not_mem hk hkey hpart hmem

theorem not_uses_accumulate {fn : AccumulatorFn} {items : Expr} {ty : Ty} (he : e.Written)
    (hs : s.Plain) (h : e.bind r s = .ok (accumulate fn items none ty)) :
    ¬ Uses (Lambda.root g d) (accumulate fn items none ty) := by
  obtain ⟨s', e', -, haccumulated⟩ := accumulated_of_bind he hs h (self_mem_nodes _) rfl
  obtain ⟨_, _, _, _, heq, hgrouping⟩ := haccumulated.source
  cases heq
  exact not_uses_over_grouping hgrouping

theorem uses_bindMember_iff {target bound : Expr} {name : String} {declaring ty : Ty}
    (htarget : target.Written) (hs : s.Plain) (hapart : s.KeyApart (Lambda.root g (.array source)))
    (hkept : ∀ a, ¬ Chosen target name a) (hbound : target.bind r s = .ok bound)
    (h : bindMember r bound name declaring ty = .ok b) :
    Uses (Lambda.root g (.array source)) b ↔ Uses (Lambda.root g (.array source)) bound := by
  rcases bindMember_cases h with hresolve | rfl |
    ⟨fn, items, ty', item, body, rfl, helement, hbody, rfl⟩
  · exact iff_of_false (not_uses_resolved htarget hs hapart hkept hbound hresolve)
      (not_uses_of_resolve? htarget hs hapart hkept hbound hresolve)
  · constructor
    · intro huses
      cases huses with
      | part hpart _ huses =>
        rw [List.mem_singleton.mp hpart] at huses
        exact huses
    · exact .part (List.mem_singleton_self bound) nofun
  · refine iff_of_false (fun huses => ?_) (not_uses_accumulate htarget hs hbound)
    cases field_of_item helement hbody (uses_selector_iff.mp huses).mem_nodes

private theorem handsOn_of_bind_call {receiver : Option Expr} {method : String}
    {declaring ty : Ty} {args : List Expr}
    (h : (call receiver method declaring args ty).bind r s = .ok b)
    (huses : Uses (Lambda.root g d) b)
    (ihr : ∀ e, receiver = some e → ∀ b, e.bind r s = .ok b → Uses (Lambda.root g d) b →
      HandsOn r (Lambda.root g d) s e)
    (iha : ∀ e ∈ args, ∀ b, e.bind r s = .ok b → Uses (Lambda.root g d) b →
      HandsOn r (Lambda.root g d) s e)
    (ihb : ∀ inner fn, lambda fn ∈ args →
      Ranges r s (call receiver method declaring args ty) inner fn →
      ∀ b, fn.body.bind r inner = .ok b → Uses (Lambda.root g d) b →
      HandsOn r (Lambda.root g d) inner fn.body) :
    HandsOn r (Lambda.root g d) s (call receiver method declaring args ty) := by
  obtain ⟨receiver', args', hreceiver, hargs, hresult⟩ := bind_call_cases h
  have arg {a' : Expr} (ha' : a' ∈ args') (huses : Uses (Lambda.root g d) a')
      (hkept : s.isGrouping a' = true → b.isAccumulator = false) :
      HandsOn r (Lambda.root g d) s (call receiver method declaring args ty) := by
    rcases arg_of_boundArgs hreceiver hargs ha' method declaring ty with
      ⟨a, ha, hkind, hbound⟩ | ⟨inner, fn, body, hfn, hranges, hbody, rfl⟩
    · refine .argument ha hkind ?_ (iha a ha a' hbound huses)
      rintro a'' ha'' hgrouping ⟨b', hb', hacc⟩
      cases hbound.symm.trans ha''
      cases h.symm.trans hb'
      exact NoAccumulator.false (hkept hgrouping) hacc
    · exact .body hranges (ihb inner fn hfn hranges body hbody (uses_loweredArg_iff.mpr huses))
  rcases hresult with haccumulator | rfl
  · obtain ⟨a', ha', hgrouping, huses⟩ := (uses_accumulator?_iff haccumulator).mp huses
    refine arg ha' huses fun htrue => ?_
    rw [hgrouping] at htrue
    cases htrue
  · cases huses with
    | part hpart _ huses =>
      rcases List.mem_append.mp hpart with hpart | hpart
      · split at hpart
        · cases hpart
        · rename_i hdeclaring
          cases hreceiver with
          | none => cases hpart
          | @some e e' hbound =>
            rw [List.mem_singleton.mp hpart] at huses
            exact .receiver hdeclaring (ihr e rfl e' hbound huses)
      · obtain ⟨a', ha', rfl⟩ := List.mem_map.mp hpart
        exact arg ha' (uses_loweredArg_iff.mp huses) fun _ => rfl

/-- The grouping is used only where the expression hands it on. -/
theorem handsOn_of_uses (he : e.Written) (hs : s.Plain)
    (hapart : s.KeyApart (Lambda.root g (.array source))) (h : e.bind r s = .ok b)
    (huses : Uses (Lambda.root g (.array source)) b) :
    HandsOn r (Lambda.root g (.array source)) s e := by
  induction e using induct_nodes generalizing s b with
  | step e ih =>
    have below {part a : Expr} (hpart : part ∈ e.parts) (ha : a ∈ part.nodes) {s' : Scope}
        (hs' : s'.Plain) (hgroup : s'.group = s.group) {b' : Expr} (h : a.bind r s' = .ok b')
        (huses : Uses (Lambda.root g (.array source)) b') :
        HandsOn r (Lambda.root g (.array source)) s' a :=
      ih part hpart a ha (he.below (mem_nodes_of_part hpart ha)) hs' (hapart.congr hgroup) h huses
    cases hplain : e.isPlain with
    | true =>
      obtain ⟨hkind, hparts⟩ := forall₂_parts_of_bind hplain he.self h
      cases huses with
      | here => exact .value h
      | part hpart _ huses =>
        rw [loweredParts_of_kind_eq hkind hplain he.self] at hpart
        obtain ⟨part, hmem, hbound⟩ := exists_of_forall₂ hparts hpart
        exact .operand hplain hmem (below hmem (self_mem_nodes part) hs rfl hbound huses)
    | false =>
      cases e with
      | parameter p =>
        rcases bind_parameter_cases h with rfl | hlookup
        · exact (not_uses_of_loweredParts_nil rfl (by simp [kind]) huses).elim
        · obtain ⟨_, _, _, -, rfl⟩ := hs.lookup hlookup
          exact .value (huses.document ▸ h)
      | member target name declaring ty =>
        by_cases hchosen : ∃ a, Chosen target name a
        · obtain ⟨a, ha⟩ := hchosen
          have hbound := ha.bind_eq_ok h
          exact .chosen ha (below (by simp [parts]) ha.mem_nodes hs rfl hbound huses)
        · have hkept := not_exists.mp hchosen
          rcases bind_member_cases h with hkey | ⟨hkey, bound, hbound, hmember⟩
          · obtain ⟨-, -, k, hk, rfl⟩ := Scope.key?_cases hkey
            exact .value (eq_of_uses_of_mem_key hapart hk (self_mem_nodes _) huses ▸ h)
          · have htarget : target.Written := he.part (by simp [parts])
            have huses := (uses_bindMember_iff htarget hs hapart hkept hbound hmember).mp huses
            exact .target hkey hkept
              (below (by simp [parts]) (self_mem_nodes target) hs rfl hbound huses)
      | call receiver method declaring args ty =>
        refine handsOn_of_bind_call h huses ?_ ?_ ?_
        · intro a ha b' hb' huses'
          exact below (by simp [parts, ha]) (self_mem_nodes a) hs rfl hb' huses'
        · intro a ha b' hb' huses'
          exact below (by simp [parts, ha]) (self_mem_nodes a) hs rfl hb' huses'
        · intro inner fn hfn hranges b' hb' huses'
          exact below (by simp [parts, hfn]) (body_mem_nodes fn) (hranges.plain hs)
            hranges.group hb' huses'
      | lambda fn =>
        obtain ⟨body, hbody, rfl⟩ := bind_lambda_cases h
        refine .body (.here s fn) (below (by simp [parts]) (self_mem_nodes fn.body) hs rfl hbody ?_)
        exact uses_loweredArg_iff.mpr huses
      | _ => cases hplain

/-- What the expression hands on is used. -/
theorem uses_of_handsOn (he : e.Written) (hs : s.Plain)
    (hapart : s.KeyApart (Lambda.root g (.array source))) (h : e.bind r s = .ok b)
    (hands : HandsOn r (Lambda.root g (.array source)) s e) :
    Uses (Lambda.root g (.array source)) b := by
  induction hands generalizing b with
  | value hvalue =>
    cases hvalue.symm.trans h
    exact .here
  | @operand s e part hplain hpart rest ih =>
    obtain ⟨hkind, hparts⟩ := forall₂_parts_of_bind hplain he.self h
    obtain ⟨part', hpart', hbound⟩ := exists_of_forall₂ hparts.flip hpart
    have hwritten := he.self
    refine .part (loweredParts_of_kind_eq hkind hplain hwritten ▸ hpart') ?_
      (ih (he.part hpart) hs hapart hbound)
    rintro fn ty rfl
    rw [isWritten, ← hkind] at hwritten
    cases hwritten
  | @target s target name declaring ty hkey hkept rest ih =>
    have htarget : target.Written := he.part (by simp [parts])
    rcases bind_member_cases h with hkey' | ⟨-, bound, hbound, hmember⟩
    · cases hkey.symm.trans hkey'
    · exact (uses_bindMember_iff htarget hs hapart hkept hbound hmember).mpr
        (ih htarget hs hapart hbound)
  | @chosen s target a name declaring ty hchosen rest ih =>
    have ha : a ∈ (member target name declaring ty).nodes :=
      mem_nodes_of_part (by simp [parts]) hchosen.mem_nodes
    exact ih (he.below ha) hs hapart (hchosen.bind_eq_ok h)
  | @receiver s receiver method declaring ty args hdeclaring rest ih =>
    obtain ⟨_, args', hreceiver, -, haccumulator | rfl⟩ := bind_call_cases h
    · exact (hdeclaring (declaring_of_accumulator? haccumulator)).elim
    · cases hreceiver with
      | @some _ receiver' hbound =>
        refine .part ?_ (by simp) (ih (he.part (by simp [parts])) hs hapart hbound)
        rw [loweredParts, if_neg hdeclaring]
        exact List.mem_cons_self
  | @argument s receiver method declaring ty args a ha hkind hkept rest ih =>
    obtain ⟨a', args', hbound, ha', hresult⟩ := bind_argument h ha hkind
    refine uses_of_callResult hresult ha' (fun hgrouping => ?_)
      (ih (he.part (by simp [parts, ha])) hs hapart hbound)
    exact Bool.eq_false_iff.mpr fun hacc => hkept a' hbound hgrouping ⟨b, h, hacc⟩
  | @body s inner e fn hranges rest ih =>
    obtain ⟨body, hbody, hresult⟩ := hranges.exists_bind h
    have hwritten : fn.body.Written :=
      he.below (mem_nodes_trans hranges.mem_nodes (body_mem_nodes fn))
    have huses : Uses (Lambda.root g (.array source)) (lambda ⟨fn.params, body⟩) :=
      uses_loweredArg_iff.mp (ih hwritten (hranges.plain hs) (hapart.congr hranges.group) hbody)
    rcases hresult with rfl | ⟨args', hmem, hresult⟩
    · exact huses
    · refine uses_of_callResult hresult hmem (fun hgrouping => ?_) huses
      rw [Scope.isGrouping_of_kind (by simp [kind]) (by simp [kind])] at hgrouping
      cases hgrouping

end Groups

end Expr

namespace Decoder

theorem sizeOf_item? {d i : Decoder} (h : d.item? = some i) : sizeOf i < sizeOf d := by
  induction d with
  | value => cases h
  | document => cases h
  | array d _ =>
    cases h
    simp
  | nullable d ih =>
    have hlt := ih h
    simp only [nullable.sizeOf_spec]
    omega

theorem Traces.sizeOf_le {d d' : Decoder} {es : List String} (h : Traces d es d') (hes : es = []) :
    sizeOf d' ≤ sizeOf d := by
  induction h with
  | refl => omega
  | member => cases hes
  | item hitem _ ih =>
    have hlt := sizeOf_item? hitem
    have hle := ih hes
    omega

theorem not_traces_array (d : Decoder) : ¬ d.Traces [] (.array d) := by
  intro h
  have hle := h.sizeOf_le rfl
  simp only [array.sizeOf_spec] at hle
  omega

end Decoder

namespace Lambda

theorem root_not_mem_of_bindProjector {r : Decoders} {fn : Lambda} {source : Decoder} {bound : Expr}
    (hwritten : fn.body.Written) (h : fn.bindProjector r source = .ok bound) (g : Parameter) :
    root g (.array source) ∉ bound.nodes := by
  intro hmem
  obtain ⟨p, -, hbody⟩ := bindProjector_cases h
  have hplaced := Expr.bindsPlaced_of_written r source hwritten _ [] bound
    (placed_projectorScope r p source) hbody
  obtain ⟨ranges, hoccurs⟩ := Expr.exists_occurs hmem
  rcases hplaced _ ranges hoccurs [] (.array source) rfl with
    htrace | ⟨range, -, -, _, rest, -, hnil, -⟩
  · exact source.not_traces_array htrace
  · cases hnil

theorem keyApart_groupScope {r : Decoders} {fn : Lambda} {source : Decoder} {bound key : Expr}
    (hwritten : fn.body.Written) (h : fn.bindProjector r source = .ok bound)
    (hkey : Stage.keyOf r bound = .ok key) (g : Parameter) :
    (groupScope g source key).KeyApart (root g (.array source)) := by
  have hroot := root_not_mem_of_bindProjector hwritten h g
  rintro _ ⟨⟩ part hpart hmem
  have document {d : Decoder} (hpart : part ∈ (Expr.document bound none d).parts) : False := by
    rw [List.mem_singleton.mp hpart] at hmem
    exact hroot hmem
  rcases Stage.keyOf_cases hkey with ⟨-, rfl⟩ | ⟨_, _, _, _, d, -, -, rfl⟩ | ⟨d, -, -, rfl⟩
  · exact hroot (Expr.mem_nodes_of_part hpart hmem)
  · exact document hpart
  · exact document hpart

end Lambda

namespace Stage

/-- An accepted group is emitted as it is with the grouping withheld from everything but the
accumulators over it, just when the projector does not hand the grouping on. -/
theorem grouping_withheld_iff (r : Decoders) (options : Options) (source : Decoder)
    (keySelector projector : Lambda) (stage : Stage) (hkeyWritten : keySelector.body.Written)
    (hwritten : projector.body.Written)
    (h : ofGroup r options source keySelector projector = .ok stage) :
    ∃ bound key keyValue g body shape, keySelector.bindProjector r source = .ok bound ∧
      keyOf r bound = .ok key ∧ projector.params = [g] ∧
      projector.body.bind r (Lambda.groupScope g source key) = .ok body ∧
      body.lowerShape options.stringUnit = .ok shape ∧
      stage.specification = grouping keyValue shape ∧
      ((body.withhold g (.array source)).lowerShape options.stringUnit = .ok shape ↔
        ¬ Expr.HandsOn r (Lambda.root g (.array source)) (Lambda.groupScope g source key)
          projector.body) := by
  obtain ⟨bound, key, keyValue, body, shape, hbound, hkey, -, hbody, hshape, hstage⟩ :=
    ofGroup_cases h
  obtain ⟨p, -, hkeyBody⟩ := Lambda.bindProjector_cases hbound
  obtain ⟨g, hg, hbody⟩ := Lambda.bindGroupProjector_cases hbody
  have hboundPlain : bound.All Expr.NoAccumulator :=
    Expr.noAccumulator_of_bind hkeyWritten (Lambda.plain_projectorScope p source) rfl hkeyBody
  have hscope := Lambda.plain_groupScope g source (noAccumulator_of_keyOf hboundPlain hkey)
  have hapart := Lambda.keyApart_groupScope hkeyWritten hbound hkey g
  refine ⟨bound, key, keyValue, g, body, shape, hbound, hkey, hg, hbody, hshape, hstage, ?_⟩
  rw [Expr.lowerShape_withhold_iff hshape]
  constructor
  · intro huses hands
    exact huses (Expr.uses_of_handsOn hwritten hscope hapart hbody hands)
  · intro hands huses
    exact hands (Expr.handsOn_of_uses hwritten hscope hapart hbody huses)

end Stage

namespace Orders

open QueryStage.Expr

def expressGroup : Expr := parameter (ofGroup "g" .boolean)

/-- The number of orders of a group, the amount of the first one and the last one as a whole. -/
def ends : Lambda where
  params := [ofGroup "g" .boolean]
  body := named (.record "Ends")
    [("Count", sequenceCall "Count" expressGroup [] .int32),
      ("First", access (sequenceCall "First" expressGroup [] (.record "Order")) "Amount" .int32),
      ("Last", sequenceCall "Last" expressGroup [] (.record "Order"))]

theorem ends_not_handed_on :
    ∃ stage, Stage.ofGroup registry {} source byExpress ends = .ok stage ∧
      byExpress.body.Written ∧ ends.body.Written ∧
      stage.specification = [("_id", .string "$express"), ("Count", Bson.apply "$sum" (.int32 1)),
        ("First", Bson.apply "$first" (.string "$amount")),
        ("Last", Bson.apply "$last" (.string "$$ROOT"))] ∧
      ¬ HandsOn registry (Lambda.root (ofGroup "g" .boolean) (.array source))
        (Lambda.groupScope (ofGroup "g" .boolean) source
          (field ⟨["express"]⟩ (.value .boolean) .boolean)) ends.body := by
  refine ⟨_, rfl, by decide, by decide, rfl, ?_⟩
  obtain ⟨bound, key, keyValue, g, body, shape, hbound, hkey, hg, hbody, hshape, -, hiff⟩ :=
    Stage.grouping_withheld_iff registry {} source byExpress ends _ (by decide) (by decide) rfl
  cases hbound
  cases hkey
  cases hg
  cases hbody
  cases hshape
  exact hiff.mp rfl

def groups : Lambda where
  params := [ofGroup "g" .boolean]
  body := named (.record "Groups") [("Orders", expressGroup)]

/-- A group that is a member of the result is accepted. It is decoded as a list of orders, but what
is emitted for it is the current order. -/
theorem groups_emit_current_order :
    ∃ stage, Stage.ofGroup registry {} source byExpress groups = .ok stage ∧
      byExpress.body.Written ∧ groups.body.Written ∧
      stage.specification = [("_id", .string "$express"), ("Orders", .string "$$ROOT")] ∧
      stage.decoder.member? "Orders" = some ⟨"Orders", .array source⟩ :=
  ⟨_, rfl, by decide, by decide, rfl, rfl⟩

end Orders

end QueryStage
