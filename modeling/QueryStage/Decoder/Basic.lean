import QueryStage.Entries
import QueryStage.Ty

/-!
# Decoders

A decoder says how a typed value is rebuilt from a pipeline output. A document decoder lists the
declared members with the element each is read from, and the members that the constructor takes.
-/

namespace QueryStage

mutual

inductive Decoder where
  | value (ty : Ty)
  | nullable (inner : Decoder)
  | array (item : Decoder)
  | document (shape : DocumentDecoder)

/-- How a class, or a constructed shape, is rebuilt from a document. -/
structure DocumentDecoder where
  typeName : String
  members : List (String × MemberDecoder)
  creator : List String

/-- A declared member: the element it is read from and the decoder for it. -/
structure MemberDecoder where
  element : String
  decoder : Decoder

end

instance : Inhabited Decoder := ⟨.value default⟩

namespace DocumentDecoder

def member? (d : DocumentDecoder) (name : String) : Option MemberDecoder :=
  Entries.get? name d.members

end DocumentDecoder

namespace Decoder

/-- A declared member, also of a nullable document. -/
def member? (name : String) : Decoder → Option MemberDecoder
  | document d => d.member? name
  | nullable d => d.member? name
  | value _ => none
  | array _ => none

/-- The decoder for the items of an array, also of a nullable one. -/
def item? : Decoder → Option Decoder
  | array d => some d
  | nullable d => d.item?
  | value _ => none
  | document _ => none

section Induction

variable {P : Decoder → Prop}
  (value : ∀ ty, P (.value ty))
  (nullable : ∀ d, P d → P (.nullable d))
  (array : ∀ d, P d → P (.array d))
  (document : ∀ name members creator,
    (∀ m ∈ members, P m.2.decoder) → P (.document ⟨name, members, creator⟩))

include value nullable array document

set_option linter.unusedSectionVars false

mutual

/-- A property of decoders follows from the same property of the decoders inside. -/
@[elab_as_elim, induction_eliminator]
theorem induct : ∀ d : Decoder, P d
  | .value ty => value ty
  | .nullable d => nullable d (induct d)
  | .array d => array d (induct d)
  | .document ⟨name, members, creator⟩ => document name members creator (induct_members members)

private theorem induct_members : ∀ members : List (String × MemberDecoder),
    ∀ m ∈ members, P m.2.decoder
  | [], _, h => by cases h
  | (_, ⟨_, d⟩) :: ms, m, h => by
    cases h with
    | head => exact induct d
    | tail _ h => exact induct_members ms m h

end

end Induction

mutual

private def decEq : (a b : Decoder) → Decidable (a = b)
  | .value s, .value t =>
    if h : s = t then isTrue (by rw [h]) else isFalse (fun e => h (by cases e; rfl))
  | .nullable a, .nullable b =>
    match decEq a b with
    | isTrue h => isTrue (by rw [h])
    | isFalse h => isFalse (fun e => h (by cases e; rfl))
  | .array a, .array b =>
    match decEq a b with
    | isTrue h => isTrue (by rw [h])
    | isFalse h => isFalse (fun e => h (by cases e; rfl))
  | .document ⟨n, ms, cs⟩, .document ⟨n', ms', cs'⟩ =>
    match decEqMembers ms ms' with
    | isTrue hm =>
      if h : n = n' ∧ cs = cs' then isTrue (by rw [hm, h.1, h.2])
      else isFalse (fun e => h (by cases e; exact ⟨rfl, rfl⟩))
    | isFalse hm => isFalse (fun e => hm (by cases e; rfl))
  | .value _, .nullable _ | .value _, .array _ | .value _, .document _
  | .nullable _, .value _ | .nullable _, .array _ | .nullable _, .document _
  | .array _, .value _ | .array _, .nullable _ | .array _, .document _
  | .document _, .value _ | .document _, .nullable _ | .document _, .array _ =>
    isFalse (fun e => by cases e)

private def decEqMembers : (as bs : List (String × MemberDecoder)) → Decidable (as = bs)
  | [], [] => isTrue rfl
  | [], _ :: _ => isFalse (fun e => by cases e)
  | _ :: _, [] => isFalse (fun e => by cases e)
  | (k, ⟨x, d⟩) :: as, (k', ⟨x', d'⟩) :: bs =>
    match decEq d d', decEqMembers as bs with
    | isTrue hd, isTrue ht =>
      if h : k = k' ∧ x = x' then isTrue (by rw [hd, ht, h.1, h.2])
      else isFalse (fun e => h (by cases e; exact ⟨rfl, rfl⟩))
    | isFalse hd, _ => isFalse (fun e => hd (by cases e; rfl))
    | _, isFalse ht => isFalse (fun e => ht (by cases e; rfl))

end

instance : DecidableEq Decoder := decEq

end Decoder

instance : DecidableEq DocumentDecoder := fun a b =>
  if h : Decoder.document a = Decoder.document b then isTrue (by cases h; rfl)
  else isFalse (fun e => h (by rw [e]))

end QueryStage
