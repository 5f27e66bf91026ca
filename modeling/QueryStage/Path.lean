/-!
# Field paths

A path is the list of segments that leads from the current document, or from a loop variable, to a
value. Its text joins the segments with dots.
-/

namespace QueryStage

structure Path where
  segments : List String
deriving DecidableEq, Repr, Inhabited

namespace Path

def child (p : Path) (segment : String) : Path := ⟨p.segments ++ [segment]⟩

/-- The path of a loop variable: its one segment is the name after a dollar sign. -/
def loopVariable (name : String) : Path := ⟨["$" ++ name]⟩

def startsWith (p root : Path) : Bool := root.segments.isPrefixOf p.segments

/-- Moves a path from one root to another; `none` if it does not start with the old root. -/
def replaceRoot (p old new : Path) : Option Path :=
  if p.startsWith old then some ⟨new.segments ++ p.segments.drop old.segments.length⟩ else none

/-- Moves the paths under `old` to `new` and keeps all others. -/
def reroot (old new p : Path) : Path := (p.replaceRoot old new).getD p

def joined : List String → String
  | [] => ""
  | [s] => s
  | s :: t :: ss => s ++ "." ++ joined (t :: ss)

def text (p : Path) : String := joined p.segments

def reference (p : Path) : String := "$" ++ p.text

def isEmpty (p : Path) : Bool := p.segments.isEmpty

/-- The pieces between the dots of a text, empty ones included. -/
def pieces : List Char → List (List Char)
  | [] => [[]]
  | c :: cs =>
    if c = '.' then [] :: pieces cs
    else match pieces cs with
      | [] => [[c]]
      | p :: ps => (c :: p) :: ps

/-- Reads a dotted text; empty pieces are dropped. -/
def ofText (s : String) : Path :=
  ⟨((pieces s.toList).filter (fun p => !p.isEmpty)).map String.ofList⟩

@[simp] theorem segments_child (p : Path) (s : String) : (p.child s).segments = p.segments ++ [s] :=
  rfl

theorem startsWith_iff (p root : Path) :
    p.startsWith root = true ↔ ∃ rest, p.segments = root.segments ++ rest := by
  rw [startsWith, List.isPrefixOf_iff_prefix]
  exact ⟨fun ⟨rest, h⟩ => ⟨rest, h.symm⟩, fun ⟨rest, h⟩ => ⟨rest, h.symm⟩⟩

theorem replaceRoot_append (old new : Path) (rest : List String) :
    replaceRoot ⟨old.segments ++ rest⟩ old new = some ⟨new.segments ++ rest⟩ := by
  have h : startsWith ⟨old.segments ++ rest⟩ old = true :=
    (startsWith_iff _ _).mpr ⟨rest, rfl⟩
  simp [replaceRoot, h]

def order (p q : Path) : Ordering := compareLex p.segments q.segments
where
  compareLex : List String → List String → Ordering
    | [], [] => .eq
    | [], _ :: _ => .lt
    | _ :: _, [] => .gt
    | a :: as, b :: bs => (compare a b).then (compareLex as bs)

def sorted (ps : List Path) : List Path := ps.mergeSort (fun a b => (a.order b).isLE)

end Path

end QueryStage
