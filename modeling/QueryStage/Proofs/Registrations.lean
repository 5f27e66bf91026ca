import QueryStage.Proofs.Orders
import QueryStage.Proofs.Outcome

/-!
# Runs of registrations

A registry is built by registering classes one after the other. What it knows then is the last
registration of each name, and a call gives back what was the last one before it. A type is a type
without layers under nullable and collection layers, and its decoder is that of the type inside with
one decoder for each layer around it.
-/

namespace QueryStage

/-- What can be around a type: it is nullable, or the item of a collection. -/
inductive Layer where
  | nullable
  | array
  | set
  | grouping (key : Ty)
deriving DecidableEq

namespace Layer

def around : Layer → Ty → Ty
  | nullable, t => .nullable t
  | array, t => .array t
  | set, t => .set t
  | grouping key, t => .grouping key t

/-- The decoder with the layer around it. All collections are arrays to a decoder. -/
def decoder : Layer → Decoder → Decoder
  | nullable, d => .nullable d
  | array, d => .array d
  | set, d => .array d
  | grouping _, d => .array d

/-- Layers that differ in the key of a grouping at most. -/
inductive SameButKey : Layer → Layer → Prop
  | refl (l : Layer) : SameButKey l l
  | grouping (key key' : Ty) : SameButKey (grouping key) (grouping key')

theorem SameButKey.decoder_eq {l l' : Layer} (h : SameButKey l l') : l.decoder = l'.decoder := by
  cases h <;> rfl

end Layer

namespace Ty

/-- The layers of a type, the outermost one first. -/
def layers : Ty → List Layer
  | nullable t => .nullable :: t.layers
  | array t => .array :: t.layers
  | set t => .set :: t.layers
  | grouping key t => .grouping key :: t.layers
  | _ => []

/-- The type under all layers: the element of the innermost collection. -/
def innermost : Ty → Ty
  | nullable t => t.innermost
  | array t => t.innermost
  | set t => t.innermost
  | grouping _ t => t.innermost
  | t => t

/-- A scalar, a document or an enumeration, whose decoder is known without registration. -/
def isValue : Ty → Bool
  | boolean => true
  | int32 => true
  | int64 => true
  | double => true
  | decimal128 => true
  | string => true
  | dateTime => true
  | objectId => true
  | binary => true
  | document => true
  | enumeration _ => true
  | _ => false

def within (layers : List Layer) (t : Ty) : Ty := layers.foldr Layer.around t

theorem within_layers (t : Ty) : within t.layers t.innermost = t := by
  induction t with
  | nullable t ih => exact congrArg nullable ih
  | array t ih => exact congrArg array ih
  | set t ih => exact congrArg set ih
  | grouping key t _ ih => exact congrArg (grouping key) ih
  | _ => rfl

theorem innermost_cases (t : Ty) :
    t.innermost.isValue = true ∨ ∃ name, t.innermost = record name := by
  induction t with
  | nullable t ih => exact ih
  | array t ih => exact ih
  | set t ih => exact ih
  | grouping key t _ ih => exact ih
  | record name => exact .inr ⟨name, rfl⟩
  | _ => exact .inl rfl

end Ty

namespace DocumentDecoder

/-- The last of these decoders that is registered under a name. -/
def last? (name : String) (ds : List DocumentDecoder) : Option DocumentDecoder :=
  ds.reverse.find? fun d => d.typeName = name

theorem last?_append_singleton (name : String) (ds : List DocumentDecoder) (d : DocumentDecoder) :
    last? name (ds ++ [d]) = if d.typeName = name then some d else last? name ds := by
  rw [last?, List.reverse_append, List.reverse_singleton, List.singleton_append, List.find?_cons]
  by_cases h : d.typeName = name <;> simp [h, last?]

theorem last?_isSome_iff (name : String) (ds : List DocumentDecoder) :
    (last? name ds).isSome = true ↔ ∃ d ∈ ds, d.typeName = name := by
  simp [last?, List.find?_isSome]

end DocumentDecoder

namespace Registry

open DocumentDecoder (last?)

/-- Registers classes one after the other and lists what each call gives back. -/
def registerAll (r : Registry) : List DocumentDecoder → List (Option DocumentDecoder) × Registry
  | [] => ([], r)
  | d :: ds =>
    let (replaced, next) := r.register d
    let (rest, final) := next.registerAll ds
    (replaced :: rest, final)

/-- The registry knows the last registration of each of these decoders. -/
def Knows (r : Registry) (ds : List DocumentDecoder) : Prop :=
  ∀ name, r.classes.get? name = last? name ds

theorem knows_empty : ({} : Registry).Knows [] := fun _ => rfl

/-- A registration gives back the last one of its name and takes its place. -/
theorem Knows.register {r : Registry} {before : List DocumentDecoder} (h : r.Knows before)
    (d : DocumentDecoder) :
    (r.register d).1 = last? d.typeName before ∧ (r.register d).2.Knows (before ++ [d]) := by
  refine ⟨h d.typeName, fun name => ?_⟩
  have hinsert : (r.register d).2.classes.get? name =
      if d.typeName = name then some d else r.classes.get? name :=
    Entries.get?_insert d.typeName name d r.classes
  rw [hinsert, DocumentDecoder.last?_append_singleton, h name]

/-- After a run the registry knows all that was registered, and each call has given back the last
registration before it. -/
theorem Knows.registerAll {r : Registry} {before : List DocumentDecoder} (h : r.Knows before)
    (ds : List DocumentDecoder) :
    (r.registerAll ds).2.Knows (before ++ ds) ∧ (r.registerAll ds).1.length = ds.length ∧
      ∀ earlier d later, ds = earlier ++ d :: later →
        (r.registerAll ds).1[earlier.length]? = some (last? d.typeName (before ++ earlier)) := by
  induction ds generalizing r before with
  | nil =>
    refine ⟨by simpa [Registry.registerAll] using h, rfl, fun earlier d later heq => ?_⟩
    simp at heq
  | cons d ds ih =>
    obtain ⟨hreplaced, hknows⟩ := h.register d
    obtain ⟨hfinal, hlength, hreplies⟩ := ih hknows
    refine ⟨?_, congrArg Nat.succ hlength, fun earlier e later heq => ?_⟩
    · rw [List.append_assoc] at hfinal
      exact hfinal
    · cases earlier with
      | nil =>
        obtain ⟨rfl, -⟩ := List.cons.inj heq
        rw [List.append_nil, ← hreplaced]
        rfl
      | cons x earlier =>
        obtain ⟨rfl, hrest⟩ := List.cons.inj heq
        have hreply := hreplies earlier e later hrest
        rw [List.append_assoc] at hreply
        exact hreply

/-- The decoder of a type without layers: values are decoded as they are, and classes as they were
registered last. -/
def leaf? (ds : List DocumentDecoder) : Ty → Option Decoder
  | .record name => (last? name ds).map .document
  | t => some (.value t)

theorem leaf?_of_isValue (ds : List DocumentDecoder) {t : Ty} (h : t.isValue = true) :
    leaf? ds t = some (.value t) := by
  cases t with
  | nullable | array | set | grouping | record => cases h
  | _ => rfl

theorem lookup_of_isValue (r : Registry) {t : Ty} (h : t.isValue = true) :
    r.lookup t = some (.value t) := by
  cases t with
  | nullable | array | set | grouping | record => cases h
  | _ => rfl

theorem lookup_within (r : Registry) (layers : List Layer) (t : Ty) :
    r.lookup (Ty.within layers t) = (r.lookup t).map (layers.foldr Layer.decoder) := by
  induction layers with
  | nil => simp [Ty.within]
  | cons l layers ih =>
    have hstep : r.lookup (l.around (Ty.within layers t)) =
        (r.lookup (Ty.within layers t)).map l.decoder := by
      cases l <;> rfl
    rw [Ty.within, List.foldr_cons, ← Ty.within, hstep, ih, Option.map_map]
    rfl

theorem Knows.lookup_innermost {r : Registry} {ds : List DocumentDecoder} (h : r.Knows ds)
    (t : Ty) : r.lookup t.innermost = leaf? ds t.innermost := by
  rcases t.innermost_cases with hvalue | ⟨name, hname⟩
  · rw [lookup_of_isValue r hvalue, leaf?_of_isValue ds hvalue]
  · rw [hname, lookup, leaf?, h name]

theorem Knows.lookup_eq {r : Registry} {ds : List DocumentDecoder} (h : r.Knows ds) (t : Ty) :
    r.lookup t = (leaf? ds t.innermost).map (t.layers.foldr Layer.decoder) := by
  rw [← h.lookup_innermost, ← lookup_within, Ty.within_layers]

theorem leaf?_isSome_iff (ds : List DocumentDecoder) (t : Ty) :
    (leaf? ds t.innermost).isSome = true ↔
      t.innermost.isValue = true ∨ ∃ d ∈ ds, t.innermost = .record d.typeName := by
  rcases t.innermost_cases with hvalue | ⟨name, hname⟩
  · simp [leaf?_of_isValue ds hvalue, hvalue]
  · have hrecord : (leaf? ds (.record name)).isSome = (last? name ds).isSome :=
      Option.isSome_map
    rw [hname, hrecord, DocumentDecoder.last?_isSome_iff]
    simp [Ty.isValue, eq_comm]

theorem leaf?_congr {ds ds' : List DocumentDecoder} (h : ∀ name, last? name ds' = last? name ds)
    (t : Ty) : leaf? ds' t = leaf? ds t := by
  cases t with
  | record name => rw [leaf?, leaf?, h name]
  | _ => rfl

theorem lookup_within_congr (r : Registry) {layers layers' : List Layer}
    (h : List.Forall₂ Layer.SameButKey layers layers') (t : Ty) :
    r.lookup (Ty.within layers t) = r.lookup (Ty.within layers' t) := by
  have hdecoder : layers.foldr Layer.decoder = layers'.foldr Layer.decoder := by
    funext d
    induction h with
    | nil => rfl
    | cons hlayer _ ih => rw [List.foldr_cons, List.foldr_cons, hlayer.decoder_eq, ih]
  rw [lookup_within, lookup_within, hdecoder]

/-- After any run of registrations on an empty registry: each call has given back the last decoder
registered under its name before it. A type is known exactly if its innermost type is a value or a
registered class, and its decoder is then that of the innermost type, the one registered last for a
class, with one decoder for each layer around it. Keys of groupings do not matter, and runs with the
same last registration of each name give the same lookups. -/
theorem lookup_after_registrations (ds : List DocumentDecoder) :
    ((({} : Registry).registerAll ds).1.length = ds.length ∧
      ∀ earlier d later, ds = earlier ++ d :: later →
        (({} : Registry).registerAll ds).1[earlier.length]? = some (last? d.typeName earlier)) ∧
    (∀ t, ((({} : Registry).registerAll ds).2.lookup t).isSome = true ↔
      t.innermost.isValue = true ∨ ∃ d ∈ ds, t.innermost = .record d.typeName) ∧
    (∀ t, (({} : Registry).registerAll ds).2.lookup t =
      (leaf? ds t.innermost).map (t.layers.foldr Layer.decoder)) ∧
    (∀ layers layers' t, List.Forall₂ Layer.SameButKey layers layers' →
      (({} : Registry).registerAll ds).2.lookup (Ty.within layers t) =
        (({} : Registry).registerAll ds).2.lookup (Ty.within layers' t)) ∧
    ∀ ds', (∀ name, last? name ds' = last? name ds) → ∀ t,
      (({} : Registry).registerAll ds').2.lookup t =
        (({} : Registry).registerAll ds).2.lookup t := by
  obtain ⟨hknows, hlength, hreplies⟩ := knows_empty.registerAll ds
  refine ⟨⟨hlength, hreplies⟩, fun t => ?_, hknows.lookup_eq,
    fun layers layers' t h => lookup_within_congr _ h t, fun ds' h t => ?_⟩
  · rw [hknows.lookup_eq t, Option.isSome_map, leaf?_isSome_iff, List.nil_append]
  · obtain ⟨hknows', -⟩ := knows_empty.registerAll ds'
    rw [hknows'.lookup_eq t, hknows.lookup_eq t, List.nil_append, List.nil_append, leaf?_congr h]

end Registry

namespace Orders

def titledItem : DocumentDecoder where
  typeName := "Item"
  members := [("Name", ⟨"title", .value .string⟩)]
  creator := ["Name"]

/-- The second registration of items gives back the first and takes its place, under all layers and
whatever the key of a grouping is, as if the first had never been made. -/
theorem titledItem_replaces_item :
    (({} : Registry).registerAll [item, address, titledItem]).1[2]? = some (some item) ∧
      (({} : Registry).registerAll [item, address, titledItem]).2.lookup
          (.grouping .string (.nullable (.set (.record "Item")))) =
        some (.array (.nullable (.array (.document titledItem)))) ∧
      (({} : Registry).registerAll [item, address, titledItem]).2.lookup
          (.grouping .boolean (.nullable (.set (.record "Item")))) =
        some (.array (.nullable (.array (.document titledItem)))) ∧
      ∀ t, (({} : Registry).registerAll [address, titledItem]).2.lookup t =
        (({} : Registry).registerAll [item, address, titledItem]).2.lookup t := by
  obtain ⟨⟨-, hreplies⟩, -, hlookup, hkeys, hlast⟩ :=
    Registry.lookup_after_registrations [item, address, titledItem]
  have hitems := hlookup (.grouping .string (.nullable (.set (.record "Item"))))
  refine ⟨hreplies [item, address] titledItem [] rfl, hitems, ?_, hlast [address, titledItem] ?_⟩
  · refine Eq.trans ?_ hitems
    exact hkeys [.grouping .boolean, .nullable, .set] [.grouping .string, .nullable, .set]
      (.record "Item") (.cons (.grouping _ _) (.cons (.refl _) (.cons (.refl _) .nil)))
  · intro name
    by_cases hname : titledItem.typeName = name
    · simp [DocumentDecoder.last?, hname]
    · have hitem : item.typeName ≠ name := hname
      simp [DocumentDecoder.last?, List.find?_cons, hname, hitem]

end Orders

end QueryStage
