import LayeredConfig.Proofs.Document.Places
import LayeredConfig.Proofs.Text.Digits
import LayeredConfig.Yaml.Inspect

/-!
# Positions

A node of a document is told apart from all others by its position, which counts the children on the
way to it. It has a location besides, the texts of the keys and the indices on the way, by which it
is reported. Several nodes can have one location, and a location that is read as a path leads back
only if every node on the way names itself.
-/
namespace LayeredConfig.Value

/-- The nodes right below a node, each with its text in a location. -/
def children : Value → List (Text × Value)
  | .mapping es => es.map fun e => (e.1.keyText, e.2)
  | .sequence items => items.mapIdx fun i v => (Text.ofNat i, v)
  | _ => []

/-- What stands at a position: its location and the node. -/
def place? (v : Value) : (position : List Nat) → Option (List Text × Value)
  | [] => some ([], v)
  | i :: position =>
    v.children[i]?.bind fun c => (c.2.place? position).map fun p => (c.1 :: p.1, p.2)

/-- Which child a segment names. -/
def childIndex? (v : Value) (segment : Text) : Option Nat :=
  match v with
  | .mapping es => es.findIdx? fun e => e.1.matchesSegment segment
  | .sequence items => (Text.index? segment).filter (· < items.length)
  | _ => none

/-- The position of the node that is read at a path. -/
def position? (v : Value) : (path : List Text) → Option (List Nat)
  | [] => some []
  | s :: path => (v.childIndex? s).bind fun i =>
    v.children[i]?.bind fun c => (c.2.position? path).map (i :: ·)

/-- A key that a segment can name. -/
def isNameable : Value → Bool
  | .string _ | .number _ | .bool _ => true
  | _ => false

/-- The child at an index is the one that its own text names. -/
def NamesItself : Value → (index : Nat) → Prop
  | .mapping es, i => ∃ e ∈ es[i]?, e.1.isNameable = true ∧
    ∀ e' ∈ es.take i, e'.1.isNameable = true → e'.1.keyText ≠ e.1.keyText
  | .sequence items, i => i < items.length ∧ i < Nat.pow 2 64
  | _, _ => False

/-- Every node on the way to a position names itself. -/
def LeadsBack : Value → (position : List Nat) → Prop
  | _, [] => True
  | v, i :: position => v.NamesItself i ∧ ∃ c ∈ v.children[i]?, c.2.LeadsBack position

variable {v : Value}

theorem sizeOf_of_mem_children {c : Text × Value} (h : c ∈ v.children) : sizeOf c.2 < sizeOf v := by
  cases v with
  | mapping es =>
    obtain ⟨e, he, rfl⟩ := List.mem_map.1 h
    have hlt := List.sizeOf_lt_of_mem he
    rw [mapping.sizeOf_spec]
    cases e
    rw [Prod.mk.sizeOf_spec] at hlt
    dsimp only
    omega
  | sequence items =>
    obtain ⟨i, hi, rfl⟩ := List.mem_mapIdx.1 h
    have hlt := List.sizeOf_lt_of_mem (List.getElem_mem hi)
    rw [sequence.sizeOf_spec]
    dsimp only
    omega
  | _ => cases h

/-- Induction on a value, down through its children. -/
@[elab_as_elim]
theorem children_induction {motive : Value → Prop}
    (node : ∀ v, (∀ c ∈ v.children, motive c.2) → motive v) (v : Value) : motive v :=
  node v fun c _ => children_induction node c.2
termination_by v
decreasing_by exact sizeOf_of_mem_children ‹_›

theorem place?_append (v : Value) (front back : List Nat) :
    v.place? (front ++ back) =
      (v.place? front).bind fun p => (p.2.place? back).map fun q => (p.1 ++ q.1, q.2) := by
  induction front generalizing v with
  | nil => simp [place?]
  | cons i front ih =>
    rw [List.cons_append, place?, place?]
    cases v.children[i]? with
    | none => rfl
    | some c =>
      rw [Option.bind_some, Option.bind_some, ih]
      cases c.2.place? front with
      | none => rfl
      | some p => simp [Function.comp_def]

theorem place?_concat {position : List Nat} {here : List Text} {n : Value}
    (h : v.place? position = some (here, n)) (i : Nat) :
    v.place? (position ++ [i]) = n.children[i]?.map fun c => (here ++ [c.1], c.2) := by
  rw [place?_append, h, Option.bind_some, place?]
  cases n.children[i]? <;> simp [place?]

theorem position?_append (v : Value) (front back : List Text) :
    v.position? (front ++ back) =
      (v.position? front).bind fun p =>
        (v.place? p).bind fun n => (n.2.position? back).map (p ++ ·) := by
  induction front generalizing v with
  | nil => simp [position?, place?]
  | cons s front ih =>
    rw [List.cons_append, position?, position?]
    cases v.childIndex? s with
    | none => rfl
    | some i =>
      rw [Option.bind_some, Option.bind_some]
      cases hc : v.children[i]? with
      | none => rfl
      | some c =>
        rw [Option.bind_some, Option.bind_some, ih]
        cases c.2.position? front with
        | none => rfl
        | some p =>
          simp only [Option.bind_some, Option.map_some, place?, hc]
          cases c.2.place? p with
          | none => rfl
          | some n => simp [Function.comp_def]

theorem length_position? {path : List Text} {position : List Nat}
    (h : v.position? path = some position) : position.length = path.length := by
  induction path generalizing v position with
  | nil =>
    cases h
    rfl
  | cons s path ih =>
    obtain ⟨i, -, h⟩ := Option.bind_eq_some_iff.1 h
    obtain ⟨c, -, h⟩ := Option.bind_eq_some_iff.1 h
    obtain ⟨rest, hrest, rfl⟩ := Option.map_eq_some_iff.1 h
    rw [List.length_cons, List.length_cons, ih hrest]

theorem child?_eq_children (v : Value) (s : Text) :
    v.child? s = (v.childIndex? s).bind fun i => v.children[i]?.map (·.2) := by
  cases v with
  | mapping es =>
    simp only [child?, entryNamed?, childIndex?, children, List.find?_eq_bind_findIdx?_getElem?,
      Option.map_bind]
    congr 1
    funext i
    simp only [Function.comp_apply, List.getElem?_map, Option.map_map]
    rfl
  | sequence items =>
    have hitem : ∀ i : Nat, (items.mapIdx fun i v => (Text.ofNat i, v))[i]?.map (·.2) =
        items[i]? := by
      intro i
      rw [List.getElem?_mapIdx, Option.map_map]
      exact Option.map_id'
    simp only [child?, childIndex?, children, hitem]
    cases Text.index? s with
    | none => rfl
    | some i =>
      by_cases hi : i < items.length
      · simp [Option.filter, hi]
      · simp [Option.filter, hi]
  | _ => rfl

/-- What is read at a path is what stands at its position. -/
theorem get?_eq_place? (v : Value) (path : List Text) :
    v.get? path = (v.position? path).bind fun p => (v.place? p).map (·.2) := by
  induction path generalizing v with
  | nil => rfl
  | cons s path ih =>
    rw [get?, position?, child?_eq_children]
    cases v.childIndex? s with
    | none => rfl
    | some i =>
      rw [Option.bind_some, Option.bind_some]
      cases hc : v.children[i]? with
      | none => rfl
      | some c =>
        rw [Option.map_some, Option.bind_some, Option.bind_some, ih]
        cases c.2.position? path with
        | none => rfl
        | some p => simp [place?, hc, Function.comp_def]

/-- A segment names a key that can be named by its text. -/
theorem matchesSegment_iff {key : Value} {s : Text} :
    key.matchesSegment s = true ↔ key.isNameable = true ∧ key.keyText = s := by
  cases key with
  | string t => simp [matchesSegment, isNameable, keyText, scalarText?]
  | number n => simp [matchesSegment, isNameable, keyText, scalarText?]
  | bool b => cases b <;> simp [matchesSegment, isNameable, keyText, scalarText?, eq_comm]
  | _ => simp [matchesSegment, isNameable]

theorem childIndex?_eq_some_iff {i : Nat} {c : Text × Value} (h : v.children[i]? = some c) :
    v.childIndex? c.1 = some i ↔ v.NamesItself i := by
  cases v with
  | mapping es =>
    rw [children, List.getElem?_map, Option.map_eq_some_iff] at h
    obtain ⟨e, he, rfl⟩ := h
    obtain ⟨hi, rfl⟩ := List.getElem?_eq_some_iff.1 he
    have hbefore : (∀ e' ∈ es.take i, e'.1.isNameable = true → e'.1.keyText ≠ es[i].1.keyText) ↔
        ∀ j (hj : j < i), ¬ es[j].1.matchesSegment es[i].1.keyText = true := by
      simp only [matchesSegment_iff, not_and, List.mem_take_iff_getElem]
      constructor
      · exact fun hall j hj => hall es[j] ⟨j, by omega, rfl⟩
      · rintro hall _ ⟨j, hj, rfl⟩
        exact hall j (by omega)
    simp only [childIndex?, List.findIdx?_eq_some_iff_getElem, hi, exists_true_left,
      NamesItself, he, Option.mem_some_iff, exists_eq_left', hbefore]
    rw [matchesSegment_iff, and_iff_left rfl]
  | sequence items =>
    rw [children, List.getElem?_mapIdx, Option.map_eq_some_iff] at h
    obtain ⟨item, hitem, rfl⟩ := h
    obtain ⟨hi, -⟩ := List.getElem?_eq_some_iff.1 hitem
    rw [childIndex?, Text.index?_ofNat, NamesItself]
    simp [Option.filter_eq_some_iff, hi]
  | _ => cases h

/-- **A node is read at its own location if all on the way to it name themselves.** -/
theorem position?_eq_some_iff {position : List Nat} {here : List Text} {n : Value}
    (h : v.place? position = some (here, n)) :
    v.position? here = some position ↔ v.LeadsBack position := by
  induction position generalizing v here with
  | nil =>
    cases h
    exact iff_of_true rfl trivial
  | cons i position ih =>
    obtain ⟨c, hc, h⟩ := Option.bind_eq_some_iff.1 h
    obtain ⟨⟨rest, n⟩, hn, h⟩ := Option.map_eq_some_iff.1 h
    cases h
    rw [LeadsBack, hc, ← childIndex?_eq_some_iff hc, position?]
    constructor
    · intro hposition
      obtain ⟨i', hi', hposition⟩ := Option.bind_eq_some_iff.1 hposition
      obtain ⟨c', hc', hposition⟩ := Option.bind_eq_some_iff.1 hposition
      obtain ⟨rest', hrest', hposition⟩ := Option.map_eq_some_iff.1 hposition
      cases hposition
      rw [hc, Option.some_inj] at hc'
      subst hc'
      exact ⟨hi', c, rfl, (ih hn).1 hrest'⟩
    · rintro ⟨hi, c', hc', hback⟩
      cases hc'
      rw [hi, Option.bind_some, hc, Option.bind_some, (ih hn).2 hback, Option.map_some]

end LayeredConfig.Value
