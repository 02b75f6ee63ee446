import LayeredConfig.Decimal.Shortest

/-!
# Values

The values a document is made of, their identity as mapping keys, and mappings as lists of
entries in order. Two keys are the same when their canonical forms are equal: a canonical form
lists mapping entries in a fixed order and has no negative zero.
-/
namespace LayeredConfig

inductive Number where
  | int (value : Int)
  | float (value : Double)
deriving DecidableEq, Inhabited

namespace Number

def text : Number → Text
  | .int i => Text.ofInt i
  | .float d => d.text

def canonical : Number → Number
  | .int i => .int i
  | .float d => .float d.dropZeroSign

end Number

inductive Value where
  | null
  | bool (b : Bool)
  | number (n : Number)
  | string (s : Text)
  | sequence (items : List Value)
  | mapping (entries : List (Value × Value))
  | tagged (tag : Text) (content : Value)
deriving Inhabited

namespace Value

mutual
/-- Whether two values are equal, entry by entry in order. -/
def decEq : (a b : Value) → Decidable (a = b)
  | .null, .null => isTrue rfl
  | .bool a, .bool b => decidable_of_iff (a = b) (by simp)
  | .number a, .number b => decidable_of_iff (a = b) (by simp)
  | .string a, .string b => decidable_of_iff (a = b) (by simp)
  | .sequence a, .sequence b => @decidable_of_iff _ (a = b) (by simp) (decEqItems a b)
  | .mapping a, .mapping b => @decidable_of_iff _ (a = b) (by simp) (decEqEntries a b)
  | .tagged s a, .tagged t b =>
    match decEq a b with
    | isTrue h => decidable_of_iff (s = t) (by simp [h])
    | isFalse h => isFalse (by simp [h])
  | .null, .bool _ | .null, .number _ | .null, .string _ | .null, .sequence _
  | .null, .mapping _ | .null, .tagged .. => isFalse (by simp)
  | .bool _, .null | .bool _, .number _ | .bool _, .string _ | .bool _, .sequence _
  | .bool _, .mapping _ | .bool _, .tagged .. => isFalse (by simp)
  | .number _, .null | .number _, .bool _ | .number _, .string _ | .number _, .sequence _
  | .number _, .mapping _ | .number _, .tagged .. => isFalse (by simp)
  | .string _, .null | .string _, .bool _ | .string _, .number _ | .string _, .sequence _
  | .string _, .mapping _ | .string _, .tagged .. => isFalse (by simp)
  | .sequence _, .null | .sequence _, .bool _ | .sequence _, .number _ | .sequence _, .string _
  | .sequence _, .mapping _ | .sequence _, .tagged .. => isFalse (by simp)
  | .mapping _, .null | .mapping _, .bool _ | .mapping _, .number _ | .mapping _, .string _
  | .mapping _, .sequence _ | .mapping _, .tagged .. => isFalse (by simp)
  | .tagged .., .null | .tagged .., .bool _ | .tagged .., .number _ | .tagged .., .string _
  | .tagged .., .sequence _ | .tagged .., .mapping _ => isFalse (by simp)

def decEqItems : (a b : List Value) → Decidable (a = b)
  | [], [] => isTrue rfl
  | [], _ :: _ => isFalse (by simp)
  | _ :: _, [] => isFalse (by simp)
  | a :: as, b :: bs =>
    match decEq a b, decEqItems as bs with
    | isTrue h, isTrue hs => isTrue (by simp [h, hs])
    | isFalse h, _ => isFalse (by simp [h])
    | _, isFalse hs => isFalse (by simp [hs])

def decEqEntries : (a b : List (Value × Value)) → Decidable (a = b)
  | [], [] => isTrue rfl
  | [], _ :: _ => isFalse (by simp)
  | _ :: _, [] => isFalse (by simp)
  | (k, v) :: as, (l, w) :: bs =>
    match decEq k l, decEq v w, decEqEntries as bs with
    | isTrue hk, isTrue hv, isTrue hs => isTrue (by simp [hk, hv, hs])
    | isFalse hk, _, _ => isFalse (by simp [hk])
    | _, isFalse hv, _ => isFalse (by simp [hv])
    | _, _, isFalse hs => isFalse (by simp [hs])
end

instance : DecidableEq Value := decEq

/-- A value without its tags. -/
def untag : Value → Value
  | .tagged _ v => untag v
  | v => v

/-- Whether a value is null, tagged or not. -/
def isNull (v : Value) : Bool :=
  match v.untag with
  | .null => true
  | _ => false

/-- The text of a string, tagged or not. -/
def text? (v : Value) : Option Text :=
  match v.untag with
  | .string s => some s
  | _ => none

def compareText : (a b : Text) → Ordering
  | [], [] => .eq
  | [], _ :: _ => .lt
  | _ :: _, [] => .gt
  | a :: as, b :: bs => (compare a.toNat b.toNat).then (compareText as bs)

def compareNumber : (a b : Number) → Ordering
  | .int a, .int b => compare a b
  | .int _, .float _ => .lt
  | .float _, .int _ => .gt
  | .float a, .float b => compareText a.text b.text

def rank : Value → Nat
  | .null => 0
  | .bool _ => 1
  | .number _ => 2
  | .string _ => 3
  | .sequence _ => 4
  | .mapping _ => 5
  | .tagged .. => 6

mutual
/-- An order of values, for listing mapping entries in canonical forms. -/
def order : (a b : Value) → Ordering
  | .bool a, .bool b => compare a b
  | .number a, .number b => compareNumber a b
  | .string a, .string b => compareText a b
  | .sequence a, .sequence b => orderItems a b
  | .mapping a, .mapping b => orderEntries a b
  | .tagged s a, .tagged t b => (compareText s t).then (order a b)
  | a, b => compare a.rank b.rank

def orderItems : (a b : List Value) → Ordering
  | [], [] => .eq
  | [], _ :: _ => .lt
  | _ :: _, [] => .gt
  | a :: as, b :: bs => (order a b).then (orderItems as bs)

def orderEntries : (a b : List (Value × Value)) → Ordering
  | [], [] => .eq
  | [], _ :: _ => .lt
  | _ :: _, [] => .gt
  | (k, v) :: as, (l, w) :: bs => (order k l).then ((order v w).then (orderEntries as bs))
end

/-- `e` among entries that are in order already. -/
def placeEntry (e : Value × Value) : List (Value × Value) → List (Value × Value)
  | [] => [e]
  | f :: rest => if order e.1 f.1 = .gt then f :: placeEntry e rest else e :: f :: rest

mutual
/-- The form of a value that shows its identity as a key. -/
def canonical : Value → Value
  | .number n => .number n.canonical
  | .sequence items => .sequence (canonicalItems items)
  | .mapping entries => .mapping (canonicalEntries entries)
  | .tagged tag v => .tagged tag (canonical v)
  | v => v

def canonicalItems : List Value → List Value
  | [] => []
  | v :: rest => canonical v :: canonicalItems rest

def canonicalEntries : List (Value × Value) → List (Value × Value)
  | [] => []
  | (k, v) :: rest => placeEntry (canonical k, canonical v) (canonicalEntries rest)
end

/-- Whether two values are one and the same mapping key. -/
def sameKey (a b : Value) : Bool := a.canonical = b.canonical

theorem sameKey_refl (a : Value) : sameKey a a = true := by simp [sameKey]

theorem sameKey_symm {a b : Value} (h : sameKey a b = true) : sameKey b a = true := by
  simp only [sameKey, decide_eq_true_eq] at *
  exact h.symm

theorem sameKey_trans {a b c : Value} (h : sameKey a b = true) (h' : sameKey b c = true) :
    sameKey a c = true := by
  simp only [sameKey, decide_eq_true_eq] at *
  exact h.trans h'

end Value

/-- The entries of a mapping, in order. -/
abbrev Entries := List (Value × Value)

namespace Entries

def find? (es : Entries) (key : Value) : Option Value :=
  (List.find? (fun e => e.1.sameKey key) es).map (·.2)

def has (es : Entries) (key : Value) : Bool := es.any fun e => e.1.sameKey key

/-- Gives `key` a value: in its place if it is there, else as a new last entry. -/
def insert (es : Entries) (key value : Value) : Entries :=
  match es with
  | [] => [(key, value)]
  | e :: rest =>
    if e.1.sameKey key then (e.1, value) :: rest else e :: insert rest key value

/-- `es` without the entry of `key`; the others keep their order. -/
def erase (es : Entries) (key : Value) : Entries := List.eraseP (fun e => e.1.sameKey key) es

end Entries

namespace Value

/-- The entries of a mapping, tagged or not. -/
def entries? (v : Value) : Option Entries :=
  match v.untag with
  | .mapping es => some es
  | _ => none

/-- A mapping of one entry. -/
def single (key : Text) (v : Value) : Value := .mapping [(.string key, v)]

end Value
end LayeredConfig
