import LayeredConfig.Proofs.Yaml.Listing
import LayeredConfig.Proofs.Yaml.Reader

/-!
# The nodes of a list

From the tokens of a list to its value: the nodes that the parser makes of them, and the values that
are built of these nodes. A parse or a build that fails is no concern here; one that succeeds can
give nothing else.
-/
namespace LayeredConfig.Yaml

open Outcome

/-- Whether a token stands in front of what the root of a document holds. -/
def Token.isProlog : Token → Bool
  | .versionDirective .. | .tagDirective .. | .documentStart | .anchor _ | .tag _ => true
  | _ => false

def Item.node : Item → Node
  | phrase s _ => .scalar none none s true
  | pair key _ _ name _ =>
    .mapping none none [(.scalar none none key true, .scalar none none name true)]

theorem Item.tokens_cons (i : Item) : ∃ t ts, i.tokens = t :: ts ∧ t ≠ .blockEntry ∧
    Node.blockGoesOn [t] = false := by
  cases i with
  | phrase s hs => exact ⟨_, _, rfl, by simp, rfl⟩
  | pair key hkey blanks name hname => exact ⟨_, _, rfl, by simp, rfl⟩

namespace Node

variable {handles : Handles} {block bare : Bool} {fuel : Nat} {names : Names} {r : Rest}
  {more : List Token}

theorem read_scalar {s : Text} {plain : Bool} {n : Node}
    (h : read handles block bare fuel ⟨.scalar s plain :: more, names⟩ = .ok (n, r)) :
    n = .scalar none none s plain ∧ r = ⟨more, names⟩ := by
  cases fuel with
  | zero => rw [read] at h; cases h
  | succ fuel =>
    rw [read] at h
    obtain ⟨⟨anchor, tag, r'⟩, hprop, h⟩ := bind_eq_ok.1 h
    cases hprop
    cases h
    exact ⟨rfl, rfl⟩

theorem readEntries_end {es : List (Node × Node)}
    (h : readEntries handles fuel ⟨.blockEnd :: more, names⟩ = .ok (es, r)) :
    es = [] ∧ r = ⟨more, names⟩ := by
  cases fuel with
  | zero => rw [readEntries] at h; cases h
  | succ fuel =>
    rw [readEntries] at h
    cases h
    exact ⟨rfl, rfl⟩

theorem blockGoesOn_cons (t : Token) (ts : List Token) :
    blockGoesOn (t :: ts) = blockGoesOn [t] := by
  cases t <;> rfl

/-- An entry with a scalar key and a value. -/
theorem readEntries_key {key : Text} {es : List (Node × Node)} {t : Token}
    (ht : blockGoesOn [t] = false)
    (h : readEntries handles fuel ⟨.key :: .scalar key true :: .value :: t :: more, names⟩ =
      .ok (es, r)) : ∃ fuel' v r₁ rest,
    read handles true true fuel' ⟨t :: more, names⟩ = .ok (v, r₁) ∧
      readEntries handles fuel' r₁ = .ok (rest, r) ∧
      es = (.scalar none none key true, v) :: rest := by
  cases fuel with
  | zero => rw [readEntries] at h; cases h
  | succ fuel =>
    have ht' : blockGoesOn (t :: more) = false := (blockGoesOn_cons t more).trans ht
    rw [readEntries] at h
    obtain ⟨⟨k, r₁⟩, hkey, h⟩ := bind_eq_ok.1 h
    obtain ⟨rfl, rfl⟩ := read_scalar hkey
    simp only [ht', Bool.false_eq_true, if_false] at h
    obtain ⟨⟨v, r₂⟩, hvalue, h⟩ := bind_eq_ok.1 h
    obtain ⟨⟨rest, r₃⟩, hrest, h⟩ := bind_eq_ok.1 h
    cases h
    exact ⟨fuel, v, r₂, rest, hvalue, hrest, rfl⟩

/-- A block mapping where one may stand. -/
theorem read_blockMapping {n : Node}
    (h : read handles true bare fuel ⟨.blockMappingStart :: more, names⟩ = .ok (n, r)) :
    ∃ fuel' es, readEntries handles fuel' ⟨more, names⟩ = .ok (es, r) ∧
      n = .mapping none none es := by
  cases fuel with
  | zero => rw [read] at h; cases h
  | succ fuel =>
    rw [read] at h
    obtain ⟨⟨anchor, tag, r'⟩, hprop, h⟩ := bind_eq_ok.1 h
    cases hprop
    simp only [reduceCtorEq, decide_false, Bool.and_false, Bool.false_eq_true, if_false,
      Bool.true_and, decide_true, if_true] at h
    obtain ⟨⟨es, r₁⟩, hes, h⟩ := bind_eq_ok.1 h
    cases h
    exact ⟨fuel, es, hes, rfl⟩

theorem read_blockSequence {n : Node}
    (h : read handles true bare fuel ⟨.blockSequenceStart :: more, names⟩ = .ok (n, r)) :
    ∃ fuel' items, readItems handles fuel' ⟨more, names⟩ = .ok (items, r) ∧
      n = .sequence none none items := by
  cases fuel with
  | zero => rw [read] at h; cases h
  | succ fuel =>
    rw [read] at h
    obtain ⟨⟨anchor, tag, r'⟩, hprop, h⟩ := bind_eq_ok.1 h
    cases hprop
    simp only [reduceCtorEq, decide_false, Bool.and_false, Bool.false_eq_true, if_false,
      Bool.true_and, decide_true, if_true] at h
    obtain ⟨⟨items, r₁⟩, hitems, h⟩ := bind_eq_ok.1 h
    cases h
    exact ⟨fuel, items, hitems, rfl⟩

theorem read_bareSequence {n : Node}
    (h : read handles block true fuel ⟨.blockEntry :: more, names⟩ = .ok (n, r)) :
    ∃ fuel' items, readBareItems handles fuel' ⟨.blockEntry :: more, names⟩ = .ok (items, r) ∧
      n = .sequence none none items := by
  cases fuel with
  | zero => rw [read] at h; cases h
  | succ fuel =>
    rw [read] at h
    obtain ⟨⟨anchor, tag, r'⟩, hprop, h⟩ := bind_eq_ok.1 h
    cases hprop
    simp only [Bool.true_and, decide_true, if_true] at h
    obtain ⟨⟨items, r₁⟩, hitems, h⟩ := bind_eq_ok.1 h
    cases h
    exact ⟨fuel, items, hitems, rfl⟩

theorem read_item {i : Item} {n : Node}
    (h : read handles true bare fuel ⟨i.tokens ++ more, names⟩ = .ok (n, r)) :
    n = i.node ∧ r = ⟨more, names⟩ := by
  cases i with
  | phrase s hs => exact read_scalar h
  | pair key hkey blanks name hname =>
    obtain ⟨fuel', es, hes, rfl⟩ := read_blockMapping h
    obtain ⟨fuel'', v, r₁, rest, hvalue, hrest, rfl⟩ := readEntries_key rfl hes
    obtain ⟨rfl, rfl⟩ := read_scalar hvalue
    obtain ⟨rfl, rfl⟩ := readEntries_end hrest
    exact ⟨rfl, rfl⟩

/-- An item of a block sequence, and the items after it. -/
theorem readItems_cons {t : Token} (hentry : t ≠ .blockEntry) (hgoes : blockGoesOn [t] = false)
    {items : List Node}
    (h : readItems handles fuel ⟨.blockEntry :: t :: more, names⟩ = .ok (items, r)) :
    ∃ fuel' n r₁ rest, read handles true false fuel' ⟨t :: more, names⟩ = .ok (n, r₁) ∧
      readItems handles fuel' r₁ = .ok (rest, r) ∧ items = n :: rest := by
  cases fuel with
  | zero => rw [readItems] at h; cases h
  | succ fuel =>
    rw [readItems] at h
    dsimp only at h
    split at h
    · next heq => exact absurd (List.cons.inj heq).1 hentry
    · next heq =>
      obtain ⟨rfl, -⟩ := List.cons.inj heq
      cases hgoes
    · obtain ⟨⟨n, r₁⟩, hn, h⟩ := bind_eq_ok.1 h
      obtain ⟨⟨rest, r₂⟩, hrest, h⟩ := bind_eq_ok.1 h
      cases h
      exact ⟨fuel, n, r₁, rest, hn, hrest, rfl⟩

theorem readItems_item {i : Item} {items : List Node}
    (h : readItems handles fuel ⟨.blockEntry :: (i.tokens ++ more), names⟩ = .ok (items, r)) :
    ∃ fuel' rest, readItems handles fuel' ⟨more, names⟩ = .ok (rest, r) ∧
      items = i.node :: rest := by
  obtain ⟨t, ts, htokens, hentry, hgoes⟩ := i.tokens_cons
  rw [htokens, List.cons_append] at h
  obtain ⟨fuel', n, r₁, rest, hn, hrest, rfl⟩ := readItems_cons hentry hgoes h
  rw [← List.cons_append, ← htokens] at hn
  obtain ⟨rfl, rfl⟩ := read_item hn
  exact ⟨fuel', rest, hrest, rfl⟩

theorem readBareItems_cons {t : Token} (hentry : t ≠ .blockEntry) (hgoes : blockGoesOn [t] = false)
    {items : List Node}
    (h : readBareItems handles fuel ⟨.blockEntry :: t :: more, names⟩ = .ok (items, r)) :
    ∃ fuel' n r₁ rest, read handles true false fuel' ⟨t :: more, names⟩ = .ok (n, r₁) ∧
      readBareItems handles fuel' r₁ = .ok (rest, r) ∧ items = n :: rest := by
  cases fuel with
  | zero => rw [readBareItems] at h; cases h
  | succ fuel =>
    rw [readBareItems] at h
    dsimp only at h
    split at h
    · next heq => exact absurd (List.cons.inj heq).1 hentry
    · rw [blockGoesOn_cons, hgoes, if_neg Bool.false_ne_true] at h
      obtain ⟨⟨n, r₁⟩, hn, h⟩ := bind_eq_ok.1 h
      obtain ⟨⟨rest, r₂⟩, hrest, h⟩ := bind_eq_ok.1 h
      cases h
      exact ⟨fuel, n, r₁, rest, hn, hrest, rfl⟩

theorem readBareItems_item {i : Item} {items : List Node}
    (h : readBareItems handles fuel ⟨.blockEntry :: (i.tokens ++ more), names⟩ = .ok (items, r)) :
    ∃ fuel' rest, readBareItems handles fuel' ⟨more, names⟩ = .ok (rest, r) ∧
      items = i.node :: rest := by
  obtain ⟨t, ts, htokens, hentry, hgoes⟩ := i.tokens_cons
  rw [htokens, List.cons_append] at h
  obtain ⟨fuel', n, r₁, rest, hn, hrest, rfl⟩ := readBareItems_cons hentry hgoes h
  rw [← List.cons_append, ← htokens] at hn
  obtain ⟨rfl, rfl⟩ := read_item hn
  exact ⟨fuel', rest, hrest, rfl⟩

theorem readItems_list (ls : List ItemLine) {items : List Node}
    (h : readItems handles fuel ⟨ls.flatMap ItemLine.tokens ++ .blockEnd :: more, names⟩ =
      .ok (items, r)) : items = ls.map (·.item.node) := by
  induction ls generalizing fuel items with
  | nil =>
    cases fuel with
    | zero => rw [readItems] at h; cases h
    | succ fuel =>
      rw [List.flatMap_nil, List.nil_append, readItems] at h
      cases h
      rfl
  | cons l ls ih =>
    rw [List.flatMap_cons, ItemLine.tokens, List.append_assoc, List.cons_append] at h
    obtain ⟨fuel', rest, hrest, rfl⟩ := readItems_item h
    rw [ih hrest]
    rfl

theorem readBareItems_list (ls : List ItemLine) (hmore : more.head? ≠ some .blockEntry)
    {items : List Node}
    (h : readBareItems handles fuel ⟨ls.flatMap ItemLine.tokens ++ more, names⟩ = .ok (items, r)) :
    items = ls.map (·.item.node) := by
  induction ls generalizing fuel items with
  | nil =>
    cases fuel with
    | zero => rw [readBareItems] at h; cases h
    | succ fuel =>
      rw [List.flatMap_nil, List.nil_append, readBareItems] at h
      split at h
      · next heq => exact absurd (congrArg List.head? heq) hmore
      · cases h
        rfl
  | cons l ls ih =>
    rw [List.flatMap_cons, ItemLine.tokens, List.append_assoc, List.cons_append] at h
    obtain ⟨fuel', rest, hrest, rfl⟩ := readBareItems_item h
    rw [ih hrest]
    rfl

/-- The value under a key that holds a list. -/
theorem read_list {k : Nat} (l : ItemLine) (ls : List ItemLine)
    (hmore : more.head? ≠ some .blockEntry) {n : Node}
    (h : read handles true true fuel ⟨listTokens k (l :: ls) ++ more, names⟩ = .ok (n, r)) :
    n = .sequence none none ((l :: ls).map (·.item.node)) := by
  rw [listTokens] at h
  split at h
  · obtain ⟨fuel', items, hitems, rfl⟩ := read_bareSequence h
    rw [readBareItems_list (l :: ls) hmore hitems]
  · rw [List.cons_append, List.append_assoc] at h
    obtain ⟨fuel', items, hitems, rfl⟩ := read_blockSequence h
    rw [readItems_list (l :: ls) hitems]

theorem goesOn_listTokens (k : Nat) (l : ItemLine) (ls : List ItemLine) : ∃ t ts,
    listTokens k (l :: ls) = t :: ts ∧ blockGoesOn [t] = false := by
  rw [listTokens]
  split
  · exact ⟨_, _, rfl, rfl⟩
  · exact ⟨_, _, rfl, rfl⟩

/-- A document without anything in front of its root is read as one node, with nothing but marks
behind it. -/
theorem ofTokens_eq_ok {t : Token} {n : Node} (ht : t.isProlog = false) :
    ofTokens (t :: more) = .ok n ↔ ∃ r,
      read standardHandles true false (4 * (t :: more).length + 8) ⟨t :: more, []⟩ = .ok (n, r) ∧
        r.tokens.all (· = .documentEnd) = true := by
  have hfirst : ∀ fuel, readFirst fuel (t :: more) =
      read standardHandles true false fuel ⟨t :: more, []⟩ >>= fun p => .ok (p.1, p.2.tokens) := by
    intro fuel
    cases t
    case versionDirective => cases ht
    case tagDirective => cases ht
    case documentStart => cases ht
    all_goals rfl
  rw [ofTokens, hfirst]
  · constructor
    · intro h
      obtain ⟨⟨n', left⟩, hnode, h⟩ := bind_eq_ok.1 h
      obtain ⟨⟨n'', r⟩, hread, hr⟩ := bind_eq_ok.1 hnode
      cases hr
      dsimp only at h
      split at h
      · next hall =>
        cases h
        exact ⟨r, hread, hall⟩
      · cases h
    · rintro ⟨r, hread, hall⟩
      rw [hread]
      exact if_pos hall
  · rintro ⟨⟩

/-- The node of a document that begins with a list under a key. -/
theorem ofTokens_list {key : Text} {k : Nat} (l : ItemLine) (ls : List ItemLine)
    (hmore : more.head? ≠ some .blockEntry) {n : Node}
    (h : ofTokens (headTokens key k (l :: ls) ++ more) = .ok n) : ∃ rest,
    n = .mapping none none ((.scalar none none key true,
      .sequence none none ((l :: ls).map (·.item.node))) :: rest) := by
  obtain ⟨r, hread, -⟩ := (ofTokens_eq_ok rfl).1 h
  obtain ⟨fuel, es, hes, rfl⟩ := read_blockMapping hread
  obtain ⟨t, ts, htokens, hgoes⟩ := goesOn_listTokens k l ls
  rw [htokens] at hes
  obtain ⟨fuel', v, r₁, rest, hvalue, -, rfl⟩ := readEntries_key hgoes hes
  have hlist : read standardHandles true true fuel'
      ⟨listTokens k (l :: ls) ++ more, []⟩ = .ok (v, r₁) := by
    rw [htokens]
    exact hvalue
  exact ⟨rest, by rw [read_list l ls hmore hlist]⟩

end Node

/-- The value of an item, if its scalars have types. -/
def Item.value? : Item → Option Value
  | phrase s _ => Scalar.plain? s
  | pair key _ _ name _ => do
    let k ← Scalar.plain? key
    let v ← Scalar.plain? name
    some (.mapping [(k, v)])

variable {a : Anchors} {depth j j' : Nat} {v : Value}

theorem build_scalar {s : Text} (h : build a depth (.scalar none none s true) j = .ok (v, j')) :
    Scalar.plain? s = some v := by
  have hvalue : ∀ w, scalarValue none s true = .ok w → Scalar.plain? s = some w := by
    intro w hw
    exact orMistyped_eq_ok.1 hw
  cases depth with
  | zero =>
    rw [build] at h
    obtain ⟨⟨m, k₁⟩, hm, h⟩ := bind_eq_ok.1 h
    cases hm
    obtain ⟨w, hw, h⟩ := bind_eq_ok.1 h
    cases h
    exact hvalue v hw
  | succ depth =>
    rw [build] at h
    obtain ⟨⟨m, k₁⟩, hm, h⟩ := bind_eq_ok.1 h
    cases hm
    obtain ⟨w, hw, h⟩ := bind_eq_ok.1 h
    cases h
    exact hvalue v hw

/-- A mapping that is built has been built entry by entry. -/
theorem build_mapping {anchor : Option Nat} {tag : Option Text} {entries : List (Node × Node)}
    (h : build a depth (.mapping anchor tag entries) j = .ok (v, j')) :
    ∃ depth' es, inTurn (build.pair (build a depth')) entries j = .ok (es, j') ∧
      v = withTag tag (.mapping es) := by
  cases depth with
  | zero =>
    rw [build] at h
    obtain ⟨⟨m, k₁⟩, hm, h⟩ := bind_eq_ok.1 h
    cases hm
    cases h
  | succ depth =>
    rw [build] at h
    obtain ⟨⟨m, k₁⟩, hm, h⟩ := bind_eq_ok.1 h
    cases hm
    obtain ⟨⟨es, k₂⟩, hes, h⟩ := bind_eq_ok.1 h
    dsimp only at h
    split at h
    · cases h
    · cases h
      exact ⟨depth, es, hes, rfl⟩

theorem build_sequence {anchor : Option Nat} {tag : Option Text} {items : List Node}
    (h : build a depth (.sequence anchor tag items) j = .ok (v, j')) :
    ∃ depth' vs, inTurn (build a depth') items j = .ok (vs, j') ∧
      v = withTag tag (.sequence vs) := by
  cases depth with
  | zero =>
    rw [build] at h
    obtain ⟨⟨m, k₁⟩, hm, h⟩ := bind_eq_ok.1 h
    cases hm
    cases h
  | succ depth =>
    rw [build] at h
    obtain ⟨⟨m, k₁⟩, hm, h⟩ := bind_eq_ok.1 h
    cases hm
    obtain ⟨⟨vs, k₂⟩, hvs, h⟩ := bind_eq_ok.1 h
    cases h
    exact ⟨depth, vs, hvs, rfl⟩

/-- The first entry of a mapping, and the others. -/
theorem inTurn_pair {depth' : Nat} {k n : Node} {entries : List (Node × Node)} {es : Entries}
    (h : inTurn (build.pair (build a depth')) ((k, n) :: entries) j = .ok (es, j')) :
    ∃ j₁ j₂ key w rest, build a depth' k j = .ok (key, j₁) ∧ build a depth' n j₁ = .ok (w, j₂) ∧
      inTurn (build.pair (build a depth')) entries j₂ = .ok (rest, j') ∧ es = (key, w) :: rest := by
  obtain ⟨⟨p, j₂⟩, hp, h⟩ := bind_eq_ok.1 h
  obtain ⟨⟨key, j₁⟩, hkey, hp⟩ := bind_eq_ok.1 hp
  obtain ⟨⟨w, j₃⟩, hw, hp⟩ := bind_eq_ok.1 hp
  obtain ⟨⟨rest, j₄⟩, hrest, h⟩ := bind_eq_ok.1 h
  cases hp
  cases h
  exact ⟨j₁, j₂, key, w, rest, hkey, hw, hrest, rfl⟩

theorem build_item {i : Item} (h : build a depth i.node j = .ok (v, j')) : i.value? = some v := by
  cases i with
  | phrase s hs => exact build_scalar h
  | pair key hkey blanks name hname =>
    obtain ⟨depth', es, hes, rfl⟩ := build_mapping h
    obtain ⟨j₁, j₂, k, w, rest, hk, hw, hrest, rfl⟩ := inTurn_pair hes
    cases hrest
    rw [Item.value?, build_scalar hk, build_scalar hw]
    rfl

theorem inTurn_items {ls : List ItemLine} {vs : List Value}
    (h : inTurn (build a depth) (ls.map (·.item.node)) j = .ok (vs, j')) :
    ls.map (·.item.value?) = vs.map some := by
  induction ls generalizing j vs with
  | nil =>
    cases h
    rfl
  | cons l ls ih =>
    obtain ⟨⟨w, j₁⟩, hw, h⟩ := bind_eq_ok.1 h
    obtain ⟨⟨ws, j₂⟩, hws, h⟩ := bind_eq_ok.1 h
    cases h
    rw [List.map_cons, List.map_cons, build_item hw, ih hws]

/-- The value of a document that begins with a list under a key. -/
theorem build_list {key : Text} {ls : List ItemLine} {rest : List (Node × Node)}
    (h : build a depth (.mapping none none ((.scalar none none key true,
      .sequence none none (ls.map (·.item.node))) :: rest)) j = .ok (v, j')) : ∃ k vs es,
    Scalar.plain? key = some k ∧ ls.map (·.item.value?) = vs.map some ∧
      v = .mapping ((k, .sequence vs) :: es) := by
  obtain ⟨depth', es, hes, rfl⟩ := build_mapping h
  obtain ⟨j₁, j₂, k, w, es, hk, hw, -, rfl⟩ := inTurn_pair hes
  obtain ⟨depth'', vs, hvs, rfl⟩ := build_sequence hw
  exact ⟨k, vs, es, build_scalar hk, inTurn_items hvs, rfl⟩

end LayeredConfig.Yaml
