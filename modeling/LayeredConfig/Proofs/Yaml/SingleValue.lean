import LayeredConfig.Proofs.Yaml.ListText
import LayeredConfig.Proofs.Yaml.SingleItem

/-!
# The value of a line with one item

What a line with a dash is read as, and whether it can be read: for an item that is a plain scalar,
or a key with a plain scalar behind it, this is said exactly. For an item that goes on in any other
way its beginning is told, provided that the line can be read at all.
-/
namespace LayeredConfig.Yaml

open Outcome Lexer

/-- A line with a dash, and perhaps a carriage return at its end. -/
def dashLine (k : Nat) (s : Text) (cr : Bool) : Text :=
  List.replicate k ' ' ++ ('-' :: ' ' :: (s ++ if cr then ['\r'] else []))

namespace Node

variable {more : List Token} {n : Node}

theorem ofTokens_scalar (s : Text) :
    ofTokens [.blockSequenceStart, .blockEntry, .scalar s true, .blockEnd] =
      .ok (.sequence none none [.scalar none none s true]) := rfl

theorem ofTokens_pair (key s : Text) :
    ofTokens [.blockSequenceStart, .blockEntry, .blockMappingStart, .key, .scalar key true, .value,
        .scalar s true, .blockEnd, .blockEnd] =
      .ok (.sequence none none [.mapping none none
        [(.scalar none none key true, .scalar none none s true)]]) := rfl

/-- A document that begins with the first item of a block sequence, and this item with a block. -/
theorem ofTokens_item {t : Token} (ht : t = .blockMappingStart ∨ t = .blockSequenceStart)
    (h : ofTokens (.blockSequenceStart :: .blockEntry :: t :: more) = .ok n) :
    ∃ handles fuel item r items, read handles true false fuel ⟨t :: more, []⟩ = .ok (item, r) ∧
      n = .sequence none none (item :: items) := by
  obtain ⟨r, hread, -⟩ := (ofTokens_eq_ok rfl).1 h
  obtain ⟨fuel, items, hitems, rfl⟩ := read_blockSequence hread
  have hstart : t ≠ .blockEntry ∧ blockGoesOn [t] = false := by rcases ht with rfl | rfl <;> decide
  obtain ⟨fuel, item, r, rest, hitem, -, rfl⟩ := readItems_cons hstart.1 hstart.2 hitems
  exact ⟨standardHandles, fuel, item, r, rest, hitem, rfl⟩

/-- An item that begins with a key. -/
theorem ofTokens_key {key : Text} (h : ofTokens (.blockSequenceStart :: .blockEntry ::
      .blockMappingStart :: .key :: .scalar key true :: more) = .ok n) : ∃ w es items,
    n = .sequence none none
      (.mapping none none ((.scalar none none key true, w) :: es) :: items) := by
  obtain ⟨handles, fuel, item, r, items, hitem, rfl⟩ := ofTokens_item (Or.inl rfl) h
  obtain ⟨fuel, es, hes, rfl⟩ := read_blockMapping hitem
  cases fuel with
  | zero => rw [readEntries] at hes; cases hes
  | succ fuel =>
    rw [readEntries] at hes
    obtain ⟨⟨k, r₁⟩, hkey, hes⟩ := bind_eq_ok.1 hes
    obtain ⟨rfl, rfl⟩ := read_scalar hkey
    have hvalue : ∃ w rest, es = (.scalar none none key true, w) :: rest := by
      dsimp only at hes
      split at hes
      · split at hes
        all_goals
          obtain ⟨⟨w, r₂⟩, -, hes⟩ := bind_eq_ok.1 hes
          obtain ⟨⟨rest, r₃⟩, -, hes⟩ := bind_eq_ok.1 hes
          cases hes
          exact ⟨w, rest, rfl⟩
      · obtain ⟨⟨w, r₂⟩, -, hes⟩ := bind_eq_ok.1 hes
        obtain ⟨⟨rest, r₃⟩, -, hes⟩ := bind_eq_ok.1 hes
        cases hes
        exact ⟨w, rest, rfl⟩
    obtain ⟨w, rest, rfl⟩ := hvalue
    exact ⟨w, rest, items, rfl⟩

/-- An item that begins with a dash. -/
theorem ofTokens_dash
    (h : ofTokens (.blockSequenceStart :: .blockEntry :: .blockSequenceStart :: more) = .ok n) :
    ∃ inner items, n = .sequence none none (.sequence none none inner :: items) := by
  obtain ⟨handles, fuel, item, r, items, hitem, rfl⟩ := ofTokens_item (Or.inr rfl) h
  obtain ⟨fuel, inner, -, rfl⟩ := read_blockSequence hitem
  exact ⟨inner, items, rfl⟩

end Node

variable {a : Anchors} {depth j j' : Nat} {v : Value}

theorem build_scalar_eq (s : Text) : build a depth (.scalar none none s true) j =
    (orMistyped (Scalar.plain? s)).map (·, j) := by
  have hvalue : ((orMistyped (Scalar.plain? s)).bind fun w => Except.ok (w, j)) =
      (orMistyped (Scalar.plain? s)).map (·, j) := by
    cases orMistyped (Scalar.plain? s) <;> rfl
  cases depth with
  | zero =>
    rw [build]
    exact hvalue
  | succ depth =>
    rw [build]
    exact hvalue

/-- A sequence of one node. -/
theorem build_singleton (n : Node) : build a (depth + 1) (.sequence none none [n]) j =
    (build a depth n j).map fun p => (.sequence [p.1], p.2) := by
  rw [build]
  show (inTurn (build a depth) [n] j >>= fun p => Except.ok (withTag none (.sequence p.1), p.2)) = _
  rw [inTurn]
  cases build a depth n j <;> rfl

/-- A mapping with one entry, of two scalars. -/
theorem build_pair (s t : Text) : build a (depth + 1) (.mapping none none
      [(.scalar none none s true, .scalar none none t true)]) j =
    match Scalar.plain? s, Scalar.plain? t with
    | some key, some w => .ok (.mapping [(key, w)], j)
    | _, _ => .error .mistyped := by
  have hpair : build.pair (build a depth) (.scalar none none s true, .scalar none none t true) j =
      match Scalar.plain? s, Scalar.plain? t with
      | some key, some w => .ok ((key, w), j)
      | _, _ => .error .mistyped := by
    rw [build.pair]
    dsimp only
    rw [build_scalar_eq]
    cases Scalar.plain? s with
    | none => rfl
    | some key =>
      rw [show (orMistyped (some key)).map (·, j) = Except.ok (key, j) from rfl, ok_bind]
      dsimp only
      rw [build_scalar_eq]
      cases Scalar.plain? t <;> rfl
  rw [build]
  show (inTurn (build.pair (build a depth))
      [(.scalar none none s true, .scalar none none t true)] j >>=
    fun p => if hasRepeatedKey p.1 then _ else Except.ok (withTag none (.mapping p.1), p.2)) = _
  rw [inTurn, hpair]
  cases Scalar.plain? s <;> cases Scalar.plain? t <;> rfl

/-- The first value of a sequence is built of its first node. -/
theorem build_sequence_cons {n : Node} {ns : List Node}
    (h : build a depth (.sequence none none (n :: ns)) j = .ok (v, j')) :
    ∃ depth' u us j₁, build a depth' n j = .ok (u, j₁) ∧ v = .sequence (u :: us) := by
  obtain ⟨depth', us, hus, rfl⟩ := build_sequence h
  obtain ⟨⟨u, j₁⟩, hu, hus⟩ := bind_eq_ok.1 hus
  obtain ⟨⟨us, j₂⟩, -, hus⟩ := bind_eq_ok.1 hus
  cases hus
  exact ⟨depth', u, us, j₁, hu, rfl⟩

theorem read_eq_ok {s : Text} : read s = .ok v ↔ ∃ ts n j,
    tokens s = .ok ts ∧ Node.ofTokens ts = .ok n ∧ build (.of n) depthLimit n 0 = .ok (v, j) := by
  constructor
  · intro h
    obtain ⟨ts, hts, h⟩ := bind_eq_ok.1 h
    obtain ⟨n, hn, h⟩ := bind_eq_ok.1 h
    obtain ⟨⟨w, j⟩, hw, h⟩ := bind_eq_ok.1 h
    cases h
    exact ⟨ts, n, j, hts, hn, hw⟩
  · rintro ⟨ts, n, j, hts, hn, hv⟩
    rw [read, hts, ok_bind, hn, ok_bind, hv]
    rfl

theorem read_of_tokens {s : Text} {ts : List Token} {n : Node} (hts : tokens s = .ok ts)
    (hn : Node.ofTokens ts = .ok n) : read s = (build (.of n) depthLimit n 0).map Prod.fst := by
  rw [read, hts, ok_bind, hn, ok_bind]
  cases build (.of n) depthLimit n 0 <;> rfl

theorem not_read_of_fault {s : Text} {f : Fault} (hts : tokens s = .error f) : read s ≠ .ok v := by
  rw [read, hts]
  rintro ⟨⟩

/-- A character that no document may hold. -/
theorem read_of_not_allowed {s : Text} {x : Char} (hx : x ∈ s) (hnot : isAllowed x = false) :
    read s ≠ .ok v := by
  intro h
  obtain ⟨ts, n, j, hts, -⟩ := read_eq_ok.1 h
  have hall : s.all isAllowed = false := List.all_eq_false.2 ⟨x, hx, by simp [hnot]⟩
  rw [tokens, hall] at hts
  cases hts

/-- A tab in the indentation of a line. -/
theorem read_of_tab (n : Nat) (r : Text) : read (List.replicate n ' ' ++ '\t' :: r) ≠ .ok v := by
  intro h
  obtain ⟨ts, m, j, hts, -⟩ := read_eq_ok.1 h
  rw [tokens] at hts
  split at hts
  · dsimp only at hts
    rw [normalizeBreaks_append (isNormal_blanks n), normalizeBreaks_cons (by decide) (by decide),
      start_eq_idle, run_tab (by omega)] at hts
    cases hts
  · cases hts

section Line

variable {k : Nat} {s : Text} {cr : Bool}

/-- What an item may be made of here: it holds no line end, and no character that is not allowed. -/
def IsLine (s : Text) : Prop := ∀ x ∈ s, endsLine x = false ∧ isAllowed x = true

instance (s : Text) : Decidable (IsLine s) :=
  decidable_of_iff (s.all (fun x => !endsLine x && isAllowed x) = true) (by simp [IsLine])

theorem IsLine.unbroken (h : IsLine s) : ∀ x ∈ s, isBreak x = false :=
  fun x hx => isBreak_of_endsLine (h x hx).1

theorem IsLine.isNormal (h : IsLine s) : IsNormal s := by
  intro x hx
  have hend := (h x hx).1
  simp only [endsLine, Bool.or_eq_false_iff, beq_eq_false_iff_ne] at hend
  exact ⟨hend.1.2, hend.2⟩

/-- The tokens of a line from behind its dash on. -/
theorem tokens_dashLine (hs : IsSettled s) (hne : s ≠ []) (hline : IsLine s) (k : Nat) (cr : Bool) :
    ∃ e fuel, IsEnding e ∧ tokens (dashLine k s cr) = finish (fuel + 3) (atItem k (s ++ e)) := by
  have hallowed : (dashLine k s cr).all isAllowed = true := by
    have hblanks : (List.replicate k ' ').all isAllowed = true :=
      List.all_eq_true.2 fun x hx => by rw [List.eq_of_mem_replicate hx]; decide
    have hs : s.all isAllowed = true := List.all_eq_true.2 fun x hx => (hline x hx).2
    have hend : (if cr then ['\r'] else []).all isAllowed = true := by cases cr <;> decide
    rw [dashLine, List.all_append, List.all_cons, List.all_cons, List.all_append, hblanks, hs, hend]
    decide
  have hbreaks : ∃ e, IsEnding e ∧ normalizeBreaks (dashLine k s cr) =
      List.replicate k ' ' ++ ('-' :: ' ' :: (s ++ e)) := by
    rw [dashLine, normalizeBreaks_append (isNormal_blanks k),
      normalizeBreaks_cons (by decide) (by decide), normalizeBreaks_cons (by decide) (by decide),
      normalizeBreaks_append hline.isNormal]
    cases cr with
    | true => exact ⟨['\n'], Or.inr rfl, rfl⟩
    | false => exact ⟨[], Or.inl rfl, rfl⟩
  obtain ⟨e, he, hbreaks⟩ := hbreaks
  have hsettled : IsSettled (s ++ e) := by
    cases s with
    | nil => exact absurd rfl hne
    | cons x s => exact hs
  have hfuel : ∃ fuel, (List.replicate k ' ' ++ ('-' :: ' ' :: (s ++ e))).length + 2 =
      fuel + 3 + 2 := by
    have hpos := List.length_pos_iff.2 hne
    refine ⟨k + (s.length - 1) + e.length, ?_⟩
    simp only [List.length_append, List.length_replicate, List.length_cons]
    omega
  obtain ⟨fuel, hfuel⟩ := hfuel
  refine ⟨e, fuel, he, ?_⟩
  rw [tokens, if_pos hallowed]
  dsimp only
  rw [hbreaks, hfuel, run_dash hsettled]

theorem tokens_plain (hs : BeginsPlain s) (hline : IsLine s) (k : Nat) (cr : Bool) :
    ∃ e fuel, IsEnding e ∧ tokens (dashLine k s cr) = finish (fuel + 3) (atItem k (s ++ e)) := by
  refine tokens_dashLine ?_ ?_ hline k cr
  · have hsettled := hs.isSettled []
    rwa [List.append_nil] at hsettled
  · obtain ⟨x, r, rfl, -⟩ := hs
    exact List.cons_ne_nil x r

/-- **An item that is a plain scalar.** -/
theorem read_scalar (hs : BeginsPlain s) (hline : IsLine s) (hr : IsRemark (Plain.left [] s)) :
    read (dashLine k s cr) = .ok v ↔
      ∃ w, Scalar.plain? (Plain.scan [] s).1 = some w ∧ v = .sequence [w] := by
  obtain ⟨e, fuel, he, htokens⟩ := tokens_plain hs hline k cr
  rw [finish_scalar he hs hline.unbroken hr] at htokens
  rw [read_of_tokens htokens (Node.ofTokens_scalar _), show depthLimit = 127 + 1 from rfl,
    build_singleton, build_scalar_eq]
  cases Scalar.plain? (Plain.scan [] s).1 with
  | none => simp [orMistyped, Except.map]
  | some w => simp [orMistyped, Except.map, eq_comm]

section Pair

variable {b t : Text}

/-- **An item that is a key with a plain scalar behind it.** -/
theorem read_pair (hs : BeginsPlain s) (hline : IsLine s)
    (hleft : Plain.left [] s = ':' :: (b ++ t))
    (hb : ∀ x ∈ b, isSpaceOrTab x = true) (hne : b ≠ []) (ht : BeginsPlain t) :
    read (dashLine k s cr) = .ok v ↔
      s.length - ((b ++ t).length + 1) ≤ 1024 ∧ IsRemark (Plain.left [] t) ∧
        ∃ key w, Scalar.plain? (Plain.scan [] s).1 = some key ∧
          Scalar.plain? (Plain.scan [] t).1 = some w ∧ v = .sequence [.mapping [(key, w)]] := by
  have hgap := gapAhead_blanks hb hne t
  have hvalue : ∀ x ∈ t, isBreak x = false := fun x hx =>
    hline.unbroken x
      (Plain.mem_of_mem_left (hleft ▸ List.mem_cons_of_mem _ (List.mem_append_right _ hx)))
  obtain ⟨e, fuel, he, htokens⟩ := tokens_plain hs hline k cr
  rw [finish_key he hs hline.unbroken hleft hgap] at htokens
  split at htokens
  · next hlong =>
    exact iff_of_false (not_read_of_fault htokens) fun h => absurd h.1 (Nat.not_le.2 hlong)
  · next hshort =>
    rw [List.append_assoc] at htokens
    rcases isRemark_or_key t with hend | ⟨r, hrest, hr⟩
    · rw [run_value he hb ht hvalue hend (by omega)] at htokens
      rw [read_of_tokens htokens (Node.ofTokens_pair _ _), show depthLimit = 126 + 1 + 1 from rfl,
        build_singleton, build_pair]
      simp only [Nat.not_lt.1 hshort, hend, true_and]
      cases Scalar.plain? (Plain.scan [] s).1 with
      | none => simp [Except.map]
      | some key =>
        cases Scalar.plain? (Plain.scan [] t).1 with
        | none => simp [Except.map]
        | some w => simp [Except.map, eq_comm]
    · rw [run_value_key he hb ht hvalue hrest hr (by omega)] at htokens
      refine iff_of_false (not_read_of_fault htokens) ?_
      rintro ⟨-, hremark, -⟩
      rw [hrest] at hremark
      rcases hremark with hnil | hmark
      · cases hnil
      · cases hmark

/-- A dash where the value should stand. -/
theorem read_pair_dash (hs : BeginsPlain s) (hline : IsLine s)
    (hleft : Plain.left [] s = ':' :: (b ++ '-' :: t)) (hb : ∀ x ∈ b, isSpaceOrTab x = true)
    (hne : b ≠ []) (ht : gapAhead t = true) : read (dashLine k s cr) ≠ .ok v := by
  have hgap := gapAhead_blanks hb hne ('-' :: t)
  obtain ⟨e, fuel, he, htokens⟩ := tokens_plain hs hline k cr
  rw [finish_key he hs hline.unbroken hleft hgap] at htokens
  split at htokens
  · exact not_read_of_fault htokens
  · rw [List.append_assoc, List.cons_append,
      run_value_dash hb ((gapAhead_ending he t).trans ht) (by omega)] at htokens
    exact not_read_of_fault htokens

end Pair

/-- **The beginning of an item that begins with a plain scalar.** If the line can be read, the
scalar is the item, or the first key of a mapping. -/
theorem read_begins (hs : BeginsPlain s) (hline : IsLine s) (h : read (dashLine k s cr) = .ok v) :
    ∃ u us, v = .sequence (u :: us) ∧ (Scalar.plain? (Plain.scan [] s).1 = some u ∨
      ∃ key w es, Scalar.plain? (Plain.scan [] s).1 = some key ∧
        u = .mapping ((key, w) :: es)) := by
  rcases isRemark_or_key s with hend | ⟨r, hleft, hr⟩
  · obtain ⟨w, hw, rfl⟩ := (read_scalar hs hline hend).1 h
    exact ⟨w, [], rfl, Or.inl hw⟩
  · obtain ⟨e, fuel, he, htokens⟩ := tokens_plain hs hline k cr
    rw [finish_key he hs hline.unbroken hleft hr] at htokens
    split at htokens
    · exact absurd h (not_read_of_fault htokens)
    · obtain ⟨ts, n, j, hts, hn, hv⟩ := read_eq_ok.1 h
      obtain ⟨more, rfl⟩ := beginning_of_key (htokens.symm.trans hts)
      obtain ⟨w, es, items, rfl⟩ := Node.ofTokens_key hn
      obtain ⟨depth, u, us, j₁, hu, rfl⟩ := build_sequence_cons hv
      obtain ⟨depth', entries, hentries, rfl⟩ := build_mapping hu
      obtain ⟨j₂, j₃, key, x, rest, hkey, -, -, rfl⟩ := inTurn_pair hentries
      exact ⟨_, us, rfl, Or.inr ⟨key, x, rest, build_scalar hkey, rfl⟩⟩

/-- An item that begins with a dash of its own is a sequence. -/
theorem read_dash {b q : Text} (hb : ∀ x ∈ b, isSpaceOrTab x = true)
    (hq : IsRemark q ∨ q.head? = some ':') (hgap : gapAhead (b ++ q) = true)
    (hline : IsLine ('-' :: (b ++ q)))
    (h : read (dashLine k ('-' :: (b ++ q)) cr) = .ok v) : ∃ inner us,
    v = .sequence (.sequence inner :: us) := by
  have hsettled : IsSettled ('-' :: (b ++ q)) := by
    rintro x ⟨⟩
    decide
  obtain ⟨e, fuel, he, htokens⟩ := tokens_dashLine hsettled (List.cons_ne_nil _ _) hline k cr
  obtain ⟨ts, n, j, hts, hn, hv⟩ := read_eq_ok.1 h
  obtain ⟨more, rfl⟩ := beginning_of_dash he hb hq ((gapAhead_ending he _).trans hgap)
    (fun x hx => hline.unbroken x (List.mem_cons_of_mem _ (List.mem_append_right _ hx)))
    (htokens.symm.trans hts)
  obtain ⟨inner, items, rfl⟩ := Node.ofTokens_dash hn
  obtain ⟨depth, u, us, j₁, hu, rfl⟩ := build_sequence_cons hv
  obtain ⟨depth', values, -, rfl⟩ := build_sequence hu
  exact ⟨values, us, rfl⟩

end Line

end LayeredConfig.Yaml
