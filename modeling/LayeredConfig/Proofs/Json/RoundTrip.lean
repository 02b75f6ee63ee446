import LayeredConfig.Proofs.Json.Reader
import LayeredConfig.Proofs.Text.Segments

/-!
# JSON is read back as it was written

If the text of a value can be read at all, it is read as that value. The one thing this leaves
open is whether the reader accepts the numbers of the value.
-/
namespace LayeredConfig.JsonValue

mutual

/-- A value whose texts have no half surrogates and whose numbers consist of the characters of
numbers. -/
def Plain : JsonValue → Prop
  | .null | .bool _ => True
  | .number written => written ≠ [] ∧ ∀ c ∈ written, isNumeric c = true
  | .string s => s.isSome = true
  | .array items => PlainItems items
  | .object entries => PlainEntries entries

def PlainItems : List JsonValue → Prop
  | [] => True
  | v :: vs => Plain v ∧ PlainItems vs

def PlainEntries : List (JsonText × JsonValue) → Prop
  | [] => True
  | e :: es => e.1.isSome = true ∧ Plain e.2 ∧ PlainEntries es

end

/-- Whether a text does not begin with a character of a number. -/
def Follows (rest : Text) : Prop := ∀ c r, rest = c :: r → isNumeric c = false

/-- A reading that has taken a value exactly, or stopped in the middle of a number. -/
def Takes {α : Type} (v : α) (rest : Text) (p : α × Text) : Prop :=
  p = (v, rest) ∨ ∃ c r, p.2 = c :: r ∧ isNumeric c = true

theorem follows_cons {c : Char} (hc : isNumeric c = false) (r : Text) : Follows (c :: r) := by
  intro c' r' h
  cases h
  exact hc

theorem isSpace_of_isNumeric {c : Char} (h : isNumeric c = true) : isSpace c = false := by
  cases hs : isSpace c with
  | false => rfl
  | true =>
    simp only [isSpace, Bool.or_eq_true, decide_eq_true_eq] at hs
    rcases hs with ((rfl | rfl) | rfl) | rfl <;> exact absurd h (by decide)

theorem indentation_isSpace (depth : Nat) : ∀ c ∈ indentation depth, isSpace c = true := by
  intro c hc
  rw [List.eq_of_mem_replicate hc]
  rfl

/-- A line break with the indentation after it. -/
def newLine (depth : Nat) : Text := '\n' :: indentation depth

theorem newLine_isSpace (depth : Nat) : ∀ c ∈ newLine depth, isSpace c = true :=
  List.forall_mem_cons.2 ⟨rfl, indentation_isSpace depth⟩

/-- What follows the first line of a block: a comma and a new line before each further one, and
the closing mark. -/
def blockRest (closing : Char) (depth : Nat) (lines : List Text) (rest : Text) : Text :=
  lines.flatMap (fun line => ',' :: newLine (depth + 1) ++ line) ++
    newLine depth ++ closing :: rest

theorem block_cons (opening closing : Char) (depth : Nat) (line : Text) (lines : List Text)
    (rest : Text) :
    block opening closing depth (line :: lines) ++ rest =
      opening :: newLine (depth + 1) ++ line ++ blockRest closing depth lines rest := by
  have hlines : ((lines.map (indentation (depth + 1) ++ ·)).flatMap (",\n".toList ++ ·)) =
      lines.flatMap (fun line => ',' :: newLine (depth + 1) ++ line) := by
    rw [List.flatMap_map]
    rfl
  have hempty : (line :: lines).isEmpty = false := rfl
  simp only [block, hempty, Bool.false_eq_true, if_false, List.map_cons, Text.joinWith_cons,
    hlines]
  simp [blockRest, newLine]

theorem blockRest_nil (closing : Char) (depth : Nat) (rest : Text) :
    blockRest closing depth [] rest = newLine depth ++ closing :: rest := rfl

theorem blockRest_cons (closing : Char) (depth : Nat) (line : Text) (lines : List Text)
    (rest : Text) :
    blockRest closing depth (line :: lines) rest =
      ',' :: (newLine (depth + 1) ++ (line ++ blockRest closing depth lines rest)) := by
  simp [blockRest]

theorem follows_blockRest (closing : Char) (depth : Nat) (lines : List Text) (rest : Text) :
    Follows (blockRest closing depth lines rest) := by
  cases lines with
  | nil => exact follows_cons (by decide) _
  | cons line lines =>
    rw [blockRest_cons]
    exact follows_cons (by decide) _

/-- A number is taken off a text that goes on with something else. -/
theorem number?_takes_exactly {w rest : Text} {p : Text × Text}
    (hw : ∀ c ∈ w, isNumeric c = true) (hrest : Follows rest)
    (h : number? (w ++ rest) = some p) : Takes w rest p := by
  obtain ⟨happ, hp⟩ := number?_takes h
  rcases List.append_eq_append_iff.1 happ with ⟨a, ha, hb⟩ | ⟨a, ha, hb⟩
  · -- More than the number has been read.
    cases a with
    | nil =>
      refine Or.inl (Prod.ext ?_ ?_)
      · simpa using ha
      · simpa using hb.symm
    | cons c a =>
      have hc := hp c (by rw [ha]; simp)
      rw [hrest c _ hb] at hc
      cases hc
  · cases a with
    | nil =>
      refine Or.inl (Prod.ext ?_ ?_)
      · simpa using ha.symm
      · simpa using hb
    | cons c a => exact Or.inr ⟨c, _, hb, hw c (by rw [ha]; simp)⟩

/-- The text of a value is read as that value or not at all, whatever follows it. -/
def Reads (v : JsonValue) : Prop :=
  ∀ n depth rest p, Follows rest → readValue? n (textAt depth v ++ rest) = some p →
    Takes v rest p

/-- A value begins with a mark of its kind. -/
theorem textAt_head {v : JsonValue} (hv : Plain v) (depth : Nat) :
    ∃ c r, textAt depth v = c :: r ∧ isSpace c = false ∧ c ≠ ']' ∧ c ≠ '\x7d' := by
  cases v with
  | null => exact ⟨'n', _, rfl, by decide⟩
  | bool b => cases b <;> exact ⟨_, _, rfl, by decide⟩
  | number written =>
    obtain ⟨hne, hw⟩ := hv
    obtain ⟨c, r, rfl⟩ := List.exists_cons_of_ne_nil hne
    have hc := hw c List.mem_cons_self
    refine ⟨c, r, rfl, isSpace_of_isNumeric hc, ?_, ?_⟩ <;>
      · rintro rfl
        exact absurd hc (by decide)
  | string s => exact ⟨'"', _, rfl, by decide⟩
  | array items =>
    refine ⟨'[', (textAt depth (.array items)).tail, ?_, by decide⟩
    rw [textAt, block]
    split <;> rfl
  | object entries =>
    refine ⟨'\x7b', (textAt depth (.object entries)).tail, ?_, by decide⟩
    rw [textAt, block]
    split <;> rfl

theorem skipSpace_textAt {v : JsonValue} (hv : Plain v) (depth : Nat) (rest : Text) :
    skipSpace (textAt depth v ++ rest) = textAt depth v ++ rest := by
  obtain ⟨c, r, hc, hspace, -⟩ := textAt_head hv depth
  rw [hc, List.cons_append, skipSpace_cons hspace]

theorem reads_null : Reads .null := by
  intro n depth rest p _ h
  cases n with
  | zero => cases h
  | succ n =>
    cases h
    exact Or.inl rfl

theorem reads_bool (b : Bool) : Reads (.bool b) := by
  intro n depth rest p _ h
  cases n with
  | zero => cases h
  | succ n =>
    cases b
    · cases h
      exact Or.inl rfl
    · cases h
      exact Or.inl rfl

theorem reads_string (s : Text) : Reads (.string (some s)) := by
  intro n depth rest p _ h
  cases n with
  | zero => cases h
  | succ n =>
    have htext : textAt depth (.string (some s)) ++ rest =
        '"' :: (s.flatMap escape ++ '"' :: rest) := by
      simp [textAt, quote]
    rw [htext, readValue?, skipSpace_cons (by decide)] at h
    simp only [quoted?_escaped s (lt_length_escaped s rest)] at h
    cases h
    exact Or.inl rfl

/-- What begins with a character of a number is read as a number. -/
theorem readValue?_of_isNumeric {c : Char} (hc : isNumeric c = true) (n : Nat) (s : Text) :
    readValue? (n + 1) (c :: s) = (number? (c :: s)).map fun p => (.number p.1, p.2) := by
  have hother : ∀ d, isNumeric d = false → c ≠ d := by
    rintro d hd rfl
    rw [hc] at hd
    cases hd
  have hnull : Text.after? "null" (c :: s) = none := if_neg (hother 'n' (by decide)).symm
  have htrue : Text.after? "true" (c :: s) = none := if_neg (hother 't' (by decide)).symm
  have hfalse : Text.after? "false" (c :: s) = none := if_neg (hother 'f' (by decide)).symm
  rw [readValue?, skipSpace_cons (isSpace_of_isNumeric hc)]
  split
  · next heq => exact absurd (List.cons.inj heq).1 (hother _ (by decide))
  · next heq => exact absurd (List.cons.inj heq).1 (hother _ (by decide))
  · next heq => exact absurd (List.cons.inj heq).1 (hother _ (by decide))
  · simp only [hnull, htrue, hfalse]

theorem reads_number {written : Text} (hv : Plain (.number written)) :
    Reads (.number written) := by
  intro n depth rest p hrest h
  obtain ⟨hne, hw⟩ := hv
  obtain ⟨c, w, rfl⟩ := List.exists_cons_of_ne_nil hne
  cases n with
  | zero => cases h
  | succ n =>
    rw [textAt, List.cons_append, readValue?_of_isNumeric (hw c List.mem_cons_self)] at h
    obtain ⟨q, hq, rfl⟩ := Option.map_eq_some_iff.1 h
    rcases number?_takes_exactly hw hrest hq with rfl | hstop
    · exact Or.inl rfl
    · exact Or.inr hstop

/-- Stopped in the middle of a number, a reading does not go on. -/
theorem skipSpace_of_isNumeric {s r : Text} {c : Char} (hs : s = c :: r)
    (hc : isNumeric c = true) : skipSpace s = c :: r := by
  rw [hs, skipSpace_cons (isSpace_of_isNumeric hc)]

theorem skipSpace_blockRest_nil {c : Char} (hc : isSpace c = false) (depth : Nat)
    (rest : Text) :
    skipSpace (blockRest c depth [] rest) = c :: rest := by
  rw [blockRest_nil, skipSpace_append (newLine_isSpace depth), skipSpace_cons hc]

theorem skipSpace_blockRest_cons (closing : Char) (depth : Nat) (line : Text) (lines : List Text)
    (rest : Text) :
    skipSpace (blockRest closing depth (line :: lines) rest) =
      ',' :: (newLine (depth + 1) ++ (line ++ blockRest closing depth lines rest)) := by
  rw [blockRest_cons, skipSpace_cons (by decide)]

/-- After a value that is followed by the rest of a block, only that rest can be read on. -/
theorem skipSpace_of_takes {α : Type} {v : α} {closing : Char} {depth : Nat} {lines : List Text}
    {rest : Text} {p : α × Text} (h : Takes v (blockRest closing depth lines rest) p)
    (hgo : ∃ c r, skipSpace p.2 = c :: r ∧ isNumeric c = false) :
    p = (v, blockRest closing depth lines rest) := by
  rcases h with heq | ⟨c, r, hr, hc⟩
  · exact heq
  · obtain ⟨c', r', hgo, hc'⟩ := hgo
    rw [skipSpace_of_isNumeric hr hc] at hgo
    cases hgo
    rw [hc] at hc'
    cases hc'

/-- Reading items that begin with the text of a value goes on after that value. -/
theorem readItems?_first {depth : Nat} {lines : List Text} {rest : Text} {v : JsonValue}
    (hv : Reads v) {ws : Text} (hws : ∀ c ∈ ws, isSpace c = true) {n : Nat}
    {p : List JsonValue × Text}
    (h : readItems? (n + 1) (ws ++ (textAt (depth + 1) v ++ blockRest ']' depth lines rest)) =
      some p) :
    (match skipSpace (blockRest ']' depth lines rest) with
      | ']' :: r => some ([v], r)
      | ',' :: r => (readItems? n r).map fun p => (v :: p.1, p.2)
      | _ => none) = some p := by
  obtain ⟨⟨v', r⟩, hq, h⟩ := Option.bind_eq_some_iff.1 h
  rw [readValue?_append ws hws] at hq
  have htakes := hv _ _ _ _ (follows_blockRest _ _ _ _) hq
  simp only at h
  obtain ⟨rfl, rfl⟩ := Prod.mk.inj <| skipSpace_of_takes htakes (by
    split at h
    · next hgo => exact ⟨_, _, hgo, by decide⟩
    · next hgo => exact ⟨_, _, hgo, by decide⟩
    · cases h)
  exact h

theorem readItems?_text {depth : Nat} {rest : Text} {v : JsonValue} {vs : List JsonValue}
    (hvs : ∀ w ∈ v :: vs, Reads w) (ws : Text) (hws : ∀ c ∈ ws, isSpace c = true) {n : Nat}
    {p : List JsonValue × Text}
    (h : readItems? n (ws ++ (textAt (depth + 1) v ++
      blockRest ']' depth (itemTexts (depth + 1) vs) rest)) = some p) :
    p = (v :: vs, rest) := by
  induction vs generalizing v ws n p with
  | nil =>
    cases n with
    | zero => cases h
    | succ n =>
      have h := readItems?_first (hvs v List.mem_cons_self) hws h
      simp only [itemTexts, skipSpace_blockRest_nil (c := ']') (by decide)] at h
      cases h
      rfl
  | cons w vs ih =>
    cases n with
    | zero => cases h
    | succ n =>
      have h := readItems?_first (hvs v List.mem_cons_self) hws h
      simp only [itemTexts, skipSpace_blockRest_cons] at h
      obtain ⟨r, hr, rfl⟩ := Option.map_eq_some_iff.1 h
      rw [ih (fun u hu => hvs u (List.mem_cons_of_mem _ hu)) _ (newLine_isSpace _) hr]

theorem reads_array {items : List JsonValue} (hplain : PlainItems items)
    (hitems : ∀ v ∈ items, Reads v) : Reads (.array items) := by
  intro n depth rest p _ h
  cases n with
  | zero => cases h
  | succ n =>
    cases items with
    | nil =>
      cases h
      exact Or.inl rfl
    | cons v vs =>
      have hv := hplain.1
      obtain ⟨c, r, hc, -, hclose, -⟩ := textAt_head hv (depth + 1)
      rw [textAt, itemTexts, block_cons, List.cons_append, List.cons_append, readValue?,
        skipSpace_cons (by decide)] at h
      simp only [List.append_assoc, skipSpace_append (newLine_isSpace _),
        skipSpace_textAt hv] at h
      split at h
      · next heq =>
        rw [hc] at heq
        exact absurd (List.cons.inj heq).1 hclose
      · obtain ⟨q, hq, rfl⟩ := Option.map_eq_some_iff.1 h
        obtain rfl := readItems?_text hitems [] (by simp) hq
        exact Or.inl rfl

theorem entryTexts_cons (depth : Nat) (key : Text) (v : JsonValue)
    (es : List (JsonText × JsonValue)) :
    entryTexts depth ((some key, v) :: es) =
      ('"' :: (key.flatMap escape ++ '"' :: ':' :: ' ' :: textAt depth v)) ::
        entryTexts depth es := by
  simp [entryTexts, quote]

/-- The text of an entry with what follows it. -/
def entryStart (key : Text) (v : JsonValue) (depth : Nat) (lines : List Text) (rest : Text) :
    Text :=
  '"' :: (key.flatMap escape ++ '"' :: ':' :: ' ' ::
    (textAt (depth + 1) v ++ blockRest '\x7d' depth lines rest))

/-- Reading entries that begin with the text of one goes on after that one. -/
theorem readEntries?_first {depth : Nat} {lines : List Text} {rest : Text} {key : Text}
    {v : JsonValue} (hv : Reads v) {ws : Text} (hws : ∀ c ∈ ws, isSpace c = true) {n : Nat}
    {p : List (JsonText × JsonValue) × Text}
    (h : readEntries? (n + 1) (ws ++ entryStart key v depth lines rest) = some p) :
    (match skipSpace (blockRest '\x7d' depth lines rest) with
      | '\x7d' :: r => some ([(some key, v)], r)
      | ',' :: r => (readEntries? n r).map fun p => ((some key, v) :: p.1, p.2)
      | _ => none) = some p := by
  rw [readEntries?, skipSpace_append hws, entryStart, skipSpace_cons (by decide)] at h
  simp only at h
  rw [quoted?_escaped key (lt_length_escaped key _)] at h
  simp only [Option.bind_eq_bind, Option.bind_some, skipSpace_cons (c := ':') (by decide)] at h
  obtain ⟨⟨v', r⟩, hq, h⟩ := Option.bind_eq_some_iff.1 h
  have hq := (readValue?_append [' '] (List.all_eq_true.1 (by decide)) n _).symm.trans hq
  have htakes := hv _ _ _ _ (follows_blockRest _ _ _ _) hq
  simp only at h
  obtain ⟨rfl, rfl⟩ := Prod.mk.inj <| skipSpace_of_takes htakes (by
    split at h
    · next hgo => exact ⟨_, _, hgo, by decide⟩
    · next hgo => exact ⟨_, _, hgo, by decide⟩
    · cases h)
  exact h

theorem readEntries?_text {depth : Nat} {rest : Text} {key : Text} {v : JsonValue}
    {es : List (JsonText × JsonValue)} (hkeys : ∀ e ∈ es, e.1.isSome = true)
    (hes : ∀ e ∈ (some key, v) :: es, Reads e.2) (ws : Text)
    (hws : ∀ c ∈ ws, isSpace c = true) {n : Nat} {p : List (JsonText × JsonValue) × Text}
    (h : readEntries? n (ws ++ entryStart key v depth (entryTexts (depth + 1) es) rest) =
      some p) :
    p = ((some key, v) :: es, rest) := by
  induction es generalizing key v ws n p with
  | nil =>
    cases n with
    | zero => cases h
    | succ n =>
      have h := readEntries?_first (hes _ List.mem_cons_self) hws h
      simp only [entryTexts, skipSpace_blockRest_nil (c := '\x7d') (by decide)] at h
      cases h
      rfl
  | cons e es ih =>
    obtain ⟨key' | key', w⟩ := e
    · exact nomatch hkeys _ List.mem_cons_self
    cases n with
    | zero => cases h
    | succ n =>
      have h := readEntries?_first (hes _ List.mem_cons_self) hws h
      simp only [entryTexts_cons, skipSpace_blockRest_cons] at h
      obtain ⟨r, hr, rfl⟩ := Option.map_eq_some_iff.1 h
      simp only [List.cons_append, List.append_assoc] at hr
      rw [ih (fun u hu => hkeys u (List.mem_cons_of_mem _ hu))
        (fun u hu => hes u (List.mem_cons_of_mem _ hu)) _ (newLine_isSpace _) hr]

theorem reads_object {entries : List (JsonText × JsonValue)}
    (hkeys : ∀ e ∈ entries, e.1.isSome = true) (hentries : ∀ e ∈ entries, Reads e.2) :
    Reads (.object entries) := by
  intro n depth rest p _ h
  cases n with
  | zero => cases h
  | succ n =>
    cases entries with
    | nil =>
      cases h
      exact Or.inl rfl
    | cons e es =>
      obtain ⟨key | key, v⟩ := e
      · exact nomatch hkeys _ List.mem_cons_self
      rw [textAt, entryTexts_cons, block_cons, List.cons_append, List.cons_append, readValue?,
        skipSpace_cons (by decide)] at h
      simp only [List.append_assoc, List.cons_append, skipSpace_append (newLine_isSpace _),
        skipSpace_cons (c := '"') (by decide)] at h
      obtain ⟨q, hq, rfl⟩ := Option.map_eq_some_iff.1 h
      obtain rfl := readEntries?_text
        (fun u hu => hkeys u (List.mem_cons_of_mem _ hu)) hentries [] (by simp) hq
      exact Or.inl rfl

theorem isSome_of_plainEntries {entries : List (JsonText × JsonValue)}
    (h : PlainEntries entries) : ∀ e ∈ entries, e.1.isSome = true := by
  induction entries with
  | nil => exact fun _ he => nomatch he
  | cons e es ih => exact List.forall_mem_cons.2 ⟨h.1, ih h.2.2⟩

mutual

/-- **A value is read from its text as itself or not at all.** -/
theorem reads : (v : JsonValue) → Plain v → Reads v
  | .null, _ => reads_null
  | .bool b, _ => reads_bool b
  | .number _, h => reads_number h
  | .string (some s), _ => reads_string s
  | .array items, h => reads_array h (readsItems items h)
  | .object entries, h =>
    reads_object (isSome_of_plainEntries h) (readsEntries entries h)

theorem readsItems : (vs : List JsonValue) → PlainItems vs → ∀ v ∈ vs, Reads v
  | [], _ => fun _ hv => nomatch hv
  | v :: vs, h => List.forall_mem_cons.2 ⟨reads v h.1, readsItems vs h.2⟩

theorem readsEntries : (es : List (JsonText × JsonValue)) → PlainEntries es →
    ∀ e ∈ es, Reads e.2
  | [], _ => fun _ he => nomatch he
  | (_, v) :: es, h => List.forall_mem_cons.2 ⟨reads v h.2.1, readsEntries es h.2.2⟩

end

theorem read?_text {v v' : JsonValue} (hv : Plain v) (h : read? v.text = some v') : v' = v := by
  obtain ⟨⟨w, r⟩, hread, h⟩ := Option.bind_eq_some_iff.1 h
  have hfollows : Follows [] := fun c r h => nomatch h
  have htakes := reads v hv _ 0 [] _ hfollows (by rwa [List.append_nil])
  simp only at h
  rcases htakes with heq | ⟨c, r', hr, hc⟩
  · cases heq
    cases h
    rfl
  · simp only [skipSpace_of_isNumeric hr hc] at h
    cases h

end LayeredConfig.JsonValue
