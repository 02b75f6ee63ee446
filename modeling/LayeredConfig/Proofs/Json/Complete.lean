import LayeredConfig.Proofs.Json.RoundTrip

/-!
# The JSON reader accepts what is written

A value is read from its text as itself when the reader accepts each of its numbers. Nothing else
can go wrong: a text has at least as many characters as its value has levels, which the fuel is
taken from.
-/
namespace LayeredConfig.JsonValue

variable {n : Nat} {rest : Text} {v : JsonValue}

theorem follows_nil : Follows [] := fun _ _ h => nomatch h

/-- A reader that takes the same off a longer text, if that does not go on with a number. -/
def Extends (f : Text → Option (Text × Text)) : Prop :=
  ∀ s p rest, Follows rest → f s = some p → f (s ++ rest) = some (p.1, p.2 ++ rest)

theorem Follows.not_digit {c : Char} (h : Follows (c :: rest)) : isDigit c = false := by
  cases hc : isDigit c with
  | false => rfl
  | true =>
    have hnumeric := isNumeric_of_isDigit hc
    rw [h c rest rfl] at hnumeric
    cases hnumeric

theorem Follows.head_ne {c d : Char} (h : Follows (c :: rest)) (hd : isNumeric d = true) :
    c ≠ d := by
  rintro rfl
  rw [h c rest rfl] at hd
  cases hd

theorem digits?_extends : Extends digits? := by
  intro s p rest hrest h
  have hstop : rest.takeWhile isDigit = [] ∧ rest.dropWhile isDigit = rest := by
    cases rest with
    | nil => exact ⟨rfl, rfl⟩
    | cons c r => simp [hrest.not_digit]
  have hcut : (s ++ rest).takeWhile isDigit = s.takeWhile isDigit ∧
      (s ++ rest).dropWhile isDigit = s.dropWhile isDigit ++ rest := by
    clear h
    induction s with
    | nil => exact hstop
    | cons c s ih => by_cases hc : isDigit c = true <;> simp [hc, ih]
  unfold digits? at h ⊢
  rw [hcut.1, hcut.2]
  split at h
  · cases h
  · cases h
    rfl

theorem whole?_extends : Extends whole? := by
  intro s p rest hrest h
  unfold whole? at h
  split at h
  · next r =>
    split at h
    · cases h
    · next hr =>
      cases h
      rw [List.cons_append, whole?, if_neg]
      cases r with
      | nil =>
        cases rest with
        | nil => exact hr
        | cons c rest => simp [hrest.not_digit]
      | cons c r => exact hr
  · next hzero =>
    have hextended := digits?_extends s p rest hrest h
    unfold whole?
    split
    · next r heq =>
      cases s with
      | nil => cases h
      | cons c s => exact absurd (congrArg (· :: s) (List.cons.inj heq).1) (hzero s)
    · exact hextended

theorem fraction?_extends : Extends fraction? := by
  intro s p rest hrest h
  unfold fraction? at h
  split at h
  · next r =>
    obtain ⟨q, hq, rfl⟩ := Option.map_eq_some_iff.1 h
    rw [List.cons_append, fraction?, digits?_extends r q rest hrest hq]
    rfl
  · next hpoint =>
    cases h
    unfold fraction?
    split
    · next r heq =>
      cases s with
      | nil =>
        cases rest with
        | nil => cases heq
        | cons c rest => exact absurd (List.cons.inj heq).1 (hrest.head_ne (by decide))
      | cons c s => exact absurd (congrArg (· :: s) (List.cons.inj heq).1) (hpoint s)
    · rfl

theorem digits?_ne_nil {s : Text} {p : Text × Text} (h : digits? s = some p) : s ≠ [] := by
  rintro rfl
  cases h

theorem power?_extends : Extends power? := by
  intro s p rest hrest h
  unfold power? at h
  split at h
  · cases h
    cases rest with
    | nil => rfl
    | cons c rest =>
      have hmark : ¬ (c = 'e' ∨ c = 'E') :=
        not_or.2 ⟨hrest.head_ne (by decide), hrest.head_ne (by decide)⟩
      simp only [List.nil_append, power?, if_neg hmark]
  · next e r =>
    split at h
    · next he =>
      split at h
      · obtain ⟨q, hq, rfl⟩ := Option.map_eq_some_iff.1 h
        simp only [List.cons_append, power?, if_pos he, digits?_extends _ q rest hrest hq,
          Option.map_some]
      · obtain ⟨q, hq, rfl⟩ := Option.map_eq_some_iff.1 h
        simp only [List.cons_append, power?, if_pos he, digits?_extends _ q rest hrest hq,
          Option.map_some]
      · next hplus hminus =>
        obtain ⟨q, hq, rfl⟩ := Option.map_eq_some_iff.1 h
        obtain ⟨c, r, rfl⟩ := List.exists_cons_of_ne_nil (digits?_ne_nil hq)
        have hextended := digits?_extends _ q rest hrest hq
        rw [List.cons_append] at hextended
        unfold power?
        simp only [List.cons_append, if_pos he]
        split
        · next heq => exact absurd (congrArg (· :: r) (List.cons.inj heq).1) (hplus r)
        · next heq => exact absurd (congrArg (· :: r) (List.cons.inj heq).1) (hminus r)
        · rw [hextended]
          rfl
    · next he =>
      cases h
      simp only [List.cons_append, power?, if_neg he]

/-- The sign in front of a number, and what follows it. -/
def signed : Text → Text × Text
  | '-' :: r => (['-'], r)
  | s => ([], s)

theorem signed_append (s : Text) (hrest : Follows rest) :
    signed (s ++ rest) = ((signed s).1, (signed s).2 ++ rest) := by
  cases s with
  | nil =>
    unfold signed
    split
    · next heq =>
      rw [List.nil_append] at heq
      subst heq
      exact absurd rfl (hrest.head_ne (by decide))
    · rfl
  | cons c s =>
    by_cases hc : c = '-'
    · subst hc
      rfl
    · simp [signed, hc]

theorem number?_eq (s : Text) : number? s = (do
    let (whole, r) ← whole? (signed s).2
    let (fraction, r) ← fraction? r
    let (power, r) ← power? r
    some ((signed s).1 ++ whole ++ fraction ++ power, r)) := rfl

theorem number?_extends : Extends number? := by
  intro s p rest hrest h
  rw [number?_eq] at h ⊢
  obtain ⟨⟨whole, r⟩, hwhole, h⟩ := Option.bind_eq_some_iff.1 h
  obtain ⟨⟨fraction, r'⟩, hfraction, h⟩ := Option.bind_eq_some_iff.1 h
  obtain ⟨⟨power, r''⟩, hpower, h⟩ := Option.bind_eq_some_iff.1 h
  cases h
  simp only [signed_append s hrest, whole?_extends _ _ rest hrest hwhole,
    fraction?_extends _ _ rest hrest hfraction, power?_extends _ _ rest hrest hpower,
    Option.bind_eq_bind, Option.bind_some]

/-- A value whose texts have no half surrogates and whose numbers are accepted. -/
inductive Readable : JsonValue → Prop
  | null : Readable .null
  | bool (b : Bool) : Readable (.bool b)
  | number {written : Text} (h : number? written = some (written, [])) : Readable (.number written)
  | string (s : Text) : Readable (.string (some s))
  | array {items : List JsonValue} (h : ∀ v ∈ items, Readable v) : Readable (.array items)
  | object {entries : List (JsonText × JsonValue)} (hkeys : ∀ e ∈ entries, e.1.isSome = true)
      (h : ∀ e ∈ entries, Readable e.2) : Readable (.object entries)

theorem plainItems_of_forall {items : List JsonValue} (h : ∀ v ∈ items, Plain v) :
    PlainItems items := by
  induction items with
  | nil => trivial
  | cons v vs ih =>
    obtain ⟨hv, hvs⟩ := List.forall_mem_cons.1 h
    exact ⟨hv, ih hvs⟩

theorem plainEntries_of_forall {entries : List (JsonText × JsonValue)}
    (hkeys : ∀ e ∈ entries, e.1.isSome = true) (h : ∀ e ∈ entries, Plain e.2) :
    PlainEntries entries := by
  induction entries with
  | nil => trivial
  | cons e es ih =>
    obtain ⟨hkey, hkeys⟩ := List.forall_mem_cons.1 hkeys
    obtain ⟨he, hes⟩ := List.forall_mem_cons.1 h
    exact ⟨hkey, he, ih hkeys hes⟩

theorem plain_of_number? {w : Text} (h : number? w = some (w, [])) : Plain (.number w) := by
  refine ⟨?_, (number?_takes h).2⟩
  rintro rfl
  cases h

theorem Readable.plain (h : Readable v) : Plain v := by
  induction h with
  | null => trivial
  | bool b => trivial
  | number h => exact plain_of_number? h
  | string s => rfl
  | array _ ih => exact plainItems_of_forall ih
  | object hkeys _ ih => exact plainEntries_of_forall hkeys ih

/-- The text of a value is read as that value, with fuel for each of its characters. -/
def ReadsWhole (v : JsonValue) : Prop :=
  ∀ n depth rest, Follows rest → (textAt depth v).length < n →
    readValue? n (textAt depth v ++ rest) = some (v, rest)

theorem readsWhole_null : ReadsWhole .null := by
  intro n depth rest _ hn
  obtain ⟨m, rfl⟩ : ∃ m, n = m + 1 := ⟨n - 1, by omega⟩
  rfl

theorem readsWhole_bool (b : Bool) : ReadsWhole (.bool b) := by
  intro n depth rest _ hn
  obtain ⟨m, rfl⟩ : ∃ m, n = m + 1 := ⟨n - 1, by omega⟩
  cases b <;> rfl

theorem readsWhole_number {w : Text} (h : number? w = some (w, [])) : ReadsWhole (.number w) := by
  intro n depth rest hrest hn
  obtain ⟨m, rfl⟩ : ∃ m, n = m + 1 := ⟨n - 1, by omega⟩
  obtain ⟨hne, hw⟩ := plain_of_number? h
  have hextended := number?_extends w _ rest hrest h
  obtain ⟨c, w, rfl⟩ := List.exists_cons_of_ne_nil hne
  rw [textAt, List.cons_append, readValue?_of_isNumeric (hw c List.mem_cons_self),
    ← List.cons_append, hextended]
  rfl

theorem readsWhole_string (s : Text) : ReadsWhole (.string (some s)) := by
  intro n depth rest _ hn
  obtain ⟨m, rfl⟩ : ∃ m, n = m + 1 := ⟨n - 1, by omega⟩
  have htext : textAt depth (.string (some s)) ++ rest =
      '"' :: (s.flatMap escape ++ '"' :: rest) := by
    simp [textAt, quote]
  rw [htext, readValue?, skipSpace_cons (by decide)]
  simp only [quoted?_escaped s (lt_length_escaped s rest), Option.map_some]

theorem length_newLine (depth : Nat) : (newLine depth).length = 2 * depth + 1 := by
  rw [newLine, List.length_cons, indentation, List.length_replicate]

theorem lt_length_blockRest (closing : Char) (depth : Nat) (lines : List Text) (rest : Text) :
    rest.length + 1 < (blockRest closing depth lines rest).length := by
  rw [blockRest, List.length_append, List.length_append, length_newLine, List.length_cons]
  omega

/-- What follows the first line of a block has room for the next one. -/
theorem length_blockRest_cons (closing : Char) (depth : Nat) (line : Text) (lines : List Text)
    (rest : Text) :
    line.length + (blockRest closing depth lines rest).length + 2 ≤
      (blockRest closing depth (line :: lines) rest).length := by
  rw [blockRest_cons, List.length_cons, List.length_append, List.length_append, length_newLine]
  omega

theorem readItems?_whole (depth : Nat) (rest : Text) {vs : List JsonValue}
    (hvs : ∀ w ∈ v :: vs, ReadsWhole w) (ws : Text) (hws : ∀ c ∈ ws, isSpace c = true)
    (hn : (textAt (depth + 1) v).length +
      (blockRest ']' depth (itemTexts (depth + 1) vs) rest).length ≤ n + rest.length) :
    readItems? n (ws ++ (textAt (depth + 1) v ++
      blockRest ']' depth (itemTexts (depth + 1) vs) rest)) = some (v :: vs, rest) := by
  induction vs generalizing v ws n with
  | nil =>
    have hlength := lt_length_blockRest ']' depth (itemTexts (depth + 1) []) rest
    obtain ⟨m, rfl⟩ : ∃ m, n = m + 1 := ⟨n - 1, by omega⟩
    rw [readItems?, readValue?_append ws hws,
      hvs v List.mem_cons_self _ _ _ (follows_blockRest _ _ _ _) (by omega)]
    simp only [itemTexts, Option.bind_eq_bind, Option.bind_some,
      skipSpace_blockRest_nil (c := ']') (by decide)]
  | cons w vs ih =>
    have hlength :=
      length_blockRest_cons ']' depth (textAt (depth + 1) w) (itemTexts (depth + 1) vs) rest
    have hend := lt_length_blockRest ']' depth (itemTexts (depth + 1) vs) rest
    rw [itemTexts] at hn
    obtain ⟨m, rfl⟩ : ∃ m, n = m + 1 := ⟨n - 1, by omega⟩
    rw [readItems?, readValue?_append ws hws,
      hvs v List.mem_cons_self _ _ _ (follows_blockRest _ _ _ _) (by omega)]
    simp only [itemTexts, Option.bind_eq_bind, Option.bind_some, skipSpace_blockRest_cons]
    rw [ih (fun u hu => hvs u (List.mem_cons_of_mem _ hu)) _ (newLine_isSpace _) (by omega)]
    rfl

theorem readsWhole_array {items : List JsonValue} (hplain : PlainItems items)
    (hitems : ∀ v ∈ items, ReadsWhole v) : ReadsWhole (.array items) := by
  intro n depth rest _ hn
  obtain ⟨m, rfl⟩ : ∃ m, n = m + 1 := ⟨n - 1, by omega⟩
  cases items with
  | nil => rfl
  | cons v vs =>
    have hv := hplain.1
    obtain ⟨c, r, hc, -, hclose, -⟩ := textAt_head hv (depth + 1)
    have hlength : (textAt depth (.array (v :: vs)) ++ rest).length < m + 1 + rest.length := by
      rw [List.length_append]
      omega
    rw [textAt, itemTexts, block_cons, List.cons_append, List.cons_append, List.length_cons,
      List.append_assoc, List.length_append, List.length_append] at hlength
    have hread := readItems?_whole depth rest hitems (n := m) [] (List.forall_mem_nil _) (by omega)
    rw [textAt, itemTexts, block_cons, List.cons_append, List.cons_append, readValue?,
      skipSpace_cons (by decide)]
    simp only [List.append_assoc, skipSpace_append (newLine_isSpace _), skipSpace_textAt hv]
    split
    · next heq =>
      rw [hc] at heq
      exact absurd (List.cons.inj heq).1 hclose
    · rw [← List.nil_append (textAt (depth + 1) v ++ _), hread]
      rfl

/-- Reading entries that begin with the text of one goes on after that one. -/
theorem readEntries?_entry (hv : ReadsWhole v) (key : Text) (depth : Nat) (lines : List Text)
    {ws : Text} (hws : ∀ c ∈ ws, isSpace c = true) (hn : (textAt (depth + 1) v).length < n) :
    readEntries? (n + 1) (ws ++ entryStart key v depth lines rest) =
      match skipSpace (blockRest '\x7d' depth lines rest) with
      | '\x7d' :: r => some ([(some key, v)], r)
      | ',' :: r => (readEntries? n r).map fun p => ((some key, v) :: p.1, p.2)
      | _ => none := by
  have hvalue := hv n (depth + 1) _ (follows_blockRest '\x7d' depth lines rest) hn
  rw [← readValue?_append [' '] (List.all_eq_true.1 (by decide)), List.singleton_append] at hvalue
  rw [readEntries?, skipSpace_append hws, entryStart, skipSpace_cons (by decide)]
  simp only
  rw [quoted?_escaped key (lt_length_escaped key _)]
  simp only [Option.bind_eq_bind, Option.bind_some, skipSpace_cons (c := ':') (by decide)]
  exact congrArg (Option.bind · _) hvalue

theorem readEntries?_whole (depth : Nat) (rest : Text) {key : Text}
    {es : List (JsonText × JsonValue)}
    (hkeys : ∀ e ∈ es, e.1.isSome = true) (hes : ∀ e ∈ (some key, v) :: es, ReadsWhole e.2)
    (ws : Text) (hws : ∀ c ∈ ws, isSpace c = true)
    (hn : (textAt (depth + 1) v).length +
      (blockRest '\x7d' depth (entryTexts (depth + 1) es) rest).length ≤ n + rest.length) :
    readEntries? n (ws ++ entryStart key v depth (entryTexts (depth + 1) es) rest) =
      some ((some key, v) :: es, rest) := by
  induction es generalizing key v ws n with
  | nil =>
    have hv : ReadsWhole v := hes _ List.mem_cons_self
    have hend := lt_length_blockRest '\x7d' depth (entryTexts (depth + 1) []) rest
    obtain ⟨m, rfl⟩ : ∃ m, n = m + 1 := ⟨n - 1, by omega⟩
    rw [readEntries?_entry hv key depth _ hws (by omega)]
    simp only [entryTexts, skipSpace_blockRest_nil (c := '\x7d') (by decide)]
  | cons e es ih =>
    obtain ⟨key' | key', w⟩ := e
    · cases hkeys _ List.mem_cons_self
    have hv : ReadsWhole v := hes _ List.mem_cons_self
    rw [entryTexts_cons] at hn ⊢
    have hline := length_blockRest_cons '\x7d' depth
      ('"' :: (key'.flatMap escape ++ '"' :: ':' :: ' ' :: textAt (depth + 1) w))
      (entryTexts (depth + 1) es) rest
    have hend := lt_length_blockRest '\x7d' depth (entryTexts (depth + 1) es) rest
    simp only [List.length_cons, List.length_append] at hline
    obtain ⟨m, rfl⟩ : ∃ m, n = m + 1 := ⟨n - 1, by omega⟩
    have hrest := ih (fun u hu => hkeys u (List.mem_cons_of_mem _ hu))
      (fun u hu => hes u (List.mem_cons_of_mem _ hu)) (n := m) (newLine (depth + 1))
      (newLine_isSpace _) (by omega)
    rw [entryStart] at hrest
    rw [readEntries?_entry hv key depth _ hws (by omega)]
    simp only [skipSpace_blockRest_cons, List.cons_append, List.append_assoc, hrest,
      Option.map_some]

theorem readsWhole_object {entries : List (JsonText × JsonValue)}
    (hkeys : ∀ e ∈ entries, e.1.isSome = true) (hentries : ∀ e ∈ entries, ReadsWhole e.2) :
    ReadsWhole (.object entries) := by
  intro n depth rest _ hn
  obtain ⟨m, rfl⟩ : ∃ m, n = m + 1 := ⟨n - 1, by omega⟩
  cases entries with
  | nil => rfl
  | cons e es =>
    obtain ⟨key | key, v⟩ := e
    · cases hkeys _ List.mem_cons_self
    have hlength : (textAt depth (.object ((some key, v) :: es)) ++ rest).length <
        m + 1 + rest.length := by
      rw [List.length_append]
      omega
    rw [textAt, entryTexts_cons, block_cons] at hlength
    simp only [List.cons_append, List.append_assoc, List.length_cons, List.length_append] at hlength
    have hread :=
      readEntries?_whole depth rest (fun u hu => hkeys u (List.mem_cons_of_mem _ hu)) hentries
      [] (n := m) (List.forall_mem_nil _) (by omega)
    rw [List.nil_append, entryStart] at hread
    rw [textAt, entryTexts_cons, block_cons, List.cons_append, List.cons_append, readValue?,
      skipSpace_cons (by decide)]
    simp only [List.append_assoc, List.cons_append, skipSpace_append (newLine_isSpace _),
      skipSpace_cons (c := '"') (by decide)]
    exact congrArg (Option.map fun p => (object p.1, p.2)) hread

/-- **A value is read from its text as itself.** -/
theorem Readable.readsWhole (h : Readable v) : ReadsWhole v := by
  induction h with
  | null => exact readsWhole_null
  | bool b => exact readsWhole_bool b
  | number h => exact readsWhole_number h
  | string s => exact readsWhole_string s
  | array h ih => exact readsWhole_array (plainItems_of_forall fun w hw => (h w hw).plain) ih
  | object hkeys _ ih => exact readsWhole_object hkeys ih

theorem Readable.read?_text (h : Readable v) : read? v.text = some v := by
  have hread := h.readsWhole (2 * v.text.length + 2) 0 [] follows_nil
    (by rw [← text]; omega)
  rw [List.append_nil, ← text] at hread
  rw [read?, hread]
  rfl

/-- A number that can be read at all is accepted. -/
theorem number?_of_read? {w : Text} (hw : Plain (.number w)) (h : read? w = some v) :
    number? w = some (w, []) := by
  obtain ⟨⟨v', r⟩, hread, hend⟩ := Option.bind_eq_some_iff.1 h
  obtain ⟨hne, hnumeric⟩ := hw
  obtain ⟨c, w, rfl⟩ := List.exists_cons_of_ne_nil hne
  rw [readValue?_of_isNumeric (hnumeric c List.mem_cons_self)] at hread
  obtain ⟨p, hp, heq⟩ := Option.map_eq_some_iff.1 hread
  cases heq
  have htakes : Takes (c :: w) [] p :=
    number?_takes_exactly hnumeric follows_nil (by rwa [List.append_nil])
  rcases htakes with rfl | ⟨c', r', hr, hc'⟩
  · exact hp
  · simp only [skipSpace_of_isNumeric hr hc'] at hend
    cases hend

end LayeredConfig.JsonValue
