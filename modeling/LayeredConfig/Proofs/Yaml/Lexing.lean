import LayeredConfig.Proofs.Yaml.Plain

/-!
# Lexing, token by token

Between two tokens the lexer skips a gap and closes the blocks that end there. A run is followed
here from one such place to the next, for the tokens of a block sequence whose items are phrases and
pairs of phrases.
-/
namespace LayeredConfig.Yaml

open Outcome

namespace Lexer

/-- Up to the next token: over the gap, and out of the blocks that end there. -/
def settle (l : Lexer) : Except Fault Lexer := do
  let l ← (skipGap (l.cursor.rest.length + 1) l).dropStale
  .ok (l.unindent l.cursor.column)

/-- From a token to the end. -/
def finish (fuel : Nat) (l : Lexer) : Except Fault (List Token) :=
  match l.cursor.rest with
  | [] => do
    let l ← l.outside
    .ok l.tokens.reverse
  | x :: r => do
    let l ← l.token x r
    run fuel l

theorem run_succ (fuel : Nat) (l : Lexer) : run (fuel + 1) l = l.settle >>= finish fuel := by
  rw [run, settle]
  cases (skipGap (l.cursor.rest.length + 1) l).dropStale with
  | error f => rfl
  | ok l => rfl

theorem cursor_unindent (l : Lexer) (column : Int) : (l.unindent column).cursor = l.cursor := by
  have hclose : ∀ (fuel : Nat) (l : Lexer), (closeBlocks column fuel l).cursor = l.cursor := by
    intro fuel
    induction fuel with
    | zero => exact fun _ => rfl
    | succ fuel ih =>
      intro l
      rw [closeBlocks]
      split
      · rfl
      · exact ih _
  rw [unindent]
  split
  · rfl
  · exact hclose _ l

/-- Nothing is skipped at the end of the text. -/
theorem skipGap_nil {l : Lexer} (hl : l.cursor.rest = []) (fuel : Nat) :
    skipGap (fuel + 1) l = l := by
  obtain ⟨⟨rest, line, column⟩, tokens, indent, outer, candidate, candidates, keyAllowed⟩ := l
  cases hl
  exact skipGap_run ⟨⟨[], line, column⟩, tokens, indent, outer, candidate, candidates, keyAllowed⟩
    (s := []) (r := []) (by simp) (by simp) line column fuel

/-- The tokens that are found from a place on. -/
def Finds (l : Lexer) (ts : List Token) : Prop := ∃ fuel, finish fuel l = .ok ts

theorem finds_of_run {l : Lexer} {fuel : Nat} {ts : List Token} (h : run fuel l = .ok ts) :
    ∃ l', l.settle = .ok l' ∧ Finds l' ts := by
  cases fuel with
  | zero => cases h
  | succ fuel =>
    rw [run_succ] at h
    obtain ⟨l', hsettle, h⟩ := bind_eq_ok.1 h
    exact ⟨l', hsettle, fuel, h⟩

/-- The next token, and the place behind it. -/
theorem Finds.token {l : Lexer} {ts : List Token} (h : Finds l ts) {x : Char} {r : Text}
    (hrest : l.cursor.rest = x :: r) :
    ∃ l₁ l₂, l.token x r = .ok l₁ ∧ l₁.settle = .ok l₂ ∧ Finds l₂ ts := by
  obtain ⟨fuel, h⟩ := h
  rw [finish, hrest] at h
  obtain ⟨l₁, htoken, h⟩ := bind_eq_ok.1 h
  obtain ⟨l₂, hsettle, h⟩ := finds_of_run h
  exact ⟨l₁, l₂, htoken, hsettle, h⟩

/-- A step that is known to succeed. -/
theorem Finds.step {l l₁ l₂ : Lexer} {ts : List Token} (h : Finds l ts) {x : Char} {r : Text}
    (hrest : l.cursor.rest = x :: r) (htoken : l.token x r = .ok l₁)
    (hsettle : l₁.settle = .ok l₂) : Finds l₂ ts := by
  obtain ⟨l₃, l₄, htoken', hsettle', h⟩ := h.token hrest
  cases htoken.symm.trans htoken'
  cases hsettle.symm.trans hsettle'
  exact h

/-- A state outside brackets. -/
def flat (cursor : Cursor) (tokens : List Token) (indent : Int) (outer : List Int)
    (candidate : Option Candidate) (keyAllowed : Bool) : Lexer :=
  { cursor, tokens, indent, outer, candidate, candidates := [], keyAllowed }

/-- A state outside brackets in which nothing read before can turn out to be a key. -/
abbrev idle (cursor : Cursor) (tokens : List Token) (indent : Int) (outer : List Int)
    (keyAllowed : Bool) : Lexer := flat cursor tokens indent outer none keyAllowed

theorem start_eq_idle (s : Text) : start s = idle ⟨s, 0, 0⟩ [] (-1) [] true := rfl

variable {T : List Token} {indent : Int} {outer : List Int} {b : Bool} {c : Cursor}

theorem unindent_flat_of_le {column : Int} (h : indent ≤ column) (candidate : Option Candidate) :
    (flat c T indent outer candidate b).unindent column = flat c T indent outer candidate b := by
  show closeBlocks column (outer.length + 1) _ = _
  rw [closeBlocks]
  exact if_pos h

theorem unindent_idle_of_lt {column up : Int} (h : column < indent) :
    (idle c T indent (up :: outer) b).unindent column =
      (idle c (.blockEnd :: T) up outer b).unindent column := by
  show closeBlocks column (outer.length + 1 + 1) _ = _
  rw [closeBlocks]
  exact if_neg (Int.not_le.2 h)

/-- Over a gap, where a candidate is given up if the gap goes on to another line. -/
theorem settle_of_skipGap {l : Lexer} (hflow : l.candidates = []) {c : Cursor} {b : Bool}
    (h : skipGap (l.cursor.rest.length + 1) l = { l with cursor := c, keyAllowed := b })
    (hk : ∀ k ∈ l.candidate, k.required = false ∧ k.line < c.line) :
    l.settle = .ok ((idle c l.tokens l.indent l.outer b).unindent c.column) := by
  have hdrop : dropStale { l with cursor := c, keyAllowed := b } =
      .ok (idle c l.tokens l.indent l.outer b) := by
    obtain ⟨cursor, tokens, indent, outer, candidate, candidates, keyAllowed⟩ := l
    cases hflow
    cases candidate with
    | none => rfl
    | some k =>
      obtain ⟨hrequired, hline⟩ := hk k rfl
      simp only [dropStale, isStale, hrequired, hline, decide_true, Bool.true_or, if_true,
        Bool.false_eq_true, if_false]
      rfl
  rw [settle, h, hdrop]
  rfl

/-- A dash before white space or at the end of the text begins an item. -/
theorem token_dash {r : Text} (hr : gapAhead r = true) (line k : Nat) :
    (idle ⟨'-' :: r, line, k⟩ T indent outer b).token '-' r =
      (idle ⟨'-' :: r, line, k⟩ T indent outer b).blockEntry := by
  have hmarker : (⟨'-' :: r, line, k⟩ : Cursor).atMarker = false := by
    rw [Cursor.atMarker, Bool.and_eq_false_iff]
    right
    split
    · next heq =>
      cases heq
      simp [gapAhead, isSpaceOrTab, isBreak] at hr
    · next heq => cases heq
    · rfl
  simp [token, flat, hmarker, hr]

theorem openBlockHere_of_lt (c : Cursor) (h : indent < c.column) (t : Token) :
    (idle c T indent outer true).openBlockHere t =
      .ok (idle c (t :: T) c.column (indent :: outer) true) := by
  simp [openBlockHere, inFlow, flat, openBlock, emitAt, h]

theorem openBlockHere_of_eq (c : Cursor) (h : indent = c.column) (t : Token) :
    (idle c T indent outer true).openBlockHere t = .ok (idle c T indent outer true) := by
  simp [openBlockHere, inFlow, flat, openBlock, h]

/-- A gap before a token that stands inside the innermost block. -/
theorem settle_margin {ts : List Text} (hts : ∀ s ∈ ts, IsFiller s) {k : Nat} {r : Text}
    (hr : IsSettled r) {line column : Nat}
    (hindent : indent ≤ (if ts = [] then column + k else k : Nat)) :
    (idle ⟨margin ts k ++ r, line, column⟩ T indent outer b).settle =
      .ok (idle ⟨r, line + ts.length, if ts = [] then column + k else k⟩ T indent outer
        (b || ts ≠ [])) := by
  have hfuel : ts.length < (margin ts k ++ r).length + 1 := by
    have := length_margin ts k
    rw [List.length_append]
    omega
  have hgap :=
    skipGap_margin (l := idle ⟨r, line, column⟩ T indent outer b) rfl hts (k := k) hr line
    column _ hfuel
  have hsettle := settle_of_skipGap
    (l := idle ⟨margin ts k ++ r, line, column⟩ T indent outer b) rfl hgap (by simp [flat])
  rw [hsettle]
  exact congrArg _ (unindent_flat_of_le hindent none)

theorem settle_blanks {n : Nat} {r : Text} (hr : IsSettled r) {line column : Nat}
    (hindent : indent ≤ (column + n : Nat)) :
    (idle ⟨List.replicate n ' ' ++ r, line, column⟩ T indent outer b).settle =
      .ok (idle ⟨r, line, column + n⟩ T indent outer b) := by
  rw [← margin_nil, settle_margin (List.forall_mem_nil _) hr (by simpa using hindent)]
  simp

/-- The dash of the first item of a sequence that is indented further than what is around it. -/
theorem Finds.firstDash {r : Text} (hr : IsSettled r) {line k : Nat} {ts : List Token}
    (h : Finds (idle ⟨'-' :: ' ' :: r, line, k⟩ T indent outer true) ts) (hk : indent < k) :
    Finds (idle ⟨r, line, k + 2⟩ (.blockEntry :: .blockSequenceStart :: T) k (indent :: outer) true)
      ts := by
  have htoken : (idle ⟨'-' :: ' ' :: r, line, k⟩ T indent outer true).token '-' (' ' :: r) =
      .ok (idle ⟨List.replicate 1 ' ' ++ r, line, k + 1⟩ (.blockEntry :: .blockSequenceStart :: T) k
        (indent :: outer) true) := by
    rw [token_dash rfl, blockEntry, openBlockHere_of_lt _ hk]
    rfl
  exact h.step rfl htoken (settle_blanks hr (by omega))

/-- The dash of a further item. -/
theorem Finds.dash {r : Text} (hr : IsSettled r) {line k : Nat} {ts : List Token}
    (h : Finds (idle ⟨'-' :: ' ' :: r, line, k⟩ T k outer true) ts) :
    Finds (idle ⟨r, line, k + 2⟩ (.blockEntry :: T) k outer true) ts := by
  have htoken : (idle ⟨'-' :: ' ' :: r, line, k⟩ T k outer true).token '-' (' ' :: r) =
      .ok (idle ⟨List.replicate 1 ' ' ++ r, line, k + 1⟩ (.blockEntry :: T) k outer true) := by
    rw [token_dash rfl, blockEntry, openBlockHere_of_eq _ rfl]
    rfl
  exact h.step rfl htoken (settle_blanks hr (by omega))

/-- A plain scalar begins with a plain character, a dash only if it goes on. -/
theorem token_plain {x : Char} (hx : isPlainChar x = true) {r : Text}
    (hdash : x = '-' → gapAhead r = false) {l : Lexer} (hmarker : l.cursor.atMarker = false)
    (hflow : l.inFlow = false) : l.token x r = l.plain := by
  obtain ⟨hblank, hbreak⟩ := isPlainChar_not_blank hx
  have hsigns := (isPlainChar_iff.1 hx).2
  simp only [List.mem_cons, List.not_mem_nil, not_or, or_false] at hsigns
  by_cases hd : x = '-'
  · subst hd
    have hr := hdash rfl
    have hnext : r.head?.any isSpaceOrTab = false := by
      cases r with
      | nil => rfl
      | cons y r =>
        rw [gapAhead, Bool.or_eq_false_iff] at hr
        exact hr.1
    simp [token, hmarker, hflow, hr, beginsPlain, hnext]
  · simp [token, hmarker, hflow, hsigns, beginsPlain, hblank, hbreak, hd]

/-- A phrase is read as a plain scalar. -/
theorem token_phrase {x : Char} {s : Text} (hs : IsPhrase (x :: s)) (r : Text) {line column : Nat}
    (hcolumn : column ≠ 0 ∨ x ≠ '-' ∧ x ≠ '.') {l : Lexer}
    (hl : l.cursor = ⟨x :: s ++ r, line, column⟩) (hflow : l.inFlow = false) :
    l.token x (s ++ r) = l.plain := by
  have hmarker : l.cursor.atMarker = false := by
    rw [hl]
    exact Plain.atMarker_phrase hs r (by simpa using hcolumn)
  obtain ⟨_, _, heq, hx⟩ := hs.exists_cons
  cases heq
  refine token_plain hx (fun hdash => ?_) hmarker hflow
  subst hdash
  obtain ⟨y, t, rfl, hy⟩ := hs.of_dash
  obtain ⟨hblank, hbreak⟩ := isPlainChar_not_blank hy
  simp [gapAhead, hblank, hbreak]

/-- The candidate that a scalar makes. -/
def noted (T : List Token) (indent : Int) (c : Cursor) (keyAllowed : Bool) : Option Candidate :=
  if keyAllowed then some ⟨T.length, c.line, c.column, decide (indent = c.column)⟩ else none

theorem plain_idle {s : Text} {broken : Bool} {c c' : Cursor}
    (h : Plain.read false indent c = .ok (s, broken, c')) :
    (idle c T indent outer b).plain = .ok
      (flat c' (.scalar s true :: T) indent outer (noted T indent c b) broken) := by
  have hnoted : (idle c T indent outer b).noteCandidate =
      .ok { idle c T indent outer b with candidate := noted T indent c b } := by
    cases b with
    | false => rfl
    | true => simp [noteCandidate, flat, dropCandidate, inFlow, noted]; rfl
  rw [plain, hnoted, ok_bind]
  show (Plain.read false indent c >>= _) = _
  rw [h]
  rfl

theorem token_scalar {x : Char} {s : Text} (hs : IsPhrase (x :: s)) {r : Text} {line column : Nat}
    (hcolumn : column ≠ 0 ∨ x ≠ '-' ∧ x ≠ '.') {broken : Bool} {c : Cursor}
    (h : Plain.read false indent ⟨x :: s ++ r, line, column⟩ = .ok (x :: s, broken, c)) :
    (idle ⟨x :: s ++ r, line, column⟩ T indent outer b).token x (s ++ r) = .ok
      (flat c (.scalar (x :: s) true :: T) indent outer
        (noted T indent ⟨x :: s ++ r, line, column⟩ b) broken) :=
  (token_phrase hs r hcolumn rfl rfl).trans (plain_idle h)

/-- A phrase at the end of a line. -/
theorem Finds.line {p : Text} (hp : IsPhrase p) {t : Text} {ts : List Text}
    (hts : ∀ s ∈ t :: ts, IsFiller s) (hmark : t.head? ≠ some '#') {k : Nat} {r : Text}
    (hr : IsSettled r) (hk : (k : Int) ≤ indent) {line column : Nat} (hcolumn : column ≠ 0)
    (hindent : indent < column) {found : List Token}
    (h : Finds (idle ⟨p ++ (margin (t :: ts) k ++ r), line, column⟩ T indent outer b) found) :
    Finds
      ((idle ⟨r, line + (t :: ts).length, k⟩ (.scalar p true :: T) indent outer true).unindent k)
      found := by
  obtain ⟨broken, c, hread, hgap⟩ := Plain.read_line hp hts hmark hr hk line
    (Or.inl hcolumn) hindent
  obtain ⟨x, s, rfl, -⟩ := hp.exists_cons
  have hskip := hgap (flat c (.scalar (x :: s) true :: T) indent outer
    (noted T indent ⟨x :: s ++ (margin (t :: ts) k ++ r), line, column⟩ b) broken) rfl
  have hlater : ∀ key ∈ noted T indent ⟨x :: s ++ (margin (t :: ts) k ++ r), line, column⟩ b,
      key.required = false ∧ key.line < line + (t :: ts).length := by
    intro key hkey
    unfold noted at hkey
    split at hkey
    · cases hkey
      constructor
      · simp only [decide_eq_false_iff_not]
        omega
      · simp only [List.length_cons]
        omega
    · cases hkey
  exact h.step rfl (token_scalar hp (Or.inl hcolumn) hread) (settle_of_skipGap rfl hskip hlater)

theorem isSettled_colon (r : Text) : IsSettled (':' :: r) := by
  intro x hx
  cases hx
  decide

theorem token_colon {l : Lexer} {r : Text} (hr : gapAhead r = true) {line column : Nat}
    (hl : l.cursor = ⟨':' :: r, line, column⟩) : l.token ':' r = l.value := by
  have hmarker : l.cursor.atMarker = false := by simp [hl, Cursor.atMarker]
  simp [token, hmarker, hr]

/-- At a colon a candidate is given up only if it began too far back on the line. -/
theorem settle_colon {k : Candidate} (hk : k.required = false) {r : Text} {line column : Nat}
    (hindent : indent ≤ column) :
    (flat ⟨':' :: r, line, column⟩ T indent outer (some k) false).settle =
      .ok (flat ⟨':' :: r, line, column⟩ T indent outer
        (if isStale ⟨':' :: r, line, column⟩ k then none else some k) false) := by
  have hskip : skipGap ((':' :: r).length + 1)
      (flat ⟨':' :: r, line, column⟩ T indent outer (some k) false) =
        flat ⟨':' :: r, line, column⟩ T indent outer (some k) false :=
    skipGap_blanks (flat ⟨':' :: r, line, column⟩ T indent outer (some k) false) (n := 0)
      (isSettled_colon r) line column (':' :: r).length
  have hdrop : (flat ⟨':' :: r, line, column⟩ T indent outer (some k) false).dropStale =
      .ok (flat ⟨':' :: r, line, column⟩ T indent outer
        (if isStale ⟨':' :: r, line, column⟩ k then none else some k) false) := by
    simp only [dropStale, flat, hk]
    split <;> rfl
  show (skipGap ((':' :: r).length + 1) _).dropStale >>= _ = _
  rw [hskip, hdrop, ok_bind]
  exact congrArg _ (unindent_flat_of_le hindent _)

/-- The key of a candidate, where it opens a block mapping. -/
theorem value_flat {r : Text} {line column start : Nat} (hindent : indent < start) (p : Text) :
    (flat ⟨':' :: r, line, column⟩ (.scalar p true :: T) indent outer
      (some ⟨T.length, line, start, false⟩) false).value =
    .ok (idle ⟨r, line, column + 1⟩ (.value :: .scalar p true :: .key :: .blockMappingStart :: T)
      start (indent :: outer) false) := by
  have htake : T.length + 1 + 1 - T.length = 2 := by omega
  simp [value, flat, emitAt, openBlock, inFlow, hindent, emit, htake, Cursor.next, isBreak]

/-- A colon makes the phrase before it a key, if that one has not become too long. -/
theorem Finds.key {p : Text} (hp : IsPhrase p) {r : Text} (hr : gapAhead r = true)
    {line column : Nat} (hcolumn : column ≠ 0 ∨ p.head? ≠ some '-' ∧ p.head? ≠ some '.')
    (hindent : indent < column) {found : List Token}
    (h : Finds (idle ⟨p ++ ':' :: r, line, column⟩ T indent outer true) found) : ∃ l,
    (idle ⟨r, line, column + p.length + 1⟩
      (.value :: .scalar p true :: .key :: .blockMappingStart :: T) column (indent :: outer)
        false).settle = .ok l ∧ Finds l found := by
  obtain ⟨x, s, rfl, -⟩ := hp.exists_cons
  have hread := Plain.read_key hp hr line hcolumn hindent
  have hrequired : decide (indent = (column : Int)) = false :=
    decide_eq_false (Int.ne_of_lt hindent)
  have h := h.step rfl (token_scalar hp (by simpa using hcolumn) hread)
    (settle_colon hrequired (by omega))
  obtain ⟨l₁, l₂, htoken, hsettle, h⟩ := h.token rfl
  rw [token_colon hr rfl] at htoken
  split at htoken
  · cases htoken
  · rw [hrequired, value_flat hindent] at htoken
    cases htoken
    exact ⟨l₂, hsettle, h⟩

end Lexer
end LayeredConfig.Yaml
