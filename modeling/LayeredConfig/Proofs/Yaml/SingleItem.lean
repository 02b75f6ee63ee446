import LayeredConfig.Proofs.Yaml.Growth
import LayeredConfig.Proofs.Yaml.ListNode
import LayeredConfig.Proofs.Yaml.Scan

/-!
# A line with one item

What a text is read as that is one line with a dash: a sequence of one item, which is a plain scalar
or a mapping that a plain scalar begins. The line may end in a comment. Unlike for a longer list,
where a text that cannot be read is left aside, it is said here when the line can be read.
-/
namespace LayeredConfig.Yaml

open Outcome

/-- A text that begins with a plain scalar. -/
def BeginsPlain (s : Text) : Prop :=
  ∃ x r, s = x :: r ∧ isPlainChar x = true ∧ (x = '-' → gapAhead r = false)

/-- What is left of a line that holds nothing more than a comment. -/
def IsRemark (s : Text) : Prop := s = [] ∨ s.head? = some '#'

/-- Behind a plain scalar a line holds nothing more than a comment, or the scalar is a key. -/
theorem isRemark_or_key (s : Text) : IsRemark (Plain.left [] s) ∨
    ∃ r, Plain.left [] s = ':' :: r ∧ gapAhead r = true := by
  rcases Plain.left_cases (List.forall_mem_nil _) s with hend | ⟨b, x, r, hleft, hends, -⟩
  · exact Or.inl (Or.inl hend)
  · rcases hends with ⟨rfl, -⟩ | ⟨rfl, hr⟩
    · exact Or.inl (Or.inr (by rw [hleft]; rfl))
    · exact Or.inr ⟨r, hleft, hr⟩

/-- A comment behind blanks does not belong to a scalar. -/
theorem scan_remark {b q : Text} (hb : ∀ x ∈ b, isSpaceOrTab x = true) (hq : IsRemark q)
    (hapart : q = [] ∨ b ≠ []) : (Plain.scan [] (b ++ q)).1 = [] ∧ Plain.left [] (b ++ q) = q := by
  rw [Plain.left, Plain.scan_blanks [] hb, List.nil_append, ← Plain.left]
  rcases hq with rfl | hmark
  · exact ⟨rfl, Plain.left_nil hb⟩
  · obtain ⟨q, rfl⟩ := List.head?_eq_some_iff.1 hmark
    have hne := hapart.resolve_left (List.cons_ne_nil _ _)
    rw [Plain.scan_comment hne, Plain.left_ends hb (Or.inl ⟨rfl, hne⟩)]
    exact ⟨rfl, rfl⟩

/-- A comment that touches a scalar belongs to it. -/
theorem mem_scan_touching (s : Text) : '#' ∈ (Plain.scan [] ('#' :: s)).1 := by
  rw [Plain.scan_cons rfl (by simp) (by simp)]
  exact List.mem_append_right _ List.mem_cons_self

theorem blanks_cases {a : Text} (ha : ∀ x ∈ a, isSpaceOrTab x = true) :
    (∃ n, a = List.replicate n ' ') ∨ ∃ n r, a = List.replicate n ' ' ++ '\t' :: r := by
  induction a with
  | nil => exact Or.inl ⟨0, rfl⟩
  | cons x a ih =>
    obtain ⟨hx, hblanks⟩ := List.forall_mem_cons.1 ha
    simp only [isSpaceOrTab, Bool.or_eq_true, beq_iff_eq] at hx
    rcases hx with rfl | rfl
    · rcases ih hblanks with ⟨n, rfl⟩ | ⟨n, r, rfl⟩
      · exact Or.inl ⟨n + 1, rfl⟩
      · exact Or.inr ⟨n + 1, r, rfl⟩
    · exact Or.inr ⟨0, a, rfl⟩

theorem BeginsPlain.isSettled {s : Text} (h : BeginsPlain s) (r : Text) : IsSettled (s ++ r) := by
  obtain ⟨x, s, rfl, hx, -⟩ := h
  obtain ⟨hblank, hbreak⟩ := isPlainChar_not_blank hx
  have hmark := (isPlainChar_iff.1 hx).2
  rintro y ⟨⟩
  refine ⟨hblank, hbreak, ?_, ?_⟩ <;> rintro rfl <;> simp at hmark

namespace Lexer

variable {T : List Token} {indent : Int} {outer : List Int} {b : Bool} {c : Cursor}
  {candidate : Option Candidate} {e : Text}

theorem finish_step {fuel : Nat} {l l₁ l₂ : Lexer} {x : Char} {r : Text}
    (hrest : l.cursor.rest = x :: r)
    (htoken : l.token x r = .ok l₁) (hsettle : l₁.settle = .ok l₂) :
    finish (fuel + 1) l = finish fuel l₂ := by
  rw [finish, hrest]
  dsimp only
  rw [htoken, ok_bind, run_succ, hsettle, ok_bind]

theorem finish_fault {fuel : Nat} {l : Lexer} {x : Char} {r : Text} {f : Fault}
    (hrest : l.cursor.rest = x :: r) (htoken : l.token x r = .error f) :
    finish fuel l = .error f := by
  rw [finish, hrest]
  dsimp only
  rw [htoken]
  rfl

/-- Over white space on a line. -/
theorem settle_run {s r : Text} {line column : Nat}
    (hs : ∀ x ∈ s, (idle ⟨s ++ r, line, column⟩ T indent outer b).skips x = true)
    (hr : ∀ x ∈ r.head?, (idle ⟨s ++ r, line, column⟩ T indent outer b).skips x = false ∧
      isBreak x = false ∧ x ≠ '#' ∧ x ≠ '\ufeff') (hindent : indent ≤ (column + s.length : Nat)) :
    (idle ⟨s ++ r, line, column⟩ T indent outer b).settle =
      .ok (idle ⟨r, line, column + s.length⟩ T indent outer b) := by
  have hskip :=
    skipGap_run (idle ⟨s ++ r, line, column⟩ T indent outer b) hs hr line column (s ++ r).length
  rw [settle_of_skipGap (l := idle ⟨s ++ r, line, column⟩ T indent outer b) rfl hskip
    (by simp [flat])]
  exact congrArg _ (unindent_flat_of_le hindent none)

/-- Where no key may begin, the white space may hold tabs. -/
theorem settle_gap {s : Text} (hs : ∀ x ∈ s, isSpaceOrTab x = true) {r : Text} (hr : IsSettled r)
    {line column : Nat} (hindent : indent ≤ (column + s.length : Nat)) :
    (idle ⟨s ++ r, line, column⟩ T indent outer false).settle =
      .ok (idle ⟨r, line, column + s.length⟩ T indent outer false) := by
  refine settle_run (fun x hx => ?_) (fun x hx => ⟨not_skips (hr x hx).1, (hr x hx).2⟩) hindent
  simpa [skips, inFlow, flat, isSpaceOrTab] using hs x hx

/-- A tab begins no token, and where a key may begin it is no white space. -/
theorem run_tab {n : Nat} {r : Text} {line column : Nat} (hindent : indent ≤ (column + n : Nat))
    (fuel : Nat) :
    run (fuel + 1) (idle ⟨List.replicate n ' ' ++ '\t' :: r, line, column⟩ T indent outer true) =
      .error .lexical := by
  have hblanks : ∀ x ∈ List.replicate n ' ',
      (idle ⟨List.replicate n ' ' ++ '\t' :: r, line, column⟩ T indent outer true).skips x =
        true := by
    intro x hx
    rw [List.eq_of_mem_replicate hx]
    rfl
  have hsettle := settle_run hblanks
    (by rintro x ⟨⟩; exact ⟨rfl, by decide, by decide, by decide⟩) (by rwa [List.length_replicate])
  have htoken : (idle ⟨'\t' :: r, line, column + (List.replicate n ' ').length⟩ T indent outer
      true).token '\t' r = .error .lexical := by
    simp [token, Cursor.atMarker, flat, beginsPlain, isSpaceOrTab]
  rw [run_succ, hsettle, ok_bind]
  exact finish_fault rfl htoken

/-- The columns of blocks one inside the other, up to the outermost place. -/
def Nested : (indent : Int) → (outer : List Int) → Prop
  | indent, [] => indent = -1
  | indent, up :: outer => up < indent ∧ Nested up outer

theorem Nested.le (h : Nested indent outer) : -1 ≤ indent := by
  induction outer generalizing indent with
  | nil => exact Int.le_of_eq h.symm
  | cons up outer ih => exact Int.le_trans (ih h.2) (Int.le_of_lt h.1)

theorem unindent_flat_of_lt {column up : Int} (h : column < indent) :
    (flat c T indent (up :: outer) candidate b).unindent column =
      (flat c (.blockEnd :: T) up outer candidate b).unindent column := by
  show closeBlocks column (outer.length + 1 + 1) _ = _
  rw [closeBlocks]
  exact if_neg (Int.not_le.2 h)

/-- All blocks are closed in the end. -/
theorem unindent_all (h : Nested indent outer) :
    (flat c T indent outer candidate b).unindent (-1) =
      flat c (List.replicate outer.length .blockEnd ++ T) (-1) [] candidate b := by
  induction outer generalizing indent T with
  | nil =>
    obtain rfl : indent = -1 := h
    exact unindent_flat_of_le (Int.le_refl _) candidate
  | cons up outer ih =>
    have hlt : -1 < indent := Int.lt_of_le_of_lt h.2.le h.1
    rw [unindent_flat_of_lt hlt, ih h.2, List.length_cons, List.replicate_succ']
    simp

theorem unindent_unindent (h : Nested indent outer) {column : Int} (hcolumn : -1 ≤ column) :
    ((flat c T indent outer candidate b).unindent column).unindent (-1) =
      (flat c T indent outer candidate b).unindent (-1) := by
  induction outer generalizing indent T with
  | nil =>
    obtain rfl : indent = -1 := h
    rw [unindent_flat_of_le hcolumn]
  | cons up outer ih =>
    by_cases hle : indent ≤ column
    · rw [unindent_flat_of_le hle]
    · have hlt := Int.not_le.1 hle
      rw [unindent_flat_of_lt hlt, ih h.2, unindent_flat_of_lt (Int.lt_of_le_of_lt hcolumn hlt)]

theorem finish_end (hc : c.rest = []) (h : Nested indent outer)
    (hcandidate : ∀ k ∈ candidate, k.required = false) {column : Int} (hcolumn : -1 ≤ column)
    (fuel : Nat) : finish fuel ((flat c T indent outer candidate b).unindent column) =
      .ok (T.reverse ++ List.replicate outer.length .blockEnd) := by
  have hrest : ((flat c T indent outer candidate b).unindent column).cursor.rest = [] := by
    rw [cursor_unindent]
    exact hc
  have hdrop :
      (flat c (List.replicate outer.length .blockEnd ++ T) (-1) [] candidate b).dropCandidate =
      .ok (idle c (List.replicate outer.length .blockEnd ++ T) (-1) [] b) := by
    cases candidate with
    | none => rfl
    | some k => simp [dropCandidate, flat, hcandidate k rfl]
  rw [finish, hrest]
  dsimp only
  rw [outside, unindent_unindent h hcolumn, unindent_all h, hdrop, ok_bind, ok_bind]
  simp [flat]

/-- White space and a comment at the end of the text are skipped. -/
theorem skipGap_trail (l : Lexer) (he : IsEnding e) {a q : Text} (ha : ∀ x ∈ a, l.skips x = true)
    (hq : IsRemark q) (hline : ∀ x ∈ q, isBreak x = false) (line column : Nat) : ∃ c b,
    skipGap ((a ++ q ++ e).length + 1) { l with cursor := ⟨a ++ q ++ e, line, column⟩ } =
      { l with cursor := c, keyAllowed := b } ∧ c.rest = [] := by
  have hstop : ∀ x ∈ (q ++ e).head?, l.skips x = false ∧ x ≠ '\ufeff' := by
    intro x hx
    rcases hq with rfl | hmark
    · rcases he with rfl | rfl
      · cases hx
      · cases hx
        exact ⟨not_skips rfl, by decide⟩
    · obtain ⟨q, rfl⟩ := List.head?_eq_some_iff.1 hmark
      cases hx
      exact ⟨not_skips rfl, by decide⟩
  have hbom : ¬ (column = 0 ∧ line = 0 ∧
      (⟨a ++ q ++ e, line, column⟩ : Cursor).peek = some '\ufeff') := by
    rintro ⟨-, -, hhead⟩
    rw [Cursor.peek, List.append_assoc] at hhead
    cases a with
    | nil => exact (hstop _ hhead).2 rfl
    | cons x a =>
      cases hhead
      have hx := ha '\ufeff' List.mem_cons_self
      simp [skips] at hx
  have hrun : (⟨a ++ q ++ e, line, column⟩ : Cursor).skipRun
      (fun x => x == ' ' || ((l.inFlow || ¬ l.keyAllowed) && x == '\t')) =
        ⟨q ++ e, line, column + a.length⟩ := by
    rw [List.append_assoc]
    exact Cursor.skipRun_append ha (fun x hx => (hstop x hx).1) line column
  have hcomment : ∃ column', (if (⟨q ++ e, line, column + a.length⟩ : Cursor).peek = some '#' then
        (⟨q ++ e, line, column + a.length⟩ : Cursor).skipRun (fun x => !isBreak x)
      else ⟨q ++ e, line, column + a.length⟩) = ⟨e, line, column'⟩ := by
    have hend : ∀ x ∈ e.head?, (!isBreak x) = false := by
      rcases he with rfl | rfl
      · simp
      · rintro x ⟨⟩
        rfl
    rcases hq with rfl | hmark
    · rw [if_neg (by rcases he with rfl | rfl <;> simp [Cursor.peek])]
      exact ⟨_, rfl⟩
    · rw [if_pos (by simp [Cursor.peek, hmark]),
        Cursor.skipRun_append (fun x hx => by simp [hline x hx]) hend]
      exact ⟨_, rfl⟩
  obtain ⟨column', hcomment⟩ := hcomment
  rw [skipGap]
  simp only [if_neg hbom, inFlow_cursor, hrun, hcomment]
  rcases he with rfl | rfl
  · exact ⟨⟨[], line, column'⟩, l.keyAllowed, rfl, rfl⟩
  · have hbreak : (⟨['\n'], line, column'⟩ : Cursor).atBreak = true := rfl
    have hfuel : (a ++ q ++ ['\n']).length = (a ++ q).length + 1 := List.length_append
    rw [if_pos hbreak, hfuel, Cursor.next_lineFeed, skipGap_nil rfl]
    exact ⟨_, _, rfl, rfl⟩

/-- **What follows the last token adds nothing but the ends of blocks.** -/
theorem run_trail (he : IsEnding e) {a q : Text}
    (ha : ∀ x ∈ a, (flat default T indent outer candidate b).skips x = true) (hq : IsRemark q)
    (hline : ∀ x ∈ q, isBreak x = false) (h : Nested indent outer)
    (hcandidate : ∀ k ∈ candidate, k.required = false) (line column fuel : Nat) :
    run (fuel + 1) (flat ⟨a ++ q ++ e, line, column⟩ T indent outer candidate b) =
      .ok (T.reverse ++ List.replicate outer.length .blockEnd) := by
  obtain ⟨c, b', hskip, hc⟩ :=
    skipGap_trail (flat default T indent outer candidate b) he ha hq hline
    line column
  have hdrop : ∃ candidate', (∀ k ∈ candidate', k.required = false) ∧
      (flat c T indent outer candidate b').dropStale =
        .ok (flat c T indent outer candidate' b') := by
    cases candidate with
    | none => exact ⟨none, by simp, rfl⟩
    | some k =>
      refine ⟨if isStale c k then none else some k, ?_, ?_⟩
      · intro key hkey
        split at hkey
        · cases hkey
        · exact hcandidate key hkey
      · simp only [dropStale, flat, hcandidate k rfl]
        split <;> rfl
  obtain ⟨candidate', hcandidate', hdrop⟩ := hdrop
  have hsettle : (flat ⟨a ++ q ++ e, line, column⟩ T indent outer candidate b).settle =
      .ok ((flat c T indent outer candidate' b').unindent c.column) := by
    show (skipGap ((a ++ q ++ e).length + 1) _).dropStale >>= _ = _
    rw [show skipGap ((a ++ q ++ e).length + 1)
        (flat ⟨a ++ q ++ e, line, column⟩ T indent outer candidate b) =
      flat c T indent outer candidate b' from hskip, hdrop, ok_bind]
    rfl
  rw [run_succ, hsettle, ok_bind]
  exact finish_end hc h hcandidate' (by omega) fuel

/-- The same from where the reader of a plain scalar stops. -/
theorem run_remark (he : IsEnding e) {r : Text} (hr : IsRemark r)
    (hline : ∀ x ∈ r, isBreak x = false) (h : Nested indent outer)
    (hcandidate : ∀ k ∈ candidate, k.required = false) (line column fuel : Nat) :
    run (fuel + 1) (flat (Plain.stop e r line column).2 T indent outer candidate
        (Plain.stop e r line column).1) =
      .ok (T.reverse ++ List.replicate outer.length .blockEnd) := by
  rw [Plain.stop]
  split
  · exact run_trail (e := []) (Or.inl rfl) (a := []) (q := []) (by simp) (Or.inl rfl) (by simp) h
      hcandidate (line + 1) 0 fuel
  · exact run_trail he (a := []) (by simp) hr hline h hcandidate line column fuel

variable {k : Nat} {s : Text}

theorem nested_item (k : Nat) : Nested k [-1] := ⟨by omega, rfl⟩

theorem nested_entry (k : Nat) : Nested (k + 2 : Nat) [(k : Int), -1] := ⟨by omega, nested_item k⟩

/-- Behind the dash of the item, with `r` left to be read. -/
def atItem (k : Nat) (r : Text) : Lexer :=
  idle ⟨r, 0, k + 2⟩ [.blockEntry, .blockSequenceStart] k [-1] true

/-- The dash of the only item. -/
theorem run_dash {r : Text} (hr : IsSettled r) (fuel : Nat) :
    run (fuel + 2) (start (List.replicate k ' ' ++ ('-' :: ' ' :: r))) =
      finish fuel (atItem k r) := by
  have hdash : IsSettled ('-' :: ' ' :: r) := by
    rintro x ⟨⟩
    decide
  have htoken : (idle ⟨'-' :: ' ' :: r, 0, k⟩ [] (-1) [] true).token '-' (' ' :: r) =
      .ok (idle ⟨List.replicate 1 ' ' ++ r, 0, k + 1⟩ [.blockEntry, .blockSequenceStart] k [-1]
        true) := by
    rw [token_dash rfl, blockEntry, openBlockHere_of_lt _ (by omega)]
    rfl
  rw [run_succ, start_eq_idle, settle_blanks hdash (by omega), ok_bind, Nat.zero_add]
  exact finish_step rfl htoken (settle_blanks hr (by omega))

/-- A plain scalar on the last line. -/
theorem token_scan (T : List Token) (outer : List Int) (b : Bool) (he : IsEnding e)
    (hs : BeginsPlain s) (hline : ∀ x ∈ s, isBreak x = false)
    (hindent : 0 ≤ indent) (column : Nat) (hcolumn : indent < column) : ∃ x r, s = x :: r ∧
    (idle ⟨s ++ e, 0, column⟩ T indent outer b).token x (r ++ e) = .ok (flat
      (Plain.stop e (Plain.left [] s) 0 (column + (s.length - (Plain.left [] s).length))).2
      (.scalar (Plain.scan [] s).1 true :: T) indent outer (noted T indent ⟨s ++ e, 0, column⟩ b)
      (Plain.stop e (Plain.left [] s) 0 (column + (s.length - (Plain.left [] s).length))).1) := by
  obtain ⟨x, r, rfl, hx, hdash⟩ := hs
  have hmarker : (⟨x :: r ++ e, 0, column⟩ : Cursor).atMarker = false := by
    have hne : column ≠ 0 := by omega
    simp [Cursor.atMarker, hne]
  have hhead : ∀ y ∈ (x :: r).head?, isSpaceOrTab y = false ∧ y ≠ '#' := by
    rintro y ⟨⟩
    refine ⟨(isPlainChar_not_blank hx).1, ?_⟩
    rintro rfl
    cases hx
  generalize hstop : Plain.stop e (Plain.left [] (x :: r)) 0
    (column + ((x :: r).length - (Plain.left [] (x :: r)).length)) = place
  have hread : Plain.read false indent ⟨x :: r ++ e, 0, column⟩ =
      .ok ((Plain.scan [] (x :: r)).1, place.1, place.2) := by
    rw [Plain.read_scan he hindent hline hhead 0 hcolumn, hstop]
  exact ⟨x, r, rfl,
    (token_plain hx (fun h => (gapAhead_ending he r).trans (hdash h)) hmarker rfl).trans
    (plain_idle hread)⟩

/-- The candidate that the first scalar of the item makes. -/
theorem noted_item (r : Text) : noted [.blockEntry, .blockSequenceStart] k ⟨r, 0, k + 2⟩ true =
    some ⟨2, 0, k + 2, false⟩ := by
  have hrequired : decide ((k : Int) = (k + 2 : Nat)) = false := decide_eq_false (by omega)
  rw [noted, if_pos rfl, hrequired]
  rfl

/-- An item that is a plain scalar. -/
theorem finish_scalar (he : IsEnding e) (hs : BeginsPlain s) (hline : ∀ x ∈ s, isBreak x = false)
    (hr : IsRemark (Plain.left [] s)) (fuel : Nat) :
    finish (fuel + 1) (atItem k (s ++ e)) =
      .ok [.blockSequenceStart, .blockEntry, .scalar (Plain.scan [] s).1 true, .blockEnd] := by
  obtain ⟨x, r, rfl, htoken⟩ := token_scan [.blockEntry, .blockSequenceStart] [-1] true he hs hline
    (Int.natCast_nonneg k) (k + 2) (by omega)
  rw [noted_item] at htoken
  rw [finish]
  show Lexer.token _ x (r ++ e) >>= _ = _
  rw [atItem, htoken, ok_bind, run_remark he hr (fun x hx => hline x (Plain.mem_of_mem_left hx))
    (nested_item k) (by simp)]
  rfl

/-- Behind the colon of a key in the item, with `r` left to be read. -/
def atValue (k : Nat) (key r : Text) (column : Nat) : Lexer :=
  idle ⟨r, 0, column⟩ [.value, .scalar key true, .key, .blockMappingStart, .blockEntry,
    .blockSequenceStart] (k + 2 : Nat) [k, -1] false

/-- An item that begins with a key, which may not be longer than 1024 characters with the blanks
behind it. -/
theorem finish_key (he : IsEnding e) (hs : BeginsPlain s) (hline : ∀ x ∈ s, isBreak x = false)
    {r : Text} (hleft : Plain.left [] s = ':' :: r) (hr : gapAhead r = true) (fuel : Nat) :
    finish (fuel + 1) (atItem k (s ++ e)) =
      if 1024 < s.length - (r.length + 1) then .error .lexical
      else run fuel
        (atValue k (Plain.scan [] s).1 (r ++ e) (k + 2 + (s.length - (r.length + 1)) + 1)) := by
  obtain ⟨x, t, rfl, htoken⟩ := token_scan [.blockEntry, .blockSequenceStart] [-1] true he hs hline
    (Int.natCast_nonneg k) (k + 2) (by omega)
  have hrest : (':' :: r).length = r.length + 1 := rfl
  rw [noted_item, hleft, hrest, Plain.stop, if_neg (by simp)] at htoken
  generalize (x :: t).length - (r.length + 1) = n at htoken ⊢
  have hgap : gapAhead (r ++ e) = true := (gapAhead_ending he r).trans hr
  rw [atItem, finish_step rfl htoken (settle_colon rfl (by omega)), finish]
  show Lexer.token _ ':' (r ++ e) >>= _ = _
  rw [token_colon hgap rfl]
  by_cases hn : 1024 < n
  · rw [if_pos hn, if_pos (by simp [isStale]; omega)]
    rfl
  · rw [if_neg hn, if_neg (by simp [isStale]; omega)]
    have hvalue : (flat ⟨':' :: (r ++ e), 0, k + 2 + n⟩ [.scalar (Plain.scan [] (x :: t)).1 true,
        .blockEntry, .blockSequenceStart] k [-1] (some ⟨2, 0, k + 2, false⟩) false).value =
          .ok (atValue k (Plain.scan [] (x :: t)).1 (r ++ e) (k + 2 + n + 1)) :=
      value_flat (by omega) _
    exact congrArg (· >>= run fuel) hvalue

section Value

variable {key a : Text} {column : Nat}

/-- A value that is a plain scalar. -/
theorem run_value (he : IsEnding e) (ha : ∀ x ∈ a, isSpaceOrTab x = true) (hs : BeginsPlain s)
    (hline : ∀ x ∈ s, isBreak x = false) (hr : IsRemark (Plain.left [] s))
    (hcolumn : k + 2 < column)
    (fuel : Nat) : run (fuel + 2) (atValue k key (a ++ (s ++ e)) column) =
      .ok [.blockSequenceStart, .blockEntry, .blockMappingStart, .key, .scalar key true, .value,
        .scalar (Plain.scan [] s).1 true, .blockEnd, .blockEnd] := by
  obtain ⟨x, r, rfl, htoken⟩ := token_scan
    [.value, .scalar key true, .key, .blockMappingStart, .blockEntry, .blockSequenceStart] [k, -1]
    false he hs hline (Int.natCast_nonneg (k + 2)) (column + a.length) (by omega)
  rw [run_succ, atValue, settle_gap ha (hs.isSettled e) (by omega), ok_bind, finish]
  show Lexer.token _ x (r ++ e) >>= _ = _
  rw [htoken, ok_bind, run_remark he hr (fun x hx => hline x (Plain.mem_of_mem_left hx))
    (nested_entry k) (by simp [noted])]
  rfl

/-- A value in which a key begins. -/
theorem run_value_key (he : IsEnding e) (ha : ∀ x ∈ a, isSpaceOrTab x = true) (hs : BeginsPlain s)
    (hline : ∀ x ∈ s, isBreak x = false) {r : Text} (hleft : Plain.left [] s = ':' :: r)
    (hr : gapAhead r = true) (hcolumn : k + 2 < column) (fuel : Nat) :
    run (fuel + 2) (atValue k key (a ++ (s ++ e)) column) = .error .lexical := by
  obtain ⟨x, t, rfl, htoken⟩ := token_scan
    [.value, .scalar key true, .key, .blockMappingStart, .blockEntry, .blockSequenceStart] [k, -1]
    false he hs hline (Int.natCast_nonneg (k + 2)) (column + a.length) (by omega)
  have hgap : gapAhead (r ++ e) = true := (gapAhead_ending he r).trans hr
  rw [hleft, Plain.stop, if_neg (by simp)] at htoken
  rw [run_succ, atValue, settle_gap ha (hs.isSettled e) (by omega), ok_bind,
    finish_step rfl htoken (settle_blanks (n := 0) (isSettled_colon _) (by omega))]
  exact finish_fault rfl ((token_colon hgap rfl).trans rfl)

/-- A dash where the value should stand. -/
theorem run_value_dash (ha : ∀ x ∈ a, isSpaceOrTab x = true) {r : Text} (hr : gapAhead r = true)
    (hcolumn : k + 2 < column) (fuel : Nat) :
    run (fuel + 1) (atValue k key (a ++ '-' :: r) column) = .error .lexical := by
  have hsettled : IsSettled ('-' :: r) := by
    rintro x ⟨⟩
    exact ⟨rfl, rfl, by decide, by decide⟩
  rw [run_succ, atValue, settle_gap ha hsettled (by omega), ok_bind]
  refine finish_fault rfl ?_
  rw [token_dash hr]
  rfl

/-- Whatever the value is, the key stays the first one of the item. -/
theorem beginning_of_key {r : Text} {fuel : Nat} {ts : List Token}
    (h : run fuel (atValue k key r column) = .ok ts) : ∃ more,
    ts = .blockSequenceStart :: .blockEntry :: .blockMappingStart :: .key ::
      .scalar key true :: more := by
  cases fuel with
  | zero => cases h
  | succ fuel =>
    rw [run_succ] at h
    obtain ⟨l, hsettle, h⟩ := bind_eq_ok.1 h
    have habove :
        Above [.scalar key true, .key, .blockMappingStart, .blockEntry, .blockSequenceStart] True
          (atValue k key r column) :=
      ⟨⟨[.value], rfl, by simp, by simp⟩, by simp [atValue, flat], by simp [atValue, flat]⟩
    obtain ⟨more, rfl, -⟩ := (habove.settle hsettle).found (Or.inr trivial) h
    exact ⟨more, rfl⟩

end Value

/-- A dash as the item, with at most a comment or a colon behind it, begins a sequence of its
own. -/
theorem beginning_of_dash (he : IsEnding e) {a q : Text} (ha : ∀ x ∈ a, isSpaceOrTab x = true)
    (hq : IsRemark q ∨ q.head? = some ':') (hgap : gapAhead (a ++ q ++ e) = true)
    (hline : ∀ x ∈ q, isBreak x = false) {fuel : Nat} {ts : List Token}
    (h : finish fuel (atItem k ('-' :: (a ++ q ++ e))) = .ok ts) : ∃ more,
    ts = .blockSequenceStart :: .blockEntry :: .blockSequenceStart :: more := by
  have htoken : (atItem k ('-' :: (a ++ q ++ e))).token '-' (a ++ q ++ e) =
      .ok (idle ⟨a ++ q ++ e, 0, k + 3⟩ [.blockEntry, .blockSequenceStart, .blockEntry,
        .blockSequenceStart] (k + 2 : Nat) [k, -1] true) := by
    rw [atItem, token_dash hgap, blockEntry,
      openBlockHere_of_lt _ (show (k : Int) < (k + 2 : Nat) by omega)]
    rfl
  rw [finish] at h
  obtain ⟨l, hl, h⟩ := bind_eq_ok.1 (show Lexer.token _ '-' (a ++ q ++ e) >>= _ = _ from h)
  cases htoken.symm.trans hl
  cases fuel with
  | zero => cases h
  | succ fuel =>
    rcases blanks_cases ha with ⟨n, rfl⟩ | ⟨n, r, rfl⟩
    · rcases hq with hq | hq
      · have hblanks : ∀ x ∈ List.replicate n ' ', (flat default [.blockEntry, .blockSequenceStart,
            .blockEntry, .blockSequenceStart] (k + 2 : Nat) [k, -1] none true).skips x = true := by
          intro x hx
          rw [List.eq_of_mem_replicate hx]
          rfl
        rw [run_trail he hblanks hq hline (nested_entry k) (by simp)] at h
        cases h
        exact ⟨_, rfl⟩
      · obtain ⟨r, rfl⟩ := List.head?_eq_some_iff.1 hq
        rw [List.append_assoc, List.cons_append, run_succ,
          settle_blanks (isSettled_colon _) (by omega), ok_bind] at h
        obtain ⟨more, rfl, -⟩ := Finds.beginning ⟨fuel, h⟩ (by simp)
        exact ⟨_, rfl⟩
    · rw [List.append_assoc, List.append_assoc, List.cons_append, run_tab (by omega)] at h
      cases h

end Lexer
end LayeredConfig.Yaml
