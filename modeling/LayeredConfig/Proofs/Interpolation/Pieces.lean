import LayeredConfig.Proofs.Interpolation.Expansion
import Mathlib.Data.List.Chain

/-!
# How a text is cut into pieces

A body ends at the first brace that closes it, which is the one before which its openings and
closings balance. A text has at most one way to be cut into literal parts, escapes and such bodies,
and it has none exactly if an opening that is neither escaped nor in a body is never closed.
-/
namespace LayeredConfig.Interpolation

/-- How many bodies begin in a text, escaped or not. -/
def openings : Text → Nat
  | [] => 0
  | '$' :: '\x7b' :: r => openings r + 1
  | _ :: r => openings r

def closings (s : Text) : Nat := s.count '\x7d'

/-- A text that closes what is opened in it and `depth` bodies around it, and no beginning of which
closes more. -/
structure Closes (depth : Nat) (s : Text) : Prop where
  total : closings s = openings s + depth
  front : ∀ p, p <+: s → closings p ≤ openings p + depth

/-- A text in which openings and closings balance. -/
abbrev Balanced (s : Text) : Prop := Closes 0 s

/-- A piece by itself: a literal part holds something and no opening, and a body closes what is
opened in it. -/
def Piece.Fits : Piece → Prop
  | .text t => t ≠ [] ∧ hasOpening t = false
  | .escape => True
  | .body b => Balanced b

/-- A piece that may stand before another one: literal parts are not divided, and no body is
escaped. -/
def Piece.Precedes : Piece → Piece → Prop
  | .text _, .text _ => False
  | .text t, .body _ => t.getLast? ≠ some '\\'
  | _, _ => True

/-- What pieces are written as. -/
def written (ps : List Piece) : Text := ps.flatMap Piece.source

/-- Pieces that a text can be cut into. -/
structure IsCut (ps : List Piece) : Prop where
  each : ∀ p ∈ ps, p.Fits
  apart : ps.IsChain Piece.Precedes

/-- A text with an opening that is not escaped, lies outside of all bodies before it and is never
closed. -/
def Unclosed (s : Text) : Prop :=
  ∃ ps r, IsCut ps ∧ s = written ps ++ (opening ++ r) ∧ (written ps).getLast? ≠ some '\\' ∧
    ∀ b rest, r = b ++ '\x7d' :: rest → ¬ Balanced b

theorem openings_cons {c : Char} {s : Text} (h : ∀ q, c :: s ≠ opening ++ q) :
    openings (c :: s) = openings s := by
  rw [openings]
  rintro q rfl rfl
  exact h q rfl

theorem closings_cons {c : Char} (h : c ≠ '\x7d') (s : Text) : closings (c :: s) = closings s :=
  List.count_cons_of_ne h

theorem closings_brace (s : Text) : closings ('\x7d' :: s) = closings s + 1 := List.count_cons_self

section
variable {depth : Nat} {b : Text}

theorem closes_nil : Closes depth [] ↔ depth = 0 := by
  constructor
  · intro h
    have htotal : 0 = 0 + depth := h.total
    omega
  · rintro rfl
    refine ⟨rfl, fun p hp => ?_⟩
    rw [List.prefix_nil.1 hp]
    exact Nat.le_refl 0

/-- A character that is neither a closing brace nor begins an opening makes no difference. -/
theorem closes_cons {c : Char} (hbrace : c ≠ '\x7d') (hopen : ∀ q, c :: b ≠ opening ++ q) :
    Closes depth (c :: b) ↔ Closes depth b := by
  have hfront : ∀ p, p <+: b → openings (c :: p) = openings p := by
    rintro p ⟨r, rfl⟩
    refine openings_cons fun q hq => hopen (q ++ r) ?_
    rw [← List.append_assoc, ← hq]
    rfl
  constructor
  · intro h
    refine ⟨?_, fun p hp => ?_⟩
    · rw [← openings_cons hopen, ← closings_cons hbrace, h.total]
    · have hle := h.front (c :: p) (List.cons_prefix_cons.2 ⟨rfl, hp⟩)
      rwa [closings_cons hbrace, hfront p hp] at hle
  · intro h
    refine ⟨?_, fun p hp => ?_⟩
    · rw [openings_cons hopen, closings_cons hbrace, h.total]
    · rcases List.prefix_cons_iff.1 hp with rfl | ⟨t, rfl, ht⟩
      · exact Nat.zero_le _
      · rw [closings_cons hbrace, hfront t ht]
        exact h.front t ht

theorem openings_brace (s : Text) : openings ('\x7d' :: s) = openings s :=
  openings_cons fun q hq => by cases hq

theorem closes_brace : Closes depth ('\x7d' :: b) ↔ ∃ d, depth = d + 1 ∧ Closes d b := by
  constructor
  · intro h
    have hone := h.front ['\x7d'] (List.prefix_append _ b)
    obtain ⟨d, rfl⟩ : ∃ d, depth = d + 1 := ⟨depth - 1, by
      have hle : 1 ≤ 0 + depth := hone
      omega⟩
    refine ⟨d, rfl, ?_, fun p hp => ?_⟩
    · have htotal := h.total
      rw [closings_brace, openings_brace] at htotal
      omega
    · have hle := h.front ('\x7d' :: p) (List.cons_prefix_cons.2 ⟨rfl, hp⟩)
      rw [closings_brace, openings_brace] at hle
      omega
  · rintro ⟨d, rfl, h⟩
    refine ⟨?_, fun p hp => ?_⟩
    · rw [closings_brace, openings_brace, h.total, Nat.add_assoc]
    · rcases List.prefix_cons_iff.1 hp with rfl | ⟨t, rfl, ht⟩
      · exact Nat.zero_le _
      · rw [closings_brace, openings_brace]
        have hle := h.front t ht
        omega

theorem openings_opening (s : Text) : openings (opening ++ s) = openings s + 1 := rfl

theorem closings_opening (s : Text) : closings (opening ++ s) = closings s := by
  rw [opening, List.cons_append, List.cons_append, List.nil_append, closings_cons (by decide),
    closings_cons (by decide)]

theorem closes_opening : Closes depth (opening ++ b) ↔ Closes (depth + 1) b := by
  constructor
  · intro h
    refine ⟨?_, fun p hp => ?_⟩
    · have htotal := h.total
      rw [closings_opening, openings_opening] at htotal
      omega
    · have hle := h.front (opening ++ p) ((List.prefix_append_right_inj _).2 hp)
      rw [closings_opening, openings_opening] at hle
      omega
  · intro h
    refine ⟨?_, fun p hp => ?_⟩
    · rw [closings_opening, openings_opening, h.total]
      omega
    · rcases List.prefix_cons_iff.1 hp with rfl | ⟨t, rfl, ht⟩
      · exact Nat.zero_le _
      rcases List.prefix_cons_iff.1 ht with rfl | ⟨u, rfl, hu⟩
      · exact Nat.zero_le _
      · have hle := h.front u hu
        rw [show '$' :: '\x7b' :: u = opening ++ u from rfl, closings_opening, openings_opening]
        omega
end

/-- A body with `depth` bodies open in it up to the brace that closes it, and what stands behind
that brace. -/
def closing? : Nat → Text → Option (Text × Text)
  | _, [] => none
  | depth, '$' :: '\x7b' :: r => (closing? (depth + 1) r).map fun p => (opening ++ p.1, p.2)
  | 0, '\x7d' :: r => some ([], r)
  | depth + 1, '\x7d' :: r => (closing? depth r).map fun p => ('\x7d' :: p.1, p.2)
  | depth, c :: r => (closing? depth r).map fun p => (c :: p.1, p.2)

section
variable {depth : Nat} {b r rest : Text}

theorem ne_brace {c : Char} (hzero : depth = 0 → c = '\x7d' → False)
    (hsucc : ∀ d, depth = d + 1 → c = '\x7d' → False) : c ≠ '\x7d' := by
  rintro rfl
  cases depth with
  | zero => exact hzero rfl rfl
  | succ d => exact hsucc d rfl rfl

theorem Closes.ne_nil (h : Closes (depth + 1) b) : b ≠ [] := by
  rintro rfl
  cases closes_nil.1 h

/-- **A body is closed by the first brace before which all that is open is closed.** -/
theorem closing?_eq_some_iff :
    closing? depth r = some (b, rest) ↔ r = b ++ '\x7d' :: rest ∧ Closes depth b := by
  fun_induction closing? depth r generalizing b with
  | case1 =>
    constructor
    · intro h
      cases h
    · rintro ⟨hr, -⟩
      cases (List.append_eq_nil_iff.1 hr.symm).2
  | case2 depth r ih =>
    rw [Option.map_eq_some_iff]
    constructor
    · rintro ⟨p, hp, he⟩
      cases he
      obtain ⟨rfl, hb⟩ := ih.1 hp
      exact ⟨rfl, closes_opening.2 hb⟩
    · rintro ⟨hr, hb⟩
      rcases b with _ | ⟨c, _ | ⟨d, b⟩⟩ <;> cases hr
      exact ⟨(b, rest), ih.2 ⟨rfl, closes_opening.1 hb⟩, rfl⟩
  | case3 r =>
    constructor
    · intro h
      cases h
      exact ⟨rfl, closes_nil.2 rfl⟩
    · rintro ⟨hr, hb⟩
      rcases b with _ | ⟨c, b⟩ <;> cases hr
      · rfl
      · obtain ⟨d, hd, -⟩ := closes_brace.1 hb
        cases hd
  | case4 depth r ih =>
    rw [Option.map_eq_some_iff]
    constructor
    · rintro ⟨p, hp, he⟩
      cases he
      obtain ⟨rfl, hb⟩ := ih.1 hp
      exact ⟨rfl, closes_brace.2 ⟨depth, rfl, hb⟩⟩
    · rintro ⟨hr, hb⟩
      obtain ⟨c, b, rfl⟩ := List.exists_cons_of_ne_nil hb.ne_nil
      cases hr
      obtain ⟨d, hd, hb⟩ := closes_brace.1 hb
      cases hd
      exact ⟨(b, rest), ih.2 ⟨rfl, hb⟩, rfl⟩
  | case5 depth c r hopen hzero hsucc ih =>
    have hbrace := ne_brace hzero hsucc
    have hnot : ∀ b, r = b ++ '\x7d' :: rest → ∀ q, c :: b ≠ opening ++ q := by
      rintro b rfl q hq
      cases hq
      exact hopen _ rfl rfl
    rw [Option.map_eq_some_iff]
    constructor
    · rintro ⟨p, hp, he⟩
      cases he
      obtain ⟨rfl, hb⟩ := ih.1 hp
      exact ⟨rfl, (closes_cons hbrace (hnot p.1 rfl)).2 hb⟩
    · rintro ⟨hr, hb⟩
      rcases b with _ | ⟨d, b⟩ <;> cases hr
      · exact absurd rfl hbrace
      · exact ⟨(b, rest), ih.2 ⟨rfl, (closes_cons hbrace (hnot b rfl)).1 hb⟩, rfl⟩

/-- A body is read up to the brace that closes it. -/
theorem piecesFrom_closing (depth : Nat) (acc r : Text) : piecesFrom (.body depth acc) r =
    (closing? depth r).bind fun p =>
      (piecesFrom (.text []) p.2).map fun ps => .body (acc ++ p.1) :: ps := by
  fun_induction closing? depth r generalizing acc with
  | case1 => rw [piecesFrom, Option.bind_none]
  | case2 depth r ih =>
    rw [piecesFrom, ih, Option.bind_map]
    simp only [Function.comp_def, List.append_assoc]
  | case3 r => rw [piecesFrom, Option.bind_some, List.append_nil]
  | case4 depth r ih =>
    rw [piecesFrom, ih, Option.bind_map]
    simp only [Function.comp_def, List.append_assoc, List.singleton_append]
  | case5 depth c r hopen hzero hsucc ih =>
    rw [piecesFrom, ih, Option.bind_map]
    · simp only [Function.comp_def, List.append_assoc, List.singleton_append]
    · exact hopen
    · exact hzero
    · exact hsucc

theorem closing?_eq_none (h : ∀ b rest, r = b ++ '\x7d' :: rest → ¬ Closes depth b) :
    closing? depth r = none := by
  refine Option.eq_none_iff_forall_ne_some.2 fun p hp => ?_
  obtain ⟨hr, hb⟩ := closing?_eq_some_iff.1 hp
  exact h p.1 p.2 hr hb
end

theorem piecesFrom_escape (t r : Text) : piecesFrom (.text t) ('\\' :: (opening ++ r)) =
    (piecesFrom (.text []) r).map fun ps => literal t ++ .escape :: ps := by
  rw [opening, List.cons_append, List.cons_append, List.nil_append, piecesFrom]

theorem piecesFrom_opening (t r : Text) : piecesFrom (.text t) (opening ++ r) =
    (closing? 0 r).bind fun p =>
      (piecesFrom (.text []) p.2).map fun ps => literal t ++ .body p.1 :: ps := by
  rw [opening, List.cons_append, List.cons_append, List.nil_append, piecesFrom, piecesFrom_closing,
    Option.map_bind]
  simp only [Function.comp_def, Option.map_map, List.nil_append]

theorem piecesFrom_char {c : Char} {t r : Text} (hopen : ∀ q, c :: r ≠ opening ++ q)
    (hescape : ∀ q, c :: r ≠ '\\' :: (opening ++ q)) :
    piecesFrom (.text t) (c :: r) = piecesFrom (.text (t ++ [c])) r := by
  rw [piecesFrom]
  · rintro q rfl rfl
    exact hescape q rfl
  · rintro q rfl rfl
    exact hopen q rfl

theorem startsWith_iff {lead s : Text} : Text.startsWith lead s = true ↔ ∃ r, s = lead ++ r := by
  rw [Text.startsWith, Option.isSome_iff_exists]
  exact exists_congr fun r => Text.after?_eq_some_iff

theorem hasOpening_cons {c : Char} {t : Text} :
    hasOpening (c :: t) = false ↔ hasOpening t = false ∧ ∀ q, c :: t ≠ opening ++ q := by
  rw [hasOpening, Text.holds, Bool.or_eq_false_iff, ← Bool.not_eq_true, startsWith_iff,
    not_exists, and_comm]
  rfl

/-- What ends a literal part: the end of the text, an escape, or an opening that the part does not
escape. -/
inductive Ends (t : Text) : Text → Prop
  | done : Ends t []
  | escape (r : Text) : Ends t ('\\' :: (opening ++ r))
  | body (r : Text) : t.getLast? ≠ some '\\' → Ends t (opening ++ r)

theorem Ends.tail {c : Char} {t u : Text} (h : Ends (c :: t) u) : Ends t u := by
  cases h with
  | done => exact .done
  | escape r => exact .escape r
  | body r hlast =>
    refine .body r fun ht => hlast ?_
    rw [List.getLast?_cons, ht]
    rfl

/-- No opening begins in a literal part, not even one that goes on behind it. -/
theorem Ends.eq_nil_of_opening {t u r : Text} (h : Ends t u) (ht : hasOpening t = false)
    (hr : t ++ u = opening ++ r) : t = [] := by
  rcases t with _ | ⟨c, _ | ⟨d, t⟩⟩
  · rfl
  · cases h <;> cases hr
  · refine absurd ?_ ((hasOpening_cons.1 ht).2 t)
    cases hr
    rfl

theorem piecesFrom_literal {t u : Text} (h : Ends t u) (ht : hasOpening t = false) (acc : Text) :
    piecesFrom (.text acc) (t ++ u) = piecesFrom (.text (acc ++ t)) u := by
  induction t generalizing acc with
  | nil => rw [List.nil_append, List.append_nil]
  | cons c t ih =>
    obtain ⟨ht', -⟩ := hasOpening_cons.1 ht
    rw [List.cons_append, piecesFrom, ih h.tail ht', List.append_assoc, List.singleton_append]
    · rintro r rfl hr
      obtain rfl := h.tail.eq_nil_of_opening ht' hr
      cases h with
      | done => cases hr
      | escape => cases hr
      | body _ hlast => exact hlast rfl
    · rintro r rfl hr
      cases h.eq_nil_of_opening ht (congrArg ('$' :: ·) hr)

/-- A literal part that has been read is one piece. -/
theorem piecesFrom_ends {t u : Text} (h : Ends t u) (ht : t ≠ []) :
    piecesFrom (.text t) u = (piecesFrom (.text []) u).map (.text t :: ·) := by
  have hliteral : literal t = [.text t] := by
    rw [literal, if_neg (mt List.isEmpty_iff.1 ht)]
  cases h with
  | done =>
    rw [piecesFrom, hliteral, piecesFrom]
    rfl
  | escape r =>
    rw [piecesFrom_escape, piecesFrom_escape, hliteral, Option.map_map]
    rfl
  | body r =>
    rw [piecesFrom_opening, piecesFrom_opening, hliteral, Option.map_bind]
    simp only [Function.comp_def, Option.map_map]
    rfl

theorem isCut_cons {p : Piece} {ps : List Piece} :
    IsCut (p :: ps) ↔ p.Fits ∧ (∀ q ∈ ps.head?, p.Precedes q) ∧ IsCut ps := by
  constructor
  · intro h
    obtain ⟨hp, hps⟩ := List.forall_mem_cons.1 h.each
    obtain ⟨hnext, hapart⟩ := List.isChain_cons.1 h.apart
    exact ⟨hp, hnext, hps, hapart⟩
  · rintro ⟨hp, hnext, hps, hapart⟩
    exact ⟨List.forall_mem_cons.2 ⟨hp, hps⟩, List.isChain_cons.2 ⟨hnext, hapart⟩⟩

/-- What may follow pieces that have been read: nothing, or an opening that they do not escape. -/
inductive GoesOn (ps : List Piece) : Text → Prop
  | done : GoesOn ps []
  | body (r : Text) : (written ps).getLast? ≠ some '\\' → GoesOn ps (opening ++ r)

theorem written_cons (p : Piece) (ps : List Piece) : written (p :: ps) = p.source ++ written ps :=
  rfl

theorem GoesOn.tail {p : Piece} {ps : List Piece} {u : Text} (h : GoesOn (p :: ps) u) :
    GoesOn ps u := by
  cases h with
  | done => exact .done
  | body r hlast =>
    refine .body r fun hps => hlast ?_
    rw [written_cons, List.getLast?_append, hps]
    rfl

/-- A literal part ends where the next piece begins. -/
theorem ends_of_precedes {t : Text} {ps : List Piece} {u : Text}
    (h : ∀ q ∈ ps.head?, (Piece.text t).Precedes q)
    (hu : GoesOn (.text t :: ps) u) : Ends t (written ps ++ u) := by
  cases ps with
  | nil =>
    cases hu with
    | done => exact .done
    | body r hlast =>
      refine .body r ?_
      rwa [written_cons, show written [] = [] from rfl, List.append_nil] at hlast
  | cons p ps =>
    have hnext := h p rfl
    rw [written_cons, List.append_assoc]
    cases p with
    | text s => exact hnext.elim
    | escape => exact .escape _
    | body b =>
      rw [Piece.source, reference, List.append_assoc, List.append_assoc]
      exact .body _ hnext

/-- **Pieces are found again where they are written.** -/
theorem IsCut.piecesFrom_written {ps : List Piece} {u : Text} (h : IsCut ps) (hu : GoesOn ps u) :
    piecesFrom (.text []) (written ps ++ u) = (piecesFrom (.text []) u).map (ps ++ ·) := by
  induction ps with
  | nil => exact (Option.map_id' ..).symm
  | cons p ps ih =>
    obtain ⟨hp, hnext, hps⟩ := isCut_cons.1 h
    have hrest := ih hps hu.tail
    cases p with
    | text t =>
      obtain ⟨hne, ht⟩ := hp
      have hends := ends_of_precedes hnext hu
      rw [written_cons, Piece.source,
        List.append_assoc, piecesFrom_literal hends ht, List.nil_append,
        piecesFrom_ends hends hne, hrest, Option.map_map]
      rfl
    | escape =>
      rw [written_cons, Piece.source, List.append_assoc, List.cons_append, piecesFrom_escape, hrest,
        Option.map_map]
      rfl
    | body b =>
      have hclosed : closing? 0 (b ++ '\x7d' :: (written ps ++ u)) = some (b, written ps ++ u) :=
        closing?_eq_some_iff.2 ⟨rfl, hp⟩
      rw [written_cons, Piece.source,
        reference, List.append_assoc, List.append_assoc, List.append_assoc,
        List.singleton_append, piecesFrom_opening, hclosed, Option.bind_some, hrest, Option.map_map]
      rfl

/-- Pieces with a literal character in front. -/
def prepend (c : Char) : List Piece → List Piece
  | .text t :: ps => .text (c :: t) :: ps
  | ps => .text [c] :: ps

theorem written_prepend (c : Char) (ps : List Piece) :
    written (prepend c ps) = c :: written ps := by
  rcases ps with _ | ⟨p, ps⟩
  · rfl
  · cases p <;> rfl

section
variable {c : Char} {ps : List Piece} {u : Text}

/-- A character in front of a cut text goes to its first literal part or becomes one, unless it
makes an escape or an opening. -/
theorem IsCut.prepend (h : IsCut ps) (hopen : ∀ q, c :: (written ps ++ u) ≠ opening ++ q)
    (hescape : ∀ q, c :: (written ps ++ u) ≠ '\\' :: (opening ++ q)) : IsCut (prepend c ps) := by
  have hone : hasOpening [c] = false := hasOpening_cons.2 ⟨rfl, fun q hq => by cases hq⟩
  rcases ps with _ | ⟨p, ps⟩
  · exact isCut_cons.2 ⟨⟨List.cons_ne_nil _ _, hone⟩, by simp, h⟩
  · cases p with
    | text t =>
      obtain ⟨⟨hne, ht⟩, hnext, hps⟩ := isCut_cons.1 h
      refine isCut_cons.2 ⟨⟨List.cons_ne_nil _ _, hasOpening_cons.2 ⟨ht, fun q hq => ?_⟩⟩,
        fun q hq => ?_, hps⟩
      · refine hopen (q ++ (written ps ++ u)) ?_
        rw [← List.append_assoc, ← hq,
          written_cons, Piece.source, List.append_assoc, List.cons_append]
      · have hpq := hnext q hq
        obtain ⟨d, t, rfl⟩ := List.exists_cons_of_ne_nil hne
        cases q with
        | text => exact hpq
        | escape => trivial
        | body => exact hpq
    | escape => exact isCut_cons.2 ⟨⟨List.cons_ne_nil _ _, hone⟩, by simp [Piece.Precedes], h⟩
    | body b =>
      refine isCut_cons.2 ⟨⟨List.cons_ne_nil _ _, hone⟩, ?_, h⟩
      intro q hq
      obtain rfl : Piece.body b = q := Option.some.inj hq
      intro hlast
      obtain rfl : c = '\\' := Option.some.inj hlast
      refine hescape (b ++ ('\x7d' :: (written ps ++ u))) ?_
      rw [written_cons, Piece.source, reference]
      simp

theorem GoesOn.cons {p : Piece} (h : GoesOn ps u) (hp : p.source.getLast? ≠ some '\\') :
    GoesOn (p :: ps) u := by
  cases h with
  | done => exact .done
  | body r hlast =>
    refine .body r fun hnew => ?_
    rw [written_cons, List.getLast?_append, Option.or_eq_some_iff] at hnew
    rcases hnew with hnew | ⟨-, hnew⟩
    · exact hlast hnew
    · exact hp hnew

theorem GoesOn.prepend (h : GoesOn ps u)
    (hescape : ∀ q, c :: (written ps ++ u) ≠ '\\' :: (opening ++ q)) :
    GoesOn (prepend c ps) u := by
  cases h with
  | done => exact .done
  | body r hlast =>
    refine .body r fun hnew => ?_
    rw [written_prepend, List.getLast?_cons] at hnew
    cases hps : (written ps).getLast? with
    | none =>
      rw [hps] at hnew
      cases hnew
      exact hescape r (by rw [List.getLast?_eq_none_iff.1 hps]; rfl)
    | some d =>
      rw [hps] at hnew hlast
      exact hlast hnew
end

/-- How a text begins: with an escape, with an opening, or with a character that does neither. -/
theorem begins_cases (s : Text) :
    s = [] ∨ (∃ r, s = '\\' :: (opening ++ r)) ∨ (∃ r, s = opening ++ r) ∨
    ∃ c r, s = c :: r ∧ (∀ q, c :: r ≠ opening ++ q) ∧ ∀ q, c :: r ≠ '\\' :: (opening ++ q) := by
  by_cases hescape : ∃ r, s = '\\' :: (opening ++ r)
  · exact Or.inr (Or.inl hescape)
  by_cases hopen : ∃ r, s = opening ++ r
  · exact Or.inr (Or.inr (Or.inl hopen))
  cases s with
  | nil => exact Or.inl rfl
  | cons c r =>
    exact Or.inr
      (Or.inr (Or.inr ⟨c, r, rfl, fun q hq => hopen ⟨q, hq⟩, fun q hq => hescape ⟨q, hq⟩⟩))

/-- **Every text is cut into pieces up to its end or up to an opening that is never closed.** -/
theorem exists_cut (s : Text) : ∃ ps u, s = written ps ++ u ∧ IsCut ps ∧ GoesOn ps u ∧
    ∀ r, u = opening ++ r → ∀ b rest, r = b ++ '\x7d' :: rest → ¬ Balanced b := by
  induction hn : s.length using Nat.strongRecOn generalizing s with
  | ind n ih =>
    subst hn
    rcases begins_cases s with rfl | ⟨r, rfl⟩ | ⟨r, rfl⟩ | ⟨c, r, rfl, hopen, hescape⟩
    · exact ⟨[], [], rfl, ⟨by simp, .nil⟩, .done, by simp [opening]⟩
    · obtain ⟨ps, u, rfl, hps, hu, hend⟩ := ih r.length (by simp [opening]; omega) r rfl
      refine ⟨.escape :: ps, u, ?_, isCut_cons.2 ⟨trivial, fun q _ => ?_, hps⟩,
        hu.cons (by decide), hend⟩
      · rw [written_cons, Piece.source, List.append_assoc, List.cons_append]
      · cases q <;> trivial
    · by_cases hclosed : ∃ b rest, r = b ++ '\x7d' :: rest ∧ Balanced b
      · obtain ⟨b, rest, rfl, hb⟩ := hclosed
        obtain ⟨ps, u, rfl, hps, hu, hend⟩ := ih rest.length (by simp; omega) rest rfl
        refine ⟨.body b :: ps, u, ?_, isCut_cons.2 ⟨hb, fun q _ => ?_, hps⟩, hu.cons ?_, hend⟩
        · simp [written_cons, Piece.source, reference]
        · cases q <;> trivial
        · simp [Piece.source, reference]
      · refine ⟨[], _, rfl, ⟨by simp, .nil⟩, .body r (by simp [written]),
          fun r' hr' b rest hb hbalanced => ?_⟩
        cases List.append_cancel_left (show opening ++ r = opening ++ r' from hr')
        exact hclosed ⟨b, rest, hb, hbalanced⟩
    · obtain ⟨ps, u, rfl, hps, hu, hend⟩ := ih r.length (by simp) r rfl
      exact ⟨prepend c ps, u, by rw [written_prepend]; rfl, hps.prepend hopen hescape,
        hu.prepend hescape, hend⟩

theorem pieces?_written {ps : List Piece} (h : IsCut ps) : pieces? (written ps) = some ps := by
  have hread := h.piecesFrom_written .done
  rw [List.append_nil, piecesFrom] at hread
  rw [pieces?, hread]
  exact congrArg some (List.append_nil ps)

theorem pieces?_of_unclosed {s : Text} (h : Unclosed s) : pieces? s = none := by
  obtain ⟨ps, r, hps, rfl, hlast, hend⟩ := h
  rw [pieces?, hps.piecesFrom_written (.body r hlast), piecesFrom_opening, closing?_eq_none hend,
    Option.bind_none, Option.map_none]

/-- A text can be cut into pieces, or it has an opening that is never closed. -/
theorem isCut_or_unclosed (s : Text) : (∃ ps, IsCut ps ∧ s = written ps) ∨ Unclosed s := by
  obtain ⟨ps, u, rfl, hps, hu, hend⟩ := exists_cut s
  cases hu with
  | done => exact Or.inl ⟨ps, hps, List.append_nil _⟩
  | body r hlast => exact Or.inr ⟨ps, r, hps, rfl, hlast, hend r rfl⟩

/-- **The pieces of a text are the one way to cut it.** -/
theorem pieces?_eq_some_iff {s : Text} {ps : List Piece} :
    pieces? s = some ps ↔ IsCut ps ∧ written ps = s := by
  constructor
  · intro h
    rcases isCut_or_unclosed s with ⟨qs, hqs, rfl⟩ | hunclosed
    · rw [pieces?_written hqs] at h
      cases h
      exact ⟨hqs, rfl⟩
    · rw [pieces?_of_unclosed hunclosed] at h
      cases h
  · rintro ⟨hps, rfl⟩
    exact pieces?_written hps

/-- In a body every opening needs its own brace, escaped or not. -/
example : pieces? "é\\$\x7bü$\x7bw\\$\x7b!\x7d\x7d\x7d".toList =
    some [.text ['é'], .escape, .text ['ü'], .body "w\\$\x7b!\x7d".toList, .text ['\x7d']] := by
  decide

/-- **A text has no pieces exactly if an opening in it is never closed.** -/
theorem pieces?_eq_none_iff {s : Text} : pieces? s = none ↔ Unclosed s := by
  refine ⟨fun h => ?_, pieces?_of_unclosed⟩
  rcases isCut_or_unclosed s with ⟨ps, hps, rfl⟩ | hunclosed
  · rw [pieces?_written hps] at h
    cases h
  · exact hunclosed

end LayeredConfig.Interpolation
