import LayeredConfig.Proofs.Defaults.Decoded
import LayeredConfig.Proofs.Yaml.SingleValue

/-!
# What the changed lines encode

A rewrite has its own idea of where a name ends: before blanks, before the mark of a comment, before
a colon. A document has another one, in which a comment begins behind a blank only, and a value
behind a colon and a blank. The lines that a rewrite changes are read here as documents of their
own, and it is said of which of them the old selection is what they encode.
-/
namespace LayeredConfig.Rewrite

open Defaults
open Yaml
  (isPlainChar isAllowed isSpaceOrTab gapAhead BeginsPlain IsLine IsRemark dashLine Plain.scan
  Plain.left)

/-- Whether a line, read on its own, is a sequence of one item, and this item selects exactly the
group and the name. -/
def Encodes (s : Selection) (line : Text) : Prop :=
  ∃ v, Yaml.read line = .ok (.sequence [v]) ∧ Selects s v

theorem isLine_blanks {b r : Text} (hb : ∀ x ∈ b, isSpaceOrTab x = true) (hr : IsLine r) :
    IsLine (b ++ r) := by
  refine List.forall_mem_append.2 ⟨fun x hx => ?_, hr⟩
  have hblank := hb x hx
  simp only [isSpaceOrTab, Bool.or_eq_true, beq_iff_eq] at hblank
  rcases hblank with rfl | rfl <;> decide

namespace Tail

variable {t : Tail}

/-- All of it up to the carriage return. -/
def rest (t : Tail) : Text := t.blanks ++ commentText t.comment

/-- A comment begins behind a blank. -/
def IsApart (t : Tail) : Prop := t.comment = none ∨ t.blanks ≠ []

/-- There is no end of a line in the comment: no next line, no line and no paragraph separator. -/
def IsOneLine (t : Tail) : Prop := ∀ s ∈ t.comment, ∀ x ∈ s, Yaml.endsLine x = false

/-- The comment is made of characters that a document may hold. -/
def IsAllowed (t : Tail) : Prop := ∀ s ∈ t.comment, ∀ x ∈ s, isAllowed x = true

theorem text_eq (t : Tail) : t.text = t.rest ++ if t.cr then ['\r'] else [] := by
  rw [text, rest, List.append_assoc]

theorem isRemark (t : Tail) : IsRemark (commentText t.comment) := by
  cases t.comment with
  | none => exact Or.inl rfl
  | some s => exact Or.inr rfl

theorem isLine_rest (hone : t.IsOneLine) (hallowed : t.IsAllowed) : IsLine t.rest := by
  refine isLine_blanks t.isBlank ?_
  cases hc : t.comment with
  | none => exact List.forall_mem_nil _
  | some s =>
    exact List.forall_mem_cons.2 ⟨by decide, fun x hx => ⟨hone s hc x hx, hallowed s hc x hx⟩⟩

/-- A comment that is set apart is one to a document as well. -/
theorem scan_rest (h : t.IsApart) :
    (Plain.scan [] t.rest).1 = [] ∧ Plain.left [] t.rest = commentText t.comment := by
  refine Yaml.scan_remark t.isBlank t.isRemark (h.imp_left fun hnone => ?_)
  rw [hnone]
  rfl

/-- One that touches the selection belongs to it. -/
theorem mem_scan_rest (h : ¬ t.IsApart) : '#' ∈ (Plain.scan [] t.rest).1 := by
  obtain ⟨hsome, hnil⟩ := not_or.1 h
  obtain ⟨s, hs⟩ := Option.ne_none_iff_exists'.1 hsome
  rw [rest, not_not.1 hnil, hs]
  exact Yaml.mem_scan_touching s

theorem gapAhead_rest : gapAhead t.rest = true ↔ t.IsApart := by
  by_cases hb : t.blanks = []
  · cases hc : t.comment <;>
      simp [rest, IsApart, hb, hc, commentText, gapAhead, isSpaceOrTab, Yaml.isBreak]
  · have hgap : gapAhead t.rest = true := Yaml.gapAhead_blanks t.isBlank hb _
    simp [IsApart, hb, hgap]

end Tail

section Words

variable {w r : Text}

theorem markText_eq : markText true = "override".toList ++ [' '] := rfl

theorem scan_marked (marked : Bool) (hw : ∀ c ∈ w, isPlainChar c = true) (hne : w ≠ []) (r : Text) :
    (Plain.scan [] (markText marked ++ (w ++ r))).1 = markText marked ++ w ++ (Plain.scan [] r).1 ∧
      Plain.left [] (markText marked ++ (w ++ r)) = Plain.left [] r := by
  cases marked with
  | false =>
    rw [markText, if_neg (by decide), List.nil_append, Yaml.Plain.scan_word hw (fun _ => rfl),
      Yaml.Plain.left_word hw (fun _ => rfl)]
    exact ⟨rfl, rfl⟩
  | true =>
    have hmark : ∀ c ∈ "override".toList, isPlainChar c = true := List.all_eq_true.1 (by decide)
    have hblank : Plain.scan [] ([' '] ++ (w ++ r)) = Plain.scan [' '] (w ++ r) :=
      Yaml.Plain.scan_blanks [] (by simp [isSpaceOrTab]) _
    have hscan : Plain.scan [] (markText true ++ (w ++ r)) =
        (markText true ++ w ++ (Plain.scan [] r).1, (Plain.scan [] r).2) := by
      rw [markText_eq, List.append_assoc, Yaml.Plain.scan_word hmark (fun _ => rfl), hblank,
        Yaml.Plain.scan_word hw (fun h => absurd h hne)]
      simp
    rw [Plain.left, hscan]
    exact ⟨rfl, rfl⟩

/-- A dash does not begin a scalar if a gap follows. -/
theorem beginsPlain_word (hw : ∀ c ∈ w, isPlainChar c = true) (hne : w ≠ [])
    (hdash : w = ['-'] → gapAhead r = false) : BeginsPlain (w ++ r) := by
  cases w with
  | nil => exact absurd rfl hne
  | cons x w =>
    obtain ⟨hx, hmore⟩ := List.forall_mem_cons.1 hw
    refine ⟨x, w ++ r, rfl, hx, ?_⟩
    rintro rfl
    cases w with
    | nil => exact hdash rfl
    | cons y w => exact Yaml.gapAhead_word hmore (List.cons_ne_nil y w) r

theorem beginsPlain_marked {marked : Bool} (hw : ∀ c ∈ w, isPlainChar c = true) (hne : w ≠ [])
    (hdash : marked = false → w = ['-'] → gapAhead r = false) :
    BeginsPlain (markText marked ++ (w ++ r)) := by
  cases marked with
  | false => exact show BeginsPlain (w ++ r) from beginsPlain_word hw hne (hdash rfl)
  | true => exact ⟨'o', "verride ".toList ++ (w ++ r), rfl, by decide, by simp⟩

theorem isLine_marked (marked : Bool) (hw : ∀ c ∈ w, isPlainChar c = true ∧ isAllowed c = true)
    (hr : IsLine r) : IsLine (markText marked ++ (w ++ r)) := by
  have hmark : IsLine (markText marked) := by cases marked <;> decide
  refine List.forall_mem_append.2 ⟨hmark, List.forall_mem_append.2 ⟨fun x hx => ?_, hr⟩⟩
  obtain ⟨hplain, hallowed⟩ := hw x hx
  have hnormal := Yaml.isNormal_of_plain (w := w) (fun c hc => (hw c hc).1) x hx
  simp [Yaml.endsLine, (Yaml.isPlainChar_not_blank hplain).2, hnormal, hallowed]

end Words

variable {old : Selection} {k : Nat} {s : Text} {cr : Bool}

/-- A scalar that goes on with a colon or the mark of a comment. -/
theorem not_encodes_of_stop (h : old.IsNamed) (hs : BeginsPlain s) (hline : IsLine s) {c : Char}
    (hc : IsStop c) (hmem : c ∈ (Plain.scan [] s).1) : ¬ Encodes old (dashLine k s cr) := by
  rintro ⟨v, hread, hselects⟩
  obtain ⟨u, us, heq, hu⟩ := Yaml.read_begins hs hline hread
  obtain ⟨rfl, -⟩ := List.cons.inj (Value.sequence.inj heq)
  exact not_selects_of_stop h hc hmem hu hselects

theorem encodes_scalar (hs : BeginsPlain s) (hline : IsLine s) (hr : IsRemark (Plain.left [] s)) :
    Encodes old (dashLine k s cr) ↔
      IsVerbatim (Plain.scan [] s).1 ∧ IsFor old (decodeText (Plain.scan [] s).1) := by
  constructor
  · rintro ⟨v, hread, hselects⟩
    obtain ⟨w, hw, heq⟩ := (Yaml.read_scalar hs hline hr).1 hread
    obtain ⟨rfl, -⟩ := List.cons.inj (Value.sequence.inj heq)
    exact (selects_scalar hw).1 hselects
  · rintro ⟨hverbatim, hfor⟩
    exact ⟨_, (Yaml.read_scalar hs hline hr).2 ⟨_, hverbatim, rfl⟩,
      (selects_scalar hverbatim).2 ⟨hverbatim, hfor⟩⟩

/-- A dash as the item, with a comment or a colon behind it. -/
theorem not_encodes_dash {b q : Text} (hb : ∀ x ∈ b, isSpaceOrTab x = true)
    (hq : IsRemark q ∨ q.head? = some ':') (hgap : gapAhead (b ++ q) = true)
    (hline : IsLine ('-' :: (b ++ q))) : ¬ Encodes old (dashLine k ('-' :: (b ++ q)) cr) := by
  rintro ⟨v, hread, hselects⟩
  obtain ⟨inner, us, heq⟩ := Yaml.read_dash hb hq hgap hline hread
  obtain ⟨rfl, -⟩ := List.cons.inj (Value.sequence.inj heq)
  exact not_selects_sequence inner hselects

section Forms

variable {t : Tail} {marked : Bool} {w : Text}

/-- A word as the item, perhaps behind the mark. -/
theorem encodes_word (h : old.IsNamed) (hw : ∀ c ∈ w, isPlainChar c = true ∧ isAllowed c = true)
    (hne : w ≠ []) (hdash : marked = false → w = ['-'] → gapAhead t.rest = false)
    (hline : IsLine t.rest) :
    Encodes old (dashLine k (markText marked ++ (w ++ t.rest)) cr) ↔
      t.IsApart ∧ IsVerbatim (markText marked ++ w) ∧
      IsFor old (decodeText (markText marked ++ w)) := by
  have hplain : ∀ c ∈ w, isPlainChar c = true := fun c hc => (hw c hc).1
  have hs := beginsPlain_marked hplain hne hdash
  have hbody := isLine_marked marked hw hline
  obtain ⟨hscan, hleft⟩ := scan_marked marked hplain hne t.rest
  by_cases hapart : t.IsApart
  · obtain ⟨hnone, hremark⟩ := t.scan_rest hapart
    have hr : IsRemark (Plain.left [] (markText marked ++ (w ++ t.rest))) := by
      rw [hleft, hremark]
      exact t.isRemark
    rw [encodes_scalar hs hbody hr, hscan, hnone, List.append_nil]
    simp [hapart]
  · refine iff_of_false (not_encodes_of_stop h hs hbody (Or.inl rfl) ?_) fun h => hapart h.1
    rw [hscan]
    exact List.mem_append_right _ (t.mem_scan_rest hapart)

theorem encodes_path (h : old.IsNamed) (hline : IsLine t.rest) :
    Encodes old (dashLine k (markText marked ++ (old.group ++ '/' :: old.name ++ t.rest)) cr) ↔
      t.IsApart := by
  have hslash : '/' ∈ old.group ++ '/' :: old.name := by simp
  have hw : ∀ c ∈ old.group ++ '/' :: old.name, isPlainChar c = true ∧ isAllowed c = true :=
    List.forall_mem_append.2 ⟨h.group.plain_allowed,
      List.forall_mem_cons.2 ⟨by decide, h.name.plain_allowed⟩⟩
  have hdash : old.group ++ '/' :: old.name ≠ ['-'] := fun heq => by
    rw [heq] at hslash
    exact absurd hslash (by decide)
  rw [encodes_word h hw (by simp) (fun _ heq => absurd heq hdash) hline]
  exact and_iff_left ⟨.of_slash (List.mem_append_right _ hslash), isFor_path h marked⟩

theorem encodes_bare (h : old.IsNamed) (hroot : old.group = rootGroup) (hline : IsLine t.rest) :
    Encodes old (dashLine k (old.name ++ t.rest) cr) ↔
      t.IsApart ∧ IsVerbatim old.name ∧ old.name ≠ selfMarker ∧ old.name ≠ ['-'] := by
  by_cases hnested : old.name = ['-'] ∧ t.IsApart
  · obtain ⟨hdash, hapart⟩ := hnested
    have hbody : IsLine ('-' :: t.rest) := List.forall_mem_cons.2 ⟨by decide, hline⟩
    rw [hdash]
    exact iff_of_false (not_encodes_dash (b := t.blanks) t.isBlank (Or.inl t.isRemark)
      (t.gapAhead_rest.2 hapart) hbody) fun hsound => hsound.2.2.2 rfl
  · have hgap : old.name = ['-'] → gapAhead t.rest = false := fun hdash =>
      Bool.eq_false_iff.2 fun hgap => hnested ⟨hdash, t.gapAhead_rest.1 hgap⟩
    have hword : Encodes old (dashLine k (markText false ++ (old.name ++ t.rest)) cr) ↔ _ :=
      encodes_word h h.name.plain_allowed h.name.1 (fun _ => hgap) hline
    refine hword.trans ?_
    show t.IsApart ∧ IsVerbatim old.name ∧ IsFor old (decodeText old.name) ↔ _
    rw [isFor_bare h hroot]
    constructor
    · rintro ⟨hapart, hverbatim, hself⟩
      exact ⟨hapart, hverbatim, hself, fun hdash => hnested ⟨hdash, hapart⟩⟩
    · rintro ⟨hapart, hverbatim, hself, -⟩
      exact ⟨hapart, hverbatim, hself⟩

section Mapping

variable {before after : Text}

theorem isLine_name (h : old.IsNamed) (hline : IsLine t.rest) : IsLine (old.name ++ t.rest) :=
  isLine_marked false h.name.plain_allowed hline

theorem isLine_pair (h : old.IsNamed) (hbefore : ∀ x ∈ before, isSpaceOrTab x = true)
    (hafter : ∀ x ∈ after, isSpaceOrTab x = true) (hline : IsLine t.rest) :
    IsLine (before ++ ':' :: (after ++ (old.name ++ t.rest))) :=
  isLine_blanks hbefore (List.forall_mem_cons.2
    ⟨by decide, isLine_blanks hafter (isLine_name h hline)⟩)

theorem beginsPlain_group (h : old.IsNamed)
    (hdash : marked = false → old.group = ['-'] → before = [])
    (r : Text) : BeginsPlain (markText marked ++ (old.group ++ (before ++ ':' :: r))) :=
  beginsPlain_marked h.group.plain h.group.1 fun hmark hgroup => by
    rw [hdash hmark hgroup]
    rfl

/-- A colon before a gap ends the group. -/
theorem scan_group (marked : Bool) (h : old.IsNamed) (hbefore : ∀ x ∈ before, isSpaceOrTab x = true)
    {r : Text} (hr : gapAhead r = true) :
    (Plain.scan [] (markText marked ++ (old.group ++ (before ++ ':' :: r)))).1 =
        markText marked ++ old.group ∧
      Plain.left [] (markText marked ++ (old.group ++ (before ++ ':' :: r))) = ':' :: r := by
  obtain ⟨hscan, hleft⟩ := scan_marked marked h.group.plain h.group.1 (before ++ ':' :: r)
  have hcolon : Plain.scan [] (before ++ ':' :: r) = ([], before ++ ':' :: r) := by
    rw [Yaml.Plain.scan_blanks [] hbefore, List.nil_append, Yaml.Plain.scan_colon before hr]
  rw [hscan, hleft, Plain.left, hcolon, List.append_nil]
  exact ⟨rfl, Yaml.Plain.dropWhile_blanks hbefore (by rintro x ⟨⟩; rfl)⟩

/-- A document sees no colon where no blank follows. -/
theorem not_encodes_joined (h : old.IsNamed) (hbefore : ∀ x ∈ before, isSpaceOrTab x = true)
    (hdash : marked = false → old.group = ['-'] → before = []) (hline : IsLine t.rest) :
    ¬ Encodes old (dashLine k (markText marked ++
      (old.group ++ (before ++ ':' :: (old.name ++ t.rest)))) cr) := by
  have hgap := Yaml.gapAhead_word h.name.plain h.name.1 t.rest
  have hs := beginsPlain_group h hdash (old.name ++ t.rest)
  have hpair : IsLine (before ++ ':' :: ([] ++ (old.name ++ t.rest))) :=
    isLine_pair h hbefore (List.forall_mem_nil _) hline
  refine not_encodes_of_stop h hs (isLine_marked marked h.group.plain_allowed hpair) (Or.inr rfl) ?_
  rw [(scan_marked marked h.group.plain h.group.1 _).1, Yaml.Plain.scan_blanks [] hbefore,
    List.nil_append, Yaml.Plain.scan_cons rfl (by simp) (by simp [hgap])]
  simp

theorem encodes_pair (h : old.IsNamed) (hbefore : ∀ x ∈ before, isSpaceOrTab x = true)
    (hafter : ∀ x ∈ after, isSpaceOrTab x = true) (hne : after ≠ [])
    (hdash : marked = false → old.group = ['-'] → before = []) (hline : IsLine t.rest) :
    Encodes old (dashLine k (markText marked ++
        (old.group ++ (before ++ ':' :: (after ++ (old.name ++ t.rest))))) cr) ↔
      t.IsApart ∧ (markText marked ++ old.group ++ before).length ≤ 1024 ∧
        (marked = true ∨ IsVerbatim old.group) ∧ IsVerbatim old.name ∧ old.name ≠ ['-'] := by
  have hs := beginsPlain_group h hdash (after ++ (old.name ++ t.rest))
  have hbody := isLine_marked marked h.group.plain_allowed (isLine_pair h hbefore hafter hline)
  obtain ⟨hscan, hleft⟩ := scan_group marked h hbefore
    (Yaml.gapAhead_blanks hafter hne (old.name ++ t.rest))
  by_cases hnested : old.name = ['-'] ∧ t.IsApart
  · obtain ⟨hname, hapart⟩ := hnested
    refine iff_of_false ?_ fun hsound => hsound.2.2.2.2 hname
    rintro ⟨v, hread, -⟩
    rw [hname] at hs hbody hleft hread
    exact Yaml.read_pair_dash hs hbody hleft hafter hne (t.gapAhead_rest.2 hapart) hread
  · have hvalue : BeginsPlain (old.name ++ t.rest) :=
      beginsPlain_word h.name.plain h.name.1 fun hname =>
      Bool.eq_false_iff.2 fun hgap => hnested ⟨hname, t.gapAhead_rest.1 hgap⟩
    have hlength : (markText marked ++ (old.group ++ (before ++ ':' :: (after ++
        (old.name ++ t.rest))))).length - ((after ++ (old.name ++ t.rest)).length + 1) =
          (markText marked ++ old.group ++ before).length := by
      simp only [List.length_append, List.length_cons]
      omega
    have hword : (Plain.scan [] (old.name ++ t.rest)).1 = old.name ++ (Plain.scan [] t.rest).1 := by
      rw [Yaml.Plain.scan_word h.name.plain (fun _ => rfl)]
      rfl
    have hread :
        ∀ v, Yaml.read (dashLine k (markText marked ++ (old.group ++ (before ++ ':' :: (after ++
        (old.name ++ t.rest))))) cr) = .ok v ↔ _ :=
      fun v => Yaml.read_pair hs hbody hleft hafter hne hvalue
    rw [hscan, hlength, hword, Yaml.Plain.left_word h.name.plain (fun _ => rfl)] at hread
    constructor
    · rintro ⟨v, hv, hselects⟩
      obtain ⟨hlong, -, key, w, hkey, hw, heq⟩ := (hread _).1 hv
      obtain ⟨rfl, -⟩ := List.cons.inj (Value.sequence.inj heq)
      obtain ⟨hgroup, hverbatim, hname⟩ := (selects_pair h hkey hw).1 hselects
      have hnone : (Plain.scan [] t.rest).1 = [] := List.append_right_eq_self.1 hname
      have hapart : t.IsApart := by
        refine by_contra fun hnot => ?_
        have hmem := t.mem_scan_rest hnot
        rw [hnone] at hmem
        cases hmem
      exact ⟨hapart, hlong, hgroup, hname ▸ hverbatim, fun hdash => hnested ⟨hdash, hapart⟩⟩
    · rintro ⟨hapart, hlong, hgroup, hverbatim, -⟩
      obtain ⟨hnone, hremark⟩ := t.scan_rest hapart
      have hstring := (isVerbatim_marked_iff marked old.group).2 hgroup
      rw [hnone, List.append_nil, hremark] at hread
      exact ⟨_, (hread _).2 ⟨hlong, t.isRemark, _, _, hstring, hverbatim, rfl⟩,
        (selects_pair h hstring hverbatim).2 ⟨hgroup, hverbatim, rfl⟩⟩

theorem encodes_mapping (h : old.IsNamed) (hblank : ∀ x ∈ before ++ after, isSpaceOrTab x = true)
    (hline : IsLine t.rest) :
    Encodes old (dashLine k (markText marked ++
        (old.group ++ (before ++ ':' :: (after ++ (old.name ++ t.rest))))) cr) ↔
      t.IsApart ∧ after ≠ [] ∧ (markText marked ++ old.group ++ before).length ≤ 1024 ∧
        (marked = true ∨ IsVerbatim old.group ∧ (old.group = ['-'] → before = [])) ∧
        IsVerbatim old.name ∧ old.name ≠ ['-'] := by
  obtain ⟨hbefore, hafter⟩ := List.forall_mem_append.1 hblank
  by_cases hdash : marked = false → old.group = ['-'] → before = []
  · by_cases hne : after = []
    · subst hne
      exact iff_of_false (not_encodes_joined h hbefore hdash hline) fun hsound => hsound.2.1 rfl
    · rw [encodes_pair h hbefore hafter hne hdash hline]
      have hgroup : marked = true ∨ IsVerbatim old.group ↔
          marked = true ∨ IsVerbatim old.group ∧ (old.group = ['-'] → before = []) := by
        cases marked with
        | true => simp
        | false => simpa using fun _ => hdash rfl
      rw [hgroup]
      simp [hne]
  · -- The dash of the group begins a sequence of its own.
    simp only [Classical.not_imp] at hdash
    obtain ⟨rfl, hgroup, hne⟩ := hdash
    have hgap := Yaml.gapAhead_blanks hbefore hne (':' :: (after ++ (old.name ++ t.rest)))
    have hbody : IsLine ('-' :: (before ++ ':' :: (after ++ (old.name ++ t.rest)))) :=
      List.forall_mem_cons.2 ⟨by decide, isLine_pair h hbefore hafter hline⟩
    refine iff_of_false ?_ ?_
    · rw [hgroup]
      exact not_encodes_dash (b := before) hbefore (Or.inr rfl) hgap hbody
    · rintro ⟨-, -, -, hsound, -⟩
      exact hne ((hsound.resolve_left (by decide)).2 hgroup)

end Mapping

end Forms

/-- Whether a document reads a form as the selection that it spells. -/
def Form.IsSound (s : Selection) (marked : Bool) : Form → Prop
  | path => True
  | mapping before after =>
    after ≠ [] ∧ (markText marked ++ s.group ++ before).length ≤ 1024 ∧
      (marked = true ∨ IsVerbatim s.group ∧ (s.group = ['-'] → before = [])) ∧
      IsVerbatim s.name ∧ s.name ≠ ['-']
  | bare => IsVerbatim s.name ∧ s.name ≠ selfMarker ∧ s.name ≠ ['-']

/-- Whether a document reads the line as the selection on it. -/
structure Occurrence.IsSound (o : Occurrence old) : Prop where
  untabbed : '\t' ∉ o.indent
  apart : o.tail.IsApart
  allowed : o.tail.IsAllowed
  form : o.form.IsSound old o.marked

theorem not_encodes_of_unread {line : Text} (h : ∀ v, Yaml.read line ≠ .ok v) :
    ¬ Encodes old line :=
  fun ⟨_, hread, _⟩ => h _ hread

theorem Occurrence.line_eq (o : Occurrence old) (hindent : o.indent = List.replicate k ' ') :
    o.line = dashLine k (markText o.marked ++ (o.form.text old ++ o.tail.rest)) o.tail.cr := by
  rw [line, entryLine, hindent, o.tail.text_eq, dashLine]
  simp

theorem encodes_form (h : old.IsNamed) (o : Occurrence old) (hline : IsLine o.tail.rest) :
    Encodes old (dashLine k (markText o.marked ++ (o.form.text old ++ o.tail.rest)) cr) ↔
      o.tail.IsApart ∧ o.form.IsSound old o.marked := by
  obtain ⟨indent, marked, form, tail, hindent, hadmitted⟩ := o
  cases form with
  | path => exact (encodes_path h hline).trans (and_iff_left trivial).symm
  | mapping before after =>
    have htext : (Form.mapping before after).text old ++ tail.rest =
        old.group ++ (before ++ ':' :: (after ++ (old.name ++ tail.rest))) := by
      simp [Form.text]
    rw [htext]
    exact encodes_mapping h hadmitted hline
  | bare =>
    obtain ⟨hroot, rfl⟩ := hadmitted
    exact encodes_bare h hroot hline

/-- **A line with the old selection on it encodes it exactly if it is sound.** -/
theorem encodes_line_iff (h : old.IsNamed) (o : Occurrence old) (hone : o.tail.IsOneLine) :
    Encodes old o.line ↔ o.IsSound := by
  rcases Yaml.blanks_cases o.indented with ⟨n, hindent⟩ | ⟨n, r, hindent⟩
  · by_cases hallowed : o.tail.IsAllowed
    · have htab : '\t' ∉ o.indent := by simp [hindent]
      rw [o.line_eq hindent, encodes_form h o (Tail.isLine_rest hone hallowed)]
      exact ⟨fun ⟨hapart, hform⟩ => ⟨htab, hapart, hallowed, hform⟩, fun hs => ⟨hs.apart, hs.form⟩⟩
    · refine iff_of_false (not_encodes_of_unread fun v => ?_) fun hs => hallowed hs.allowed
      obtain ⟨s, hs, x, hx, hnot⟩ : ∃ s ∈ o.tail.comment, ∃ x ∈ s, isAllowed x = false := by
        simpa [Tail.IsAllowed] using hallowed
      refine Yaml.read_of_not_allowed (x := x) ?_ hnot
      rw [o.line_eq hindent, Tail.rest, hs]
      simp [dashLine, Tail.commentText, hx]
  · refine iff_of_false (not_encodes_of_unread fun v => ?_) fun hs =>
      hs.untabbed (by simp [hindent])
    rw [Occurrence.line, entryLine, hindent, List.append_assoc, List.cons_append]
    exact Yaml.read_of_tab n _

/-- A text is rewritten line by line. -/
theorem entry_eq_joinWith (hold : old.IsSimple) (new : Selection) (s : Text) :
    (entry s old new).1 =
      Text.joinWith ['\n'] ((Text.splitAll '\n' s).map fun line => (entry line old new).1) := by
  induction s using Text.segment_induction '\n' with
  | last line hline =>
    rw [Text.splitAll_of_not_mem hline, List.map_singleton, Text.joinWith_singleton]
  | more line s hline ih =>
    obtain ⟨p, ps, hp⟩ := List.exists_cons_of_ne_nil (Text.splitAll_ne_nil '\n' s)
    rw [hp, List.map_cons] at ih
    rw [entry_append hold, Text.splitAll_append, Text.splitAll_of_not_mem hline, hp,
      List.singleton_append,
      List.map_cons, List.map_cons, Text.joinWith_cons_cons, ih, List.append_assoc]
    rfl

/-- **What a rewrite changes is the old selection where a document reads it so.** A text is
rewritten line by line. A line that changes has the old selection on it, and read on its own it
encodes the old selection, and nothing else, exactly if it is sound: it is indented by spaces, its
comment stands behind a blank and holds what a document may hold, and a document reads the form that
the selection is written in as what it spells. A comment is assumed to end with its line. -/
theorem changed_encodes_iff (h : old.IsNamed) (new : Selection) (s : Text) :
    (entry s old new).1 =
        Text.joinWith ['\n'] ((Text.splitAll '\n' s).map fun line => (entry line old new).1) ∧
      ∀ line ∈ Text.splitAll '\n' s, (entry line old new).1 ≠ line →
        (∃ o : Occurrence old, o.line = line) ∧
          ∀ o : Occurrence old, o.line = line → o.tail.IsOneLine →
            (Encodes old line ↔ o.IsSound) := by
  refine ⟨entry_eq_joinWith h.isSimple new s, fun line hmem hchanged => ⟨?_, ?_⟩⟩
  · refine by_contra fun hnone => hchanged ?_
    rw [entry_other h.isSimple new (Text.not_mem_of_mem_splitAll hmem) (not_exists.1 hnone)]
  · rintro o rfl hone
    exact encodes_line_iff h o hone

/-- A marked mapping with a comment is changed, and encodes the selection. -/
theorem changed_encodes_iff_commented :
    let old : Selection := ⟨"db", "mysql"⟩
    let line : Text := "  - override db : mysql\t# a"
    old.IsNamed ∧ (entry line old ⟨"db", "pg"⟩).1 ≠ line ∧ Encodes old line := by
  intro old line
  have h : old.IsNamed := ⟨by decide, by decide⟩
  have hchanged : (entry line old ⟨"db", "pg"⟩).1 ≠ line := by decide +kernel
  have hmem : line ∈ Text.splitAll '\n' line := by decide +kernel
  let o : Occurrence old := {
    indent := [' ', ' ']
    marked := true
    form := .mapping [' '] [' ']
    tail := ⟨['\t'], some [' ', 'a'], false, List.all_eq_true.1 rfl,
      by rintro _ ⟨⟩; exact List.all_eq_true.1 rfl⟩
    indented := List.all_eq_true.1 rfl
    admitted := show ∀ x ∈ [' ', ' '], isBlankChar x = true from List.all_eq_true.1 rfl }
  have hsound : o.IsSound :=
    ⟨by decide, Or.inr (by decide), by rintro _ ⟨⟩; exact List.all_eq_true.1 rfl,
      ⟨by decide, by decide, Or.inl rfl, by decide +kernel, by decide⟩⟩
  have hone : o.tail.IsOneLine := by
    rintro _ ⟨⟩
    simp [Yaml.endsLine, Yaml.isBreak]
  exact ⟨h, hchanged, (((changed_encodes_iff h ⟨"db", "pg"⟩ line).2 line hmem hchanged).2 o
    (by decide +kernel) hone).2 hsound⟩

/-- A comment that touches the name is part of it to a document: the line is an entry for another
name, and is changed all the same. -/
theorem changed_not_encodes :
    let old : Selection := ⟨"db", "mysql"⟩
    let line : Text := "  - db/mysql#x"
    old.IsNamed ∧
      (entry ("defaults:\n".toList ++ line ++ ['\n']) old ⟨"db", "pg"⟩).1 =
        "defaults:\n  - db/pg#x\n".toList ∧
      Yaml.read line = .ok (.sequence [.string "db/mysql#x"]) ∧
      decodeItem (.string "db/mysql#x") = [.group ⟨"db", "mysql#x", false, .path⟩] ∧
      ¬ Encodes old line := by
  intro old line
  have hread : Yaml.read line = .ok (.sequence [.string "db/mysql#x"]) :=
    Outcome.toOption_eq_some.1 (by decide +kernel)
  have hdecode : decodeItem (.string "db/mysql#x") = [.group ⟨"db", "mysql#x", false, .path⟩] := by
    decide +kernel
  refine ⟨⟨by decide, by decide⟩, by decide +kernel, hread, hdecode, ?_⟩
  rintro ⟨v, hv, x, hx, hfor⟩
  cases hread.symm.trans hv
  rw [hdecode] at hx
  cases hx
  exact absurd hfor.2 (by decide +kernel)

end LayeredConfig.Rewrite
