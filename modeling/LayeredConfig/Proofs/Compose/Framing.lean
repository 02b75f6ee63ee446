import LayeredConfig.Compose.Preview
import LayeredConfig.Proofs.Outcome
import LayeredConfig.Proofs.Text.Segments
import Mathlib.Data.List.Forall2

/-!
# Comments in front of a composed value

A preview is a header of comment lines and, behind it, the rendering of a composed value or
nothing. Lines end where YAML ends them. What is collapsed to a single line always makes a comment;
a message that is cut into lines at line feeds alone may hold other line breaks, and what follows
one of those is no comment. The exact condition is `Preview.framed_iff`, whatever the wording of the
libraries that a message quotes.
-/
namespace LayeredConfig

open Outcome

namespace Text

/-- The characters that end a line in YAML: LF, CR, NEL, LS and PS. -/
def isLineBreak (c : Char) : Bool :=
  c = '\n' || c = '\r' || c.toNat == 0x85 || c.toNat == 0x2028 || c.toNat == 0x2029

/-- A line that holds nothing but a comment. -/
def IsComment (line : Text) : Prop :=
  line.head? = some '#' ∧ ∀ c ∈ line, isLineBreak c = false

/-- Comment lines, each with a line feed at its end. -/
def IsHeader (s : Text) : Prop :=
  ∃ lines : List Text, s = lines.flatMap (· ++ ['\n']) ∧ ∀ line ∈ lines, IsComment line

/-- Fixed texts are tested character by character. -/
theorem noBreak_of_all {s : Text} (h : s.all (fun c => !isLineBreak c) = true) :
    ∀ c ∈ s, isLineBreak c = false := by
  intro c hc
  simpa using List.all_eq_true.1 h c hc

theorem isComment_of_all {line : Text} (hmark : line.head? = some '#')
    (h : line.all (fun c => !isLineBreak c) = true) : IsComment line :=
  ⟨hmark, noBreak_of_all h⟩

theorem isBlank_of_isLineBreak {c : Char} (h : isLineBreak c = true) : isBlank c = true := by
  unfold isLineBreak at h
  unfold isBlank
  simp only [Bool.or_eq_true, decide_eq_true_eq, beq_iff_eq] at h
  rcases h with (((rfl | rfl) | h) | h) | h
  · rfl
  · rfl
  all_goals simp [h]

/-- No word holds white space. -/
theorem not_isBlank_of_mem_words {s word : Text} (h : word ∈ words s) :
    ∀ c ∈ word, isBlank c = false := by
  suffices hfrom : ∀ s word', (∀ c ∈ word', isBlank c = false) →
      ∀ word ∈ wordsFrom word' s, ∀ c ∈ word, isBlank c = false from
    hfrom s [] (by simp) word h
  clear h s word
  intro s
  induction s with
  | nil =>
    intro read hread word hword
    rw [wordsFrom] at hword
    split at hword
    · cases hword
    · rwa [List.mem_singleton.1 hword]
  | cons a s ih =>
    intro read hread word hword
    rw [wordsFrom] at hword
    split at hword
    · split at hword
      · exact ih [] (by simp) word hword
      · rcases List.mem_cons.1 hword with rfl | hword
        · exact hread
        · exact ih [] (by simp) word hword
    · next ha =>
      refine ih (read ++ [a]) (List.forall_mem_append.2 ⟨hread, ?_⟩) word hword
      exact List.forall_mem_singleton.2 (Bool.eq_false_iff.2 ha)

/-- A text on a single line has no line break. -/
theorem not_isLineBreak_singleLine {s : Text} : ∀ c ∈ singleLine s, isLineBreak c = false := by
  intro c hc
  rcases mem_joinWith hc with hc | ⟨word, hword, hc⟩
  · obtain rfl : c = ' ' := List.mem_singleton.1 hc
    decide
  · have hblank := not_isBlank_of_mem_words hword c hc
    rw [Bool.eq_false_iff] at hblank ⊢
    exact fun h => hblank (isBlank_of_isLineBreak h)

theorem IsComment.noLineFeed {line : Text} (h : IsComment line) : '\n' ∉ line := fun hmem => by
  have hbreak := h.2 _ hmem
  revert hbreak
  decide

theorem isHeader_nil : IsHeader [] := ⟨[], rfl, by simp⟩

theorem IsHeader.append {s s' : Text} (h : IsHeader s) (h' : IsHeader s') : IsHeader (s ++ s') := by
  obtain ⟨lines, rfl, hlines⟩ := h
  obtain ⟨lines', rfl, hlines'⟩ := h'
  exact ⟨lines ++ lines', by simp, List.forall_mem_append.2 ⟨hlines, hlines'⟩⟩

theorem isHeader_line {line : Text} (h : IsComment line) : IsHeader (line ++ ['\n']) :=
  ⟨[line], by simp, List.forall_mem_singleton.2 h⟩

/-- Lines that are ended by line feeds are found again at the line feeds. -/
theorem splitAll_ended {lines : List Text} (h : ∀ line ∈ lines, '\n' ∉ line) :
    splitAll '\n' (lines.flatMap (· ++ ['\n'])) = lines ++ [[]] := by
  induction lines with
  | nil => rfl
  | cons line lines ih =>
    obtain ⟨hline, hlines⟩ := List.forall_mem_cons.1 h
    rw [List.flatMap_cons, List.append_assoc, List.singleton_append, splitAll_append,
      splitAll_of_not_mem hline, ih hlines, List.singleton_append, List.cons_append]

theorem isHeader_ended_iff {lines : List Text} (h : ∀ line ∈ lines, '\n' ∉ line) :
    IsHeader (lines.flatMap (· ++ ['\n'])) ↔ ∀ line ∈ lines, IsComment line := by
  refine ⟨?_, fun hlines => ⟨lines, rfl, hlines⟩⟩
  rintro ⟨lines', heq, hlines'⟩
  have h' : ∀ line ∈ lines', '\n' ∉ line := fun line hline => (hlines' line hline).noLineFeed
  have hsplit := congrArg (splitAll '\n') heq
  rw [splitAll_ended h, splitAll_ended h'] at hsplit
  rwa [List.append_cancel_right hsplit]

/-- A line of a text has no line feed. -/
theorem noLineFeed_of_mem_lines {s line : Text} (h : line ∈ lines s) : '\n' ∉ line := by
  have hparts : ∀ part ∈ splitAll '\n' s, '\n' ∉ part := fun part => not_mem_of_mem_splitAll
  have hended : ∀ line ∈ (splitAll '\n' s).dropLast.map
      (fun line => if line.getLast? = some '\r' then line.dropLast else line), '\n' ∉ line := by
    intro line hline
    obtain ⟨part, hpart, rfl⟩ := List.mem_map.1 hline
    have hpart := hparts part (List.dropLast_subset _ hpart)
    split
    · exact fun hmem => hpart (List.dropLast_subset _ hmem)
    · exact hpart
  unfold lines at h
  dsimp only at h
  split at h
  · exact hended line h
  · exact hended line h
  · next last _ hlast =>
    rcases List.mem_append.1 h with h | h
    · exact hended line h
    · rw [List.mem_singleton.1 h]
      exact hparts _ (List.mem_of_getLast? hlast)

/-- The first line of a text starts as the text does, up to the first line feed. -/
theorem exists_append_mem_lines {start : Text} (hfeed : '\n' ∉ start) (hne : start ≠ [])
    (hlast : start.getLast? ≠ some '\r') (rest : Text) :
    ∃ more, start ++ more ∈ lines (start ++ rest) := by
  by_cases hrest : '\n' ∈ rest
  · obtain ⟨line, rest, rfl, hline⟩ := List.eq_append_cons_of_mem hrest
    have hfirst : '\n' ∉ start ++ line := by simp [hfeed, hline]
    -- A carriage return before the line feed goes too, but it is none of `start`.
    have hended : ∃ more, (if (start ++ line).getLast? = some '\r' then (start ++ line).dropLast
        else start ++ line) = start ++ more := by
      split
      · next hreturn =>
        have hline : line ≠ [] := fun h => hlast (by simpa [h] using hreturn)
        exact ⟨line.dropLast, List.dropLast_append_of_ne_nil hline⟩
      · exact ⟨line, rfl⟩
    obtain ⟨more, hmore⟩ := hended
    refine ⟨more, ?_⟩
    rw [lines, ← List.append_assoc, splitAll_append, splitAll_of_not_mem hfirst,
      List.singleton_append, List.dropLast_cons_of_ne_nil (splitAll_ne_nil _ _),
      List.map_cons, hmore]
    split
    · exact List.mem_cons_self
    · exact List.mem_cons_self
    · exact List.mem_append_left _ List.mem_cons_self
  · have hwhole : '\n' ∉ start ++ rest := by simp [hfeed, hrest]
    refine ⟨rest, ?_⟩
    rw [lines, splitAll_of_not_mem hwhole]
    simp [hne]

end Text

namespace Preview

variable {env : Environment} {t : FileTree} {root p : Path} {settings : MergeSettings}
  {document : Option Path} {overrides : List Text} {wording : Wording}

/-- A value that a strategy composes and shows. -/
inductive Shows (env : Environment) (t : FileTree) (root p : Path) (settings : MergeSettings)
    (overrides : List Text) : Value → Prop
  /-- The strict composition, with its interpolations resolved if that is asked for. -/
  | native {v : Value} : settings.strategy ≠ .manual → Strict.compose t root p overrides = .ok v →
    Shows env t root p settings overrides (if settings.resolveInterpolations then
      (Interpolation.resolve (fun name => env.lookup name) v).value else v)
  /-- The lenient composition, where it is chosen or the strict one cannot be shown. -/
  | manual {v : Value} : (settings.strategy = .manual ∨ settings.strategy = .auto ∧
      ∃ e, native env t root p settings.resolveInterpolations overrides = .error e) →
    Lenient.compose t root p overrides = .ok v → Shows env t root p settings overrides v

/-- A preview that is a header and the rendering of a composed value or nothing. -/
def Framed (env : Environment) (t : FileTree) (root : Path) (settings : MergeSettings)
    (document : Option Path) (overrides : List Text) (wording : Wording) : Prop :=
  ∃ header body, merge env t root settings document overrides wording = header ++ body ∧
    Text.IsHeader header ∧ (body = [] ∨ ∃ p v, document = some p ∧
      Shows env t root p settings overrides v ∧ Yaml.render? v = some body)

/-- Why an outcome is none. -/
def cause? {α : Type} : Except ComposeError α → Option ComposeError
  | .ok _ => none
  | .error e => some e

/-- The failure that a preview consists of, if it shows no value. -/
def failure? (env : Environment) (t : FileTree) (root : Path) (settings : MergeSettings)
    (document : Option Path) (overrides : List Text) : Option ComposeError :=
  match document with
  | none => some .noRootDocument
  | some p =>
    let native := native env t root p settings.resolveInterpolations overrides
    let manual := (Lenient.compose t root p overrides).bind rendered
    match settings.strategy with
    | .manual => cause? manual
    | .native => cause? native
    | .auto => (cause? native).bind fun _ => cause? manual

/-- A failure whose lines are comments when they are marked as such. -/
def IsPlain (wording : Wording) (e : ComposeError) : Prop :=
  ∀ line ∈ Text.lines (e.message wording), ∀ c ∈ line, Text.isLineBreak c = false

/-- Something without a line break, between a mark and the rest of a line, makes a comment. -/
theorem isHeader_between {lead s close : Text} (rest : Text) (hlead : Text.IsComment lead)
    (hs : ∀ c ∈ s, Text.isLineBreak c = false) (hrest : ∀ c ∈ rest, Text.isLineBreak c = false)
    (hclose : close = rest ++ ['\n']) : Text.IsHeader (lead ++ s ++ close) := by
  rw [hclose, ← List.append_assoc]
  obtain ⟨hmark, hlead⟩ := hlead
  refine Text.isHeader_line ⟨?_, ?_⟩
  · rw [List.append_assoc, List.head?_append, hmark]
    rfl
  · exact List.forall_mem_append.2 ⟨List.forall_mem_append.2 ⟨hlead, hs⟩, hrest⟩

theorem isHeader_fallback (wording : Wording) (e : ComposeError) :
    Text.IsHeader ("# Native compose failed (" ++ Text.singleLine (e.message wording) ++
      "); showing manual merge\n") :=
  isHeader_between "); showing manual merge".toList (Text.isComment_of_all rfl (by decide))
    Text.not_isLineBreak_singleLine (Text.noBreak_of_all (by decide)) (by decide)

/-- The expressions that are left stand on one line. -/
theorem isHeader_unresolved (failures : List Interpolation.Failure) : Text.IsHeader
    ("#   unresolved: " ++
      Text.joinWith ", " (failures.map fun f => Text.singleLine f.expression) ++
      "\n") := by
  refine isHeader_between [] (Text.isComment_of_all rfl (by decide)) (fun c hc => ?_) (by simp)
    (by decide)
  rcases Text.mem_joinWith hc with hsep | ⟨part, hpart, hc⟩
  · exact Text.noBreak_of_all (s := ", ".toList) (by decide) c hsep
  · obtain ⟨f, -, rfl⟩ := List.mem_map.1 hpart
    exact Text.not_isLineBreak_singleLine c hc

theorem isHeader_warning (failures : List Interpolation.Failure) :
    Text.IsHeader (warning failures) := by
  cases failures with
  | nil => exact Text.isHeader_nil
  | cons first more =>
    have hlead : ("# Warning: some interpolations could not be resolved\n#   (" : Text) =
        "# Warning: some interpolations could not be resolved".toList ++ ['\n'] ++
          "#   (".toList := by decide
    have hhead : Text.IsHeader ("# Warning: some interpolations could not be resolved\n#   (" ++
        Text.singleLine first.message ++ ")\n") := by
      rw [hlead, List.append_assoc _ "#   (".toList, List.append_assoc _ (_ ++ _)]
      refine (Text.isHeader_line (Text.isComment_of_all rfl (by decide))).append ?_
      exact isHeader_between ")".toList (Text.isComment_of_all rfl (by decide))
        Text.not_isLineBreak_singleLine (Text.noBreak_of_all (by decide)) (by decide)
    simp only [warning]
    split
    · exact hhead
    · rw [List.append_assoc _ _ "\n".toList, List.append_assoc]
      refine hhead.append ?_
      rw [← List.append_assoc]
      exact isHeader_unresolved (first :: more)

/-- The lines of a terminal failure. -/
def errorLines (wording : Wording) (e : ComposeError) : List Text :=
  "# Error merging config:".toList :: (Text.lines (e.message wording)).map ("# ".toList ++ ·)

theorem errorText_eq (wording : Wording) (e : ComposeError) :
    errorText wording e = (errorLines wording e).flatMap (· ++ ['\n']) := by
  have hhead : ("# Error merging config:\n" : Text) =
      "# Error merging config:".toList ++ ['\n'] := by decide
  have hlines : commentLines (e.message wording) =
      ((Text.lines (e.message wording)).map ("# ".toList ++ ·)).flatMap (· ++ ['\n']) := by
    rw [List.flatMap_map]
    rfl
  calc errorText wording e
      = "# Error merging config:\n".toList ++ commentLines (e.message wording) := rfl
    _ = _ := congrArg₂ (· ++ ·) hhead hlines

theorem noLineFeed_errorLines (wording : Wording) (e : ComposeError) :
    ∀ line ∈ errorLines wording e, '\n' ∉ line := by
  refine List.forall_mem_cons.2 ⟨by decide, fun line hline => ?_⟩
  obtain ⟨s, hs, rfl⟩ := List.mem_map.1 hline
  rw [List.mem_append, not_or]
  exact ⟨by decide, Text.noLineFeed_of_mem_lines hs⟩

theorem isComment_errorLines_iff (wording : Wording) (e : ComposeError) :
    (∀ line ∈ errorLines wording e, Text.IsComment line) ↔ IsPlain wording e := by
  have hline : ∀ s, Text.IsComment ("# ".toList ++ s) ↔ ∀ c ∈ s, Text.isLineBreak c = false := by
    intro s
    constructor
    · exact fun h c hc => h.2 c (List.mem_append_right _ hc)
    · exact fun h =>
        ⟨rfl, List.forall_mem_append.2 ⟨Text.noBreak_of_all (s := "# ".toList) (by decide), h⟩⟩
  rw [errorLines, List.forall_mem_cons, List.forall_mem_map]
  simp only [hline]
  exact and_iff_right (Text.isComment_of_all rfl (by decide))

/-- **A terminal failure is a header exactly if it is plain**, whatever comments stand before
it. -/
theorem isHeader_append_errorText_iff {header : Text} (h : Text.IsHeader header)
    (wording : Wording) (e : ComposeError) :
    Text.IsHeader (header ++ errorText wording e) ↔ IsPlain wording e := by
  obtain ⟨lines, rfl, hlines⟩ := h
  have hfeed : ∀ line ∈ lines, '\n' ∉ line := fun line hline => (hlines line hline).noLineFeed
  rw [errorText_eq, ← List.flatMap_append, Text.isHeader_ended_iff
    (List.forall_mem_append.2 ⟨hfeed, noLineFeed_errorLines wording e⟩), List.forall_mem_append,
    isComment_errorLines_iff]
  exact and_iff_right hlines

theorem rendered_eq_ok {v : Value} {s : Text} : rendered v = .ok s ↔ Yaml.render? v = some s := by
  unfold rendered
  cases Yaml.render? v <;> simp

theorem cause?_eq_none {α : Type} {x : Except ComposeError α} :
    cause? x = none ↔ ∃ a, x = .ok a := by
  cases x <;> simp [cause?]

theorem cause?_eq_some {α : Type} {x : Except ComposeError α} {e : ComposeError} :
    cause? x = some e ↔ x = .error e := by
  cases x <;> simp [cause?]

/-- A strict preview is a warning and the rendering of the value. -/
theorem native_eq_ok {resolve : Bool} {s : Text} :
    native env t root p resolve overrides = .ok s ↔ ∃ v, Strict.compose t root p overrides = .ok v ∧
      ∃ body, s = (if resolve then warning (Interpolation.resolve
          (fun name => env.lookup name) v).failures else []) ++ body ∧
        Yaml.render? (if resolve then (Interpolation.resolve (fun name => env.lookup name) v).value
          else v) = some body := by
  unfold native
  rw [bind_eq_ok]
  refine exists_congr fun v => and_congr_right fun _ => ?_
  cases resolve with
  | false =>
    simp only [Bool.false_eq_true, if_false, rendered_eq_ok, List.nil_append, exists_eq_left']
  | true =>
    simp only [if_true, bind_eq_ok, rendered_eq_ok, Except.ok.injEq]
    constructor
    · rintro ⟨body, hbody, rfl⟩
      exact ⟨body, rfl, hbody⟩
    · rintro ⟨body, rfl, hbody⟩
      exact ⟨body, hbody, rfl⟩

theorem manual_eq : manual t root p overrides wording =
    match (Lenient.compose t root p overrides).bind rendered with
    | .ok s => s
    | .error e => errorText wording e := rfl

/-- A value that is shown and rendered leaves no failure. -/
theorem Shows.rendered {v : Value} {body : Text} (h : Shows env t root p settings overrides v)
    (hbody : Yaml.render? v = some body) :
    failure? env t root settings (some p) overrides = none := by
  cases h with
  | native hs hv =>
    have hok := native_eq_ok.2 ⟨_, hv, body, rfl, hbody⟩
    unfold failure?
    cases hstrategy : settings.strategy with
    | manual => exact absurd hstrategy hs
    | native => simp only [hok, cause?]
    | auto => simp only [hok, cause?, Option.bind_none]
  | manual hs hv =>
    have hok : (Lenient.compose t root p overrides).bind Preview.rendered = .ok body := by
      rw [hv]
      exact rendered_eq_ok.2 hbody
    unfold failure?
    rcases hs with hs | ⟨hs, e, he⟩
    · simp only [hs, hok, cause?]
    · simp only [hs, hok, he, cause?, Option.bind_some]

/-- **Without a failure** a preview is a header and the rendering of a composed value. -/
theorem framed_of_no_failure (h : failure? env t root settings document overrides = none) :
    Framed env t root settings document overrides wording := by
  unfold failure? at h
  cases document with
  | none => cases h
  | some p =>
    have hnative : ∀ s, settings.strategy ≠ .manual →
        native env t root p settings.resolveInterpolations overrides = .ok s →
        ∃ header body, s = header ++ body ∧ Text.IsHeader header ∧
          (body = [] ∨ ∃ q v, some p = some q ∧ Shows env t root q settings overrides v ∧
            Yaml.render? v = some body) := by
      intro s hs hok
      obtain ⟨v, hv, body, rfl, hbody⟩ := native_eq_ok.1 hok
      refine ⟨_, body, rfl, ?_, Or.inr ⟨p, _, rfl, .native hs hv, hbody⟩⟩
      split
      · exact isHeader_warning _
      · exact Text.isHeader_nil
    have hmanual : ∀ s, (settings.strategy = .manual ∨ settings.strategy = .auto ∧
          ∃ e, native env t root p settings.resolveInterpolations overrides = .error e) →
        (Lenient.compose t root p overrides).bind rendered = .ok s →
        ∃ q v, some p = some q ∧ Shows env t root q settings overrides v ∧
          Yaml.render? v = some s := by
      intro s hs hok
      obtain ⟨v, hv, hbody⟩ := bind_eq_ok.1 hok
      exact ⟨p, v, rfl, .manual hs hv, rendered_eq_ok.1 hbody⟩
    unfold Framed merge
    cases hstrategy : settings.strategy with
    | manual =>
      simp only [hstrategy] at h ⊢
      obtain ⟨s, hok⟩ := cause?_eq_none.1 h
      rw [manual_eq, hok]
      exact ⟨[], s, rfl, Text.isHeader_nil, Or.inr (hmanual s (Or.inl hstrategy) hok)⟩
    | native =>
      simp only [hstrategy] at h ⊢
      obtain ⟨s, hok⟩ := cause?_eq_none.1 h
      rw [hok]
      exact hnative s (by simp [hstrategy]) hok
    | auto =>
      simp only [hstrategy] at h ⊢
      cases hn : native env t root p settings.resolveInterpolations overrides with
      | ok s => exact hnative s (by simp [hstrategy]) hn
      | error e =>
        rw [hn] at h
        obtain ⟨s, hok⟩ := cause?_eq_none.1 h
        simp only [manual_eq, hok]
        exact ⟨_, s, rfl, isHeader_fallback wording e,
          Or.inr (hmanual s (Or.inr ⟨hstrategy, e, hn⟩) hok)⟩

/-- A preview without a value ends in the lines of its failure. -/
theorem merge_of_failure (wording : Wording) {e : ComposeError}
    (h : failure? env t root settings document overrides = some e) :
    ∃ header, Text.IsHeader header ∧
      merge env t root settings document overrides wording = header ++ errorText wording e := by
  unfold failure? at h
  unfold merge
  cases document with
  | none =>
    cases h
    exact ⟨[], Text.isHeader_nil, rfl⟩
  | some p =>
    cases hstrategy : settings.strategy with
    | manual =>
      simp only [hstrategy, cause?_eq_some] at h
      simp only [manual_eq, h]
      exact ⟨[], Text.isHeader_nil, rfl⟩
    | native =>
      simp only [hstrategy, cause?_eq_some] at h
      simp only [h]
      exact ⟨[], Text.isHeader_nil, rfl⟩
    | auto =>
      simp only [hstrategy, Option.bind_eq_some_iff, cause?_eq_some] at h
      obtain ⟨first, hfirst, h⟩ := h
      simp only [hfirst, manual_eq, h]
      exact ⟨_, isHeader_fallback wording first, rfl⟩

/-- **With a failure** a preview is a header exactly if the failure is plain. -/
theorem framed_iff_isPlain {e : ComposeError}
    (h : failure? env t root settings document overrides = some e) :
    Framed env t root settings document overrides wording ↔ IsPlain wording e := by
  obtain ⟨header, hheader, hmerge⟩ := merge_of_failure wording h
  constructor
  · rintro ⟨header', body, heq, hheader', hbody⟩
    rcases hbody with rfl | ⟨p, v, rfl, hshows, hrender⟩
    · rw [List.append_nil] at heq
      rw [← heq, hmerge] at hheader'
      exact (isHeader_append_errorText_iff hheader wording e).1 hheader'
    · rw [hshows.rendered hrender] at h
      cases h
  · intro hplain
    refine ⟨_, [], (List.append_nil _).symm, ?_, Or.inl rfl⟩
    rw [hmerge]
    exact (isHeader_append_errorText_iff hheader wording e).2 hplain

/-- **A preview is a header of comment lines and the rendering of a composed value or nothing**, as
long as no line of the failure that it reports instead of a value has a line break of YAML inside.
Warnings and the note of a failed strict composition are comments whatever they hold. -/
theorem framed_iff :
    Framed env t root settings document overrides wording ↔
      ∀ e, failure? env t root settings document overrides = some e →
        ∀ line ∈ Text.lines (e.message wording), ∀ c ∈ line, Text.isLineBreak c = false := by
  cases h : failure? env t root settings document overrides with
  | none => exact iff_of_true (framed_of_no_failure h) (by simp)
  | some e =>
    rw [framed_iff_isPlain h]
    simp only [Option.some.injEq, forall_eq', IsPlain]

/-- A root document of one entry. -/
def oneEntry : FileTree where
  entries := [
    (["conf".toList], .directory),
    (["conf".toList, "config.yaml".toList], .file (.text "x: 1\n"))]
  workingDirectory := []

/-- **A failure can be read back as configuration.** Here it quotes an override in which a carriage
return ends the comment, so that the rest of the override becomes an entry. -/
theorem not_framed_carriageReturn :
    ¬ Framed [] oneEntry "/conf" ⟨.native, true⟩ (some "/conf/config.yaml") ["y\ra: 1 #"] .marked ∧
      Yaml.read (merge [] oneEntry "/conf" ⟨.native, true⟩ (some "/conf/config.yaml")
        ["y\ra: 1 #"] .marked) = .ok (.mapping [(.string "a", .number (.int 1))]) := by
  constructor
  · have hfailure : failure? [] oneEntry "/conf" ⟨.native, true⟩ (some "/conf/config.yaml")
        ["y\ra: 1 #"] = some (.invalidOverride "y\ra: 1 #") := by decide +kernel
    rw [framed_iff_isPlain hfailure]
    intro hplain
    have hbreak := hplain "invalid override 'y\ra: 1 #': expected key=value" (by decide +kernel)
      '\r' (by decide +kernel)
    cases hbreak
  · decide +kernel

/-- A root document that has a key twice, below a key with a carriage return in it. -/
def repeatedKey : FileTree where
  entries := [
    (["conf".toList], .directory),
    (["conf".toList, "config.yaml".toList], .file (.text "\"y\\ra: 1 #\": \x7bb: 1, b: 2\x7d\n"))]
  workingDirectory := []

/-- A fault that is told with the keys above it breaks the comment in the same way, however the
text goes on. -/
theorem not_framed_keyPath {rest : Text}
    (h : wording.document "/conf/config.yaml" .duplicateKey = "y\ra: 1 #: ".toList ++ rest) :
    ¬ Framed [] repeatedKey "/conf" ⟨.native, true⟩ (some "/conf/config.yaml") [] wording := by
  have hfailure : failure? [] repeatedKey "/conf" ⟨.native, true⟩ (some "/conf/config.yaml") [] =
      some (.parse "/conf/config.yaml" .duplicateKey) := by decide +kernel
  let start : Text := "failed to parse ".toList ++ "/conf/config.yaml".toList ++ ": ".toList ++
    "y\ra: 1 #: ".toList
  have hmessage : ComposeError.message (.parse "/conf/config.yaml" .duplicateKey) wording =
      start ++ rest :=
    calc ComposeError.message (.parse "/conf/config.yaml" .duplicateKey) wording
      _ = "failed to parse ".toList ++ "/conf/config.yaml".toList ++ ": ".toList ++
            ("y\ra: 1 #: ".toList ++ rest) := congrArg (_ ++ ·) h
      _ = start ++ rest := (List.append_assoc ..).symm
  obtain ⟨more, hline⟩ := Text.exists_append_mem_lines (show '\n' ∉ start by decide +kernel)
    (by decide +kernel) (by decide +kernel) rest
  rw [framed_iff_isPlain hfailure]
  intro hplain
  have hbreak := hplain _ (hmessage ▸ hline) '\r' (List.mem_append_left _ (by decide +kernel))
  cases hbreak

end Preview
end LayeredConfig
