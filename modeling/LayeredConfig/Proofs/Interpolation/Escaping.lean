import LayeredConfig.Proofs.Interpolation.Resolved
import LayeredConfig.Proofs.Interpolation.Expansion

/-!
# Escaped texts

A backslash takes its meaning from the opening behind it. A text whose openings have all been
escaped is read as literal parts and escapes only, whatever else it holds, so that it stands for the
text it was made from in every document, and is never reported.
-/
namespace LayeredConfig.Interpolation

open Outcome

/-- The text with a backslash before every opening. -/
def escaped : Text → Text
  | [] => []
  | '$' :: '\x7b' :: r => '\\' :: '$' :: '\x7b' :: escaped r
  | c :: r => c :: escaped r

theorem escaped_cons {c : Char} {r : Text} (h : ∀ q, c = '$' → r ≠ '\x7b' :: q) :
    escaped (c :: r) = c :: escaped r := by
  rw [escaped]
  intro q hc hr
  exact h q hc hr

/-- A brace at the front was there before. -/
theorem exists_of_escaped_eq_brace {r q : Text} (h : escaped r = '\x7b' :: q) :
    ∃ r', r = '\x7b' :: r' := by
  fun_cases escaped r with
  | case1 => cases h
  | case2 r => cases h
  | case3 c r hc =>
    rw [escaped_cons fun q hd hr => hc q hd hr] at h
    exact ⟨r, by rw [(List.cons.inj h).1]⟩

/-- No opening is left at the front. -/
theorem escaped_ne_opening (r q : Text) : escaped r ≠ '$' :: '\x7b' :: q := by
  intro h
  fun_cases escaped r with
  | case1 => cases h
  | case2 r => cases h
  | case3 c r hc =>
    rw [escaped_cons fun q hd hr => hc q hd hr] at h
    obtain ⟨hd, hr⟩ := List.cons.inj h
    obtain ⟨r', hr'⟩ := exists_of_escaped_eq_brace hr
    exact hc r' hd hr'

theorem concatPieces_literal (eval : Text → Except Reason Value) (t : Text) (ps : List Piece) :
    concatPieces eval (literal t ++ ps) = concatPieces eval ps >>= fun rest => .ok (t ++ rest) := by
  cases t with
  | nil =>
    show concatPieces eval ps = _
    cases concatPieces eval ps <;> rfl
  | cons c t => rfl

theorem isBody_of_mem_literal {t : Text} {p : Piece} (h : p ∈ literal t) : p.isBody = false := by
  rw [literal] at h
  split at h
  · cases h
  · rw [List.mem_singleton.1 h]
    rfl

/-- From any position in a literal part, an escaped text has no bodies, and its pieces stand for the
text. -/
theorem piecesFrom_escaped (s t : Text) : ∃ ps, piecesFrom (.text t) (escaped s) = some ps ∧
    (∀ p ∈ ps, p.isBody = false) ∧ ∀ eval, concatPieces eval ps = .ok (t ++ s) := by
  fun_induction escaped s generalizing t with
  | case1 =>
    refine ⟨literal t, rfl, fun p hp => isBody_of_mem_literal hp, fun eval => ?_⟩
    have h := concatPieces_literal eval t []
    rw [List.append_nil] at h
    exact h
  | case2 r ih =>
    obtain ⟨ps, hps, hbody, hconcat⟩ := ih []
    refine ⟨literal t ++ .escape :: ps, ?_, ?_, fun eval => ?_⟩
    · rw [piecesFrom, hps]
      rfl
    · intro p hp
      rcases List.mem_append.1 hp with hp | hp
      · exact isBody_of_mem_literal hp
      · rcases List.mem_cons.1 hp with rfl | hp
        · rfl
        · exact hbody p hp
    · rw [concatPieces_literal, concatPieces_cons, hconcat]
      rfl
  | case3 c r hc ih =>
    obtain ⟨ps, hps, hbody, hconcat⟩ := ih (t ++ [c])
    refine ⟨ps, ?_, hbody, fun eval => ?_⟩
    · -- Neither an escape nor an opening begins here, since none of them is left behind `c`.
      rw [piecesFrom, hps]
      · intro q _ hq
        exact escaped_ne_opening r q hq
      · intro q hd hq
        obtain ⟨r', hr'⟩ := exists_of_escaped_eq_brace hq
        exact hc r' hd hr'
    · rw [hconcat, List.append_assoc]
      rfl

theorem hasInterpolation_escaped (s : Text) : hasInterpolation (escaped s) = false := by
  obtain ⟨ps, hps, hbody, -⟩ := piecesFrom_escaped s []
  rw [hasInterpolation, pieces?, hps, Option.any_some, List.any_eq_false]
  intro p hp
  rw [hbody p hp]
  exact Bool.false_ne_true

/-- An escaped text has the text itself for its value, in every document and at every location. -/
theorem alone_escaped (ctx : Context) (here : List Text) (s : Text) :
    ctx.alone here (escaped s) = .ok (.string s) := by
  obtain ⟨ps, hps, hbody, hconcat⟩ := piecesFrom_escaped s []
  have hone : ∀ e, pieces? (escaped s) ≠ some [.body e] := by
    intro e h
    obtain rfl := Option.some.inj (hps.symm.trans h)
    cases hbody (.body e) List.mem_cons_self
  rw [Context.alone, depthLimit, resolveText_succ, expand_succ, ofPieces]
  split
  · next h => cases hps.symm.trans h
  · next e h => exact absurd h (hone e)
  · next ps' _ h =>
    obtain rfl := Option.some.inj (hps.symm.trans h)
    rw [hconcat]
    rfl

/-- A text without an opening has nothing to escape. -/
theorem escaped_of_no_opening {s : Text} (h : hasOpening (escaped s) = false) : escaped s = s := by
  unfold hasOpening at h
  fun_induction escaped s with
  | case1 => rfl
  | case2 r ih => cases h
  | case3 c r hc ih =>
    rw [Text.holds, Bool.or_eq_false_iff] at h
    rw [ih h.2]

theorem resolveNode_escaped (ctx : Context) (here : List Text) (s : Text) :
    resolveNode ctx here (.string (escaped s)) = (.string s, []) := by
  cases hopen : hasOpening (escaped s) with
  | true => exact resolveNode_string hopen (alone_escaped ctx here s)
  | false =>
    rw [resolveNode, hopen, if_neg Bool.false_ne_true, escaped_of_no_opening hopen]

/-- **An escaped text stands for the text it was made from**, wherever it is reached through
mappings and sequences. It is not reported, and counts as a text without interpolations. -/
theorem resolve_escaped (environment : Text → Option Text) {document : Value} {position : List Nat}
    {here : List Text} {s : Text}
    (h : document.place? position = some (here, .string (escaped s))) :
    let r := resolve environment document
    r.value.place? position = some (here, .string s) ∧
    (∀ f ∈ r.failures, f.expression ≠ escaped s) ∧
      hasInterpolation (escaped s) = false := by
  intro r
  let ctx : Context := ⟨document, environment⟩
  refine ⟨?_, fun f hf heq => ?_, hasInterpolation_escaped s⟩
  · have hplace := place?_resolveNode ctx h []
    rwa [resolveNode_escaped] at hplace
  · obtain ⟨-, hreason⟩ := mem_failures_iff.1 hf
    rw [heq, alone_escaped] at hreason
    cases hreason

/-- Backslashes, lone signs and partial openings around two openings, beside a reference that
fails. -/
theorem resolve_escaped_marked :
    let s : Text := "\\$\x7ba\x7d $$\x7b\x7b$"
    let document : Value := .mapping [(.string "x", .sequence [.string (escaped s)]),
      (.string "y", .string (reference "z"))]
    let here : List Text := ["x", "0"]
    let r := resolve (fun _ => none) document
    escaped s = "\\\\$\x7ba\x7d $\\$\x7b\x7b$".toList ∧
    document.place? [0, 0] = some (here, .string (escaped s)) ∧ r.failures.length = 1 ∧
    r.value.place? [0, 0] = some (here, .string s) ∧ (∀ f ∈ r.failures, f.expression ≠ escaped s) ∧
    hasInterpolation (escaped s) = false := by
  intro s document here r
  have hplace : document.place? [0, 0] = some (here, .string (escaped s)) := by decide +kernel
  exact ⟨by decide +kernel, hplace, by decide +kernel, resolve_escaped (fun _ => none) hplace⟩

end LayeredConfig.Interpolation
