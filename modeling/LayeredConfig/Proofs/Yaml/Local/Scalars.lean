import LayeredConfig.Proofs.Yaml.Local.Text
import LayeredConfig.Proofs.Yaml.Scalar
import LayeredConfig.Yaml.Token.Block
import LayeredConfig.Yaml.Token.Plain
import LayeredConfig.Yaml.Token.Quoted

/-!
# Scalars are read locally

A scalar that ends before a closing bracket ends at the same place whatever follows the bracket.
-/
namespace LayeredConfig.Yaml

open Outcome

namespace Plain

/-- A part of a scalar ends at the same place in texts that are alike. -/
theorem run_split {flow : Bool} {s part : Text} (h : run flow s = .ok part) :
    ∃ t, s = part ++ t ∧ ∀ w, Alike t w → run flow (part ++ w) = .ok part := by
  induction s generalizing part with
  | nil =>
    cases h
    exact ⟨[], rfl, fun w hw => absurd hw Alike.not_nil⟩
  | cons x r ih =>
    rw [run] at h
    -- Where the part ends the rest of the text is looked at, and it is alike.
    have hstop : part = [] → (∀ w, Alike (x :: r) w → run flow w = .ok []) →
        ∃ t, x :: r = part ++ t ∧ ∀ w, Alike t w → run flow (part ++ w) = .ok part := by
      rintro rfl hrun
      exact ⟨x :: r, rfl, hrun⟩
    split at h
    · next hblank =>
      cases h
      refine hstop rfl fun w hw => ?_
      obtain ⟨w, rfl, -⟩ := hw.cases
      rw [run, if_pos hblank]
    next hblank =>
    split at h
    · cases h
    next hfault =>
    split at h
    · next hcolon =>
      cases h
      refine hstop rfl fun w hw => ?_
      obtain ⟨w, rfl, hnext⟩ := hw.cases
      have hx : x = ':' := by simpa using And.left (by simpa using hcolon)
      have hr := hnext (by rw [hx]; rfl)
      rw [run, if_neg hblank, hr.head?_eq, if_neg hfault, hr.gapAhead_eq, if_pos hcolon]
    next hcolon =>
    split at h
    · next hend =>
      cases h
      refine hstop rfl fun w hw => ?_
      obtain ⟨w, rfl, -⟩ := hw.cases
      have hx : x ≠ ':' := by
        rintro rfl
        simp [isFlowEnd] at hend
      rw [run, if_neg hblank, if_neg (by simp [hx]), if_neg (by simp [hx]), if_pos hend]
    next hend =>
    obtain ⟨part', hpart', rfl⟩ := map_eq_ok.1 h
    obtain ⟨t, rfl, ht⟩ := ih hpart'
    refine ⟨t, rfl, fun w hw => ?_⟩
    have hr : Alike (part' ++ t) (part' ++ w) := hw.prepend part'
    rw [List.cons_append, run, if_neg hblank, hr.head?_eq, if_neg hfault, hr.gapAhead_eq,
      if_neg hcolon, if_neg hend, ht w hw]
    rfl

/-- What has been read with a further part, and whether a new line has been begun behind it. -/
def joined (out : Text) (gap : Gap) (part : Text) : Text × Bool :=
  if part.isEmpty then (out, gap.broken) else (out ++ gap.text ++ part, false)

/-- Reads on behind a part. -/
def afterPart (flow : Bool) (indent n : Nat) (out : Text) (gap : Gap) (part : Text) (c : Cursor) :
    Except Fault (Text × Bool × Cursor) :=
  if c.atEnd || ¬ gapAhead c.rest then .ok ((joined out gap part).1, (joined out gap part).2, c)
  else Gap.read indent (c.rest.length + 1) .empty c >>= fun p =>
    if ¬ flow ∧ p.2.column < indent then .ok ((joined out gap part).1, p.1.broken, p.2)
    else parts flow indent n (joined out gap part).1 p.1 p.2

theorem parts_succ (flow : Bool) (indent n : Nat) (out : Text) (gap : Gap) (c : Cursor) :
    parts flow indent (n + 1) out gap c =
      if c.atMarker || c.peek = some '#' then .ok (out, gap.broken, c)
      else run flow c.rest >>= fun part =>
        afterPart flow indent n out gap part (c.skip part.length) := by
  rw [parts]
  rfl

theorem takes_run {flow : Bool} {c : Cursor} {part : Text} (h : run flow c.rest = .ok part) :
    Takes (fun _ c => (run flow c.rest).map fun part => (part, c.skip part.length)) c (part, ·)
      (c.skip part.length) := by
  obtain ⟨t, hsplit, ht⟩ := run_split h
  refine ⟨part, by rw [Cursor.skip_rest hsplit]; exact hsplit, fun w fuel hw _ => ?_⟩
  rw [Cursor.skip_rest hsplit] at hw
  simp only [Cursor.onto_rest, ht w hw, ← Cursor.skip_onto hsplit w]
  rfl

/-- What is read behind a part, where the parts that follow are read from what they take. -/
theorem takes_afterPart {flow : Bool} {indent n : Nat} {out s part : Text} {gap : Gap}
    {broken : Bool}
    {c c' : Cursor} (hn : c.rest.length ≤ n) (hparts : ∀ {out gap c}, c.rest.length < n →
      parts flow indent n out gap c = .ok (s, broken, c') →
        Takes (fun fuel => parts flow indent fuel out gap) c (s, broken, ·) c')
    (h : afterPart flow indent n out gap part c = .ok (s, broken, c')) :
    Takes (fun fuel => afterPart flow indent (fuel - 1) out gap part) c (s, broken, ·) c' := by
  rw [afterPart] at h
  split at h
  · next hend =>
    cases h
    refine .stop fun w fuel hw => ?_
    rw [afterPart, Cursor.atEnd_onto hw, Cursor.onto_rest, hw.gapAhead_eq, if_pos hend]
  next hend =>
  obtain ⟨⟨gap₁, c₁⟩, hgap, h⟩ := bind_eq_ok.1 h
  obtain ⟨hmore, hblank⟩ := not_or.1 (Bool.or_eq_true _ _ ▸ hend)
  have htake := Gap.takes_read (Nat.lt_succ_self _) hgap
  have hshorter : c₁.rest.length < c.rest.length :=
    Gap.length_read_lt (Nat.lt_succ_self _) (by simpa using hblank)
      (by simpa [Cursor.atEnd] using hmore) hgap
  split at h
  · next hcolumn =>
    cases h
    refine htake.conclude fun w w₁ fuel hw hw₁ hfuel hf => ?_
    rw [afterPart, Cursor.atEnd_onto hw, Cursor.onto_rest, hw.gapAhead_eq, if_neg hend,
      hf _ (Nat.lt_succ_self _), ok_bind, Cursor.onto_column, if_pos hcolumn]
  · next hcolumn =>
    refine htake.bind (hparts (by omega) h) fun w w₁ fuel hw hw₁ hfuel hlen hf =>
      ⟨fuel - 1, by omega, ?_⟩
    rw [afterPart, Cursor.atEnd_onto hw, Cursor.onto_rest, hw.gapAhead_eq, if_neg hend,
      hf _ (Nat.lt_succ_self _), ok_bind, Cursor.onto_column, if_neg hcolumn]

theorem takes_parts {flow : Bool} {indent n : Nat} {out s : Text} {gap : Gap} {broken : Bool}
    {c c' : Cursor}
    (hn : c.rest.length < n) (h : parts flow indent n out gap c = .ok (s, broken, c')) :
    Takes (fun fuel => parts flow indent fuel out gap) c (s, broken, ·) c' := by
  induction n generalizing out gap c with
  | zero => cases hn
  | succ n ih =>
    rw [parts_succ] at h
    split at h
    · next hstop =>
      cases h
      refine .stop fun w fuel hw => ?_
      rw [parts_succ, Cursor.atMarker_onto hw, Cursor.peek_onto hw, if_pos hstop]
    next hstop =>
    obtain ⟨part, hpart, h⟩ := bind_eq_ok.1 h
    have htake := takes_run hpart
    have hlen := htake.length_le
    have hafter := takes_afterPart (by omega) ih h
    refine htake.bind hafter fun w w₁ fuel hw hw₁ hfuel hlen hf => ?_
    obtain ⟨fuel, rfl⟩ : ∃ n, fuel = n + 1 := ⟨fuel - 1, by omega⟩
    obtain ⟨part', hpart', heq⟩ := map_eq_ok.1 (hf _ hfuel)
    obtain ⟨rfl, hskip⟩ := Prod.mk.inj heq
    refine ⟨fuel + 1, by omega, ?_⟩
    rw [parts_succ, Cursor.atMarker_onto hw, Cursor.peek_onto hw, if_neg hstop, hpart',
      ok_bind, hskip]
    rfl

theorem takes_read {flow : Bool} {parent : Int} {s : Text} {broken : Bool} {c c' : Cursor}
    (h : read flow parent c = .ok (s, broken, c')) :
    Takes (fun _ => read flow parent) c (s, broken, ·) c' :=
  (takes_parts (Nat.lt_succ_self _) h).fueled fun w _ => ⟨w.length + 1, Nat.lt_succ_self _, rfl⟩

/-- A scalar whose first part is not empty takes something. -/
theorem length_read_lt {flow : Bool} {parent : Int} {s : Text} {broken : Bool} {c c' : Cursor}
    (hmarker : c.atMarker = false) (hcomment : c.peek ≠ some '#') (hpart : run flow c.rest ≠ .ok [])
    (h : read flow parent c = .ok (s, broken, c')) : c'.rest.length < c.rest.length := by
  rw [read, parts_succ, if_neg (by simp [hmarker, hcomment])] at h
  obtain ⟨part, hrun, h⟩ := bind_eq_ok.1 h
  have hlt : (c.skip part.length).rest.length < c.rest.length := by
    obtain ⟨t, hsplit, -⟩ := run_split hrun
    have hpos : 0 < part.length := List.length_pos_iff.2 fun hnil => hpart (hnil ▸ hrun)
    rw [Cursor.skip_rest hsplit, hsplit, List.length_append]
    omega
  exact Nat.lt_of_le_of_lt (takes_afterPart (Nat.le_of_lt hlt) takes_parts h).length_le hlt

end Plain

namespace Quoted

/-- What stands next in a scalar, and how many characters it takes. -/
inductive Piece where
  | gap
  | close
  | escapedBreak
  | char (x : Char) (count : Nat)
  | fault

def piece (single : Bool) : Text → Piece
  | [] => .gap
  | x :: r =>
    if isSpaceOrTab x || isBreak x then .gap
    else if single then
      if x = '\'' then
        if r.head? = some '\'' then .char '\'' 2 else .close
      else .char x 1
    else if x = '"' then .close
    else if x = '\\' then
      if r.head?.any isBreak then .escapedBreak
      else match escape? r with
        | some (e, n) => .char e (n + 1)
        | none => .fault
    else .char x 1

theorem run_succ (single : Bool) (n : Nat) (out : Text) (c : Cursor) :
    run single (n + 1) out c = match piece single c.rest with
      | .gap => .ok (out, .gap, c)
      | .close => .ok (out, .close, c.skip 1)
      | .escapedBreak => .ok (out, .escapedBreak, c.skip 2)
      | .char x k => run single n (out ++ [x]) (c.skip k)
      | .fault => .error .lexical := by
  rw [run]
  cases c.rest with
  | nil => rfl
  | cons x r =>
    simp only [piece]
    split
    · rfl
    split
    · split
      · rcases r with _ | ⟨y, r⟩
        · rfl
        · by_cases hy : y = '\''
          · subst hy
            rfl
          · simp [hy]
            rfl
      · rfl
    split
    · rfl
    split
    · split
      · rfl
      · cases escape? r <;> rfl
    · rfl

/-- What an escape means does not depend on what follows it. -/
theorem escape?_split {r : Text} {e : Char} {n : Nat} (h : escape? r = some (e, n)) :
    ∃ u t, r = u ++ t ∧ u.length = n ∧ ∀ w, escape? (u ++ w) = some (e, n) := by
  cases r with
  | nil => cases h
  | cons c r =>
    rw [escape?] at h
    split at h
    · next hshort =>
      cases h
      exact ⟨[c], r, rfl, rfl, fun w => by rw [List.singleton_append, escape?, hshort]⟩
    next hshort =>
    obtain ⟨width, hwidth, h⟩ := Option.bind_eq_some_iff.1 h
    have hlen : (r.take width).length = width := by
      obtain ⟨_, hguard, -⟩ := Option.bind_eq_some_iff.1 h
      by_cases hlen : (r.take width).length = width
      · exact hlen
      · cases (if_neg hlen).symm.trans hguard
    refine ⟨c :: r.take width, r.drop width, by rw [List.cons_append, List.take_append_drop], ?_,
      fun w => ?_⟩
    · rw [List.length_cons, hlen]
      obtain ⟨_, -, h⟩ := Option.bind_eq_some_iff.1 h
      obtain ⟨_, -, h⟩ := Option.bind_eq_some_iff.1 h
      obtain ⟨_, -, h⟩ := Option.bind_eq_some_iff.1 h
      cases h
      rfl
    · have htake : (r.take width ++ w).take width = r.take width := by
        rw [List.take_append_of_le_length (Nat.le_of_eq hlen.symm),
          List.take_of_length_le (Nat.le_of_eq hlen)]
      rw [List.cons_append, escape?, hshort, hwidth]
      dsimp only [Option.bind_eq_bind, Option.bind_some]
      rw [htake]
      exact h

def Piece.count : Piece → Nat
  | .gap | .fault => 0
  | .close => 1
  | .escapedBreak => 2
  | .char _ k => k

/-- A piece of a scalar is the same in texts that are alike. -/
theorem piece_split {single : Bool} {s : Text} {p : Piece} (h : piece single s = p)
    (hp : p ≠ .fault) :
    ∃ u t, s = u ++ t ∧ u.length = p.count ∧ ∀ w, Alike t w → piece single (u ++ w) = p := by
  cases s with
  | nil =>
    cases h
    exact ⟨[], [], rfl, rfl, fun w hw => absurd hw Alike.not_nil⟩
  | cons x r =>
    -- Most pieces are seen in one character, the others in two or in an escape.
    have hone : p.count = 1 → (∀ w, Alike r w → piece single (x :: w) = p) →
        ∃ u t, x :: r = u ++ t ∧ u.length = p.count ∧ ∀ w, Alike t w → piece single (u ++ w) = p :=
      fun hp hpiece => ⟨[x], r, rfl, hp.symm, hpiece⟩
    have htwo : r.head? ≠ none → p.count = 2 →
        (∀ w : Text, w.head? = r.head? → piece single (x :: w) = p) →
        ∃ u t, x :: r = u ++ t ∧ u.length = p.count ∧
          ∀ w, Alike t w → piece single (u ++ w) = p := by
      intro hr hp hpiece
      cases r with
      | nil => exact absurd rfl hr
      | cons y r => exact ⟨[x, y], r, rfl, hp.symm, fun w _ => hpiece (y :: w) rfl⟩
    rw [piece] at h
    split at h
    · next hblank =>
      subst h
      refine ⟨[], x :: r, rfl, rfl, fun w hw => ?_⟩
      obtain ⟨w, rfl, -⟩ := hw.cases
      rw [List.nil_append, piece, if_pos hblank]
    next hblank =>
    split at h
    · next hsingle =>
      split at h
      · next hquote =>
        split at h
        · next htwice =>
          subst h
          refine htwo (by simp [htwice]) rfl fun w hw => ?_
          rw [piece, if_neg hblank, if_pos hsingle, if_pos hquote, hw, if_pos htwice]
        · next hover =>
          subst h
          refine hone rfl fun w hw => ?_
          rw [piece, if_neg hblank, if_pos hsingle, if_pos hquote, hw.head?_eq, if_neg hover]
      · next hquote =>
        subst h
        exact hone rfl fun w hw => by rw [piece, if_neg hblank, if_pos hsingle, if_neg hquote]
    next hsingle =>
    split at h
    · next hquote =>
      subst h
      exact hone rfl fun w hw => by rw [piece, if_neg hblank, if_neg hsingle, if_pos hquote]
    next hquote =>
    split at h
    · next hslash =>
      split at h
      · next hbreak =>
        subst h
        refine htwo (by rintro hnone; simp [hnone] at hbreak) rfl fun w hw => ?_
        rw [piece, if_neg hblank, if_neg hsingle, if_neg hquote, if_pos hslash, hw, if_pos hbreak]
      next hbreak =>
      split at h
      · next e n hescape =>
        subst h
        obtain ⟨u, t, rfl, hu, hsame⟩ := escape?_split hescape
        refine ⟨x :: u, t, rfl, by rw [List.length_cons, hu]; rfl, fun w hw => ?_⟩
        rw [List.cons_append, piece, if_neg hblank, if_neg hsingle, if_neg hquote, if_pos hslash,
          (hw.prepend u).head?_eq, if_neg hbreak, hsame]
      · exact absurd h.symm hp
    · next hslash =>
      subst h
      exact hone rfl fun w hw => by
        rw [piece, if_neg hblank, if_neg hsingle, if_neg hquote, if_neg hslash]

/-- Every piece but a gap takes a character, and a gap is one. -/
theorem gap_or_pos (single : Bool) (s : Text) :
    gapAhead s = true ∧ piece single s = .gap ∨ piece single s = .fault ∨
    0 < (piece single s).count := by
  cases s with
  | nil => exact Or.inl ⟨rfl, rfl⟩
  | cons x r =>
    rw [piece]
    split
    · next hblank => exact Or.inl ⟨hblank, rfl⟩
    · refine Or.inr ?_
      repeat' split
      all_goals first | exact Or.inl rfl | exact Or.inr (Nat.succ_pos _)

/-- How a run leaves the text: at a gap, or shorter. -/
def Left (e : RunEnd) (c c' : Cursor) : Prop :=
  match e with
  | .gap => gapAhead c'.rest = true
  | _ => c'.rest.length < c.rest.length

theorem Left.mono {e : RunEnd} {c c₁ c' : Cursor} (h : Left e c₁ c')
    (hle : c₁.rest.length ≤ c.rest.length) : Left e c c' := by
  cases e with
  | gap => exact h
  | close => exact Nat.lt_of_lt_of_le h hle
  | escapedBreak => exact Nat.lt_of_lt_of_le h hle

theorem length_skip_piece {single : Bool} {c : Cursor} {p : Piece} (h : piece single c.rest = p)
    (hp : p ≠ .fault) (hpos : 0 < p.count) : (c.skip p.count).rest.length < c.rest.length := by
  obtain ⟨u, t, hrest, hu, -⟩ := piece_split h hp
  rw [← hu, Cursor.skip_rest hrest, hrest, List.length_append]
  omega

/-- A reading that takes a piece first. -/
theorem takes_piece {ρ : Type} {F g : Nat → Cursor → Except Fault ρ} {a : Cursor → ρ}
    {single : Bool}
    {c c' : Cursor} {p : Piece} (h : piece single c.rest = p) (hp : p ≠ .fault) (hpos : 0 < p.count)
    (hg : Takes g (c.skip p.count) a c')
    (hF : ∀ fuel c₁, piece single c₁.rest = p → F (fuel + 1) c₁ = g fuel (c₁.skip p.count)) :
    Takes F c a c' := by
  obtain ⟨u, t, hrest, hu, hsame⟩ := piece_split h hp
  rw [← hu] at hg hF hpos
  refine .skip hrest (List.length_pos_iff.1 hpos) hg fun w fuel hw => ?_
  rw [hF fuel _ (hsame w hw), Cursor.skip_onto hrest]

theorem takes_run {single : Bool} {n : Nat} {out s : Text} {e : RunEnd} {c c' : Cursor}
    (hn : c.rest.length < n) (h : run single n out c = .ok (s, e, c')) :
    Takes (fun fuel => run single fuel out) c (s, e, ·) c' ∧ Left e c c' := by
  induction n generalizing out c with
  | zero => cases hn
  | succ n ih =>
    have hgap := gap_or_pos single c.rest
    rw [run_succ] at h
    cases hpiece : piece single c.rest with
    | fault =>
      rw [hpiece] at h
      cases h
    | gap =>
      rw [hpiece] at h hgap
      cases h
      obtain ⟨u, t, hrest, hu, hsame⟩ := piece_split hpiece (by simp)
      obtain rfl := List.eq_nil_of_length_eq_zero hu
      simp only [List.nil_append] at hrest hsame
      subst hrest
      refine ⟨.stop fun w fuel hw => by rw [run_succ, Cursor.onto_rest, hsame w hw], ?_⟩
      show gapAhead _ = true
      simpa [Piece.count] using hgap
    | close =>
      rw [hpiece] at h
      cases h
      refine ⟨takes_piece hpiece (by simp) Nat.one_pos (.stop fun _ _ _ => rfl)
        (g := fun _ c => .ok (s, .close, c)) fun fuel c₁ hc₁ => ?_,
        length_skip_piece hpiece (by simp) Nat.one_pos⟩
      rw [run_succ, hc₁]
      rfl
    | escapedBreak =>
      rw [hpiece] at h
      cases h
      refine ⟨takes_piece hpiece (by simp) Nat.two_pos (.stop fun _ _ _ => rfl)
        (g := fun _ c => .ok (s, .escapedBreak, c)) fun fuel c₁ hc₁ => ?_,
        length_skip_piece hpiece (by simp) Nat.two_pos⟩
      rw [run_succ, hc₁]
      rfl
    | char x k =>
      rw [hpiece] at h hgap
      have hpos : 0 < k := by simpa [Piece.count] using hgap
      have hlen := length_skip_piece hpiece (by simp) hpos
      have hrest : (c.skip k).rest.length < n := Nat.lt_of_lt_of_le hlen (Nat.le_of_lt_succ hn)
      obtain ⟨htakes, hleft⟩ := ih hrest h
      refine ⟨takes_piece hpiece (by simp) hpos htakes fun fuel c₁ hc₁ => ?_,
        hleft.mono (Nat.le_of_lt hlen)⟩
      rw [run_succ, hc₁]
      rfl

/-- What follows a run that does not close the scalar. -/
def follow (single : Bool) (fuel : Nat) (out : Text) (g : Gap) (c : Cursor) :
    Except Fault (Text × Cursor) :=
  Gap.read 0 (c.rest.length + 1) g c >>= fun p => lines single fuel (out ++ p.1.text) p.2

def goOn (single : Bool) (fuel : Nat) (out part : Text) (e : RunEnd) (c : Cursor) :
    Except Fault (Text × Cursor) :=
  match e with
  | .close => .ok (out ++ part, c)
  | .gap => follow single fuel (out ++ part) .empty c
  | .escapedBreak => follow single fuel (out ++ part) .escapedBreak c

theorem lines_succ (single : Bool) (n : Nat) (out : Text) (c : Cursor) :
    lines single (n + 1) out c =
      if c.atMarker || c.atEnd then .error .lexical
      else run single (c.rest.length + 1) [] c >>= fun p => goOn single n out p.1 p.2.1 p.2.2 := by
  rw [lines]
  rfl

theorem lines_end {single : Bool} {n : Nat} {out s : Text} {c c' : Cursor} (hc : c.rest = []) :
    lines single n out c ≠ .ok (s, c') := by
  cases n with
  | zero => exact fun h => nomatch h
  | succ n =>
    rw [lines_succ, if_pos (by simp [Cursor.atEnd, hc])]
    exact fun h => nomatch h

/-- The lines below a gap; where the gap has to take a character itself, `k` is one. -/
theorem takes_follow {single : Bool} {k : Nat} {out s : Text} {g g₁ : Gap} {c c₁ c' : Cursor}
    (hgap : Gap.read 0 (c.rest.length + 1) g c = .ok (g₁, c₁))
    (hk : c₁.rest.length + k ≤ c.rest.length)
    (hlines : Takes (fun fuel => lines single fuel (out ++ g₁.text)) c₁ (s, ·) c') :
    Takes (fun fuel => follow single (fuel - k) out g) c (s, ·) c' := by
  refine (Gap.takes_read (Nat.lt_succ_self _) hgap).bind hlines
    fun w w₁ fuel hw hw₁ hfuel hlen hread => ?_
  refine ⟨fuel - k, by omega, ?_⟩
  rw [follow, Cursor.onto_rest, hread _ (Nat.lt_succ_self _), ok_bind]

theorem takes_lines {single : Bool} {n : Nat} {out s : Text} {c c' : Cursor}
    (hn : c.rest.length < n)
    (h : lines single n out c = .ok (s, c')) :
    Takes (fun fuel => lines single fuel out) c (s, ·) c' := by
  induction n generalizing out c with
  | zero => cases hn
  | succ n ih =>
    rw [lines_succ] at h
    split at h
    · cases h
    next hstop =>
    obtain ⟨⟨part, e, c₁⟩, hrun, h⟩ := bind_eq_ok.1 h
    obtain ⟨htake, hleft⟩ := takes_run (Nat.lt_succ_self _) hrun
    have hshorter := htake.length_le
    have hsame : ∀ {w w₁ : Text} (fuel : Nat), Alike c.rest w →
        (∀ n, w.length < n → run single n [] (c.onto w) = .ok (part, e, c₁.onto w₁)) →
          lines single (fuel + 1) out (c.onto w) = goOn single fuel out part e (c₁.onto w₁) := by
      intro w w₁ fuel hw hread
      rw [lines_succ, Cursor.atMarker_onto hw, Cursor.atEnd_onto hw, if_neg hstop, Cursor.onto_rest,
        hread _ (Nat.lt_succ_self _), ok_bind]
    -- The gap takes a character, or the escaped line break before it has taken one.
    have hgo : ∀ (g : Gap) (k : Nat), follow single n (out ++ part) g c₁ = .ok (s, c') →
        (∀ {g₁ c₂}, Gap.read 0 (c₁.rest.length + 1) g c₁ = .ok (g₁, c₂) → c₂.rest ≠ [] →
          c₂.rest.length + k ≤ c₁.rest.length ∧ c₂.rest.length < c.rest.length) →
        Takes (fun fuel => follow single (fuel - k) (out ++ part) g) c₁ (s, ·) c' := by
      intro g k h hk
      obtain ⟨⟨g₁, c₂⟩, hgap, h⟩ := bind_eq_ok.1 h
      obtain ⟨hle, hlt⟩ := hk hgap fun hnil => lines_end hnil h
      exact takes_follow hgap hle (ih (Nat.lt_of_lt_of_le hlt (Nat.le_of_lt_succ hn)) h)
    have hread : ∀ {g g₁ c₂}, Gap.read 0 (c₁.rest.length + 1) g c₁ = .ok (g₁, c₂) →
        c₂.rest.length ≤ c₁.rest.length :=
      fun hgap => (Gap.takes_read (Nat.lt_succ_self _) hgap).length_le
    cases e with
    | close =>
      cases h
      refine htake.conclude fun w w₁ fuel hw hw₁ hfuel hread => ?_
      obtain ⟨fuel, rfl⟩ : ∃ n, fuel = n + 1 := ⟨fuel - 1, by omega⟩
      exact hsame fuel hw hread
    | gap =>
      refine htake.bind (hgo _ 1 h fun hgap hne => ?_) fun w w₁ fuel hw hw₁ hfuel hlen hread => ?_
      · have hlt := Gap.length_read_lt (Nat.lt_succ_self _) hleft (fun hnil => ?_) hgap
        · omega
        · have hle := hread hgap
          rw [hnil] at hle
          exact hne (List.eq_nil_of_length_eq_zero (Nat.le_zero.1 hle))
      · obtain ⟨fuel, rfl⟩ : ∃ n, fuel = n + 1 := ⟨fuel - 1, by omega⟩
        exact ⟨fuel + 1, by omega, hsame fuel hw hread⟩
    | escapedBreak =>
      have hlt : c₁.rest.length < c.rest.length := hleft
      refine htake.bind (hgo _ 0 h fun hgap _ => ?_) fun w w₁ fuel hw hw₁ hfuel hlen hread => ?_
      · have hle := hread hgap
        omega
      · obtain ⟨fuel, rfl⟩ : ∃ n, fuel = n + 1 := ⟨fuel - 1, by omega⟩
        exact ⟨fuel, by omega, hsame fuel hw hread⟩

theorem takes_read {single : Bool} {s : Text} {c c' : Cursor} (h : read single c = .ok (s, c')) :
    Takes (fun _ => read single) c (s, ·) c' := by
  cases hc : c.rest with
  | nil =>
    have hnext : c.next = c := by rw [Cursor.next, hc]
    rw [read, hnext] at h
    exact absurd h (lines_end hc)
  | cons x r =>
    have hlen : c.next.rest.length < c.rest.length + 1 := by
      rw [Cursor.next_rest hc, hc, List.length_cons]
      omega
    have htake : Takes (fun _ c => lines single (c.rest.length + 2) [] c) c.next (s, ·) c' :=
      (takes_lines hlen h).fueled fun w _ => ⟨w.length + 2, by omega, rfl⟩
    refine htake.next hc fun w fuel hw => ?_
    rw [read, Cursor.next_onto hc]
    rfl

theorem length_read_le {single : Bool} {s : Text} {c c' : Cursor}
    (h : read single c = .ok (s, c')) :
    c'.rest.length ≤ c.next.rest.length :=
  (takes_lines (Nat.lt_succ_of_le (Cursor.goes_next c).length_le) h).length_le

end Quoted
end LayeredConfig.Yaml
