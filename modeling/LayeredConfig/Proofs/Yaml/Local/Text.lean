import LayeredConfig.Proofs.Outcome
import LayeredConfig.Yaml.Cursor

/-!
# Reading is local

A reading looks ahead by a few characters, but never past a closing bracket that it leaves unread.
What it takes of a text is therefore taken of every text that is the same up to such a bracket.
-/
namespace LayeredConfig.Yaml

def isClosing (c : Char) : Bool := c == ']' || c == '\x7d'

/-- Texts that are the same up to a closing bracket. -/
def Alike (s t : Text) : Prop :=
  ∃ front k u v, isClosing k = true ∧ s = front ++ k :: u ∧ t = front ++ k :: v

namespace Alike

variable {s t : Text} {x : Char}

theorem prepend (front : Text) (h : Alike s t) : Alike (front ++ s) (front ++ t) := by
  obtain ⟨front', k, u, v, hk, rfl, rfl⟩ := h
  exact ⟨front ++ front', k, u, v, hk, (List.append_assoc ..).symm, (List.append_assoc ..).symm⟩

theorem cons (x : Char) (h : Alike s t) : Alike (x :: s) (x :: t) := h.prepend [x]

theorem not_nil : ¬ Alike [] t := by
  rintro ⟨front, k, u, v, -, hs, -⟩
  simp at hs

theorem head?_eq (h : Alike s t) : t.head? = s.head? := by
  obtain ⟨front, k, u, v, -, rfl, rfl⟩ := h
  cases front <;> rfl

/-- Texts that are alike begin alike, and go on alike behind a character that closes nothing. -/
theorem cases (h : Alike (x :: s) t) : ∃ t', t = x :: t' ∧ (isClosing x = false → Alike s t') := by
  obtain ⟨front, k, u, v, hk, hs, rfl⟩ := h
  cases front with
  | nil =>
    cases hs
    exact ⟨v, rfl, fun hx => by rw [hk] at hx; cases hx⟩
  | cons a front =>
    cases hs
    exact ⟨front ++ k :: v, rfl, fun _ => ⟨front, k, u, v, hk, rfl, rfl⟩⟩

theorem gapAhead_eq (h : Alike s t) : gapAhead t = gapAhead s := by
  have hhead := h.head?_eq
  cases s with
  | nil => exact absurd h not_nil
  | cons a s =>
    obtain ⟨t', rfl, -⟩ := h.cases
    rfl

theorem take_one (h : Alike s t) : t.take 1 = s.take 1 := by
  cases s with
  | nil => exact absurd h not_nil
  | cons a s =>
    obtain ⟨t', rfl, -⟩ := h.cases
    rfl

theorem isEmpty_eq (h : Alike s t) : t.isEmpty = s.isEmpty := by
  cases s with
  | nil => exact absurd h not_nil
  | cons a s =>
    obtain ⟨t', rfl, -⟩ := h.cases
    rfl

end Alike

/-- Whether three characters of a sort and a gap lie ahead. -/
def markerAhead : Text → Bool
  | '-' :: '-' :: '-' :: r => gapAhead r
  | '.' :: '.' :: '.' :: r => gapAhead r
  | _ => false

theorem markerAhead_cons (a b c : Char) (r : Text) : markerAhead (a :: b :: c :: r) =
    ((decide ([a, b, c] = "---".toList) || decide ([a, b, c] = "...".toList)) && gapAhead r) := by
  rw [markerAhead.eq_def]
  split
  · next heq =>
    cases heq
    rfl
  · next heq =>
    cases heq
    rfl
  · next hdash hpoint =>
    have h : ¬ [a, b, c] = "---".toList ∧ ¬ [a, b, c] = "...".toList := by
      constructor
      · rintro ⟨⟩
        exact hdash r rfl
      · rintro ⟨⟩
        exact hpoint r rfl
    rw [decide_eq_false h.1, decide_eq_false h.2]
    rfl

theorem Cursor.atMarker_eq (c : Cursor) :
    c.atMarker = (decide (c.column = 0) && markerAhead c.rest) :=
  rfl

theorem Alike.markerAhead_eq {s t : Text} (h : Alike s t) : markerAhead t = markerAhead s := by
  obtain ⟨front, k, u, v, hk, rfl, rfl⟩ := h
  have hsigns : k ≠ '-' ∧ k ≠ '.' := by
    rw [isClosing, Bool.or_eq_true, beq_iff_eq, beq_iff_eq] at hk
    rcases hk with rfl | rfl <;> decide
  rcases front with _ | ⟨a, _ | ⟨b, _ | ⟨c, front⟩⟩⟩
  · simp [markerAhead.eq_def, hsigns]
  · simp [markerAhead.eq_def, hsigns]
  · simp [markerAhead.eq_def, hsigns]
  · have hgap : gapAhead (front ++ k :: v) = gapAhead (front ++ k :: u) := by cases front <;> rfl
    simp only [List.cons_append, markerAhead_cons, hgap]

namespace Cursor

/-- The same place with another text ahead. -/
def onto (c : Cursor) (w : Text) : Cursor := { c with rest := w }

@[simp] theorem onto_rest (c : Cursor) (w : Text) : (c.onto w).rest = w := rfl
@[simp] theorem onto_line (c : Cursor) (w : Text) : (c.onto w).line = c.line := rfl
@[simp] theorem onto_column (c : Cursor) (w : Text) : (c.onto w).column = c.column := rfl
@[simp] theorem onto_onto (c : Cursor) (w w' : Text) : (c.onto w).onto w' = c.onto w' := rfl
@[simp] theorem onto_self (c : Cursor) : c.onto c.rest = c := rfl

variable {c : Cursor} {x : Char} {r w : Text}

theorem next_rest (h : c.rest = x :: r) : c.next.rest = r := by
  rw [next, h]
  simp only
  split <;> rfl

theorem length_next_lt (h : c.rest ≠ []) : c.next.rest.length < c.rest.length := by
  obtain ⟨x, r, hc⟩ := List.exists_cons_of_ne_nil h
  rw [next_rest hc, hc]
  exact Nat.lt_succ_self _

theorem next_onto (h : c.rest = x :: r) (w : Text) : (c.onto (x :: w)).next = c.next.onto w := by
  rw [next, next, h]
  simp only [onto_rest]
  split <;> rfl

theorem atMarker_onto (h : Alike c.rest w) : (c.onto w).atMarker = c.atMarker := by
  rw [atMarker_eq, atMarker_eq, onto_column, onto_rest, h.markerAhead_eq]

theorem peek_onto (h : Alike c.rest w) : (c.onto w).peek = c.peek := h.head?_eq

theorem atEnd_onto (h : Alike c.rest w) : (c.onto w).atEnd = c.atEnd := h.isEmpty_eq

theorem atBreak_onto (h : Alike c.rest w) : (c.onto w).atBreak = c.atBreak := by
  rw [atBreak, atBreak, onto_rest, h.head?_eq]

theorem exists_of_atBreak (h : c.atBreak = true) : ∃ x r, c.rest = x :: r ∧ isBreak x = true := by
  rw [atBreak, Option.any_eq_true] at h
  obtain ⟨x, hx, hbreak⟩ := h
  obtain ⟨r, hr⟩ := List.head?_eq_some_iff.1 hx
  exact ⟨x, r, hr, hbreak⟩

end Cursor

/-- A reading from `c` to `c'` takes a part of the text, and it takes this part with the same result
before all texts that are alike. A reading that needs fuel needs one step for each character. -/
def Takes {ρ : Type} (f : Nat → Cursor → Except Fault ρ) (c : Cursor) (result : Cursor → ρ)
    (c' : Cursor) :
    Prop :=
  ∃ used, c.rest = used ++ c'.rest ∧ ∀ w fuel, Alike c'.rest w → (used ++ w).length < fuel →
    f fuel (c.onto (used ++ w)) = .ok (result (c'.onto w))

namespace Takes

variable {ρ σ : Type} {f : Nat → Cursor → Except Fault ρ} {g F : Nat → Cursor → Except Fault σ}
  {a : Cursor → ρ} {b : Cursor → σ} {c c₁ c' : Cursor}

theorem suffix (h : Takes f c a c') : c'.rest <:+ c.rest := by
  obtain ⟨used, hused, -⟩ := h
  exact ⟨used, hused.symm⟩

theorem length_le (h : Takes f c a c') : c'.rest.length ≤ c.rest.length := h.suffix.length_le

/-- A reading that leaves the text as it is. -/
theorem stop (h : ∀ w fuel, Alike c.rest w → F (fuel + 1) (c.onto w) = .ok (b (c.onto w))) :
    Takes F c b c := by
  refine ⟨[], rfl, fun w fuel hw hfuel => ?_⟩
  obtain ⟨fuel, rfl⟩ : ∃ n, fuel = n + 1 := ⟨fuel - 1, by omega⟩
  exact h w fuel hw

/-- Readings that do the same where the texts are alike. -/
theorem congr (h : Takes g c b c')
    (hF : ∀ w fuel, Alike c.rest w → F fuel (c.onto w) = g fuel (c.onto w)) : Takes F c b c' := by
  obtain ⟨used, hused, htakes⟩ := h
  refine ⟨used, hused, fun w fuel hw hfuel => ?_⟩
  rw [hF _ fuel (hused ▸ hw.prepend used)]
  exact htakes w fuel hw hfuel

/-- A reading that goes on as another one, perhaps with less fuel. -/
theorem bind (h : Takes f c a c₁) (h' : Takes g c₁ b c') (hF : ∀ w w₁ fuel, Alike c.rest w →
      Alike c₁.rest w₁ → w.length < fuel → w.length + c₁.rest.length = w₁.length + c.rest.length →
      (∀ n, w.length < n → f n (c.onto w) = .ok (a (c₁.onto w₁))) →
        ∃ n, w₁.length < n ∧ F fuel (c.onto w) = g n (c₁.onto w₁)) : Takes F c b c' := by
  obtain ⟨used, hused, htakes⟩ := h
  obtain ⟨used', hused', htakes'⟩ := h'
  refine ⟨used ++ used', by rw [hused, hused', List.append_assoc], fun w fuel hw hfuel => ?_⟩
  have hw₁ : Alike c₁.rest (used' ++ w) := hused' ▸ hw.prepend used'
  have hc : Alike c.rest (used ++ (used' ++ w)) := hused ▸ hw₁.prepend used
  rw [List.append_assoc] at hfuel ⊢
  have hlen : (used ++ (used' ++ w)).length + c₁.rest.length =
      (used' ++ w).length + c.rest.length := by
    rw [hused]
    simp only [List.length_append]
    omega
  obtain ⟨n, hn, heq⟩ := hF _ _ fuel hc hw₁ hfuel hlen fun n => htakes _ n hw₁
  rw [heq]
  exact htakes' w n hw hn

/-- A reading that takes no more than another one. -/
theorem conclude (h : Takes f c a c₁) (hF : ∀ w w₁ fuel, Alike c.rest w → Alike c₁.rest w₁ →
      w.length < fuel → (∀ n, w.length < n → f n (c.onto w) = .ok (a (c₁.onto w₁))) →
        F fuel (c.onto w) = .ok (b (c₁.onto w₁))) : Takes F c b c₁ :=
  h.bind (g := fun _ c => .ok (b c)) (.stop fun _ _ _ => rfl) fun w w₁ fuel hw hw₁ hfuel _ hf =>
    ⟨w₁.length + 1, Nat.lt_succ_self _, hF w w₁ fuel hw hw₁ hfuel hf⟩

/-- Two readings, one after the other. -/
theorem andThen {α : Type} {f : Cursor → Except Fault (α × Cursor)}
    {g : α → Cursor → Except Fault σ} {a : α}
    (h : Takes (fun _ => f) c (a, ·) c₁) (h' : Takes (fun _ => g a) c₁ b c') :
    Takes (fun _ c => f c >>= fun p => g p.1 p.2) c b c' := by
  refine h.bind h' fun w w₁ fuel _ _ hfuel _ hf => ⟨w₁.length + 1, Nat.lt_succ_self _, ?_⟩
  rw [hf _ hfuel]
  rfl

/-- A reading that brings the fuel it needs. -/
theorem fueled (h : Takes g c b c')
    (hF : ∀ w fuel, ∃ n, w.length < n ∧ F fuel (c.onto w) = g n (c.onto w)) : Takes F c b c' := by
  obtain ⟨used, hused, htakes⟩ := h
  refine ⟨used, hused, fun w fuel hw _ => ?_⟩
  obtain ⟨n, hn, heq⟩ := hF (used ++ w) fuel
  rw [heq]
  exact htakes w n hw hn

/-- What a reading gives can be changed. -/
theorem map (h : Takes f c a c') (k : ρ → σ) :
    Takes (fun fuel c => (f fuel c).map k) c (fun c => k (a c)) c' := by
  obtain ⟨used, hused, htakes⟩ := h
  exact ⟨used, hused, fun w fuel hw hfuel => by simp only [htakes w fuel hw hfuel, Except.map]⟩

end Takes

namespace Cursor

variable {c : Cursor} {used r : Text}

theorem skip_rest (h : c.rest = used ++ r) : (c.skip used.length).rest = r := by
  induction used generalizing c with
  | nil => exact h
  | cons x used ih => exact ih (next_rest h)

theorem skip_onto (h : c.rest = used ++ r) (w : Text) :
    (c.onto (used ++ w)).skip used.length = (c.skip used.length).onto w := by
  induction used generalizing c with
  | nil => rfl
  | cons x used ih =>
    rw [List.cons_append, List.length_cons, skip, skip, next_onto h]
    exact ih (next_rest h)

end Cursor

/-- A reading that takes some characters first. -/
theorem Takes.split {σ : Type} {g F : Nat → Cursor → Except Fault σ} {b : Cursor → σ}
    {c c' : Cursor} {u t : Text} (hc : c.rest = u ++ t) (h : Takes g (c.skip u.length) b c')
    (hF : ∀ w fuel, Alike t w → (u ++ w).length < fuel →
      ∃ n, w.length < n ∧ F fuel (c.onto (u ++ w)) = g n ((c.skip u.length).onto w)) :
      Takes F c b c' := by
  obtain ⟨used, hused, htakes⟩ := h
  rw [Cursor.skip_rest hc] at hused
  refine ⟨u ++ used, by rw [hc, hused, List.append_assoc], fun w fuel hw hfuel => ?_⟩
  rw [List.append_assoc] at hfuel ⊢
  obtain ⟨n, hn, heq⟩ := hF _ fuel (hused ▸ hw.prepend used) hfuel
  rw [heq]
  exact htakes w n hw hn

theorem Takes.skip {σ : Type} {g F : Nat → Cursor → Except Fault σ} {b : Cursor → σ} {c c' : Cursor}
    {u t : Text} (hc : c.rest = u ++ t) (hu : u ≠ []) (h : Takes g (c.skip u.length) b c')
    (hF : ∀ w fuel, Alike t w →
      F (fuel + 1) (c.onto (u ++ w)) = g fuel ((c.skip u.length).onto w)) :
    Takes F c b c' := by
  refine .split hc h fun w fuel hw hfuel => ?_
  have hpos := List.length_pos_iff.2 hu
  rw [List.length_append] at hfuel
  obtain ⟨fuel, rfl⟩ : ∃ n, fuel = n + 1 := ⟨fuel - 1, by omega⟩
  exact ⟨fuel, by omega, hF w fuel hw⟩

/-- A reading that takes a character first. -/
theorem Takes.next {σ : Type} {g F : Nat → Cursor → Except Fault σ} {b : Cursor → σ} {c c' : Cursor}
    {x : Char} {r : Text} (hc : c.rest = x :: r) (h : Takes g c.next b c')
    (hF : ∀ w fuel, Alike r w → F (fuel + 1) (c.onto (x :: w)) = g fuel (c.next.onto w)) :
    Takes F c b c' :=
  .skip (u := [x]) hc (List.cons_ne_nil _ _) h hF

namespace Cursor

theorem takes_skip (c : Cursor) (n : Nat) : Takes (fun _ c => .ok (c.skip n)) c id (c.skip n) := by
  induction n generalizing c with
  | zero => exact .stop fun _ _ _ => rfl
  | succ n ih =>
    cases hc : c.rest with
    | nil =>
      have hend : c.next = c := by rw [next, hc]
      rw [skip, hend]
      obtain ⟨used, hused, htakes⟩ := ih c
      obtain ⟨-, hrest⟩ := List.append_eq_nil_iff.1 (hused.symm.trans hc)
      exact ⟨used, hused, fun w _ hw => absurd (hrest ▸ hw) Alike.not_nil⟩
    | cons x r =>
      refine (ih c.next).next hc fun w fuel _ => ?_
      rw [skip, next_onto hc]

/-- A run of characters of a class ends where the class does. -/
theorem takes_takeRun (p : Char → Bool) (c : Cursor) :
    Takes (fun _ c => .ok (c.takeRun p)) c ((c.takeRun p).1, ·) (c.takeRun p).2 := by
  have hrun : ∀ s : Text, ∃ t, s = s.takeWhile p ++ t ∧
      ∀ w : Text, w.head? = t.head? → (s.takeWhile p ++ w).takeWhile p = s.takeWhile p := by
    intro s
    induction s with
    | nil => exact ⟨[], rfl, fun w hw => by cases w <;> simp at hw ⊢⟩
    | cons x s ih =>
      by_cases hx : p x = true
      · obtain ⟨t, hs, hrun⟩ := ih
        refine ⟨t, by rw [List.takeWhile_cons_of_pos hx, List.cons_append, ← hs], fun w hw => ?_⟩
        rw [List.takeWhile_cons_of_pos hx, List.cons_append,
          List.takeWhile_cons_of_pos hx, hrun w hw]
      · refine ⟨x :: s, by rw [List.takeWhile_cons_of_neg hx]; rfl, fun w hw => ?_⟩
        rw [List.takeWhile_cons_of_neg hx, List.nil_append]
        cases w with
        | nil => rfl
        | cons y w =>
          cases hw
          exact List.takeWhile_cons_of_neg hx
  obtain ⟨t, hs, hrun⟩ := hrun c.rest
  have hdrop : (c.takeRun p).2.rest = t := by
    have h : (c.rest.takeWhile p ++ t).drop (c.rest.takeWhile p).length = t := List.drop_left
    rwa [← hs] at h
  refine ⟨c.rest.takeWhile p, hdrop ▸ hs, fun w fuel hw _ => ?_⟩
  rw [hdrop] at hw
  simp only [takeRun, onto_rest, hrun w hw.head?_eq, List.drop_left]
  rfl

/-- A way over a text that needs no more of it than it takes. -/
abbrev Goes (f : Cursor → Cursor) (c : Cursor) : Prop := Takes (fun _ c => .ok (f c)) c id (f c)

theorem goes_skip (n : Nat) (c : Cursor) : Goes (·.skip n) c := takes_skip c n

theorem goes_next (c : Cursor) : Goes next c := takes_skip c 1

theorem goes_skipRun (p : Char → Bool) (c : Cursor) : Goes (·.skipRun p) c :=
  (takes_takeRun p c).map Prod.snd

/-- A reading behind such a way. -/
theorem Goes.before {σ : Type} {f : Cursor → Cursor} {g F : Nat → Cursor → Except Fault σ}
    {b : Cursor → σ} {c c' : Cursor} (hf : Goes f c) (h : Takes g (f c) b c')
    (hF : ∀ w fuel, F fuel (c.onto w) = g fuel (f (c.onto w))) : Takes F c b c' := by
  refine hf.bind h fun w w₁ fuel _ _ hfuel hlen hway => ⟨fuel, ?_, ?_⟩
  · have hle := hf.length_le
    omega
  · rw [hF, Except.ok.inj (hway fuel hfuel)]
    rfl

theorem Goes.comp {f g : Cursor → Cursor} {c : Cursor} (hf : Goes f c) (hg : Goes g (f c)) :
    Goes (fun c => g (f c)) c := hf.before hg fun _ _ => rfl

/-- A run behind the character that stands here. -/
theorem takes_nextRun (p : Char → Bool) (c : Cursor) : Takes (fun _ c => .ok (c.next.takeRun p)) c
    ((c.next.takeRun p).1, ·) (c.next.takeRun p).2 :=
  (goes_next c).before (takes_takeRun p c.next) fun _ _ => rfl

/-- Over a comment that stands here. -/
def skipComment (c : Cursor) : Cursor :=
  if c.peek = some '#' then c.skipRun (fun x => !isBreak x) else c

theorem goes_skipComment (c : Cursor) : Goes skipComment c := by
  by_cases hc : c.peek = some '#'
  · have hrun : skipComment c = c.skipRun (fun x => !isBreak x) := if_pos hc
    rw [Goes, hrun]
    refine (goes_skipRun (fun x => !isBreak x) c).conclude fun w w₁ fuel hw _ hfuel h => ?_
    rw [skipComment, peek_onto hw, if_pos hc]
    exact h _ hfuel
  · have hstop : skipComment c = c := if_neg hc
    rw [Goes, hstop]
    exact .stop fun w fuel hw => by rw [skipComment, peek_onto hw, if_neg hc]; rfl

end Cursor

theorem Gap.takes_read {indent n : Nat} {g g' : Gap} {c c' : Cursor} (hn : c.rest.length < n)
    (h : Gap.read indent n g c = .ok (g', c')) :
    Takes (fun fuel => Gap.read indent fuel g) c (g', ·) c' := by
  induction n generalizing g c with
  | zero => cases hn
  | succ n ih =>
    rw [read] at h
    cases hc : c.rest with
    | nil =>
      rw [hc] at h
      cases h
      exact .stop fun w fuel hw => absurd (hc ▸ hw) Alike.not_nil
    | cons x r =>
      rw [hc] at h hn
      have hnext : c.next.rest.length < n := by
        rw [Cursor.next_rest hc]
        exact Nat.lt_of_succ_lt_succ hn
      simp only at h
      split at h
      · next hblank =>
        split at h
        · next hbroken =>
          split at h
          · cases h
          · next htab =>
            exact (ih hnext h).next hc fun w fuel _ => by
              simp [read, hblank, hbroken, htab, Cursor.next_onto hc]
        · next hbroken =>
          exact (ih hnext h).next hc fun w fuel _ => by
            simp [read, hblank, hbroken, Cursor.next_onto hc]
      · next hblank =>
        split at h
        · next hbreak =>
          split at h
          · next hbroken =>
            exact (ih hnext h).next hc fun w fuel _ => by
              simp [read, hblank, hbreak, hbroken, Cursor.next_onto hc]
          · next hbroken =>
            exact (ih hnext h).next hc fun w fuel _ => by
              simp [read, hblank, hbreak, hbroken, Cursor.next_onto hc]
        · next hbreak =>
          cases h
          refine .stop fun w fuel hw => ?_
          obtain ⟨w, rfl, -⟩ := (hc ▸ hw).cases
          simp [read, hblank, hbreak]

/-- White space that is there is read. -/
theorem Gap.length_read_lt {indent n : Nat} {g g' : Gap} {c c' : Cursor} (hn : c.rest.length < n)
    (hgap : gapAhead c.rest = true)
    (hend : c.rest ≠ []) (h : Gap.read indent n g c = .ok (g', c')) :
    c'.rest.length < c.rest.length := by
  obtain ⟨n, rfl⟩ : ∃ k, n = k + 1 := ⟨n - 1, by omega⟩
  obtain ⟨x, r, hc⟩ := List.exists_cons_of_ne_nil hend
  have hfollow : ∀ g₁, Gap.read indent n g₁ c.next = .ok (g', c') →
      c'.rest.length < c.rest.length := by
    intro g₁ h₁
    have hnext := Cursor.next_rest hc
    rw [hc] at hn
    have hle := (takes_read (hnext ▸ Nat.lt_of_succ_lt_succ hn) h₁).length_le
    rw [hnext] at hle
    rw [hc]
    exact Nat.lt_succ_of_le hle
  rw [hc, gapAhead] at hgap
  rw [read, hc] at h
  simp only at h
  split at h
  · split at h
    · split at h
      · cases h
      · exact hfollow _ h
    · exact hfollow _ h
  · next hblank =>
    simp only [hblank, Bool.false_or] at hgap
    simp only [hgap, if_true] at h
    split at h <;> exact hfollow _ h

end LayeredConfig.Yaml
