import LayeredConfig.Proofs.Interpolation.Expansion
import LayeredConfig.Proofs.Text.Segments

/-!
# References

A text that is a single reference, in which nothing is to be expanded, stands for the node at the
path that it spells, read from the document or from the node that holds it.
-/
namespace LayeredConfig.Interpolation

open Text (joinWith splitAll isBlank)

/-- An expression in which nothing is expanded and that is no call. -/
def IsBare (e : Text) : Prop :=
  ∀ c ∈ e, c ≠ ':' ∧ c ≠ '$' ∧ c ≠ '\x7b' ∧ c ≠ '\x7d' ∧ isBlank c = false

/-- A segment that can be spelled in an expression. -/
structure IsSegment (s : Text) : Prop where
  ne_nil : s ≠ []
  isBare : IsBare s
  noDot : '.' ∉ s

instance (e : Text) : Decidable (IsBare e) := List.decidableBAll ..

instance (s : Text) : Decidable (IsSegment s) :=
  decidable_of_iff (s ≠ [] ∧ IsBare s ∧ '.' ∉ s)
    ⟨fun h => ⟨h.1, h.2.1, h.2.2⟩, fun h => ⟨h.ne_nil, h.isBare, h.noDot⟩⟩

variable {e : Text}

theorem IsBare.noColon (h : IsBare e) : ':' ∉ e := fun hc => (h _ hc).1 rfl

theorem IsBare.noDollar (h : IsBare e) : '$' ∉ e := fun hc => (h _ hc).2.1 rfl

theorem IsBare.trim (h : IsBare e) : Text.trim e = e :=
  Text.trim_of_unblank fun c hc => (h c hc).2.2.2.2

theorem IsBare.call?_eq_none (h : IsBare e) : call? e = none := by
  rw [call?, Text.splitFirst_eq_none_iff.2 h.noColon]
  rfl

theorem hasOpening_of_not_mem (h : '$' ∉ e) : hasOpening e = false := by
  unfold hasOpening
  induction e with
  | nil => rfl
  | cons c e ih =>
    obtain ⟨hc, he⟩ := not_or.1 (mt List.mem_cons.2 h)
    rw [Text.holds, ih he, Bool.or_false, Text.startsWith, opening, Text.after?, if_neg hc]
    rfl

theorem hasOpening_reference (e : Text) : hasOpening (reference e) = true := rfl

theorem piecesFrom_body {s r : Text} (h : IsBare e) :
    piecesFrom (.body 0 s) (e ++ '\x7d' :: r) =
      (piecesFrom (.text []) r).map fun ps => .body (s ++ e) :: ps := by
  induction e generalizing s with
  | nil => rw [List.nil_append, piecesFrom, List.append_nil]
  | cons c e ih =>
    obtain ⟨⟨-, hdollar, -, hbrace, -⟩, he⟩ := List.forall_mem_cons.1 h
    rw [List.cons_append, piecesFrom, ih he, List.append_assoc, List.singleton_append]
    · exact fun _ hc _ => hdollar hc
    · exact fun _ hc => hbrace hc
    · simp

theorem pieces?_reference (h : IsBare e) : pieces? (reference e) = some [.body e] := by
  have hbody := piecesFrom_body (s := []) (r := []) h
  rw [List.nil_append] at hbody
  rw [pieces?, reference, opening, List.append_assoc, List.cons_append, List.cons_append,
    List.nil_append, piecesFrom, hbody, piecesFrom]
  rfl

theorem isBare_joinWith {path : List Text} (h : ∀ s ∈ path, IsSegment s) :
    IsBare (joinWith "." path) := by
  intro c hc
  rcases Text.mem_joinWith hc with hdot | ⟨s, hs, hc⟩
  · obtain rfl : c = '.' := List.mem_singleton.1 hdot
    decide
  · exact (h s hs).isBare c hc

/-- A segment does not begin with a dot. -/
theorem IsSegment.exists_cons {s : Text} (h : IsSegment s) : ∃ c r, s = c :: r ∧ c ≠ '.' := by
  cases s with
  | nil => exact absurd rfl h.ne_nil
  | cons c r => exact ⟨c, r, rfl, fun hc => h.noDot (hc ▸ List.mem_cons_self)⟩

theorem filter_segments {path : List Text} (h : ∀ s ∈ path, IsSegment s) :
    (path.filter fun s => ¬ s.isEmpty) = path :=
  List.filter_eq_self.2 fun s hs => by simpa using (h s hs).ne_nil

/-- A path of segments means itself everywhere. -/
theorem target_joinWith {path : List Text} (hne : path ≠ []) (h : ∀ s ∈ path, IsSegment s)
    (here : List Text) : target (joinWith "." path) here = .ok path := by
  obtain ⟨s, rest, rfl⟩ := List.exists_cons_of_ne_nil hne
  obtain ⟨c, r, rfl, hc⟩ := (h s List.mem_cons_self).exists_cons
  have hsplit : splitAll '.' (joinWith "." ((c :: r) :: rest)) = (c :: r) :: rest :=
    @Text.splitAll_joinWith '.' _ hne fun s hs => (h s hs).noDot
  rw [Text.joinWith_cons, List.cons_append] at hsplit ⊢
  simp only [target, List.takeWhile_cons, List.dropWhile_cons, hc, decide_false, Bool.false_eq_true,
    if_false, List.length_nil, if_true, List.isEmpty_cons, hsplit, filter_segments h]

/-- One segment behind a dot means the neighbour that it names. -/
theorem target_sibling {k : Text} (hk : IsSegment k) (around : List Text) (t : Text) :
    target ('.' :: k) (around ++ [t]) = .ok (around ++ [k]) := by
  have hsplit := Text.splitAll_of_not_mem hk.noDot
  obtain ⟨c, r, rfl, hc⟩ := hk.exists_cons
  simp [target, hc, hsplit]

/-- A reference has the value of the node that it means. -/
theorem resolveText_reference (ctx : Context) (h : IsBare e) (room : Nat) (chain here : List Text) :
    resolveText ctx (room + 1) chain here (reference e) = refer ctx room chain here e := by
  rw [resolveText_succ, expand_succ, ofPieces, pieces?_reference h]
  dsimp only
  rw [evaluate, expanded_of_no_opening (hasOpening_of_not_mem h.noDollar), Outcome.ok_bind, h.trim]

theorem refer_of_target (ctx : Context) (h : IsBare e) {here path : List Text}
    (ht : target e here = .ok path) (room : Nat) (chain : List Text) :
    refer ctx room chain here e = (do
      let (key, node) ← enter ctx chain path
      resolveAll (resolveText ctx room (key :: chain)) path node) := by
  rw [refer, h.call?_eq_none, ht]
  rfl

end LayeredConfig.Interpolation
