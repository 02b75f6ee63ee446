import LayeredConfig.Proofs.Interpolation.Pieces
import LayeredConfig.Proofs.Text.Bytes

/-!
# Cutting a text by byte positions

The pieces of a text are found by positions among its bytes. A body is closed by counting bytes, a
literal part is passed character by character, and every part that is taken must begin and end
between characters. It always does, and the pieces are the same as those that are read character by
character.
-/
namespace LayeredConfig.Interpolation

/-- Why a text is not cut. -/
inductive Fault where
  /-- A body is never closed. -/
  | unclosed
  /-- A part begins or ends inside a character. -/
  | insideCharacter
deriving DecidableEq

/-- The part of a text between two byte positions. -/
def part (s : Text) (a b : Nat) : Except Fault Text :=
  match Text.slice? s a b with
  | some t => .ok t
  | none => .error .insideCharacter

/-- The literal part between two byte positions, if they are apart. -/
def literalAt (s : Text) (a b : Nat) : Except Fault (List Piece) :=
  if a < b then (part s a b).map fun t => [.text t] else .ok []

/-- The position of the byte that closes a body, in the bytes from position `j` on, with `depth`
bodies open in it. -/
def closingAt (j depth : Nat) : List UInt8 → Option Nat
  | [] => none
  | 0x24 :: 0x7b :: bs => closingAt (j + 2) (depth + 1) bs
  | 0x7d :: bs =>
    match depth with
    | 0 => some j
    | depth + 1 => closingAt (j + 1) depth bs
  | _ :: bs => closingAt (j + 1) depth bs

theorem le_closingAt {j depth k : Nat} {bs : List UInt8} (h : closingAt j depth bs = some k) :
    j ≤ k := by
  fun_induction closingAt j depth bs with
  | case1 => cases h
  | case2 j depth bs ih => exact Nat.le_trans (Nat.le_add_right j 2) (ih h)
  | case3 j bs => exact Nat.le_of_eq (Option.some.inj h)
  | case4 j bs depth ih => exact Nat.le_of_succ_le (ih h)
  | case5 j depth b bs _ _ ih => exact Nat.le_of_succ_le (ih h)

/-- The pieces from byte `i` of a text on, where a literal part begins at byte `start`. -/
def scan (s : Text) (start i : Nat) : Except Fault (List Piece) :=
  if _h : i < s.byteLength then do
    let rest ← part s i s.byteLength
    if Text.startsWith ('\\' :: opening) rest then
      let t ← literalAt s start i
      let ps ← scan s (i + 3) (i + 3)
      return t ++ .escape :: ps
    else if Text.startsWith opening rest then
      let t ← literalAt s start i
      match _hj : closingAt (i + 2) 0 (s.bytes.drop (i + 2)) with
      | none => throw .unclosed
      | some j =>
        let b ← part s (i + 2) j
        let ps ← scan s (j + 1) (j + 1)
        return t ++ .body b :: ps
    else scan s start (i + (rest.head?.map Char.utf8Size).getD 1)
  else literalAt s start s.byteLength
termination_by s.byteLength - i
decreasing_by
  · omega
  · have hle := le_closingAt _hj
    omega
  · have hpos : 0 < (rest.head?.map Char.utf8Size).getD 1 := by
      cases rest.head? with
      | none => exact Nat.one_pos
      | some c => exact c.utf8Size_pos
    omega

section
variable {j depth : Nat} {c : Char} {s : Text}

/-- Bytes that are neither dollar signs nor closing braces are passed. -/
theorem closingAt_append {front : List UInt8} (h : ∀ b ∈ front, b ≠ 0x24 ∧ b ≠ 0x7d)
    (bs : List UInt8) :
    closingAt j depth (front ++ bs) = closingAt (j + front.length) depth bs := by
  induction front generalizing j with
  | nil => rfl
  | cons b front ih =>
    obtain ⟨⟨hdollar, hbrace⟩, hfront⟩ := List.forall_mem_cons.1 h
    rw [List.cons_append, closingAt, ih hfront, List.length_cons, Nat.add_assoc, Nat.add_comm 1]
    · exact fun _ hb => absurd hb hdollar
    · exact hbrace

/-- A dollar sign that does not begin an opening is passed. -/
theorem closingAt_dollar (h : ∀ q, s ≠ '\x7b' :: q) :
    closingAt j depth (Text.bytes ('$' :: s)) = closingAt (j + 1) depth (Text.bytes s) := by
  rw [Text.bytes_cons, show String.utf8EncodeChar '$' = [0x24] from rfl,
    List.singleton_append, closingAt]
  · intro bs _ hs
    cases s with
    | nil => cases hs
    | cons d s =>
      have hmem : 0x7b ∈ String.utf8EncodeChar d := by
        rw [Text.bytes_cons] at hs
        cases hd : String.utf8EncodeChar d with
        | nil =>
          have hlen := String.length_utf8EncodeChar d
          rw [hd] at hlen
          exact absurd hlen.symm (Nat.ne_of_gt d.utf8Size_pos)
        | cons b front =>
          rw [hd] at hs
          cases hs
          exact List.mem_cons_self
      have hd : d = '\x7b' :=
        Char.toNat_inj.1 (Text.toNat_eq_of_mem_utf8EncodeChar hmem (by decide))
      exact h s (by rw [hd])
  · decide

/-- A character that is neither a closing brace nor begins an opening is passed, byte by byte. -/
theorem closingAt_cons (hbrace : c ≠ '\x7d') (hopen : ∀ q, c :: s ≠ opening ++ q) :
    closingAt j depth (Text.bytes (c :: s)) = closingAt (j + c.utf8Size) depth (Text.bytes s) := by
  by_cases hdollar : c = '$'
  · subst hdollar
    exact closingAt_dollar fun q hq => hopen q (by rw [hq]; rfl)
  · rw [Text.bytes_cons, closingAt_append, String.length_utf8EncodeChar]
    intro b hb
    constructor <;> rintro rfl
    · exact hdollar (Char.toNat_inj.1 (Text.toNat_eq_of_mem_utf8EncodeChar hb (by decide)))
    · exact hbrace (Char.toNat_inj.1 (Text.toNat_eq_of_mem_utf8EncodeChar hb (by decide)))

/-- **Counting bytes finds the brace that closes a body.** -/
theorem closingAt_bytes (j depth : Nat) (s : Text) :
    closingAt j depth (Text.bytes s) = (closing? depth s).map fun p => j + Text.byteLength p.1 := by
  fun_induction closing? depth s generalizing j with
  | case1 => rfl
  | case2 depth r ih =>
    have hbytes : Text.bytes ('$' :: '\x7b' :: r) = 0x24 :: 0x7b :: Text.bytes r := rfl
    rw [hbytes, closingAt, ih, Option.map_map]
    refine congrArg (Option.map · _) (funext fun p => ?_)
    rw [Function.comp_apply, Text.byteLength_append, ← Nat.add_assoc]
    rfl
  | case3 r => rfl
  | case4 depth r ih =>
    have hbytes : Text.bytes ('\x7d' :: r) = 0x7d :: Text.bytes r := rfl
    rw [hbytes, closingAt, ih, Option.map_map]
    refine congrArg (Option.map · _) (funext fun p => ?_)
    rw [Function.comp_apply, Text.byteLength, ← Nat.add_assoc]
    rfl
  | case5 depth c r hopen hzero hsucc ih =>
    have hbrace := ne_brace hzero hsucc
    rw [closingAt_cons hbrace, ih, Option.map_map]
    · refine congrArg (Option.map · _) (funext fun p => ?_)
      rw [Function.comp_apply, Text.byteLength, ← Nat.add_assoc]
    · intro q hq
      cases hq
      exact hopen q rfl rfl
end

/-- Byte `i` of a text stands before `r`, and `t` stands from byte `start` up to there. -/
def At (s : Text) (start i : Nat) (t r : Text) : Prop :=
  ∃ front, s = front ++ (t ++ r) ∧ start = front.byteLength ∧ i = start + t.byteLength

section
variable {s t u r : Text} {start i : Nat}

theorem At.zero (s : Text) : At s 0 0 [] s := ⟨[], rfl, rfl, rfl⟩

/-- A new literal part begins behind what is passed. -/
theorem At.after (h : At s start i t (u ++ r)) :
    At s (i + u.byteLength) (i + u.byteLength) [] r := by
  obtain ⟨front, rfl, rfl, rfl⟩ := h
  refine ⟨front ++ t ++ u, by simp, ?_, rfl⟩
  rw [Text.byteLength_append, Text.byteLength_append]

/-- A character that is passed belongs to the literal part. -/
theorem At.cons {c : Char} (h : At s start i t (c :: r)) :
    At s start (i + c.utf8Size) (t ++ [c]) r := by
  obtain ⟨front, rfl, rfl, rfl⟩ := h
  refine ⟨front, by simp, rfl, ?_⟩
  rw [Text.byteLength_append, Nat.add_assoc]
  rfl

theorem At.byteLength_eq (h : At s start i t r) : s.byteLength = i + r.byteLength := by
  obtain ⟨front, rfl, rfl, rfl⟩ := h
  rw [Text.byteLength_append, Text.byteLength_append, Nat.add_assoc]

theorem At.drop_bytes_eq (h : At s start i t r) : s.bytes.drop i = r.bytes := by
  obtain ⟨front, rfl, rfl, rfl⟩ := h
  rw [← List.append_assoc, ← Text.byteLength_append, Text.drop_bytes_append]

theorem At.part_eq (h : At s start i t r) : part s start i = .ok t := by
  obtain ⟨front, rfl, rfl, rfl⟩ := h
  rw [part, Text.slice?_append]

theorem At.literalAt_eq (h : At s start i t r) : literalAt s start i = .ok (literal t) := by
  rw [literalAt, h.part_eq]
  obtain ⟨front, rfl, rfl, rfl⟩ := h
  cases t with
  | nil => exact if_neg (Nat.lt_irrefl front.byteLength)
  | cons c t => rw [if_pos (Nat.lt_add_of_pos_right (Text.byteLength_cons_pos c t))]; rfl

/-- What stands directly behind a position. -/
theorem At.next (h : At s start i t (u ++ r)) : part s i (i + u.byteLength) = .ok u := by
  obtain ⟨front, rfl, rfl, rfl⟩ := h
  refine At.part_eq (r := r) ⟨front ++ t, by simp, ?_, rfl⟩
  rw [Text.byteLength_append]
end

section
variable {s t r : Text} {start i : Nat}

-- The ways to go on, where `r` is the rest of the text.
section
variable (hmore : i < s.byteLength) (hrest : part s i s.byteLength = .ok r)
  (hliteral : literalAt s start i = .ok (literal t))
include hmore hrest

theorem scan_char (hescape : Text.startsWith ('\\' :: opening) r = false)
    (hopen : Text.startsWith opening r = false) :
    scan s start i = scan s start (i + (r.head?.map Char.utf8Size).getD 1) := by
  rw [scan, dif_pos hmore, hrest]
  simp only [bind, Except.bind, hescape, hopen, Bool.false_eq_true, if_false]

include hliteral

theorem scan_escape (hescape : Text.startsWith ('\\' :: opening) r = true) :
    scan s start i = (scan s (i + 3) (i + 3)).map fun ps => literal t ++ .escape :: ps := by
  rw [scan, dif_pos hmore, hrest, hliteral]
  simp only [bind, Except.bind, hescape, if_true]
  cases scan s (i + 3) (i + 3) <;> rfl

theorem scan_unclosed (hescape : Text.startsWith ('\\' :: opening) r = false)
    (hopen : Text.startsWith opening r = true)
    (h : closingAt (i + 2) 0 (s.bytes.drop (i + 2)) = none) :
    scan s start i = .error .unclosed := by
  rw [scan, dif_pos hmore, hrest, hliteral]
  simp only [bind, Except.bind, hescape, hopen, Bool.false_eq_true, if_false, if_true]
  split
  · rfl
  · next hj =>
    rw [h] at hj
    cases hj

theorem scan_body (hescape : Text.startsWith ('\\' :: opening) r = false)
    (hopen : Text.startsWith opening r = true)
    {j : Nat} {b : Text} (h : closingAt (i + 2) 0 (s.bytes.drop (i + 2)) = some j)
    (hb : part s (i + 2) j = .ok b) :
    scan s start i = (scan s (j + 1) (j + 1)).map fun ps => literal t ++ .body b :: ps := by
  rw [scan, dif_pos hmore, hrest, hliteral]
  simp only [bind, Except.bind, hescape, hopen, Bool.false_eq_true, if_false, if_true]
  split
  · next hj =>
    rw [h] at hj
    cases hj
  · next hj =>
    rw [h] at hj
    cases hj
    simp only [hb]
    cases scan s (j + 1) (j + 1) <;> rfl
end

/-- **No part begins or ends inside a character.** From a position between two characters on, the
pieces are found that are read from there on. -/
theorem At.scan_eq (h : At s start i t r) :
    scan s start i = (piecesFrom (.text t) r).elim (.error .unclosed) .ok := by
  induction hn : r.length using Nat.strongRecOn generalizing t r start i with
  | ind n ih =>
    subst hn
    have hrest : part s i s.byteLength = .ok r := by
      rw [h.byteLength_eq]
      rw [← List.append_nil r] at h
      exact h.next
    have hmore : r ≠ [] → i < s.byteLength := by
      intro hne
      obtain ⟨c, q, rfl⟩ := List.exists_cons_of_ne_nil hne
      rw [h.byteLength_eq]
      exact Nat.lt_add_of_pos_right (Text.byteLength_cons_pos c q)
    rcases begins_cases r with rfl | ⟨r, rfl⟩ | ⟨r, rfl⟩ | ⟨c, r, rfl, hopen, hescape⟩
    · have hend : s.byteLength = i := h.byteLength_eq
      rw [scan, dif_neg (by rw [hend]; exact Nat.lt_irrefl i), hend, h.literalAt_eq, piecesFrom]
      rfl
    · have hnext : At s (i + 3) (i + 3) [] r := h.after (u := '\\' :: opening)
      rw [scan_escape (hmore (List.cons_ne_nil _ _)) hrest h.literalAt_eq
        (startsWith_iff.2 ⟨r, rfl⟩),
        ih r.length (by simp [opening]; omega) hnext rfl, piecesFrom_escape]
      cases piecesFrom (.text []) r <;> rfl
    · have hinside : At s (i + 2) (i + 2) [] r := h.after
      have hclosing : closingAt (i + 2) 0 (s.bytes.drop (i + 2)) =
          (closing? 0 r).map fun p => i + 2 + p.1.byteLength := by
        rw [hinside.drop_bytes_eq, closingAt_bytes]
      have hstarts : Text.startsWith opening (opening ++ r) = true := startsWith_iff.2 ⟨r, rfl⟩
      rw [piecesFrom_opening]
      cases hclosed : closing? 0 r with
      | none =>
        rw [hclosed] at hclosing
        rw [scan_unclosed (hmore (List.cons_ne_nil _ _)) hrest h.literalAt_eq rfl hstarts hclosing]
        rfl
      | some p =>
        obtain ⟨b, rest⟩ := p
        obtain ⟨rfl, -⟩ := closing?_eq_some_iff.1 hclosed
        rw [hclosed] at hclosing
        have hbehind : At s (i + 2 + b.byteLength) (i + 2 + b.byteLength) [] ('\x7d' :: rest) :=
          hinside.after
        have hnext : At s (i + 2 + b.byteLength + 1) (i + 2 + b.byteLength + 1) [] rest :=
          hbehind.after (u := ['\x7d'])
        rw [scan_body (hmore (List.cons_ne_nil _ _)) hrest h.literalAt_eq rfl hstarts hclosing
          hinside.next, ih rest.length (by simp; omega) hnext rfl, Option.bind_some]
        cases piecesFrom (.text []) rest <;> rfl
    · have hnot : ∀ lead, (∀ q, c :: r ≠ lead ++ q) → Text.startsWith lead (c :: r) = false := by
        intro lead h
        rw [← Bool.not_eq_true, startsWith_iff, not_exists]
        exact h
      rw [scan_char (hmore (List.cons_ne_nil _ _)) hrest (hnot _ hescape) (hnot _ hopen),
        piecesFrom_char hopen hescape]
      exact ih r.length (by simp) h.cons rfl
end

/-- **Cutting a text by its bytes loses nothing.** No part that is taken begins or ends inside a
character. A text is not cut exactly if an opening in it is never closed, and otherwise its pieces
are the one way to cut it. -/
theorem scan_exact (s : Text) : scan s 0 0 = (pieces? s).elim (.error .unclosed) .ok ∧
    (pieces? s = none ↔ Unclosed s) ∧ ∀ ps, pieces? s = some ps ↔ IsCut ps ∧ written ps = s :=
  ⟨(At.zero s).scan_eq, pieces?_eq_none_iff, fun _ => pieces?_eq_some_iff⟩

end LayeredConfig.Interpolation
