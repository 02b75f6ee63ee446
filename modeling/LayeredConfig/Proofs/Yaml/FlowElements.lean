import LayeredConfig.Proofs.Outcome
import LayeredConfig.Yaml.Node

/-!
# The elements of a collection in brackets

The items of a sequence and the entries of a mapping are read by one reading, which differs in the
bracket, in what an element becomes and in what an empty key takes along.
-/
namespace LayeredConfig.Yaml.Node

open Outcome

variable {α : Type} {handles : Handles} {close t : Token}

/-- The key of an entry behind its mark. In a sequence an empty key takes the token after it
along. -/
def keyPart (close : Token) (along : Bool) (read : Rest → Except Fault (Node × Rest)) (r : Rest) :
    Except Fault (Node × Rest) :=
  if r.tokens.head? = some .value ∨ r.tokens.head? = some .flowEntry ∨
      r.tokens.head? = some close then
    .ok (blank, if along then r.tail else r)
  else read r

/-- The value of an entry, which may be missing. -/
def valuePart (close : Token) (read : Rest → Except Fault (Node × Rest)) (r : Rest) :
    Except Fault (Node × Rest) :=
  if r.tokens.head? = some .value then
    if r.tail.tokens.head? = some .flowEntry ∨ r.tail.tokens.head? = some close then
      .ok (blank, r.tail)
    else read r.tail
  else .ok (blank, r)

/-- An entry, or a node by itself, and what follows it, up to the closing bracket. -/
def elements (close : Token) (along : Bool) (pair : Node → Node → α) (single : Node → α)
    (read : Rest → Except Fault (Node × Rest)) (more : Rest → Except Fault (List α × Rest))
    (r : Rest) : Except Fault (List α × Rest) :=
  if r.tokens.head? = some .key then do
    let (k, r) ← keyPart close along read r.tail
    let (v, r) ← valuePart close read r
    let (xs, r) ← more r
    .ok (pair k v :: xs, r)
  else if r.tokens.head? = some close then .ok ([], r.tail)
  else do
    let (x, r) ← read r
    let (xs, r) ← more r
    .ok (single x :: xs, r)

theorem head?_ne {ts : List Token} (h : ∀ tail, ts = t :: tail → False) : ts.head? ≠ some t := by
  intro hhead
  obtain ⟨tail, rfl⟩ := List.head?_eq_some_iff.1 hhead
  exact h tail rfl

theorem tail_tokens {r : Rest} {ts : List Token} (h : r.tokens = t :: ts) : r.tail.tokens = ts := by
  rw [Rest.tail, h]
  rfl

theorem readFlowItems_first (fuel : Nat) (r : Rest) : readFlowItems handles (fuel + 1) true r =
    elements .flowSequenceEnd true
      (fun k v => .mapping none none [(k, v)]) id (read handles false false fuel)
      (readFlowItems handles fuel false) r := by
  rw [readFlowItems, elements]
  split
  · next heq => rw [heq]; rfl
  · next hne =>
    simp only [if_true, ok_bind]
    split
    · next ts heq =>
      rw [heq, List.head?_cons, if_pos rfl, keyPart]
      split
      case' h_1 => rw [if_pos (Or.inl (by rw [tail_tokens heq]; rfl)), ok_bind, if_pos rfl]
      case' h_2 => rw [if_pos (Or.inr (Or.inl (by rw [tail_tokens heq]; rfl))), ok_bind, if_pos rfl]
      case' h_3 => rw [if_pos (Or.inr (Or.inr (by rw [tail_tokens heq]; rfl))), ok_bind, if_pos rfl]
      case' h_4 hval hentry hend =>
        rw [tail_tokens heq,
          if_neg (not_or.2 ⟨head?_ne hval, not_or.2 ⟨head?_ne hentry, head?_ne hend⟩⟩)]
        refine congrArg _ (funext fun q => ?_)
      -- The code goes on after each way to read the value.
      all_goals
        rw [valuePart]
        split
        · next heq =>
          rw [heq, List.head?_cons, if_pos rfl, tail_tokens heq]
          split
          · rfl
          · rfl
          · next hentry hend => rw [if_neg (not_or.2 ⟨head?_ne hentry, head?_ne hend⟩)]
        · next hne => rw [if_neg (head?_ne hne), ok_bind]
    · next heq => exact absurd heq (hne _)
    · next hkey hend =>
      rw [if_neg (head?_ne hkey), if_neg (head?_ne hend)]
      rfl

theorem readFlowItems_next (fuel : Nat) (r : Rest) : readFlowItems handles (fuel + 1) false r =
    if r.tokens.head? = some .flowSequenceEnd then .ok ([], r.tail)
    else if r.tokens.head? = some .flowEntry then readFlowItems handles (fuel + 1) true r.tail
    else .error .grammar := by
  rw [readFlowItems]
  split
  · next heq => rw [heq]; rfl
  · next hne =>
    rw [if_neg (head?_ne hne)]
    simp only [Bool.false_eq_true, if_false]
    split
    · next heq =>
      rw [if_pos (by rw [heq]; rfl), ok_bind, readFlowItems]
      cases htail : r.tail.tokens with
      | nil => simp only [if_true, ok_bind, htail]
      | cons t ts => cases t <;> simp only [if_true, ok_bind, htail]
    · next hentry =>
      rw [if_neg (head?_ne hentry)]
      rfl

theorem readFlowEntries_first (fuel : Nat) (r : Rest) : readFlowEntries handles (fuel + 1) true r =
    elements .flowMappingEnd false
      (fun k v => (k, v)) (fun k => (k, blank)) (read handles false false fuel)
      (readFlowEntries handles fuel false) r := by
  rw [readFlowEntries, elements]
  split
  · next heq => rw [heq]; rfl
  · next hne =>
    simp only [if_true, ok_bind]
    split
    · next ts heq =>
      rw [heq, List.head?_cons, if_pos rfl, keyPart]
      split
      case' h_1 =>
        rw [if_pos (Or.inl (by rw [tail_tokens heq]; rfl)), ok_bind, if_neg Bool.false_ne_true]
      case' h_2 =>
        rw [if_pos (Or.inr (Or.inl (by rw [tail_tokens heq]; rfl))), ok_bind,
          if_neg Bool.false_ne_true]
      case' h_3 =>
        rw [if_pos (Or.inr (Or.inr (by rw [tail_tokens heq]; rfl))), ok_bind,
          if_neg Bool.false_ne_true]
      case' h_4 hval hentry hend =>
        rw [tail_tokens heq,
          if_neg (not_or.2 ⟨head?_ne hval, not_or.2 ⟨head?_ne hentry, head?_ne hend⟩⟩)]
        refine congrArg _ (funext fun q => ?_)
      -- The code goes on after each way to read the value.
      all_goals
        rw [valuePart]
        split
        · next heq =>
          rw [heq, List.head?_cons, if_pos rfl, tail_tokens heq]
          split
          · rfl
          · rfl
          · next hentry hend => rw [if_neg (not_or.2 ⟨head?_ne hentry, head?_ne hend⟩)]
        · next hne => rw [if_neg (head?_ne hne), ok_bind]
    · next heq => exact absurd heq (hne _)
    · next hkey hend =>
      rw [if_neg (head?_ne hkey), if_neg (head?_ne hend)]

theorem readFlowEntries_next (fuel : Nat) (r : Rest) : readFlowEntries handles (fuel + 1) false r =
    if r.tokens.head? = some .flowMappingEnd then .ok ([], r.tail)
    else if r.tokens.head? = some .flowEntry then readFlowEntries handles (fuel + 1) true r.tail
    else .error .grammar := by
  rw [readFlowEntries]
  split
  · next heq => rw [heq]; rfl
  · next hne =>
    rw [if_neg (head?_ne hne)]
    simp only [Bool.false_eq_true, if_false]
    split
    · next heq =>
      rw [if_pos (by rw [heq]; rfl), ok_bind, readFlowEntries]
      cases htail : r.tail.tokens with
      | nil => simp only [if_true, ok_bind, htail]
      | cons t ts => cases t <;> simp only [if_true, ok_bind, htail]
    · next hentry =>
      rw [if_neg (head?_ne hentry)]
      rfl

end LayeredConfig.Yaml.Node
