import LayeredConfig.Text.Blank
import Mathlib.Data.List.DropRight

/-!
# Trimmed texts

A trimmed text has no white space at its ends, and trimming leaves such a text as it is.
-/
namespace LayeredConfig.Text

/-- A text whose first and last characters are no white space. The empty text is one. -/
structure IsTrimmed (s : Text) : Prop where
  first : ∀ c, s.head? = some c → isBlank c = false
  last : ∀ c, s.getLast? = some c → isBlank c = false

variable {s : Text}

theorem trim_isPrefix_trimStart (s : Text) : trim s <+: trimStart s :=
  List.rdropWhile_prefix isBlank _

theorem mem_of_mem_trim {c : Char} (h : c ∈ trim s) : c ∈ s :=
  (List.dropWhile_suffix isBlank).subset ((trim_isPrefix_trimStart s).subset h)

theorem trimStart_eq_self (h : ∀ c, s.head? = some c → isBlank c = false) : trimStart s = s := by
  cases s with
  | nil => rfl
  | cons c s => simp [trimStart, h c rfl]

/-- Trimming does not change how a text begins, if it does not begin with white space. -/
theorem head?_trim (h : ∀ c, s.head? = some c → isBlank c = false) (hne : trim s ≠ []) :
    (trim s).head? = s.head? := by
  obtain ⟨r, hr⟩ := trim_isPrefix_trimStart s
  obtain ⟨c, t, ht⟩ := List.exists_cons_of_ne_nil hne
  rw [trimStart_eq_self h, ht] at hr
  rw [ht, ← hr]
  rfl

theorem isTrimmed_trim (s : Text) : IsTrimmed (trim s) := by
  constructor
  · intro c hc
    obtain ⟨r, hr⟩ := trim_isPrefix_trimStart s
    have hstart : (s.dropWhile isBlank).head? = some c := by
      rw [show s.dropWhile isBlank = trim s ++ r from hr.symm, List.head?_append, hc]
      rfl
    have hfirst := List.head?_dropWhile_not isBlank s
    rwa [hstart] at hfirst
  · intro c hc
    obtain ⟨hne, rfl⟩ := List.mem_getLast?_eq_getLast hc
    rw [← Bool.not_eq_true]
    exact List.rdropWhile_last_not isBlank (trimStart s) hne

theorem IsTrimmed.trim (h : IsTrimmed s) : trim s = s := by
  rw [Text.trim, trimStart_eq_self h.first]
  refine (List.rdropWhile_eq_self_iff ..).2 fun hne => ?_
  rw [h.last _ (List.getLast?_eq_some_getLast hne)]
  exact Bool.false_ne_true

end LayeredConfig.Text
