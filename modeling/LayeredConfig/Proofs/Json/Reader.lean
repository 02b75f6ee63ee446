import LayeredConfig.Json.Printer
import LayeredConfig.Json.Reader

/-!
# What the JSON reader consumes

Each reader takes a part off the start of a text. White space is passed over, an escaped text is
read back, and a number is made of the characters of numbers.
-/
namespace LayeredConfig.JsonValue

theorem skipSpace_append {ws : Text} (hws : ∀ c ∈ ws, isSpace c = true) (s : Text) :
    skipSpace (ws ++ s) = skipSpace s := by
  induction ws with
  | nil => rfl
  | cons c ws ih =>
    obtain ⟨hc, hws⟩ := List.forall_mem_cons.1 hws
    rw [List.cons_append, skipSpace, List.dropWhile_cons, if_pos hc]
    exact ih hws

theorem skipSpace_cons {c : Char} (hc : isSpace c = false) (s : Text) :
    skipSpace (c :: s) = c :: s := by
  rw [skipSpace, List.dropWhile_cons, hc]
  rfl

/-- White space before a value makes no difference. -/
theorem readValue?_append (ws : Text) (hws : ∀ c ∈ ws, isSpace c = true) (n : Nat) (s : Text) :
    readValue? n (ws ++ s) = readValue? n s := by
  cases n with
  | zero => rfl
  | succ n => rw [readValue?, readValue?, skipSpace_append hws]

theorem unit?_escape : ∀ n < 32,
    Text.digits? 16 ['0', '0', hexDigit (n / 16), hexDigit (n % 16)] = some n := by
  decide

/-- A character is read back from its escape. -/
theorem quoted?_escape (c : Char) (n : Nat) (r : Text) :
    quoted? (n + 1) (escape c ++ r) = (quoted? n r).map (cons c) := by
  unfold escape
  split
  · next h => subst h; rfl
  split
  · next h => subst h; rfl
  split
  · next h => subst h; rfl
  split
  · next h => subst h; rfl
  split
  · next h => subst h; rfl
  split
  · next h => subst h; rfl
  split
  · next h => subst h; rfl
  split
  · next hcontrol =>
    have hunit : unit? ('0' :: '0' :: hexDigit (c.toNat / 16) :: hexDigit (c.toNat % 16) :: r) =
        some (c.toNat, r) := by
      rw [unit?, unit?_escape c.toNat hcontrol]
      rfl
    have htrailing : isTrailing c.toNat = false := by
      simp only [isTrailing, Bool.and_eq_false_iff, decide_eq_false_iff_not]
      omega
    have hleading : isLeading c.toNat = false := by
      simp only [isLeading, Bool.and_eq_false_iff, decide_eq_false_iff_not]
      omega
    simp only [List.cons_append, List.nil_append, quoted?, hunit, Option.bind_eq_bind,
      Option.bind_some, htrailing, hleading, Bool.false_eq_true, if_false, Char.ofNat_toNat]
  · next hquote hslash _ _ _ _ _ hcontrol =>
    rw [List.singleton_append, quoted?, if_neg hcontrol]
    all_goals simp [hquote, hslash]

theorem length_le_flatMap_escape (s : Text) : s.length ≤ (s.flatMap escape).length := by
  induction s with
  | nil => exact Nat.le_refl 0
  | cons c s ih =>
    have hc : 0 < (escape c).length := by
      unfold escape
      repeat' split
      all_goals exact Nat.succ_pos _
    rw [List.flatMap_cons, List.length_append, List.length_cons]
    omega

theorem lt_length_escaped (s r : Text) : s.length < (s.flatMap escape ++ '"' :: r).length + 1 := by
  have hle := length_le_flatMap_escape s
  rw [List.length_append]
  omega

/-- **What stands between quotes is read back.** -/
theorem quoted?_escaped (s : Text) {n : Nat} (hn : s.length < n) (r : Text) :
    quoted? n (s.flatMap escape ++ '"' :: r) = some (some s, r) := by
  induction s generalizing n with
  | nil =>
    obtain ⟨m, rfl⟩ := Nat.exists_eq_add_of_lt hn
    simp [quoted?]
  | cons c s ih =>
    obtain ⟨m, rfl⟩ : ∃ m, n = m + 1 := ⟨n - 1, by simp at hn; omega⟩
    rw [List.flatMap_cons, List.append_assoc, quoted?_escape, ih (by simpa using hn)]
    rfl

/-- Whether a character can stand in a number. -/
def isNumeric (c : Char) : Bool :=
  isDigit c || c = '.' || c = '-' || c = '+' || c = 'e' || c = 'E'

/-- Something is read off the start of a text, in characters of numbers. -/
def TakesNumeric (s : Text) (p : Text × Text) : Prop :=
  s = p.1 ++ p.2 ∧ ∀ c ∈ p.1, isNumeric c = true

theorem TakesNumeric.cons {c : Char} {s : Text} {p : Text × Text} (hc : isNumeric c = true)
    (h : TakesNumeric s p) : TakesNumeric (c :: s) (c :: p.1, p.2) :=
  ⟨by rw [h.1]; rfl, List.forall_mem_cons.2 ⟨hc, h.2⟩⟩

theorem TakesNumeric.append {s : Text} {p q : Text × Text} (h : TakesNumeric s p)
    (h' : TakesNumeric p.2 q) : TakesNumeric s (p.1 ++ q.1, q.2) :=
  ⟨by rw [h.1, h'.1, List.append_assoc], List.forall_mem_append.2 ⟨h.2, h'.2⟩⟩

theorem takesNumeric_nil (s : Text) : TakesNumeric s ([], s) :=
  ⟨rfl, fun _ h => nomatch h⟩

theorem isNumeric_of_isDigit {c : Char} (h : isDigit c = true) : isNumeric c = true := by
  simp [isNumeric, h]

theorem digits?_takes {s : Text} {p : Text × Text} (h : digits? s = some p) :
    TakesNumeric s p := by
  unfold digits? at h
  split at h
  · cases h
  · cases h
    exact ⟨List.takeWhile_append_dropWhile.symm, fun c hc =>
      isNumeric_of_isDigit (List.all_eq_true.1 List.all_takeWhile c hc)⟩

theorem whole?_takes {s : Text} {p : Text × Text} (h : whole? s = some p) :
    TakesNumeric s p := by
  unfold whole? at h
  split at h
  · split at h
    · cases h
    · cases h
      exact (takesNumeric_nil _).cons (by decide)
  · exact digits?_takes h

theorem fraction?_takes {s : Text} {p : Text × Text} (h : fraction? s = some p) :
    TakesNumeric s p := by
  unfold fraction? at h
  split at h
  · obtain ⟨q, hq, rfl⟩ := Option.map_eq_some_iff.1 h
    exact (digits?_takes hq).cons (by decide)
  · cases h
    exact takesNumeric_nil s

theorem power?_takes {s : Text} {p : Text × Text} (h : power? s = some p) :
    TakesNumeric s p := by
  unfold power? at h
  split at h
  · cases h
    exact takesNumeric_nil []
  · next e r =>
    split at h
    · next he =>
      have he : isNumeric e = true := by rcases he with rfl | rfl <;> decide
      split at h
      · obtain ⟨q, hq, rfl⟩ := Option.map_eq_some_iff.1 h
        exact ((digits?_takes hq).cons (by decide)).cons he
      · obtain ⟨q, hq, rfl⟩ := Option.map_eq_some_iff.1 h
        exact ((digits?_takes hq).cons (by decide)).cons he
      · obtain ⟨q, hq, rfl⟩ := Option.map_eq_some_iff.1 h
        exact (digits?_takes hq).cons he
    · cases h
      exact takesNumeric_nil _

theorem number?_takes {s : Text} {p : Text × Text} (h : number? s = some p) :
    TakesNumeric s p := by
  unfold number? at h
  split at h
  next sign rest hsign =>
    have hs : TakesNumeric s (sign, rest) := by
      split at hsign
      · cases hsign
        exact (takesNumeric_nil _).cons (by decide)
      · cases hsign
        exact takesNumeric_nil _
    obtain ⟨⟨whole, s₁⟩, hwhole, h⟩ := Option.bind_eq_some_iff.1 h
    obtain ⟨⟨fraction, s₂⟩, hfraction, h⟩ := Option.bind_eq_some_iff.1 h
    obtain ⟨⟨power, s₃⟩, hpower, h⟩ := Option.bind_eq_some_iff.1 h
    cases h
    exact ((hs.append (whole?_takes hwhole)).append (fraction?_takes hfraction)).append
      (power?_takes hpower)

end LayeredConfig.JsonValue
