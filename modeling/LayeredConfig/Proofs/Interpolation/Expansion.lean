import LayeredConfig.Interpolation.Resolver
import LayeredConfig.Proofs.Interpolation.Stack
import LayeredConfig.Proofs.Outcome

/-!
# Expansion

The pieces of a text, put together as they are written, are the text, so that every expression is
shorter than the text it stands in. The value of a text is made of the values of its expressions,
and what an expression refers to is looked up while the targets of a chain are being resolved. A
text that has a value while some targets are in progress has the same value while fewer are, or
none.
-/
namespace LayeredConfig.Interpolation

open Outcome

/-- The text that is one body. -/
def reference (e : Text) : Text := opening ++ e ++ ['\x7d']

def Piece.source : Piece → Text
  | .text s => s
  | .escape => '\\' :: opening
  | .body e => reference e

/-- What has been read of a piece. -/
def Mode.source : Mode → Text
  | .text s => s
  | .body _ s => opening ++ s

theorem flatMap_literal (s : Text) : (literal s).flatMap Piece.source = s := by
  cases s <;> simp [literal, Piece.source]

theorem source_piecesFrom {m : Mode} {s : Text} {ps : List Piece} (h : piecesFrom m s = some ps) :
    ps.flatMap Piece.source = m.source ++ s := by
  fun_induction piecesFrom m s generalizing ps with
  | case1 s =>
    cases h
    rw [flatMap_literal, Mode.source, List.append_nil]
  | case2 s r ih =>
    obtain ⟨qs, hqs, rfl⟩ := Option.map_eq_some_iff.1 h
    rw [List.flatMap_append, flatMap_literal, List.flatMap_cons, ih hqs]
    simp [Mode.source, Piece.source, opening]
  | case3 s r ih =>
    obtain ⟨qs, hqs, rfl⟩ := Option.map_eq_some_iff.1 h
    rw [List.flatMap_append, flatMap_literal, ih hqs]
    simp [Mode.source, opening]
  | case4 s c r _ _ ih =>
    rw [ih h]
    simp [Mode.source]
  | case5 => cases h
  | case6 d s r ih =>
    rw [ih h]
    simp [Mode.source, opening]
  | case7 s r ih =>
    obtain ⟨qs, hqs, rfl⟩ := Option.map_eq_some_iff.1 h
    rw [List.flatMap_cons, ih hqs]
    simp [Mode.source, Piece.source, reference]
  | case8 d s r ih =>
    rw [ih h]
    simp [Mode.source]
  | case9 d s c r _ _ _ ih =>
    rw [ih h]
    simp [Mode.source]

theorem source_pieces? {s : Text} {ps : List Piece} (h : pieces? s = some ps) :
    ps.flatMap Piece.source = s := source_piecesFrom h

/-- A body is shorter than the text that it stands in. -/
theorem length_body_lt {s e : Text} {ps : List Piece} (h : pieces? s = some ps)
    (he : .body e ∈ ps) :
    e.length < s.length := by
  obtain ⟨front, back, rfl⟩ := List.append_of_mem he
  have hsource := congrArg List.length (source_pieces? h)
  simp only [List.flatMap_append, List.flatMap_cons, Piece.source, reference, opening,
    List.length_append, List.length_cons, List.length_nil] at hsource
  omega

/-- The text of a piece whose expression has the value that `eval` gives. -/
def Piece.value (eval : Text → Except Reason Value) : Piece → Except Reason Text
  | .text s => .ok s
  | .escape => .ok opening
  | .body e => do scalarText (← eval e)

/-- The value of a text whose expressions have the values that `eval` gives. -/
def ofPieces (eval : Text → Except Reason Value) (s : Text) : Except Reason Value :=
  match pieces? s with
  | none => .error (.unterminated s)
  | some [.body e] => eval e
  | some ps => do .ok (.string (← concatPieces eval ps))

/-- An expression with the expressions inside it expanded by `inner`. -/
def expanded (inner : Text → Except Reason Value) (e : Text) : Except Reason Text :=
  if hasOpening e then do scalarText (← inner e) else .ok e

/-- The value of an expression. -/
def evaluate (refer inner : Text → Except Reason Value) (e : Text) : Except Reason Value :=
  expanded inner e >>= fun e => refer (Text.trim e)

/-- The value of an expression that holds no other, while the targets in `chain` are being
resolved. -/
def refer (ctx : Context) (room : Nat) (chain here : List Text) (e : Text) : Except Reason Value :=
  match call? e with
  | some (name, args) => evalCall ctx name args
  | none => do
    let path ← target e here
    let (key, node) ← enter ctx chain path
    resolveAll (resolveText ctx room (key :: chain)) path node

theorem expanded_of_no_opening {inner : Text → Except Reason Value} {e : Text}
    (h : hasOpening e = false) : expanded inner e = .ok e := by
  rw [expanded, h, if_neg Bool.false_ne_true]

theorem concatPieces_cons (eval : Text → Except Reason Value) (p : Piece) (ps : List Piece) :
    concatPieces eval (p :: ps) =
      p.value eval >>= fun s => concatPieces eval ps >>= fun rest => .ok (s ++ rest) := by
  cases p with
  | text s => rfl
  | escape => rfl
  | body e =>
    rw [Piece.value, concatPieces]
    cases eval e <;> rfl

theorem expand_succ (refer : Text → Except Reason Value) (fuel : Nat) (s : Text) :
    expand refer (fuel + 1) s = ofPieces (evaluate refer (expand refer fuel)) s := by
  have heval : evaluate refer (expand refer fuel) = (fun e => do
      let e ← if hasOpening e then do scalarText (← expand refer fuel e) else .ok e
      refer (Text.trim e)) := by
    funext e
    unfold evaluate expanded
    split
    · exact bind_assoc _ _ _
    · rfl
  rw [heval]
  rfl

theorem resolveText_succ (ctx : Context) (room : Nat) (chain here : List Text) (s : Text) :
    resolveText ctx (room + 1) chain here s =
      expand (refer ctx room chain here) (s.length + 1) s := rfl

/-- Where there is no room, no expression has a value. -/
theorem resolveText_zero (ctx : Context) (chain here : List Text) (s : Text) :
    resolveText ctx 0 chain here s = ofPieces (fun _ => .error .tooDeep) s := by
  exact (Shared.concatPieces_tooDeep s).symm

/-- Where `f` has a value, `g` has the same. -/
def Extends {α β : Type} (f g : α → Except Reason β) : Prop := ∀ a b, f a = .ok b → g a = .ok b

section
variable {f g : Text → Except Reason Value}

theorem concatPieces_extends (h : Extends f g) : Extends (concatPieces f) (concatPieces g) := by
  intro ps
  induction ps with
  | nil => exact fun _ hs => hs
  | cons p ps ih =>
    intro s hs
    rw [concatPieces_cons] at hs ⊢
    obtain ⟨a, ha, hs⟩ := bind_eq_ok.1 hs
    obtain ⟨rest, hrest, hs⟩ := bind_eq_ok.1 hs
    refine bind_eq_ok.2 ⟨a, ?_, bind_eq_ok.2 ⟨rest, ih rest hrest, hs⟩⟩
    cases p with
    | text t => exact ha
    | escape => exact ha
    | body e =>
      obtain ⟨v, hv, ha⟩ := bind_eq_ok.1 ha
      exact bind_eq_ok.2 ⟨v, h e v hv, ha⟩

theorem ofPieces_extends (h : Extends f g) : Extends (ofPieces f) (ofPieces g) := by
  intro s v hv
  rw [ofPieces] at hv ⊢
  split at hv
  · cases hv
  · exact h _ v hv
  · obtain ⟨t, ht, hv⟩ := bind_eq_ok.1 hv
    exact bind_eq_ok.2 ⟨t, concatPieces_extends h _ t ht, hv⟩

theorem expanded_extends (h : Extends f g) : Extends (expanded f) (expanded g) := by
  intro e e' he
  unfold expanded at he ⊢
  split
  · next hopen =>
    rw [if_pos hopen] at he
    obtain ⟨v, hv, he⟩ := bind_eq_ok.1 he
    exact bind_eq_ok.2 ⟨v, h e v hv, he⟩
  · next hopen =>
    rw [if_neg hopen] at he
    exact he

theorem evaluate_extends {inner inner' : Text → Except Reason Value} (h : Extends f g)
    (hinner : Extends inner inner') : Extends (evaluate f inner) (evaluate g inner') := by
  intro e v hv
  obtain ⟨e', he', hv⟩ := bind_eq_ok.1 hv
  exact bind_eq_ok.2 ⟨e', expanded_extends hinner e e' he', h _ v hv⟩

theorem expand_extends (h : Extends f g) (fuel : Nat) :
    Extends (expand f fuel) (expand g fuel) := by
  induction fuel with
  | zero =>
    intro s v hv
    cases hv
  | succ fuel ih =>
    intro s v hv
    rw [expand_succ] at hv ⊢
    exact ofPieces_extends (evaluate_extends h ih) s v hv
end

section
variable {f g : List Text → Text → Except Reason Value}

mutual
theorem resolveAll_extends (h : ∀ here, Extends (f here) (g here)) (here : List Text) :
    ∀ v w, resolveAll f here v = .ok w → resolveAll g here v = .ok w
  | .string s, w, hw => by
    unfold resolveAll at hw ⊢
    split
    · next hs =>
      rw [if_pos hs] at hw
      exact h here s w hw
    · next hs =>
      rw [if_neg hs] at hw
      exact hw
  | .mapping es, w, hw => by
    unfold resolveAll at hw ⊢
    obtain ⟨fs, hfs, hw⟩ := bind_eq_ok.1 hw
    exact bind_eq_ok.2 ⟨fs, resolveEntries_extends h here es fs hfs, hw⟩
  | .sequence items, w, hw => by
    unfold resolveAll at hw ⊢
    obtain ⟨ws, hws, hw⟩ := bind_eq_ok.1 hw
    exact bind_eq_ok.2 ⟨ws, resolveItems_extends h here 0 items ws hws, hw⟩
  | .null, w, hw | .bool _, w, hw | .number _, w, hw | .tagged _ _, w, hw => by
    unfold resolveAll at hw ⊢
    exact hw

theorem resolveEntries_extends (h : ∀ here, Extends (f here) (g here)) (here : List Text) :
    ∀ es fs, resolveEntries f here es = .ok fs → resolveEntries g here es = .ok fs
  | [], fs, hfs => by
    unfold resolveEntries at hfs ⊢
    exact hfs
  | (k, v) :: rest, fs, hfs => by
    unfold resolveEntries at hfs ⊢
    obtain ⟨w, hw, hfs⟩ := bind_eq_ok.1 hfs
    obtain ⟨ws, hws, hfs⟩ := bind_eq_ok.1 hfs
    exact bind_eq_ok.2 ⟨w, resolveAll_extends h _ v w hw,
      bind_eq_ok.2 ⟨ws, resolveEntries_extends h here rest ws hws, hfs⟩⟩

theorem resolveItems_extends (h : ∀ here, Extends (f here) (g here)) (here : List Text) :
    ∀ i items ws, resolveItems f here i items = .ok ws → resolveItems g here i items = .ok ws
  | _, [], ws, hws => by
    unfold resolveItems at hws ⊢
    exact hws
  | i, v :: rest, ws, hws => by
    unfold resolveItems at hws ⊢
    obtain ⟨w, hw, hws⟩ := bind_eq_ok.1 hws
    obtain ⟨us, hus, hws⟩ := bind_eq_ok.1 hws
    exact bind_eq_ok.2 ⟨w, resolveAll_extends h _ v w hw,
      bind_eq_ok.2 ⟨us, resolveItems_extends h here (i + 1) rest us hus, hws⟩⟩
end
end

section
variable {f g : Text → Except Reason Value}

theorem concatPieces_congr {ps : List Piece} (h : ∀ e, .body e ∈ ps → f e = g e) :
    concatPieces f ps = concatPieces g ps := by
  induction ps with
  | nil => rfl
  | cons p ps ih =>
    have hp : p.value f = p.value g := by
      cases p with
      | body e => rw [Piece.value, Piece.value, h e List.mem_cons_self]
      | _ => rfl
    rw [concatPieces_cons, concatPieces_cons, hp, ih fun e he => h e (List.mem_cons_of_mem _ he)]

theorem ofPieces_congr {s : Text} (h : ∀ ps e, pieces? s = some ps → .body e ∈ ps → f e = g e) :
    ofPieces f s = ofPieces g s := by
  unfold ofPieces
  split
  · rfl
  · next e hps => exact h _ e hps List.mem_cons_self
  · next ps _ hps => rw [concatPieces_congr fun e => h ps e hps]

/-- Enough fuel is enough. -/
theorem expand_fuel {fuel fuel' : Nat} {s : Text} (h : s.length < fuel) (h' : s.length < fuel') :
    expand f fuel s = expand f fuel' s := by
  induction fuel generalizing fuel' s with
  | zero => omega
  | succ fuel ih =>
    obtain ⟨fuel', rfl⟩ : ∃ n, fuel' = n + 1 := ⟨fuel' - 1, by omega⟩
    rw [expand_succ, expand_succ]
    refine ofPieces_congr fun ps e hps he => ?_
    have hlt := length_body_lt hps he
    have hsame : expand f fuel e = expand f fuel' e := ih (by omega) (by omega)
    rw [evaluate, evaluate, expanded, expanded, hsame]

theorem scalarText_error {v : Value} {r : Reason} (h : scalarText v = .error r) :
    r = .notScalar := by
  rw [scalarText] at h
  split at h <;> cases h
  rfl

theorem concatPieces_error {ps : List Piece} {r : Reason} (h : concatPieces f ps = .error r) :
    r = .notScalar ∨ ∃ e, .body e ∈ ps ∧ f e = .error r := by
  induction ps with
  | nil => cases h
  | cons p ps ih =>
    rw [concatPieces_cons] at h
    rcases bind_eq_error.1 h with h | ⟨s, -, h⟩
    · cases p with
      | body e =>
        rcases bind_eq_error.1 h with h | ⟨v, -, h⟩
        · exact Or.inr ⟨e, List.mem_cons_self, h⟩
        · exact Or.inl (scalarText_error h)
      | _ => cases h
    · rcases bind_eq_error.1 h with h | ⟨rest, -, h⟩
      · refine (ih h).imp_right ?_
        rintro ⟨e, he, h⟩
        exact ⟨e, List.mem_cons_of_mem _ he, h⟩
      · cases h

theorem ofPieces_error {s : Text} {r : Reason} (h : ofPieces f s = .error r) :
    r = .unterminated s ∨ r = .notScalar ∨
      ∃ ps e, pieces? s = some ps ∧ .body e ∈ ps ∧ f e = .error r := by
  unfold ofPieces at h
  split at h
  · cases h
    exact Or.inl rfl
  · next e hps => exact Or.inr (Or.inr ⟨_, e, hps, List.mem_cons_self, h⟩)
  · next ps _ hps =>
    rcases bind_eq_error.1 h with h | ⟨t, -, h⟩
    · refine Or.inr ((concatPieces_error h).imp_right ?_)
      rintro ⟨e, he, h⟩
      exact ⟨ps, e, hps, he, h⟩
    · cases h
end

variable {ctx : Context}

theorem enter_eq_ok {chain path : List Text} {entered : Text × Value} :
    enter ctx chain path = .ok entered ↔ entered.1 = Text.joinWith "." path ∧
      entered.1 ∉ chain ∧ ctx.document.get? path = some entered.2 := by
  obtain ⟨key, node⟩ := entered
  unfold enter
  dsimp only
  by_cases hmem : Text.joinWith "." path ∈ chain
  · rw [if_pos (List.contains_iff_mem.2 hmem)]
    refine iff_of_false (by simp) ?_
    rintro ⟨rfl, hnot, -⟩
    exact hnot hmem
  · rw [if_neg (mt List.contains_iff_mem.1 hmem)]
    cases ctx.document.get? path with
    | none => simp
    | some n =>
      simp only [Except.ok.injEq, Prod.mk.injEq, Option.some.injEq]
      constructor
      · rintro ⟨rfl, rfl⟩
        exact ⟨rfl, hmem, rfl⟩
      · rintro ⟨rfl, -, rfl⟩
        exact ⟨rfl, rfl⟩

theorem enter_eq_cycle {chain path : List Text} {key : Text} :
    enter ctx chain path = .error (.cycle key) ↔ key = Text.joinWith "." path ∧ key ∈ chain := by
  unfold enter
  dsimp only
  by_cases hmem : Text.joinWith "." path ∈ chain
  · rw [if_pos (List.contains_iff_mem.2 hmem), Except.error.injEq, Reason.cycle.injEq]
    constructor
    · rintro rfl
      exact ⟨rfl, hmem⟩
    · rintro ⟨rfl, -⟩
      rfl
  · rw [if_neg (mt List.contains_iff_mem.1 hmem)]
    refine iff_of_false ?_ ?_
    · cases ctx.document.get? path <;> simp
    · rintro ⟨rfl, hkey⟩
      exact hmem hkey

/-- **Fewer targets in progress take no value away.** -/
theorem resolveText_extends {chain chain' : List Text} (hchain : chain ⊆ chain') {room room' : Nat}
    (hroom : room' ≤ room) (here : List Text) :
    Extends (resolveText ctx room' chain' here) (resolveText ctx room chain here) := by
  induction room' generalizing room chain chain' here with
  | zero =>
    have herror : ∀ f : Text → Except Reason Value, Extends (fun _ => .error .tooDeep) f := by
      intro f e v hv
      cases hv
    intro s v hv
    rw [resolveText_zero] at hv
    cases room with
    | zero =>
      rw [resolveText_zero]
      exact hv
    | succ room => exact ofPieces_extends (herror _) s v hv
  | succ room' ih =>
    obtain ⟨room, rfl⟩ : ∃ r, room = r + 1 := ⟨room - 1, by omega⟩
    intro s v hv
    rw [resolveText_succ] at hv ⊢
    refine expand_extends (fun e w hw => ?_) _ s v hv
    unfold refer at hw ⊢
    split
    · next hcall =>
      rw [hcall] at hw
      exact hw
    · next hcall =>
      rw [hcall] at hw
      obtain ⟨path, hpath, hw⟩ := bind_eq_ok.1 hw
      obtain ⟨entered, hentered, hw⟩ := bind_eq_ok.1 hw
      obtain ⟨hkey, hnot, hnode⟩ := enter_eq_ok.1 hentered
      refine bind_eq_ok.2 ⟨path, hpath, bind_eq_ok.2 ⟨entered, ?_, ?_⟩⟩
      · exact enter_eq_ok.2 ⟨hkey, fun hmem => hnot (hchain hmem), hnode⟩
      · refine resolveAll_extends (fun here => ih ?_ ?_ here) path entered.2 w hw
        · exact List.cons_subset_cons _ hchain
        · omega

end LayeredConfig.Interpolation
