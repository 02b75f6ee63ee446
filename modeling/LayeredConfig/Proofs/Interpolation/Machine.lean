import LayeredConfig.Proofs.Interpolation.Expansion
import Mathlib.Data.List.Nodup
import Mathlib.Logic.Relation

/-!
# Resolving step by step

The resolver as a machine that has no bound on its steps. It keeps the calls that wait for a value
and one stack of the targets in progress, to which a reference adds its target and from which it
takes it off again. No target is on the stack twice and there are never more than `depthLimit`, and
if the machine stops, every call has returned with the stack that it found.
-/
namespace LayeredConfig.Interpolation.Machine

/-- What the machine does next. A node is resolved as a whole, or `walking`, where each text that
fails is left as it is and reported. -/
inductive Control where
  | text (here : List Text) (s : Text)
  /-- The text read so far is `out`. -/
  | pieces (here : List Text) (out : Text) (ps : List Piece)
  | expression (here : List Text) (e : Text)
  /-- An expression in which no other is left. -/
  | reference (here : List Text) (e : Text)
  | node (walking : Bool) (here : List Text) (v : Value)
  | entries (walking : Bool) (here : List Text) (done : Entries) (rest : Entries)
  | items (walking : Bool) (here : List Text) (done : List Value) (index : Nat) (rest : List Value)
  | returned (r : Except Reason Value)

/-- A call that waits for a value. -/
inductive Frame where
  /-- The value is written into a text. -/
  | embed (here : List Text) (out : Text) (ps : List Piece)
  /-- The value is an expression. -/
  | expand (here : List Text)
  /-- The value is that of a target. -/
  | leave (key : Text)
  | entry (walking : Bool) (here : List Text) (done : Entries) (key : Value) (rest : Entries)
  | item (walking : Bool) (here : List Text) (done : List Value) (index : Nat) (rest : List Value)
  /-- The value is that of a text which is reported if it has none. -/
  | report (here : List Text) (s : Text)

structure State where
  control : Control
  /-- The innermost call stands first. -/
  frames : List Frame
  /-- The targets in progress, the newest first. -/
  stack : List Text
  failures : List Failure

/-- How a call goes on with what is returned to it. -/
def Frame.answer : Frame → Except Reason Value → Control
  | .report _ s, .error _ => .returned (.ok (.string s))
  | _, .error reason => .returned (.error reason)
  | .embed here out ps, .ok v =>
    match scalarText v with
    | .ok s => .pieces here (out ++ s) ps
    | .error reason => .returned (.error reason)
  | .expand here, .ok v =>
    match scalarText v with
    | .ok e => .reference here (Text.trim e)
    | .error reason => .returned (.error reason)
  | .entry walking here done k rest, .ok v => .entries walking here (done ++ [(k, v)]) rest
  | .item walking here done index rest, .ok v => .items walking here (done ++ [v]) (index + 1) rest
  | .leave _, .ok v | .report _ _, .ok v => .returned (.ok v)

/-- What a call reports of what is returned to it. -/
def Frame.reported : Frame → Except Reason Value → List Failure
  | .report here s, .error reason => [⟨here, s, reason⟩]
  | _, _ => []

/-- The target that a call takes off the stack. -/
def Frame.key? : Frame → Option Text
  | .leave key => some key
  | _ => none

namespace State

/-- Goes on with something else in the same call. -/
def goOn (σ : State) (c : Control) : State := { σ with control := c }

/-- Begins a call. -/
def call (σ : State) (f : Frame) (c : Control) : State :=
  { σ with control := c, frames := f :: σ.frames }

/-- Puts a target on the stack and resolves its node. -/
def enter (σ : State) (key : Text) (c : Control) : State :=
  { σ with control := c, frames := .leave key :: σ.frames, stack := key :: σ.stack }

/-- Ends the innermost call. -/
def back (σ : State) (f : Frame) (frames : List Frame) (r : Except Reason Value) : State where
  control := f.answer r
  frames := frames
  stack := if f.key?.isSome then σ.stack.tail else σ.stack
  failures := σ.failures ++ f.reported r

/-- Resolves a text: its only expression, or its pieces one after the other. -/
def text (σ : State) (here : List Text) (s : Text) : State :=
  match pieces? s with
  | none => σ.goOn (.returned (.error (.unterminated s)))
  | some [.body e] => σ.goOn (.expression here e)
  | some ps => σ.goOn (.pieces here [] ps)

def pieces (σ : State) (here : List Text) (out : Text) : List Piece → State
  | [] => σ.goOn (.returned (.ok (.string out)))
  | .text s :: ps => σ.goOn (.pieces here (out ++ s) ps)
  | .escape :: ps => σ.goOn (.pieces here (out ++ opening) ps)
  | .body e :: ps => σ.call (.embed here out ps) (.expression here e)

/-- Begins with an expression, unless the stack is full. The expressions inside it are expanded
first. -/
def expression (σ : State) (here : List Text) (e : Text) : State :=
  if depthLimit ≤ σ.stack.length then σ.goOn (.returned (.error .tooDeep))
  else if hasOpening e then σ.call (.expand here) (.text here e)
  else σ.goOn (.reference here (Text.trim e))

/-- Looks up an expression: the value of a call, or the node that it refers to. -/
def reference (ctx : Context) (σ : State) (here : List Text) (e : Text) : State :=
  match call? e with
  | some (name, args) => σ.goOn (.returned (evalCall ctx name args))
  | none =>
    match target e here with
    | .error reason => σ.goOn (.returned (.error reason))
    | .ok path =>
      match Interpolation.enter ctx σ.stack path with
      | .error reason => σ.goOn (.returned (.error reason))
      | .ok (key, v) => σ.enter key (.node false path v)

def node (σ : State) (walking : Bool) (here : List Text) : Value → State
  | .string s =>
    if hasOpening s then
      if walking then σ.call (.report here s) (.text here s) else σ.goOn (.text here s)
    else σ.goOn (.returned (.ok (.string s)))
  | .mapping es => σ.goOn (.entries walking here [] es)
  | .sequence vs => σ.goOn (.items walking here [] 0 vs)
  | v => σ.goOn (.returned (.ok v))

def entries (σ : State) (walking : Bool) (here : List Text) (done : Entries) : Entries → State
  | [] => σ.goOn (.returned (.ok (.mapping done)))
  | (k, v) :: rest =>
    σ.call (.entry walking here done k rest) (.node walking (here ++ [k.keyText]) v)

def items (σ : State) (walking : Bool) (here : List Text) (done : List Value) (index : Nat) :
    List Value → State
  | [] => σ.goOn (.returned (.ok (.sequence done)))
  | v :: rest =>
    σ.call (.item walking here done index rest) (.node walking (here ++ [Text.ofNat index]) v)

end State

/-- One step. There is none where a value is returned that no call waits for. -/
def step (ctx : Context) (σ : State) : Option State :=
  match σ.control with
  | .text here s => some (σ.text here s)
  | .pieces here out ps => some (σ.pieces here out ps)
  | .expression here e => some (σ.expression here e)
  | .reference here e => some (σ.reference ctx here e)
  | .node walking here v => some (σ.node walking here v)
  | .entries walking here done rest => some (σ.entries walking here done rest)
  | .items walking here done index rest => some (σ.items walking here done index rest)
  | .returned r =>
    match σ.frames with
    | [] => none
    | f :: frames => some (σ.back f frames r)

/-- Where the machine begins on a document. -/
def State.initial (document : Value) : State := ⟨.node true [] document, [], [], []⟩

/-- Where the machine ends with what a document is resolved to. -/
def State.ended (r : Resolution) : State := ⟨.returned (.ok r.value), [], [], r.failures⟩

variable {ctx : Context} {σ τ υ : State}

/-- Steps one after the other. -/
abbrev Steps (ctx : Context) : State → State → Prop :=
  Relation.ReflTransGen fun σ τ => step ctx σ = some τ

/-- Steps during all of which the calls in `frames` wait. -/
def Within (ctx : Context) (frames : List Frame) : State → State → Prop :=
  Relation.ReflTransGen fun σ τ => step ctx σ = some τ ∧ frames <:+ τ.frames

/-- All that one step can do. An expression is looked up only where there is room on the stack. -/
inductive Move (σ : State) : State → Prop
  | goOn (c : Control) : (∀ here e, c = .reference here e → σ.stack.length < depthLimit) →
    Move σ (σ.goOn c)
  | call (f : Frame) (c : Control) :
    f.key? = none → (∀ here, f = .expand here → σ.stack.length < depthLimit) →
      (∀ here e, c ≠ .reference here e) → Move σ (σ.call f c)
  | enter (here : List Text) (e key : Text) (c : Control) :
    σ.control = .reference here e → key ∉ σ.stack →
      (∀ here e, c ≠ .reference here e) → Move σ (σ.enter key c)
  | back (r : Except Reason Value) (f : Frame) (frames : List Frame) : σ.control = .returned r →
      σ.frames = f :: frames → Move σ (σ.back f frames r)

section
variable (σ : State) (walking : Bool) (here : List Text)

theorem text_move (s : Text) : Move σ (σ.text here s) := by
  rw [State.text]
  split <;> exact .goOn _ (by simp)

theorem pieces_move (out : Text) (ps : List Piece) : Move σ (σ.pieces here out ps) := by
  rcases ps with _ | ⟨_ | _ | e, ps⟩
  · exact .goOn _ (by simp)
  · exact .goOn _ (by simp)
  · exact .goOn _ (by simp)
  · exact .call _ _ rfl (by simp) (by simp)

theorem expression_move (e : Text) : Move σ (σ.expression here e) := by
  rw [State.expression]
  split
  · exact .goOn _ (by simp)
  · next hroom =>
    split
    · exact .call _ _ rfl (fun _ _ => Nat.not_le.1 hroom) (by simp)
    · exact .goOn _ fun _ _ _ => Nat.not_le.1 hroom

theorem reference_move {e : Text} (h : σ.control = .reference here e) :
    Move σ (σ.reference ctx here e) := by
  rw [State.reference]
  split
  · exact .goOn _ (by simp)
  · split
    · exact .goOn _ (by simp)
    · split
      · exact .goOn _ (by simp)
      · next key v hentered => exact .enter here e key _ h (enter_eq_ok.1 hentered).2.1 (by simp)

theorem node_move (v : Value) : Move σ (σ.node walking here v) := by
  cases v with
  | string s =>
    rw [State.node]
    split
    · split
      · exact .call _ _ rfl (by simp) (by simp)
      · exact .goOn _ (by simp)
    · exact .goOn _ (by simp)
  | _ => exact .goOn _ (by simp)

theorem entries_move (done rest : Entries) : Move σ (σ.entries walking here done rest) := by
  cases rest with
  | nil => exact .goOn _ (by simp)
  | cons => exact .call _ _ rfl (by simp) (by simp)

theorem items_move (done : List Value) (index : Nat) (rest : List Value) :
    Move σ (σ.items walking here done index rest) := by
  cases rest with
  | nil => exact .goOn _ (by simp)
  | cons => exact .call _ _ rfl (by simp) (by simp)
end

/-- The machine makes one of these moves, unless a value is returned that no call waits for. -/
theorem step_cases (ctx : Context) (σ : State) : (∃ τ, step ctx σ = some τ ∧ Move σ τ) ∨
    step ctx σ = none ∧ ∃ r, σ.control = .returned r ∧ σ.frames = [] := by
  rw [step]
  split
  · exact Or.inl ⟨_, rfl, text_move σ _ _⟩
  · exact Or.inl ⟨_, rfl, pieces_move σ _ _ _⟩
  · exact Or.inl ⟨_, rfl, expression_move σ _ _⟩
  · next hcontrol => exact Or.inl ⟨_, rfl, reference_move σ _ hcontrol⟩
  · exact Or.inl ⟨_, rfl, node_move σ _ _ _⟩
  · exact Or.inl ⟨_, rfl, entries_move σ _ _ _ _⟩
  · exact Or.inl ⟨_, rfl, items_move σ _ _ _ _ _⟩
  · next r hcontrol =>
    cases hframes : σ.frames with
    | nil => exact Or.inr ⟨rfl, r, hcontrol, rfl⟩
    | cons f frames => exact Or.inl ⟨_, rfl, .back r f frames hcontrol hframes⟩

theorem step_move (h : step ctx σ = some τ) : Move σ τ := by
  rcases step_cases ctx σ with ⟨υ, hυ, hmove⟩ | ⟨hnone, -⟩
  · rw [h] at hυ
    cases hυ
    exact hmove
  · rw [h] at hnone
    cases hnone

/-- The machine stops only where a value is returned that no call waits for. -/
theorem returned_of_step_eq_none (h : step ctx σ = none) :
    ∃ r, σ.control = .returned r ∧ σ.frames = [] := by
  rcases step_cases ctx σ with ⟨υ, hυ, -⟩ | ⟨-, hreturned⟩
  · rw [h] at hυ
    cases hυ
  · exact hreturned

/-- The targets that calls take off the stack. -/
def keys (frames : List Frame) : List Text := frames.filterMap Frame.key?

theorem keys_cons (f : Frame) (frames : List Frame) :
    keys (f :: frames) = f.key?.toList ++ keys frames := by
  rw [keys, List.filterMap_cons]
  cases f.key? <;> rfl

/-- A state whose stack holds what the waiting calls will take off, each target once and no more
than there may be. Wherever an expression is looked up next, there is room for its target. -/
structure Coherent (σ : State) : Prop where
  keys_eq : σ.stack = keys σ.frames
  distinct : σ.stack.Nodup
  bounded : σ.stack.length ≤ depthLimit
  room : ∀ here e, σ.control = .reference here e → σ.stack.length < depthLimit
  later : ∀ here frames, .expand here :: frames <:+ σ.frames → (keys frames).length < depthLimit

theorem coherent_initial (document : Value) : Coherent (.initial document) where
  keys_eq := rfl
  distinct := List.nodup_nil
  bounded := Nat.zero_le _
  room _ _ h := by cases h
  later _ _ h := by cases List.suffix_nil.1 h

theorem suffix_cons_cases {f g : Frame} {frames K : List Frame} (h : f :: K <:+ g :: frames) :
    (f = g ∧ K = frames) ∨ f :: K <:+ frames := by
  rcases List.suffix_cons_iff.1 h with h | h
  · cases h
    exact Or.inl ⟨rfl, rfl⟩
  · exact Or.inr h

/-- An expression is looked up only by the call that expanded it. -/
theorem eq_expand_of_answer {f : Frame} {r : Except Reason Value} {here : List Text} {e : Text}
    (h : f.answer r = .reference here e) : f = .expand here := by
  cases r with
  | error reason => cases f <;> cases h
  | ok v =>
    cases f with
    | embed here out ps =>
      simp only [Frame.answer] at h
      split at h <;> cases h
    | expand here' =>
      simp only [Frame.answer] at h
      split at h <;> cases h
      rfl
    | leave | entry | item | report => cases h

/-- **A step keeps the stack coherent.** -/
theorem Coherent.move (h : Coherent σ) (hmove : Move σ τ) : Coherent τ := by
  cases hmove with
  | goOn c hroom => exact ⟨h.keys_eq, h.distinct, h.bounded, hroom, h.later⟩
  | call f c hkey hexpand hreference =>
    refine ⟨?_, h.distinct, h.bounded, fun here e he => absurd he (hreference here e),
      fun here K hK => ?_⟩
    · rw [State.call, keys_cons, hkey]
      exact h.keys_eq
    · rcases suffix_cons_cases hK with ⟨rfl, rfl⟩ | hK
      · rw [← h.keys_eq]
        exact hexpand here rfl
      · exact h.later here K hK
  | enter here e key c hcontrol hnew hreference =>
    refine ⟨?_, List.nodup_cons.2 ⟨hnew, h.distinct⟩, h.room here e hcontrol,
      fun here e he => absurd he (hreference here e), fun here K hK => ?_⟩
    · rw [State.enter, keys_cons, ← h.keys_eq]
      rfl
    · rcases suffix_cons_cases hK with ⟨hf, -⟩ | hK
      · cases hf
      · exact h.later here K hK
  | back r f frames hcontrol hframes =>
    have hkeys : σ.stack = f.key?.toList ++ keys frames := by rw [h.keys_eq, hframes, keys_cons]
    have hstack : (σ.back f frames r).stack = keys frames := by
      rw [State.back, hkeys]
      cases f.key? <;> rfl
    have hsuffix : keys frames <:+ σ.stack := ⟨_, hkeys.symm⟩
    refine ⟨?_, ?_, ?_, fun here e he => ?_, fun here K hK => ?_⟩
    · exact hstack
    · rw [hstack]
      exact h.distinct.sublist hsuffix.sublist
    · rw [hstack]
      exact Nat.le_trans hsuffix.length_le h.bounded
    · obtain rfl := eq_expand_of_answer he
      rw [hstack]
      exact h.later here frames (hframes ▸ List.suffix_rfl)
    · exact h.later here K (hframes ▸ hK.trans (List.suffix_cons f frames))

/-- **However many steps are taken, the stack stays coherent.** -/
theorem Coherent.steps (h : Coherent σ) (hsteps : Steps ctx σ τ) : Coherent τ := by
  induction hsteps with
  | refl => exact h
  | tail _ hstep ih => exact ih.move (step_move hstep)

/-- A call stays unless its own value is returned. -/
theorem Move.suffix {frames : List Frame} (h : Move σ τ) (hframes : frames <:+ σ.frames) :
    frames <:+ τ.frames ∨ ∃ r, σ.control = .returned r ∧ frames = σ.frames := by
  cases h with
  | goOn => exact Or.inl hframes
  | call f => exact Or.inl (hframes.trans (List.suffix_cons f _))
  | enter _ _ key => exact Or.inl (hframes.trans (List.suffix_cons (Frame.leave key) _))
  | back r f rest hcontrol hrest =>
    rw [hrest] at hframes
    rcases List.suffix_cons_iff.1 hframes with rfl | hframes
    · exact Or.inr ⟨r, hcontrol, hrest.symm⟩
    · exact Or.inl hframes

/-- **If the machine stops, every call returns.** The calls around it wait until it does. -/
theorem exists_return (hsteps : Steps ctx σ τ) (hend : step ctx τ = none) {frames : List Frame}
    (hframes : frames <:+ σ.frames) :
    ∃ r stack failures, Within ctx frames σ ⟨.returned r, frames, stack, failures⟩ := by
  induction hsteps using Relation.ReflTransGen.head_induction_on with
  | refl =>
    obtain ⟨r, hr, hnone⟩ := returned_of_step_eq_none hend
    obtain ⟨c, frames', stack, failures⟩ := τ
    cases hr
    cases hnone
    cases List.suffix_nil.1 hframes
    exact ⟨r, stack, failures, .refl⟩
  | @head σ υ hstep _ ih =>
    rcases (step_move hstep).suffix hframes with hnext | ⟨r, hr, rfl⟩
    · obtain ⟨r, stack, failures, hreturn⟩ := ih hnext
      exact ⟨r, stack, failures, .head ⟨hstep, hnext⟩ hreturn⟩
    · obtain ⟨c, frames, stack, failures⟩ := σ
      cases hr
      exact ⟨r, stack, failures, .refl⟩

theorem Within.steps {frames : List Frame} (h : Within ctx frames σ τ) : Steps ctx σ τ :=
  Relation.ReflTransGen.mono (fun _ _ hstep => hstep.1) _ _ h

/-- **A call returns with the stack as it found it.** -/
theorem Coherent.exists_return (h : Coherent σ) (hsteps : Steps ctx σ τ)
    (hend : step ctx τ = none) :
    ∃ r failures, Within ctx σ.frames σ ⟨.returned r, σ.frames, σ.stack, failures⟩ := by
  obtain ⟨r, stack, failures, hreturn⟩ := Machine.exists_return hsteps hend List.suffix_rfl
  obtain rfl : stack = σ.stack := (h.steps hreturn.steps).keys_eq.trans h.keys_eq.symm
  exact ⟨r, failures, hreturn⟩

/-- Whatever is reached on the way to an end leads there. -/
theorem Steps.to_end (hend : step ctx τ = none) (hτ : Steps ctx σ τ) (hυ : Steps ctx σ υ) :
    Steps ctx υ τ := by
  induction hυ with
  | refl => exact hτ
  | tail _ hstep ih =>
    rcases Relation.ReflTransGen.cases_head ih with rfl | ⟨ρ, hρ, hrest⟩
    · rw [hend] at hstep
      cases hstep
    · rw [hstep] at hρ
      cases hρ
      exact hrest

end LayeredConfig.Interpolation.Machine
