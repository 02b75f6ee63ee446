import LayeredConfig.Interpolation.Resolver

/-!
# One stack for all references

The resolver as a program with a stack: a reference pushes its target, resolves the node there and
pops, and all texts of a document use the same stack one after the other. A failure leaves the stack
as it is at that moment. Every call returns with the stack that it was given, and what it gives is
what the resolver without a stack gives for the chain of targets on it.
-/
namespace LayeredConfig.Interpolation

/-- A computation with the targets in progress, the newest first. -/
abbrev Shared (α : Type) := ExceptT Reason (StateM (List Text)) α

namespace Shared

/-- Runs a computation with a target on the stack, of which the top is taken off afterwards. -/
def during {α : Type} (key : Text) (x : Shared α) : Shared α :=
  ExceptT.mk do
    modify (key :: ·)
    let r ← x.run
    modify List.tail
    pure r

/-- The text of all pieces. -/
def concatPieces (eval : Text → Shared Value) : List Piece → Shared Text
  | [] => pure []
  | p :: ps => do
    let s ← match p with
      | .text s => pure s
      | .escape => pure opening
      | .body e => do (scalarText (← eval e) : Except Reason Text)
    pure (s ++ (← concatPieces eval ps))

/-- The value of an expression, in which texts are expanded first by `inner`. No expression is
looked at while the stack is full. -/
def eval (refer inner : Text → Shared Value) (e : Text) : Shared Value := do
  if depthLimit ≤ (← get).length then throw .tooDeep
  else
    let e ← if hasOpening e then do (scalarText (← inner e) : Except Reason Text) else pure e
    refer (Text.trim e)

/-- The value of a text: that of its only expression, or the text of its pieces. -/
def expand (refer : Text → Shared Value) : (fuel : Nat) → Text → Shared Value
  | 0, _ => throw .tooDeep
  | fuel + 1, s =>
    match pieces? s with
    | none => throw (.unterminated s)
    | some [.body e] => eval refer (expand refer fuel) e
    | some ps => do pure (.string (← concatPieces (eval refer (expand refer fuel)) ps))

mutual
/-- The value of a node all of whose texts can be resolved. -/
def resolveAll (text : List Text → Text → Shared Value) (here : List Text) :
    Value → Shared Value
  | .string s => if hasOpening s then text here s else pure (.string s)
  | .mapping es => do pure (.mapping (← resolveEntries text here es))
  | .sequence items => do pure (.sequence (← resolveItems text here 0 items))
  | v => pure v

def resolveEntries (text : List Text → Text → Shared Value) (here : List Text) :
    List (Value × Value) → Shared Entries
  | [] => pure []
  | (k, v) :: rest => do
    let v ← resolveAll text (here ++ [k.keyText]) v
    pure ((k, v) :: (← resolveEntries text here rest))

def resolveItems (text : List Text → Text → Shared Value) (here : List Text) :
    (index : Nat) → List Value → Shared (List Value)
  | _, [] => pure []
  | i, v :: rest => do
    let v ← resolveAll text (here ++ [Text.ofNat i]) v
    pure (v :: (← resolveItems text here (i + 1) rest))
end

/-- The node a path means and its key, unless it is in progress. -/
def enter (ctx : Context) (path : List Text) : Shared (Text × Value) := do
  let key := Text.joinWith "." path
  if (← get).contains key then throw (.cycle key)
  else match ctx.document.get? path with
    | some node => pure (key, node)
    | none => throw (.notFound key)

/-- The value of a text at a location. The stack grows at most `room` times. -/
def resolveText (ctx : Context) : (room : Nat) → (here : List Text) → Text → Shared Value
  | 0, _, _ => throw .tooDeep
  | room + 1, here, s =>
    expand (fun e =>
      match call? e with
      | some (name, args) => (evalCall ctx name args : Except Reason Value)
      | none => do
        let path ← (target e here : Except Reason (List Text))
        let (key, node) ← enter ctx path
        during key (resolveAll (resolveText ctx room) path node)) (s.length + 1) s

end Shared

/-- A walk over a document, with the targets in progress and the failures so far. -/
abbrev Walk (α : Type) := StateM (List Text × List Failure) α

namespace Walk

/-- Runs a computation on the stack of a walk. -/
def attempt {α : Type} (x : Shared α) : Walk (Except Reason α) := fun (stack, failures) =>
  let (r, stack) := x.run stack
  (r, stack, failures)

def report (f : Failure) : Walk Unit := modify fun (stack, failures) => (stack, failures ++ [f])

mutual
/-- Resolves the texts of a node, one after the other. -/
def node (ctx : Context) (here : List Text) : Value → Walk Value
  | .string s =>
    if hasOpening s then do
      match ← attempt (Shared.resolveText ctx (depthLimit + 1) here s) with
      | .ok v => pure v
      | .error reason =>
        report ⟨here, s, reason⟩
        pure (.string s)
    else pure (.string s)
  | .mapping es => do pure (.mapping (← entries ctx here es))
  | .sequence vs => do pure (.sequence (← items ctx here 0 vs))
  | v => pure v

def entries (ctx : Context) (here : List Text) : List (Value × Value) → Walk Entries
  | [] => pure []
  | (k, v) :: rest => do
    let v ← node ctx (here ++ [k.keyText]) v
    pure ((k, v) :: (← entries ctx here rest))

def items (ctx : Context) (here : List Text) : (index : Nat) → List Value → Walk (List Value)
  | _, [] => pure []
  | i, v :: rest => do
    let v ← node ctx (here ++ [Text.ofNat i]) v
    pure (v :: (← items ctx here (i + 1) rest))
end

end Walk

namespace Shared

variable {α β : Type} {stack : List Text}

/-- A computation gives `r` on a stack and returns with the stack as it was. -/
def Keeps (x : Shared α) (stack : List Text) (r : Except Reason α) : Prop :=
  x.run stack = (r, stack)

theorem keeps_pure (a : α) : Keeps (pure a) stack (.ok a) := rfl

theorem keeps_throw (e : Reason) : Keeps (throw e : Shared α) stack (.error e) := rfl

theorem keeps_lift (x : Except Reason α) : Keeps (liftM x) stack x := rfl

theorem Keeps.bind {x : Shared α} {r : Except Reason α} {f : α → Shared β}
    {g : α → Except Reason β} (hx : Keeps x stack r) (hf : ∀ a, Keeps (f a) stack (g a)) :
    Keeps (x >>= f) stack (r >>= g) := by
  unfold Keeps at *
  change (x.run >>= ExceptT.bindCont f) stack = _
  change ExceptT.bindCont f (x.run stack).1 (x.run stack).2 = _
  rw [hx]
  cases r with
  | error e => rfl
  | ok a => exact hf a

/-- What is done with a target on the stack leaves the stack below it as it is. -/
theorem Keeps.during {x : Shared α} {r : Except Reason α} {key : Text}
    (hx : Keeps x (key :: stack) r) : Keeps (during key x) stack r := by
  unfold Keeps at *
  change ((x.run (key :: stack)).1, (x.run (key :: stack)).2.tail) = _
  rw [hx]
  rfl

theorem keeps_concatPieces {eval : Text → Shared Value} {eval' : Text → Except Reason Value}
    (h : ∀ e, Keeps (eval e) stack (eval' e)) (ps : List Piece) :
    Keeps (concatPieces eval ps) stack (Interpolation.concatPieces eval' ps) := by
  induction ps with
  | nil => exact keeps_pure []
  | cons p ps ih =>
    have hrest : ∀ s, Keeps (do pure (s ++ (← concatPieces eval ps))) stack
        (do .ok (s ++ (← Interpolation.concatPieces eval' ps))) :=
      fun s => ih.bind fun rest => keeps_pure _
    unfold concatPieces Interpolation.concatPieces
    cases p with
    | text s => exact (keeps_pure s).bind hrest
    | escape => exact (keeps_pure opening).bind hrest
    | body e => exact (h e).bind fun v => (keeps_lift (scalarText v)).bind hrest

/-- What is looked at first is the stack as it is. -/
theorem keeps_get {f : List Text → Shared α} {r : Except Reason α} (h : Keeps (f stack) stack r) :
    Keeps (get >>= f) stack r := h

/-- The pieces of a text, evaluated with or without a stack. -/
theorem keeps_pieces {eval : Text → Shared Value} {eval' : Text → Except Reason Value}
    (h : ∀ e, Keeps (eval e) stack (eval' e)) (s : Text) :
    Keeps (match pieces? s with
        | none => throw (.unterminated s)
        | some [.body e] => eval e
        | some ps => do pure (.string (← concatPieces eval ps))) stack
      (match pieces? s with
        | none => .error (.unterminated s)
        | some [.body e] => eval' e
        | some ps => do .ok (.string (← Interpolation.concatPieces eval' ps))) := by
  split
  · exact keeps_throw _
  · exact h _
  · exact (keeps_concatPieces h _).bind fun _ => keeps_pure _

/-- A text of one expression that fails is a concatenation that fails. -/
theorem concatPieces_tooDeep (s : Text) :
    (match pieces? s with
      | none => .error (.unterminated s)
      | some [.body _] => .error .tooDeep
      | some ps => do .ok (.string (← Interpolation.concatPieces (fun _ => .error .tooDeep) ps))) =
    (match pieces? s with
      | none => .error (.unterminated s)
      | some ps => do .ok (.string (← Interpolation.concatPieces (fun _ => .error .tooDeep) ps)) :
      Except Reason Value) := by
  cases pieces? s with
  | none => rfl
  | some ps =>
    dsimp only
    split
    · next heq => cases heq
    · next heq =>
      cases heq
      rfl
    · next heq =>
      cases heq
      rfl

/-- Where the stack is full, every expression fails. -/
theorem keeps_expand_full {refer : Text → Shared Value} (hfull : depthLimit ≤ stack.length)
    (fuel : Nat) (s : Text) :
    Keeps (expand refer (fuel + 1) s) stack (match pieces? s with
      | none => .error (.unterminated s)
      | some ps => do
        .ok (.string (← Interpolation.concatPieces (fun _ => .error .tooDeep) ps))) := by
  rw [← concatPieces_tooDeep]
  refine keeps_pieces (fun e => keeps_get ?_) s
  rw [if_pos hfull]
  exact keeps_throw _

/-- Where there is room, an expression is expanded as without a stack. -/
theorem keeps_expand {refer : Text → Shared Value} {refer' : Text → Except Reason Value}
    (hroom : stack.length < depthLimit) (h : ∀ e, Keeps (refer e) stack (refer' e)) (fuel : Nat)
    (s : Text) : Keeps (expand refer fuel s) stack (Interpolation.expand refer' fuel s) := by
  induction fuel generalizing s with
  | zero => exact keeps_throw _
  | succ fuel ih =>
    unfold expand Interpolation.expand
    refine keeps_pieces (fun e => keeps_get ?_) s
    rw [if_neg (Nat.not_le.2 hroom)]
    dsimp only
    split
    · exact (ih e).bind fun v => (keeps_lift (scalarText v)).bind fun e => h _
    · exact (keeps_pure e).bind fun e => h _

mutual
theorem keeps_resolveAll {text : List Text → Text → Shared Value}
    {text' : List Text → Text → Except Reason Value}
    (h : ∀ here s, Keeps (text here s) stack (text' here s)) (here : List Text) :
    ∀ v, Keeps (resolveAll text here v) stack (Interpolation.resolveAll text' here v)
  | .string s => by
    unfold resolveAll Interpolation.resolveAll
    split
    · exact h here s
    · exact keeps_pure _
  | .mapping es => by
    unfold resolveAll Interpolation.resolveAll
    exact (keeps_resolveEntries h here es).bind fun _ => keeps_pure _
  | .sequence items => by
    unfold resolveAll Interpolation.resolveAll
    exact (keeps_resolveItems h here 0 items).bind fun _ => keeps_pure _
  | .null | .bool _ | .number _ | .tagged _ _ => by
    unfold resolveAll Interpolation.resolveAll
    exact keeps_pure _

theorem keeps_resolveEntries {text : List Text → Text → Shared Value}
    {text' : List Text → Text → Except Reason Value}
    (h : ∀ here s, Keeps (text here s) stack (text' here s)) (here : List Text) :
    ∀ es, Keeps (resolveEntries text here es) stack (Interpolation.resolveEntries text' here es)
  | [] => by
    unfold resolveEntries Interpolation.resolveEntries
    exact keeps_pure _
  | (k, v) :: rest => by
    unfold resolveEntries Interpolation.resolveEntries
    exact (keeps_resolveAll h _ v).bind fun _ =>
      (keeps_resolveEntries h here rest).bind fun _ => keeps_pure _

theorem keeps_resolveItems {text : List Text → Text → Shared Value}
    {text' : List Text → Text → Except Reason Value}
    (h : ∀ here s, Keeps (text here s) stack (text' here s)) (here : List Text) :
    ∀ i items, Keeps (resolveItems text here i items) stack
      (Interpolation.resolveItems text' here i items)
  | _, [] => by
    unfold resolveItems Interpolation.resolveItems
    exact keeps_pure _
  | i, v :: rest => by
    unfold resolveItems Interpolation.resolveItems
    exact (keeps_resolveAll h _ v).bind fun _ =>
      (keeps_resolveItems h here (i + 1) rest).bind fun _ => keeps_pure _
end

theorem keeps_enter (ctx : Context) (path : List Text) :
    Keeps (enter ctx path) stack (Interpolation.enter ctx stack path) := by
  unfold enter Interpolation.enter
  refine keeps_get ?_
  dsimp only
  split
  · exact keeps_throw _
  · cases ctx.document.get? path with
    | some node => exact keeps_pure _
    | none => exact keeps_throw _

/-- **Every text is resolved as without a stack**, for the chain of targets on it, and the stack is
left as it was found. -/
theorem keeps_resolveText (ctx : Context) {room : Nat} (hroom : stack.length + room = depthLimit)
    (here : List Text) (s : Text) :
    Keeps (resolveText ctx (room + 1) here s) stack
      (Interpolation.resolveText ctx room stack here s) := by
  induction room generalizing stack here s with
  | zero => exact keeps_expand_full (Nat.le_of_eq hroom.symm) _ s
  | succ room ih =>
    refine keeps_expand (by omega) (fun e => ?_) _ s
    cases call? e with
    | some call => exact keeps_lift _
    | none =>
      refine (keeps_lift (target e here)).bind fun path =>
        (keeps_enter ctx path).bind fun entered => ?_
      exact Keeps.during
        (keeps_resolveAll (fun here s => ih (by simp; omega) here s) path entered.2)

end Shared
end LayeredConfig.Interpolation
