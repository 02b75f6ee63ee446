import LayeredConfig.Proofs.Interpolation.Machine

/-!
# Resolving ends

Whatever calls wait for it, a text is resolved in finitely many steps, and its value is the one that
it has for the targets on the stack. Two bounds carry this: an expression is shorter than the text
that it stands in, and a reference leaves less room on the stack. So the machine stops on every
document, with what the document is resolved to.
-/
namespace LayeredConfig.Interpolation.Machine

variable {ctx : Context} {stack here : List Text}

/-- Whatever calls wait for it, what is to be done comes to an end, with a result, the stack as it
was and some failures. -/
def Gives (ctx : Context) (stack : List Text) (c : Control) (r : Except Reason Value)
    (failures : List Failure) :
    Prop :=
  ∀ frames before,
  Steps ctx ⟨c, frames, stack, before⟩ ⟨.returned r, frames, stack, before ++ failures⟩

theorem gives_returned (r : Except Reason Value) : Gives ctx stack (.returned r) r [] := by
  intro frames before
  rw [List.append_nil]

section
variable {c d : Control} {r a : Except Reason Value} {failures more : List Failure}

theorem Gives.goOn (h : Gives ctx stack d r failures)
    (hstep : ∀ frames before, step ctx ⟨c, frames, stack, before⟩ =
      some ⟨d, frames, stack, before⟩) :
    Gives ctx stack c r failures :=
  fun frames before => .head (hstep frames before) (h frames before)

/-- A call goes on with what is returned to it. -/
theorem Gives.call {f : Frame} (h : Gives ctx stack d a failures)
    (hstep : ∀ frames before, step ctx ⟨c, frames, stack, before⟩ =
      some ⟨d, f :: frames, stack, before⟩)
    (hkey : f.key? = none) (hback : Gives ctx stack (f.answer a) r more) :
    Gives ctx stack c r (failures ++ (f.reported a ++ more)) := by
  intro frames before
  have hanswer : step ctx ⟨.returned a, f :: frames, stack, before ++ failures⟩ =
      some ⟨f.answer a, frames, stack, before ++ failures ++ f.reported a⟩ := by
    simp [step, State.back, hkey]
  have hrest := hback frames (before ++ failures ++ f.reported a)
  rw [← List.append_assoc, ← List.append_assoc]
  exact .head (hstep frames before) ((h (f :: frames) before).trans (.head hanswer hrest))

/-- What is done with a target on the stack leaves the stack below it as it is. -/
theorem Gives.enter {key : Text} (h : Gives ctx (key :: stack) d r failures)
    (hstep : ∀ frames before, step ctx ⟨c, frames, stack, before⟩ =
      some ⟨d, .leave key :: frames, key :: stack, before⟩) : Gives ctx stack c r failures := by
  intro frames before
  have hanswer : step ctx ⟨.returned r, .leave key :: frames, key :: stack, before ++ failures⟩ =
      some ⟨.returned r, frames, stack, before ++ failures⟩ := by
    cases r <;> simp [step, State.back, Frame.answer, Frame.reported, Frame.key?]
  exact .head (hstep frames before) ((h (.leave key :: frames) before).trans (.single hanswer))
end

section
variable {α β : Type}

/-- What is read first stands in front of what is read next. -/
theorem bind_append (x : Except Reason (List α)) (g : List α → β) (done next : List α) :
    ((x >>= fun rest => (.ok (next ++ rest) : Except Reason (List α))) >>= fun all =>
      (.ok (g (done ++ all)) : Except Reason β)) =
    x >>= fun rest => .ok (g (done ++ next ++ rest)) := by
  cases x <;> simp [bind, Except.bind]

theorem bind_nil (g : List α → β) (done : List α) :
    ((.ok [] : Except Reason (List α)) >>= fun all => (.ok (g (done ++ all)) : Except Reason β)) =
      .ok (g done) :=
  congrArg (fun all => Except.ok (g all)) (List.append_nil done)
end

section
variable {eval refer inner : Text → Except Reason Value}

theorem gives_pieces {ps : List Piece}
    (h : ∀ e, .body e ∈ ps → Gives ctx stack (.expression here e) (eval e) [])
    (out : Text) : Gives ctx stack (.pieces here out ps)
      (concatPieces eval ps >>= fun s => .ok (.string (out ++ s))) [] := by
  induction ps generalizing out with
  | nil =>
    rw [concatPieces, bind_nil]
    exact (gives_returned _).goOn fun _ _ => rfl
  | cons p ps ih =>
    have hrest := ih fun e he => h e (List.mem_cons_of_mem p he)
    have hjoin := bind_append (concatPieces eval ps) Value.string out
    rw [concatPieces_cons]
    cases p with
    | text s => exact Gives.goOn (hjoin s ▸ hrest (out ++ s)) fun _ _ => rfl
    | escape => exact Gives.goOn (hjoin opening ▸ hrest (out ++ opening)) fun _ _ => rfl
    | body e =>
      refine (h e List.mem_cons_self).call (f := .embed here out ps) (fun _ _ => rfl) rfl ?_
      rw [Piece.value]
      cases eval e with
      | error reason => exact gives_returned _
      | ok v =>
        have hv : (do scalarText (← Except.ok v)) = scalarText v := rfl
        rw [Frame.answer, hv]
        cases scalarText v with
        | error reason => exact gives_returned _
        | ok s => exact hjoin s ▸ hrest (out ++ s)

/-- A text whose expressions are evaluated has the value that they make. -/
theorem gives_text {s : Text}
    (h : ∀ ps e, pieces? s = some ps → .body e ∈ ps →
      Gives ctx stack (.expression here e) (eval e) []) :
    Gives ctx stack (.text here s) (ofPieces eval s) [] := by
  rw [ofPieces]
  split
  · next hps =>
    exact (gives_returned _).goOn fun _ _ => congrArg some (by rw [State.text, hps]; rfl)
  · next e hps =>
    exact (h _ e hps List.mem_cons_self).goOn fun _ _ =>
      congrArg some (by rw [State.text, hps]; rfl)
  · next ps hone hps =>
    refine (gives_pieces (fun e he => h ps e hps he) []).goOn fun _ _ => congrArg some ?_
    rw [State.text, hps]
    split
    · next hnone => cases hnone
    · next e hbody =>
      cases hbody
      exact absurd rfl (hone e)
    · next hsome =>
      cases hsome
      rfl

/-- Where the stack is full, no expression has a value. -/
theorem gives_expression_full (hfull : depthLimit ≤ stack.length) (e : Text) :
    Gives ctx stack (.expression here e) (.error .tooDeep) [] :=
  (gives_returned _).goOn fun _ _ => congrArg some (if_pos hfull)

/-- Where there is room, an expression is looked up when the expressions inside it are expanded. -/
theorem gives_expression (hroom : stack.length < depthLimit) {e : Text}
    (hinner : hasOpening e = true → Gives ctx stack (.text here e) (inner e) [])
    (hrefer : ∀ e, Gives ctx stack (.reference here e) (refer e) []) :
    Gives ctx stack (.expression here e) (evaluate refer inner e) [] := by
  have hnot : ¬ depthLimit ≤ stack.length := Nat.not_le.2 hroom
  rw [evaluate, expanded]
  by_cases hopen : hasOpening e = true
  · rw [if_pos hopen]
    refine (hinner hopen).call (f := .expand here) (fun _ _ => congrArg some ?_) rfl ?_
    · rw [State.expression, if_neg hnot, if_pos hopen]
      rfl
    · cases inner e with
      | error reason => exact gives_returned _
      | ok v =>
        have hv : (do scalarText (← Except.ok v)) = scalarText v := rfl
        rw [Frame.answer, hv]
        cases scalarText v with
        | error reason => exact gives_returned _
        | ok e => exact hrefer (Text.trim e)
  · rw [if_neg hopen]
    refine (hrefer (Text.trim e)).goOn fun _ _ => congrArg some ?_
    rw [State.expression, if_neg hnot, if_neg hopen]
    rfl

/-- A text is resolved with as much fuel as it is long: every expression in it is shorter. -/
theorem gives_expand (hroom : stack.length < depthLimit)
    (hrefer : ∀ e, Gives ctx stack (.reference here e) (refer e) []) {fuel : Nat} {s : Text}
    (hfuel : s.length < fuel) :
    Gives ctx stack (.text here s) (expand refer fuel s) [] := by
  induction fuel generalizing s with
  | zero => cases hfuel
  | succ fuel ih =>
    rw [expand_succ]
    refine gives_text fun ps e hps he => ?_
    have hlt : e.length < fuel :=
      Nat.lt_of_lt_of_le (length_body_lt hps he) (Nat.le_of_lt_succ hfuel)
    exact gives_expression hroom (fun _ => ih hlt) hrefer
end

section
variable {text : List Text → Text → Except Reason Value}

mutual
theorem gives_node (h : ∀ here s, Gives ctx stack (.text here s) (text here s) [])
    (here : List Text) :
    ∀ v, Gives ctx stack (.node false here v) (resolveAll text here v) []
  | .string s => by
    rw [resolveAll]
    split
    · next hopen => exact (h here s).goOn fun _ _ => congrArg some (if_pos hopen)
    · next hopen => exact (gives_returned _).goOn fun _ _ => congrArg some (if_neg hopen)
  | .mapping es => by
    rw [resolveAll]
    exact (gives_entries h here [] es).goOn fun _ _ => rfl
  | .sequence vs => by
    rw [resolveAll]
    exact (gives_items h here [] 0 vs).goOn fun _ _ => rfl
  | .null | .bool _ | .number _ | .tagged _ _ => by
    unfold resolveAll
    exact (gives_returned _).goOn fun _ _ => rfl

theorem gives_entries (h : ∀ here s, Gives ctx stack (.text here s) (text here s) [])
    (here : List Text) (done : Entries) : ∀ es, Gives ctx stack (.entries false here done es)
      (resolveEntries text here es >>= fun es => .ok (.mapping (done ++ es))) []
  | [] => by
    rw [resolveEntries, bind_nil]
    exact (gives_returned _).goOn fun _ _ => rfl
  | (k, v) :: rest => by
    rw [resolveEntries]
    refine (gives_node h _ v).call (f := .entry false here done k rest) (fun _ _ => rfl) rfl ?_
    cases resolveAll text (here ++ [k.keyText]) v with
    | error reason => exact gives_returned _
    | ok w =>
      exact bind_append (resolveEntries text here rest) Value.mapping done [(k, w)] ▸
        gives_entries h here _ rest

theorem gives_items (h : ∀ here s, Gives ctx stack (.text here s) (text here s) [])
    (here : List Text)
    (done : List Value) : ∀ index vs, Gives ctx stack (.items false here done index vs)
      (resolveItems text here index vs >>= fun vs => .ok (.sequence (done ++ vs))) []
  | _, [] => by
    rw [resolveItems, bind_nil]
    exact (gives_returned _).goOn fun _ _ => rfl
  | index, v :: rest => by
    rw [resolveItems]
    refine (gives_node h _ v).call (f := .item false here done index rest) (fun _ _ => rfl) rfl ?_
    cases resolveAll text (here ++ [Text.ofNat index]) v with
    | error reason => exact gives_returned _
    | ok w =>
      exact bind_append (resolveItems text here (index + 1) rest) Value.sequence done [w] ▸
        gives_items h here _ (index + 1) rest
end
end

theorem gives_reference {room : Nat}
    (h : ∀ key here s,
      Gives ctx (key :: stack) (.text here s) (resolveText ctx room (key :: stack) here s) [])
    (e : Text) : Gives ctx stack (.reference here e) (refer ctx room stack here e) [] := by
  cases hcall : call? e with
  | some call =>
    rw [refer, hcall]
    refine (gives_returned _).goOn fun _ _ => congrArg some ?_
    rw [State.reference, hcall]
    rfl
  | none =>
    have hvalue : refer ctx room stack here e = target e here >>= fun path =>
        enter ctx stack path >>= fun entered =>
          resolveAll (resolveText ctx room (entered.1 :: stack)) path entered.2 := by
      rw [refer, hcall]
    rw [hvalue]
    cases htarget : target e here with
    | error reason =>
      refine (gives_returned (.error reason)).goOn fun _ _ => congrArg some ?_
      simp only [State.reference, hcall, htarget]
      rfl
    | ok path =>
      change Gives ctx stack _ (enter ctx stack path >>= fun entered =>
        resolveAll (resolveText ctx room (entered.1 :: stack)) path entered.2) []
      cases hentered : enter ctx stack path with
      | error reason =>
        refine (gives_returned (.error reason)).goOn fun _ _ => congrArg some ?_
        simp only [State.reference, hcall, htarget, hentered]
        rfl
      | ok entered =>
        refine Gives.enter (gives_node (h entered.1) path entered.2) fun _ _ => congrArg some ?_
        simp only [State.reference, hcall, htarget, hentered]
        rfl

/-- **Every text is resolved in the end.** -/
theorem gives_resolveText {room : Nat} (hroom : stack.length + room = depthLimit) (here : List Text)
    (s : Text) :
    Gives ctx stack (.text here s) (resolveText ctx room stack here s) [] := by
  induction room generalizing stack here s with
  | zero =>
    rw [resolveText_zero]
    exact gives_text fun _ e _ _ => gives_expression_full (Nat.le_of_eq hroom.symm) e
  | succ room ih =>
    rw [resolveText_succ]
    refine gives_expand (by omega) (gives_reference fun key here s => ih ?_ here s)
      (Nat.lt_succ_self _)
    rw [List.length_cons]
    omega

mutual
theorem gives_resolveNode (ctx : Context) (here : List Text) :
    ∀ v, Gives ctx [] (.node true here v) (.ok (resolveNode ctx here v).1)
      (resolveNode ctx here v).2
  | .string s => by
    have htext : Gives ctx [] (.text here s) (resolveText ctx depthLimit [] here s) [] :=
      gives_resolveText (Nat.zero_add _) here s
    rw [resolveNode]
    by_cases hopen : hasOpening s = true
    · rw [if_pos hopen]
      cases hr : resolveText ctx depthLimit [] here s with
      | error reason =>
        rw [hr] at htext
        exact htext.call (f := .report here s) (fun _ _ => congrArg some (if_pos hopen)) rfl
          (gives_returned _)
      | ok v =>
        rw [hr] at htext
        exact htext.call (f := .report here s) (fun _ _ => congrArg some (if_pos hopen)) rfl
          (gives_returned _)
    · rw [if_neg hopen]
      exact (gives_returned _).goOn fun _ _ => congrArg some (if_neg hopen)
  | .mapping es => by
    rw [resolveNode]
    exact (gives_resolveEachEntry ctx here [] es).goOn fun _ _ => rfl
  | .sequence vs => by
    rw [resolveNode]
    exact (gives_resolveEachItem ctx here [] 0 vs).goOn fun _ _ => rfl
  | .null | .bool _ | .number _ | .tagged _ _ => by
    unfold resolveNode
    exact (gives_returned _).goOn fun _ _ => rfl

theorem gives_resolveEachEntry (ctx : Context) (here : List Text) (done : Entries) :
    ∀ es, Gives ctx [] (.entries true here done es)
      (.ok (.mapping (done ++ (resolveEachEntry ctx here es).1)))
      (resolveEachEntry ctx here es).2
  | [] => by
    rw [resolveEachEntry, List.append_nil]
    exact (gives_returned _).goOn fun _ _ => rfl
  | (k, v) :: rest => by
    have hrest := gives_resolveEachEntry ctx here
      (done ++ [(k, (resolveNode ctx (here ++ [k.keyText]) v).1)]) rest
    rw [List.append_assoc] at hrest
    rw [resolveEachEntry]
    exact (gives_resolveNode ctx _ v).call (f := .entry true here done k rest)
      (fun _ _ => rfl) rfl hrest

theorem gives_resolveEachItem (ctx : Context) (here : List Text) (done : List Value) :
    ∀ index vs, Gives ctx [] (.items true here done index vs)
      (.ok (.sequence (done ++ (resolveEachItem ctx here index vs).1)))
      (resolveEachItem ctx here index vs).2
  | _, [] => by
    rw [resolveEachItem, List.append_nil]
    exact (gives_returned _).goOn fun _ _ => rfl
  | index, v :: rest => by
    have hrest := gives_resolveEachItem ctx here
      (done ++ [(resolveNode ctx (here ++ [Text.ofNat index]) v).1]) (index + 1) rest
    rw [List.append_assoc] at hrest
    rw [resolveEachItem]
    exact (gives_resolveNode ctx _ v).call (f := .item true here done index rest)
      (fun _ _ => rfl) rfl hrest
end

/-- **Resolving a document always ends, with a sound stack.** The machine comes to a stop with what
the document is resolved to, whatever it holds. At every moment the targets on the stack are
different from each other and not too many, and everything that has begun returns, before the calls
around it go on, with the stack as it was found. -/
theorem resolve_ends (environment : Text → Option Text) (document : Value) :
    let ctx : Context := ⟨document, environment⟩
    let ended := State.ended (resolve environment document)
    Steps ctx (.initial document) ended ∧ step ctx ended = none ∧
      ∀ σ, Steps ctx (.initial document) σ →
        Steps ctx σ ended ∧ σ.stack.Nodup ∧ σ.stack.length ≤ depthLimit ∧
          ∃ r failures, Within ctx σ.frames σ ⟨.returned r, σ.frames, σ.stack, failures⟩ := by
  intro ctx ended
  have hrun : Steps ctx (.initial document) ended := gives_resolveNode ctx [] document [] []
  have hend : step ctx ended = none := rfl
  refine ⟨hrun, hend, fun σ hσ => ?_⟩
  have hcoherent : Coherent σ := (coherent_initial document).steps hσ
  have hrest : Steps ctx σ ended := hrun.to_end hend hσ
  exact ⟨hrest, hcoherent.distinct, hcoherent.bounded, hcoherent.exists_return hrest hend⟩

end LayeredConfig.Interpolation.Machine
