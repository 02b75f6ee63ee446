import LayeredConfig.Compose.Plan
import LayeredConfig.Proofs.Outcome

/-!
# The steps of a defaults list

Without entries marked `override`, a defaults list is planned entry by entry: each entry stands for
one step, or it is the reason why there is no plan. Giving an entry another name, or leaving it out,
then does to the plan what it does to the list, and never changes the reason.
-/
namespace LayeredConfig

open Outcome

namespace DefaultsEntry

/-- Whether an entry is marked `override`. -/
def isMarked : DefaultsEntry → Bool
  | .group s => s.isOverride
  | _ => false

/-- Whether an entry selects from a group. -/
def isOf (group : Text) : DefaultsEntry → Bool
  | .group s => s.group = group
  | _ => false

/-- The entry with another name, if it selects from a group. -/
def withName (name : Text) : DefaultsEntry → DefaultsEntry
  | .group s => .group { s with name }
  | e => e

/-- The step of an entry, whether it is marked or not. -/
def step (t : FileTree) (root : Path) : DefaultsEntry → Except ComposeError Step
  | .selfMarker => .ok .ownKeys
  | .bare name =>
    if t.isFile (modulePath root Defaults.rootGroup name) then .ok (.rootFile name)
    else .error (.unsupportedEntry ("'" ++ name ++ "' matches no file and has no group selection"))
  | .group s => .ok (.group s.group s.name)
  | .unrecognized raw => .error (.unsupportedEntry raw)

theorem isMarked_withName (e : DefaultsEntry) (name : Text) :
    (e.withName name).isMarked = e.isMarked := by
  cases e <;> rfl

variable {t : FileTree} {root : Path}

/-- The step of an entry selects what the entry does. -/
theorem selects_step {e : DefaultsEntry} {s : Step} (h : e.step t root = .ok s) (group : Text) :
    s.selects group = e.isOf group := by
  cases e with
  | bare name =>
    simp only [step] at h
    split at h
    · cases h
      rfl
    · cases h
  | unrecognized raw => cases h
  | _ =>
    cases h
    rfl

theorem step_of_isOf {e : DefaultsEntry} {group : Text} (h : e.isOf group = true) :
    ∃ s, e.step t root = .ok s := by
  cases e with
  | group s => exact ⟨_, rfl⟩
  | _ => cases h

theorem step_withName {e : DefaultsEntry} {group : Text} (h : e.isOf group = true) (name : Text) :
    (e.withName name).step t root = .ok (.group group name) := by
  cases e with
  | group s =>
    have hs : s.group = group := by simpa [isOf] using h
    exact hs ▸ rfl
  | _ => cases h

end DefaultsEntry

open DefaultsEntry

/-- The list with another name in its first entry of a group. -/
def Defaults.rename (group name : Text) : List DefaultsEntry → List DefaultsEntry
  | [] => []
  | e :: es => if e.isOf group then e.withName name :: es else e :: rename group name es

/-- The list with the place of the root document's own keys in it, which is the end where nothing
else is said. -/
def Defaults.withSelfMarker (es : List DefaultsEntry) : List DefaultsEntry :=
  if hasSelfMarker es then es else es ++ [.selfMarker]

namespace Plan

variable {t : FileTree} {root : Path}

/-- The steps of a list of entries, in order. -/
def steps (t : FileTree) (root : Path) (es : List DefaultsEntry) : Except ComposeError Plan :=
  es.mapM (DefaultsEntry.step t root)

theorem steps_cons (e : DefaultsEntry) (es : List DefaultsEntry) :
    steps t root (e :: es) = (e.step t root).bind fun s => (steps t root es).map (s :: ·) := by
  rw [steps, List.mapM_cons]
  cases e.step t root with
  | error _ => rfl
  | ok s => cases h : steps t root es <;> simp [steps] at h <;> simp [h] <;> rfl

theorem steps_append (es fs : List DefaultsEntry) :
    steps t root (es ++ fs) = (steps t root es).bind fun p => (steps t root fs).map (p ++ ·) := by
  induction es with
  | nil => cases h : steps t root fs <;> simp [steps] at h ⊢ <;> simp [h] <;> rfl
  | cons e es ih =>
    rw [List.cons_append, steps_cons, steps_cons, ih]
    cases e.step t root with
    | error _ => rfl
    | ok s =>
      cases steps t root es with
      | error _ => rfl
      | ok p => cases steps t root fs <;> rfl

theorem steps_cons_eq_ok {e : DefaultsEntry} {es : List DefaultsEntry} {p : Plan} :
    steps t root (e :: es) = .ok p ↔
      ∃ s q, e.step t root = .ok s ∧ steps t root es = .ok q ∧ p = s :: q := by
  rw [steps_cons]
  constructor
  · intro h
    obtain ⟨s, hs, h⟩ := bind_eq_ok.1 h
    obtain ⟨q, hq, rfl⟩ := map_eq_ok.1 h
    exact ⟨s, q, hs, hq, rfl⟩
  · rintro ⟨s, q, hs, hq, rfl⟩
    rw [hs, hq]
    rfl

theorem steps_append_eq_ok {es fs : List DefaultsEntry} {p : Plan} :
    steps t root (es ++ fs) = .ok p ↔
      ∃ q r, steps t root es = .ok q ∧ steps t root fs = .ok r ∧ p = q ++ r := by
  rw [steps_append]
  constructor
  · intro h
    obtain ⟨q, hq, h⟩ := bind_eq_ok.1 h
    obtain ⟨r, hr, rfl⟩ := map_eq_ok.1 h
    exact ⟨q, r, hq, hr, rfl⟩
  · rintro ⟨q, r, hq, hr, rfl⟩
    rw [hq, hr]
    rfl

/-- A list selects from a group where its steps do. -/
theorem selects_steps {es : List DefaultsEntry} {p : Plan} (h : steps t root es = .ok p)
    (group : Text) : p.selects group = es.any (isOf group) := by
  induction es generalizing p with
  | nil =>
    cases h
    rfl
  | cons e es ih =>
    obtain ⟨s, q, hs, hq, rfl⟩ := steps_cons_eq_ok.1 h
    rw [selects, List.any_cons, List.any_cons, selects_step hs]
    exact congrArg _ (ih hq)

/-- Another name in an entry is another name in its step. -/
theorem steps_rename (group name : Text) (es : List DefaultsEntry) :
    steps t root (Defaults.rename group name es) = (steps t root es).map (switch group name) := by
  induction es with
  | nil => rfl
  | cons e es ih =>
    rw [Defaults.rename, steps_cons]
    split
    · next he =>
      obtain ⟨s, hs⟩ : ∃ s, e.step t root = .ok s := step_of_isOf he
      have hsel : s.selects group = true := (selects_step hs group).trans he
      rw [steps_cons, step_withName he, hs]
      cases steps t root es with
      | error _ => rfl
      | ok p => exact congrArg Except.ok (if_pos hsel).symm
    · next he =>
      rw [steps_cons, ih]
      cases hs : e.step t root with
      | error _ => rfl
      | ok s =>
        have hsel : ¬ s.selects group = true := (selects_step hs group).symm ▸ he
        cases steps t root es with
        | error _ => rfl
        | ok p => exact congrArg Except.ok (if_neg hsel).symm

/-- Without an entry the plan is without its step. -/
theorem steps_eraseP (group : Text) (es : List DefaultsEntry) :
    steps t root (es.eraseP (isOf group)) = (steps t root es).map (deselect group) := by
  induction es with
  | nil => rfl
  | cons e es ih =>
    rw [steps_cons]
    by_cases he : e.isOf group = true
    · obtain ⟨s, hs⟩ : ∃ s, e.step t root = .ok s := step_of_isOf he
      have hsel : s.selects group = true := (selects_step hs group).trans he
      rw [List.eraseP_cons_of_pos he, hs]
      cases steps t root es with
      | error _ => rfl
      | ok p => exact congrArg Except.ok (List.eraseP_cons_of_pos hsel).symm
    · rw [List.eraseP_cons_of_neg he, steps_cons, ih]
      cases hs : e.step t root with
      | error _ => rfl
      | ok s =>
        have hsel : ¬ s.selects group = true := (selects_step hs group).symm ▸ he
        cases steps t root es with
        | error _ => rfl
        | ok p => exact congrArg Except.ok (List.eraseP_cons_of_neg hsel).symm

/-- An entry adds its step to a plan, or puts its name in the place of the one that is selected from
its group. -/
inductive TakesUp (t : FileTree) (root : Path) (p : Plan) : DefaultsEntry → Plan → Prop
  | selfMarker : TakesUp t root p .selfMarker (p ++ [.ownKeys])
  | bare {name : Text} : t.isFile (modulePath root Defaults.rootGroup name) = true →
    TakesUp t root p (.bare name) (p ++ [.rootFile name])
  | group {s : GroupSelection} : s.isOverride = false →
    TakesUp t root p (.group s) (p ++ [.group s.group s.name])
  | override {s : GroupSelection} : s.isOverride = true → p.selects s.group = true →
    TakesUp t root p (.group s) (p.switch s.group s.name)

/-- What entries make of a plan, one after the other. -/
inductive TakesUpAll (t : FileTree) (root : Path) : Plan → List DefaultsEntry → Plan → Prop
  | nil (p : Plan) : TakesUpAll t root p [] p
  | cons {p q r : Plan} {e : DefaultsEntry} {es : List DefaultsEntry} : TakesUp t root p e q →
    TakesUpAll t root q es r → TakesUpAll t root p (e :: es) r

/-- An entry is taken up, or it is the reason why there is no plan. -/
theorem add_eq_ok {p q : Plan} {e : DefaultsEntry} :
    p.add t root e = .ok q ↔ TakesUp t root p e q := by
  constructor
  · intro h
    cases e with
    | selfMarker =>
      cases h
      exact .selfMarker
    | bare name =>
      rw [add] at h
      split at h
      · next hfile =>
        cases h
        exact .bare hfile
      · cases h
    | group s =>
      rw [add] at h
      split at h
      · next hmark =>
        split at h
        · next hselects =>
          cases h
          exact .override hmark hselects
        · cases h
      · next hmark =>
        cases h
        exact .group (by simpa using hmark)
    | unrecognized raw => cases h
  · rintro (_ | hfile | hmark | ⟨hmark, hselects⟩)
    · rfl
    · rw [add, if_pos hfile]
    · rw [add, hmark, if_neg Bool.false_ne_true]
    · rw [add, if_pos hmark, if_pos hselects]

theorem foldlM_add_eq_ok {p q : Plan} {es : List DefaultsEntry} :
    es.foldlM (add t root) p = .ok q ↔ TakesUpAll t root p es q := by
  induction es generalizing p with
  | nil =>
    constructor
    · intro h
      cases h
      exact .nil _
    · intro h
      cases h
      rfl
  | cons e es ih =>
    rw [List.foldlM_cons, bind_eq_ok]
    constructor
    · rintro ⟨r, hr, h⟩
      exact .cons (add_eq_ok.1 hr) (ih.1 h)
    · rintro (_ | ⟨hr, h⟩)
      exact ⟨_, add_eq_ok.2 hr, ih.2 h⟩

/-- Where there is a plan, all entries have been taken up. -/
theorem ofEntries_eq_ok {plan : Plan} {es : List DefaultsEntry} :
    ofEntries t root es = .ok plan ↔ ∃ q, TakesUpAll t root [] es q ∧ plan = q.close := by
  rw [ofEntries, bind_eq_ok]
  simp only [foldlM_add_eq_ok, Except.ok.injEq, eq_comm (a := plan)]

/-- An entry without a mark brings its step to the end of a plan. -/
theorem add_eq_step {e : DefaultsEntry} (h : e.isMarked = false) (p : Plan) :
    p.add t root e = (e.step t root).map fun s => p ++ [s] := by
  cases e with
  | bare name =>
    simp only [add, DefaultsEntry.step]
    split <;> rfl
  | group s =>
    have hs : s.isOverride = false := h
    simp only [add, hs, Bool.false_eq_true, if_false]
    rfl
  | _ => rfl

theorem foldlM_add_eq_steps {es : List DefaultsEntry} (h : ∀ e ∈ es, e.isMarked = false)
    (p : Plan) :
    es.foldlM (add t root) p = (steps t root es).map (p ++ ·) := by
  induction es generalizing p with
  | nil => exact congrArg Except.ok (List.append_nil p).symm
  | cons e es ih =>
    obtain ⟨he, hes⟩ := List.forall_mem_cons.1 h
    rw [List.foldlM_cons, add_eq_step he, steps_cons]
    cases e.step t root with
    | error _ => rfl
    | ok s =>
      refine (ih hes (p ++ [s])).trans ?_
      cases steps t root es with
      | error _ => rfl
      | ok q => exact congrArg Except.ok (List.append_assoc p [s] q)

/-- **The plan of a list without marked entries is made of the steps of its entries.** -/
theorem ofEntries_eq_steps {es : List DefaultsEntry} (h : ∀ e ∈ es, e.isMarked = false) :
    ofEntries t root es = (steps t root es).map close := by
  rw [ofEntries, foldlM_add_eq_steps h]
  cases steps t root es <;> rfl

theorem ownKeys_mem_close (p : Plan) : .ownKeys ∈ close p := by
  unfold close
  split
  · next h => simpa using h
  · exact List.mem_append_right _ List.mem_cons_self

theorem selects_close (p : Plan) (group : Text) : (close p).selects group = p.selects group := by
  unfold close
  split
  · rfl
  · simp [selects, Step.selects]

theorem contains_switch (group name : Text) (p : Plan) :
    List.contains (p.switch group name) .ownKeys = List.contains p .ownKeys := by
  induction p with
  | nil => rfl
  | cons s p ih =>
    unfold switch
    split
    · next hs =>
      cases s with
      | group g n => simp
      | _ => cases hs
    · rw [List.contains_cons, List.contains_cons, ih]

theorem switch_append {p : Plan} {group : Text} (h : p.selects group = true) (name : Text)
    (q : Plan) :
    (p ++ q).switch group name = p.switch group name ++ q := by
  induction p with
  | nil => cases h
  | cons s p ih =>
    rw [List.cons_append, switch, switch]
    split
    · rfl
    · next hs =>
      have hp : Plan.selects p group = true := by simpa [selects, hs] using h
      rw [ih hp, List.cons_append]

theorem close_switch {p : Plan} {group : Text} (h : p.selects group = true) (name : Text) :
    close (p.switch group name) = (close p).switch group name := by
  unfold close
  rw [contains_switch]
  split
  · rfl
  · exact (switch_append h name _).symm

theorem close_deselect (group : Text) (p : Plan) :
    close (p.deselect group) = (close p).deselect group := by
  have hmem : List.contains (p.deselect group) .ownKeys = List.contains p .ownKeys := by
    rw [Bool.eq_iff_iff, List.contains_iff_mem, List.contains_iff_mem]
    exact List.mem_eraseP_of_neg (by simp [Step.selects])
  unfold close
  rw [hmem]
  split
  · rfl
  · cases hp : p.any (Step.selects group) with
    | true =>
      obtain ⟨s, hs, hsel⟩ := List.any_eq_true.1 hp
      exact (List.eraseP_append_left hsel _ hs).symm
    | false =>
      have hnone : ∀ s ∈ p, ¬ s.selects group = true := by simpa using hp
      have hlast : ∀ s ∈ p ++ [.ownKeys], ¬ s.selects group = true := by
        intro s hs
        rcases List.mem_append.1 hs with hs | hs
        · exact hnone s hs
        · obtain rfl := List.mem_singleton.1 hs
          exact Bool.false_ne_true
      rw [deselect, deselect, List.eraseP_of_forall_not hnone, List.eraseP_of_forall_not hlast]

end Plan
end LayeredConfig
