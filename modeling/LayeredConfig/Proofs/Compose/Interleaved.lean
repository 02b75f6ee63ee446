import LayeredConfig.Proofs.Compose.Grammar

/-!
# Overrides of the list and of the document

Each override meets the plan that those before it have left. It changes the plan, or it is left for
the composed document, and which of the two depends on its key and on nothing that overrides of
other keys do to the plan. So it does not matter how the two kinds are mixed, as long as each kind
keeps its order.
-/
namespace LayeredConfig

open Outcome

/-- A list that holds two others, each in its order. -/
inductive Interleaved {α : Type} : List α → List α → List α → Prop
  | nil : Interleaved [] [] []
  | left {a : α} {as bs cs : List α} : Interleaved as bs cs → Interleaved (a :: as) bs (a :: cs)
  | right {b : α} {as bs cs : List α} : Interleaved as bs cs → Interleaved as (b :: bs) (b :: cs)

namespace Plan

variable {t : FileTree} {root : Path} {p q : Plan} {o : Override} {os gs vs : List Override}

/-- Overrides that meet a plan one after the other: `gs` change it, until it is `q`, and `vs` are
left for the composed document. -/
inductive Divides (t : FileTree) (root : Path) :
    Plan → List Override → List Override → List Override → Plan → Prop
  | nil (p : Plan) : Divides t root p [] [] [] p
  | changed {p p' q : Plan} {o : Override} {os gs vs : List Override} :
    p.meet t root o = .ok (.changed p') → Divides t root p' os gs vs q →
    Divides t root p (o :: os) (o :: gs) vs q
  | left {p q : Plan} {o : Override} {os gs vs : List Override} :
    p.meet t root o = .ok .left → Divides t root p os gs vs q →
    Divides t root p (o :: os) gs (o :: vs) q

theorem applyOverrides_append (p : Plan) (os rest : List Override) :
    p.applyOverrides t root (os ++ rest) = (p.applyOverrides t root os).bind fun r =>
      (r.1.applyOverrides t root rest).map fun r' => (r'.1, r.2 ++ r'.2) := by
  induction os generalizing p with
  | nil =>
    cases h : p.applyOverrides t root rest <;> simp [applyOverrides, Except.bind, h, Except.map]
  | cons o os ih =>
    rw [List.cons_append, applyOverrides, applyOverrides]
    cases p.meet t root o with
    | error e => rfl
    | ok outcome =>
      cases outcome with
      | changed p' => exact ih p'
      | left =>
        rw [ok_bind, ok_bind]
        dsimp only
        rw [ih]
        cases p.applyOverrides t root os with
        | error e => rfl
        | ok r =>
          show (((r.1.applyOverrides t root rest).map fun r' => (r'.1, r.2 ++ r'.2)) >>= _) =
            (r.1.applyOverrides t root rest).map fun r' => (r'.1, o :: r.2 ++ r'.2)
          cases r.1.applyOverrides t root rest <;> rfl

theorem Divides.applyOverrides (h : Divides t root p os gs vs q) :
    p.applyOverrides t root os = .ok (q, vs) := by
  induction h with
  | nil p => rfl
  | changed hmeet _ ih => rw [Plan.applyOverrides, hmeet]; exact ih
  | left hmeet _ ih => rw [Plan.applyOverrides, hmeet, ok_bind]; dsimp only; rw [ih]; rfl

theorem selects_cons (s : Step) (p : Plan) (group : Text) :
    Plan.selects (s :: p) group = (s.selects group || p.selects group) := rfl

/-- A new name for a group leaves every group selected that was. -/
theorem selects_switch (group name : Text) (p : Plan) (other : Text) :
    (p.switch group name).selects other = p.selects other := by
  induction p with
  | nil => rfl
  | cons s p ih =>
    rw [switch]
    split
    · next hs =>
      cases s with
      | group g n =>
        obtain rfl : g = group := by simpa [Step.selects] using hs
        rfl
      | _ => cases hs
    · rw [selects_cons, selects_cons, ih]

theorem selects_deselect {group other : Text} (h : group ≠ other) (p : Plan) :
    (p.deselect group).selects other = p.selects other := by
  induction p with
  | nil => rfl
  | cons s p ih =>
    by_cases hs : s.selects group = true
    · have hother : s.selects other = false := by
        cases s with
        | group g n =>
          obtain rfl : g = group := by simpa [Step.selects] using hs
          simpa [Step.selects] using h
        | _ => rfl
      rw [deselect, List.eraseP_cons_of_pos hs, selects_cons, hother, Bool.false_or]
    · rw [deselect, List.eraseP_cons_of_neg hs, selects_cons, selects_cons]
      exact congrArg _ ih

theorem selects_concat {group other : Text} (h : group ≠ other) (name : Text) (p : Plan) :
    Plan.selects (p ++ [.group group name]) other = p.selects other := by
  simp [selects, Step.selects, h]

/-- An override that changes the plan leaves the selections of other groups. -/
theorem selects_of_meet (h : p.meet t root o = .ok (.changed q)) {key : Text} (hkey : o.key ≠ key) :
    q.selects key = p.selects key := by
  unfold meet at h
  dsimp only at h
  split at h
  · cases h
    exact selects_switch _ _ p key
  · cases h
    exact selects_switch _ _ p key
  · split at h <;> cases h
  · split at h
    · cases h
      exact selects_concat hkey _ p
    · cases h
  · split at h
    · cases h
      exact selects_concat hkey _ p
    · cases h
  · cases h
    exact selects_deselect hkey p
  · cases h
  · cases h

/-- Whether an override is left depends on the selection of its own group alone. -/
theorem meet_eq_left_iff (h : q.selects o.key = p.selects o.key) :
    q.meet t root o = .ok .left ↔ p.meet t root o = .ok .left := by
  unfold meet
  rw [h]
  dsimp only
  generalize (decide (¬ (Text.trim (o.value.getD [])).isEmpty = true) &&
    t.isFile (modulePath root o.key (Text.trim (o.value.getD [])))) = hasFile
  cases o.kind <;> cases p.selects o.key <;> cases hasFile <;> simp

/-- **Which overrides are left does not depend on those of other keys.** Overrides that change a
plan change it in the same way without those that are left, and these would be left at the start as
well. -/
theorem Divides.apart (h : Divides t root p os gs vs q)
    (hkeys : ∀ g ∈ gs, ∀ v ∈ vs, g.key ≠ v.key) :
    Divides t root p gs gs [] q ∧ ∀ v ∈ vs, p.meet t root v = .ok .left := by
  induction h with
  | nil p => exact ⟨.nil p, by simp⟩
  | changed hmeet _ ih =>
    obtain ⟨hhead, hkeys⟩ := List.forall_mem_cons.1 hkeys
    obtain ⟨hgs, hvs⟩ := ih hkeys
    exact ⟨.changed hmeet hgs, fun v hv =>
      (meet_eq_left_iff (selects_of_meet hmeet (hhead v hv))).1 (hvs v hv)⟩
  | left hmeet _ ih =>
    obtain ⟨hgs, hvs⟩ := ih fun g hg v hv => hkeys g hg v (List.mem_cons_of_mem _ hv)
    exact ⟨hgs, List.forall_mem_cons.2 ⟨hmeet, hvs⟩⟩

/-- Overrides of both kinds may be mixed in any way. -/
theorem Divides.interleaved (h : Interleaved gs vs os) (hgs : Divides t root p gs gs [] q)
    (hvs : ∀ v ∈ vs, p.meet t root v = .ok .left) (hkeys : ∀ g ∈ gs, ∀ v ∈ vs, g.key ≠ v.key) :
    Divides t root p os gs vs q := by
  induction h generalizing p with
  | nil => exact hgs
  | left _ ih =>
    obtain ⟨hhead, hkeys⟩ := List.forall_mem_cons.1 hkeys
    cases hgs with
    | changed hmeet hgs =>
      refine .changed hmeet (ih hgs (fun v hv => ?_) hkeys)
      exact (meet_eq_left_iff (selects_of_meet hmeet (hhead v hv))).2 (hvs v hv)
  | right _ ih =>
    obtain ⟨hmeet, hvs⟩ := List.forall_mem_cons.1 hvs
    exact .left hmeet (ih hgs hvs fun g hg v hv => hkeys g hg v (List.mem_cons_of_mem _ hv))

/-- A plan takes all interleavings alike. -/
theorem Divides.applyOverrides_eq {os' : List Override} (h : Divides t root p os gs vs q)
    (hkeys : ∀ g ∈ gs, ∀ v ∈ vs, g.key ≠ v.key) (hmixed : Interleaved gs vs os') :
    p.applyOverrides t root os = p.applyOverrides t root os' := by
  obtain ⟨hgs, hvs⟩ := h.apart hkeys
  exact h.applyOverrides.trans (Divides.interleaved hmixed hgs hvs hkeys).applyOverrides.symm

end Plan

namespace Strict

variable {t : FileTree} {root p : Path} {raws raws' : List Text}

theorem parseOverrides_append (raws raws' : List Text) : parseOverrides (raws ++ raws') =
    (parseOverrides raws).bind fun os => (parseOverrides raws').map (os ++ ·) := by
  rw [parseOverrides, List.mapM_append]
  show (parseOverrides raws >>= fun os => parseOverrides raws' >>= fun os' => pure (os ++ os')) = _
  cases parseOverrides raws with
  | error e => rfl
  | ok os => cases parseOverrides raws' <;> rfl

/-- A composition depends on what its overrides are read as. -/
theorem compose_congr_overrides (h : parseOverrides raws = parseOverrides raws') :
    compose t root p raws = compose t root p raws' := by
  unfold compose composeValue
  rw [h]

/-- Overrides that the plan takes alike are exchanged behind others and before others. -/
theorem composeValue_between {document : Value} (hd : t.document? p = some document)
    {before os os' after : List Override} {pre : List Text} (hpre : parseOverrides pre = .ok before)
    (hraws : parseOverrides raws = .ok (before ++ (os ++ after)))
    (hraws' : parseOverrides raws' = .ok (before ++ (os' ++ after)))
    (h : ∀ plan, planOf t root p pre = .ok plan →
      plan.applyOverrides t root os = plan.applyOverrides t root os') :
    composeValue t root p document raws = composeValue t root p document raws' := by
  cases hown : ownKeys p document with
  | error e =>
    rw [composeValue, composeValue, hown]
    rfl
  | ok own =>
    rw [composeValue_eq hown hraws, composeValue_eq hown hraws']
    cases hplan : Plan.ofEntries t root (Defaults.entriesOf document) with
    | error e => rfl
    | ok plan =>
      have hsame : plan.applyOverrides t root (before ++ (os ++ after)) =
          plan.applyOverrides t root (before ++ (os' ++ after)) := by
        rw [Plan.applyOverrides_append, Plan.applyOverrides_append]
        cases hbefore : plan.applyOverrides t root before with
        | error e => rfl
        | ok r =>
          have hq : planOf t root p pre = .ok r.1 := planOf_eq_ok hd hpre hplan hbefore
          show (r.1.applyOverrides t root (os ++ after)).map _ =
            (r.1.applyOverrides t root (os' ++ after)).map _
          rw [Plan.applyOverrides_append, Plan.applyOverrides_append, h r.1 hq]
      exact congrArg (fun r : Except ComposeError (Plan × List Override) => r.bind fun r =>
        (layer t root own r.1).bind fun v => r.2.foldlM applyOverride v) hsame

theorem compose_between {os os' : List Override} (hos : parseOverrides raws = .ok os)
    (hos' : parseOverrides raws' = .ok os') (pre post : List Text)
    (h : ∀ plan, planOf t root p pre = .ok plan →
      plan.applyOverrides t root os = plan.applyOverrides t root os') :
    compose t root p (pre ++ (raws ++ post)) = compose t root p (pre ++ (raws' ++ post)) := by
  have hparse : ∀ raws os, parseOverrides raws = .ok os →
      parseOverrides (pre ++ (raws ++ post)) = (parseOverrides pre).bind fun before =>
        (parseOverrides post).map fun after => before ++ (os ++ after) := by
    intro raws os hos
    rw [parseOverrides_append, parseOverrides_append, hos]
    cases parseOverrides pre <;> cases parseOverrides post <;> rfl
  have hraws := hparse raws os hos
  have hraws' := hparse raws' os' hos'
  cases hpre : parseOverrides pre with
  | error e => exact compose_congr_overrides (by rw [hraws, hraws', hpre]; rfl)
  | ok before =>
    cases hpost : parseOverrides post with
    | error e => exact compose_congr_overrides (by rw [hraws, hraws', hpre, hpost]; rfl)
    | ok after =>
      rw [hpre, hpost] at hraws hraws'
      cases hd : readDocument t p with
      | error e =>
        rw [compose, compose, hd]
        rfl
      | ok d =>
        have hdocument := FileTree.document?_eq_some.2 ⟨d.1, readDocument_eq_ok.1 hd⟩
        rw [compose_of_document? hdocument, compose_of_document? hdocument]
        exact composeValue_between hdocument hpre hraws hraws' h

/-- **Overrides of the list and overrides of the document may be interleaved freely.** Two
neighbours with different keys, one of which changes the plan and the other is left for the
document, change places without any change of the value or the error. And so do all interleavings of
overrides that change the plan and overrides that are left, if none of the one kind has a key of the
other. -/
theorem compose_interleave :
    (∀ (t : FileTree) (root p : Path) (pre post : List Text) (raw raw' : Text) (o o' : Override),
      Override.parse? raw = some o → Override.parse? raw' = some o' → o.key ≠ o'.key →
      (∀ plan, planOf t root p pre = .ok plan → ∃ q,
        plan.Divides t root [o, o'] [o] [o'] q ∨ plan.Divides t root [o, o'] [o'] [o] q) →
      compose t root p (pre ++ raw :: raw' :: post) =
        compose t root p (pre ++ raw' :: raw :: post)) ∧
    ∀ (t : FileTree) (root p : Path) (raws raws' : List Text) (os os' gs vs : List Override),
      parseOverrides raws = .ok os → parseOverrides raws' = .ok os' →
      (∀ g ∈ gs, ∀ v ∈ vs, g.key ≠ v.key) →
      (∀ plan, planOf t root p [] = .ok plan → ∃ q, plan.Divides t root os gs vs q) →
      Interleaved gs vs os' → compose t root p raws = compose t root p raws' := by
  constructor
  · intro t root p pre post raw raw' o o' ho ho' hkey hplan
    have hparse : ∀ {a b : Text} {x y : Override}, Override.parse? a = some x →
        Override.parse? b = some y → parseOverrides [a, b] = .ok [x, y] := by
      intro a b x y ha hb
      rw [parseOverrides_cons ha, parseOverrides_cons hb]
      rfl
    refine compose_between (hparse ho ho') (hparse ho' ho) pre post fun plan hpre => ?_
    obtain ⟨q, h | h⟩ := hplan plan hpre
    · exact h.applyOverrides_eq (by simpa using hkey) (.right (.left .nil))
    · exact h.applyOverrides_eq (by simpa using hkey.symm) (.left (.right .nil))
  · intro t root p raws raws' os os' gs vs hos hos' hkeys hplan hmixed
    have h := compose_between hos hos' [] [] fun plan hpre => by
      obtain ⟨q, h⟩ := hplan plan hpre
      exact h.applyOverrides_eq hkeys hmixed
    simpa using h

/-- A root document that selects from two groups. -/
def selecting : FileTree where
  entries := [
    (["conf".toList], .directory),
    (["conf".toList, "config.yaml".toList],
      .file (.text "defaults:\n- db: main\n- log: short\nx: 1\n")),
    (["conf".toList, "db".toList], .directory),
    (["conf".toList, "db".toList, "other.yaml".toList], .file (.text "port: 2\n")),
    (["conf".toList, "cache".toList], .directory),
    (["conf".toList, "cache".toList, "big.yaml".toList], .file (.text "size: 3\n"))]
  workingDirectory := []

theorem compose_interleave_selecting :
    (compose selecting "/conf" "/conf/config.yaml" ["~log", "db=other", "db.port=4", "cache=1"] =
        compose selecting "/conf" "/conf/config.yaml" ["~log", "db.port=4", "db=other", "cache=1"] ∧
      compose selecting "/conf" "/conf/config.yaml" ["~log", "db=other", "db.port=4", "cache=1"] =
        .error (.keyNotFound "cache")) ∧
    compose selecting "/conf" "/conf/config.yaml"
        ["db=other", "x=2", "~log", "+y=1", "+cache=big", "++db.port=4"] =
      compose selecting "/conf" "/conf/config.yaml"
        ["x=2", "+y=1", "++db.port=4", "db=other", "~log", "+cache=big"] ∧
    compose selecting "/conf" "/conf/config.yaml"
        ["x=2", "+y=1", "++db.port=4", "db=other", "~log", "+cache=big"] = .ok (.mapping [
      (.string "db", .mapping [(.string "port", .number (.int 4))]),
      (.string "x", .number (.int 2)),
      (.string "cache", .mapping [(.string "size", .number (.int 3))]),
      (.string "y", .number (.int 1))]) := by
  let other : Override := ⟨.assign, "db", some "other"⟩
  let port : Override := ⟨.assign, "db.port", some "4"⟩
  let noLog : Override := ⟨.delete, "log", none⟩
  let big : Override := ⟨.append, "cache", some "big"⟩
  let x : Override := ⟨.assign, "x", some "2"⟩
  let y : Override := ⟨.append, "y", some "1"⟩
  let forced : Override := ⟨.forceAdd, "db.port", some "4"⟩
  refine ⟨⟨?_, by decide +kernel⟩, ?_, by decide +kernel⟩
  · refine compose_interleave.1 selecting "/conf" "/conf/config.yaml" ["~log"] ["cache=1"]
      "db=other" "db.port=4" other port (by decide +kernel) (by decide +kernel) (by decide)
      fun plan hplan => ?_
    have heq : planOf selecting "/conf" "/conf/config.yaml" ["~log"] =
        .ok [.group "db" "main", .ownKeys] := by decide +kernel
    cases heq.symm.trans hplan
    refine ⟨[.group "db" "other", .ownKeys], Or.inl (.changed ?_ (.left ?_ (.nil _)))⟩ <;>
      decide +kernel
  · refine compose_interleave.2 selecting "/conf" "/conf/config.yaml" _ _
      [other, x, noLog, y, big, forced] [x, y, forced, other, noLog, big] [other, noLog, big]
      [x, y, forced] (by decide +kernel) (by decide +kernel) (by decide) (fun plan hplan => ?_)
      (.right (.right (.right (.left (.left (.left .nil))))))
    have heq : planOf selecting "/conf" "/conf/config.yaml" [] =
        .ok [.group "db" "main", .group "log" "short", .ownKeys] := by decide +kernel
    cases heq.symm.trans hplan
    have hother :
        Plan.meet selecting "/conf" [.group "db" "main", .group "log" "short", .ownKeys] other =
        .ok (.changed [.group "db" "other", .group "log" "short", .ownKeys]) := by decide +kernel
    have hlog :
        Plan.meet selecting "/conf" [.group "db" "other", .group "log" "short", .ownKeys] noLog =
        .ok (.changed [.group "db" "other", .ownKeys]) := by decide +kernel
    refine ⟨[.group "db" "other", .ownKeys, .group "cache" "big"], .changed hother (.left ?_
      (.changed hlog (.left ?_ (.changed ?_ (.left ?_ (.nil _))))))⟩ <;> decide +kernel

end Strict
end LayeredConfig
