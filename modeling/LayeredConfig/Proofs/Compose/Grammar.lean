import LayeredConfig.Proofs.Compose.Assigned
import LayeredConfig.Proofs.Compose.ListEdits
import LayeredConfig.Proofs.Document.Removal
import LayeredConfig.Proofs.Document.Setting

/-!
# The grammar of overrides

The four signs of an override look up, set and remove its key in the composed document, each with a
walk of its own. They agree on what the key denotes: what can be changed can be removed and cannot
be added, and the other way round.
-/
namespace LayeredConfig

open Outcome

theorem Plan.applyOverrides_concat {t : FileTree} {root : Path} {p q : Plan}
    {os rest : List Override} {o : Override} (h : p.applyOverrides t root os = .ok (q, rest))
    (hleft : q.meet t root o = .ok .left) :
    p.applyOverrides t root (os ++ [o]) = .ok (q, rest ++ [o]) := by
  induction os generalizing p rest with
  | nil =>
    cases h
    rw [List.nil_append, applyOverrides, hleft]
    rfl
  | cons a os ih =>
    rw [applyOverrides] at h
    rw [List.cons_append, applyOverrides]
    obtain ⟨outcome, hmeet, h⟩ := bind_eq_ok.1 h
    rw [hmeet]
    cases outcome with
    | changed p' => exact ih h
    | left =>
      obtain ⟨⟨q', rest'⟩, hrest, h⟩ := bind_eq_ok.1 h
      cases h
      rw [ok_bind]
      dsimp only
      rw [ih hrest]
      rfl

namespace Strict

variable {t : FileTree} {root p : Path} {raws : List Text} {raw raw' : Text} {o o' : Override}
  {d d' : Value}

/-- The plan that a root document is composed by, after the overrides that address it. -/
def planOf (t : FileTree) (root p : Path) (raws : List Text) : Except ComposeError Plan := do
  let (_, document) ← readDocument t p
  let overrides ← parseOverrides raws
  let plan ← Plan.ofEntries t root ((Defaults.ofDocument? document).getD [])
  let (plan, _) ← plan.applyOverrides t root overrides
  .ok plan

/-- A text that is read as an override which is left for the composed document if it comes behind
others. -/
structure ForDocument (t : FileTree) (root p : Path) (raws : List Text) (raw : Text)
    (o : Override) : Prop where
  parsed : Override.parse? raw = some o
  left : ∃ plan, planOf t root p raws = .ok plan ∧ plan.meet t root o = .ok .left

theorem parseOverrides_concat {os : List Override} (h : parseOverrides raws = .ok os)
    (hraw : Override.parse? raw = some o) : parseOverrides (raws ++ [raw]) = .ok (os ++ [o]) := by
  rw [parseOverrides] at h ⊢
  rw [List.mapM_append, h, List.mapM_cons, hraw]
  rfl

/-- The stages of a composition that succeeds. -/
theorem compose_eq_ok :
    compose t root p raws = .ok d ↔
      ∃ document own os plan q rest v, t.document? p = some document ∧
        ownKeys p document = .ok own ∧ parseOverrides raws = .ok os ∧
        Plan.ofEntries t root ((Defaults.ofDocument? document).getD []) = .ok plan ∧
        plan.applyOverrides t root os = .ok (q, rest) ∧ layer t root own q = .ok v ∧
        rest.foldlM applyOverride v = .ok d := by
  constructor
  · intro h
    obtain ⟨⟨s, document⟩, hd, h⟩ := bind_eq_ok.1 h
    obtain ⟨own, hown, h⟩ := bind_eq_ok.1 h
    obtain ⟨os, hos, h⟩ := bind_eq_ok.1 h
    obtain ⟨plan, hplan, h⟩ := bind_eq_ok.1 h
    obtain ⟨⟨q, rest⟩, hrest, h⟩ := bind_eq_ok.1 h
    obtain ⟨v, hv, h⟩ := bind_eq_ok.1 h
    exact ⟨document, own, os, plan, q, rest, v,
      FileTree.document?_eq_some.2 ⟨s, readDocument_eq_ok.1 hd⟩, hown, hos, hplan, hrest, hv, h⟩
  · rintro ⟨document, own, os, plan, q, rest, v, hd, hown, hos, hplan, hrest, hv, h⟩
    rw [compose_of_document? hd]
    refine bind_eq_ok.2 ⟨own, hown, bind_eq_ok.2 ⟨os, hos, bind_eq_ok.2 ⟨plan, hplan, ?_⟩⟩⟩
    exact bind_eq_ok.2 ⟨(q, rest), hrest, bind_eq_ok.2 ⟨v, hv, h⟩⟩

theorem planOf_eq_ok {document : Value} {os rest : List Override} {plan q : Plan}
    (hd : t.document? p = some document) (hos : parseOverrides raws = .ok os)
    (hplan : Plan.ofEntries t root ((Defaults.ofDocument? document).getD []) = .ok plan)
    (hrest : plan.applyOverrides t root os = .ok (q, rest)) : planOf t root p raws = .ok q := by
  obtain ⟨s, hs⟩ := FileTree.document?_eq_some.1 hd
  refine bind_eq_ok.2 ⟨(s, document), readDocument_eq_ok.2 hs, bind_eq_ok.2 ⟨os, hos, ?_⟩⟩
  exact bind_eq_ok.2 ⟨plan, hplan, bind_eq_ok.2 ⟨(q, rest), hrest, rfl⟩⟩

/-- **One more override.** One that is left for the composed document is applied to the composition
without it, and leaves the plan as it is. -/
theorem compose_concat (h : compose t root p raws = .ok d) (ho : ForDocument t root p raws raw o) :
    compose t root p (raws ++ [raw]) = applyOverride d o ∧
      planOf t root p (raws ++ [raw]) = planOf t root p raws := by
  obtain ⟨document, own, os, plan, q, rest, v, hd, hown, hos, hplan, hrest, hv, h⟩ :=
    compose_eq_ok.1 h
  obtain ⟨hraw, plan', hplan', hleft⟩ := ho
  have hq := planOf_eq_ok hd hos hplan hrest
  obtain rfl : plan' = q := Except.ok.inj (hplan'.symm.trans hq)
  have hos' := parseOverrides_concat hos hraw
  have hrest' := Plan.applyOverrides_concat hrest hleft
  refine ⟨?_, (planOf_eq_ok hd hos' hplan hrest').trans hq.symm⟩
  rw [compose_of_document? hd, composeValue_eq hown hos', Defaults.entriesOf, hplan]
  show ((plan.applyOverrides t root (os ++ [o])).bind _) = _
  rw [hrest']
  show ((layer t root own plan').bind fun v => (rest ++ [o]).foldlM applyOverride v) = _
  rw [hv]
  show (rest ++ [o]).foldlM applyOverride v = _
  rw [List.foldlM_append, h, ok_bind, List.foldlM_cons]
  exact bind_pure _

theorem applyOverride_keyed (hd : d.Keyed) (h : applyOverride d o = .ok d') : d'.Keyed := by
  have hvalue : o.parsedValue.Keyed := by
    unfold Override.parsedValue
    split
    · exact Value.ofArgument_keyed _
    · trivial
  have hset : ∀ {e}, setValue d o = .ok e → e.Keyed :=
    fun h => Value.set_keyed hd hvalue (mapError_eq_ok.1 h)
  unfold applyOverride at h
  split at h
  · split at h
    · exact hset h
    · cases h
  · split at h
    · cases h
    · exact hset h
  · exact hset h
  · split at h
    · next hrem =>
      cases h
      exact Value.remove?_keyed hd hrem
    · cases h

theorem compose_keyed (h : compose t root p raws = .ok d) : d.Keyed := by
  obtain ⟨document, own, os, plan, q, rest, v, hd, hown, -, -, -, hv, h⟩ := compose_eq_ok.1 h
  have hlayers := layer_keyed (FileTree.document?_keyed hd) hown hv
  exact foldlM_preserves (fun o _ b b' hb => applyOverride_keyed hb) hlayers h

variable {k v : Text} {w : Option Text} {x : Value}

theorem applyOverride_assign (h : (d.get? (Text.splitAll '.' k)).isSome) :
    applyOverride d ⟨.assign, k, w⟩ = applyOverride d ⟨.forceAdd, k, w⟩ := if_pos h

theorem applyOverride_append (h : d.get? (Text.splitAll '.' k) = none) :
    applyOverride d ⟨.append, k, w⟩ = applyOverride d ⟨.forceAdd, k, w⟩ :=
  if_neg (by simp [Value.contains, Override.segments, h])

theorem applyOverride_append_found (h : (d.get? (Text.splitAll '.' k)).isSome) :
    applyOverride d ⟨.append, k, w⟩ = .error (.keyExists k) := if_pos h

theorem applyOverride_assign_missing (h : d.get? (Text.splitAll '.' k) = none) :
    applyOverride d ⟨.assign, k, w⟩ = .error (.keyNotFound k) :=
  if_neg (by simp [Value.contains, Override.segments, h])

theorem applyOverride_forceAdd (h : d.set (Text.splitAll '.' k) (.ofArgument v) = .ok d') :
    applyOverride d ⟨.forceAdd, k, some v⟩ = .ok d' := mapError_eq_ok.2 h

theorem applyOverride_delete (h : Value.remove? (Text.splitAll '.' k) d = some (x, d')) :
    applyOverride d ⟨.delete, k, w⟩ = .ok d' := by
  simp only [applyOverride, Override.segments, h]

theorem applyOverride_delete_missing (h : d.get? (Text.splitAll '.' k) = none) :
    applyOverride d ⟨.delete, k, w⟩ = .error (.deleteMissing k) := by
  simp only [applyOverride, Override.segments, Value.remove?_missing h]

/-- **The signs agree on what a key denotes.** Let `d` be a composed document, and consider
overrides of one key that are left for it. Where the key can be read in `d`, changing it and setting
it give the same document, with the new value in its place and nothing else changed; it cannot be
added; and removing it takes out just what was read. Where it cannot be read, it can be neither
changed nor removed, and adding it is setting it; and where its parent is a mapping, removing what
was added gives `d` again. -/
theorem compose_grammar (h : compose t root p raws = .ok d) (k v : Text) :
    (∀ x, d.get? (Text.splitAll '.' k) = some x →
      ∃ changed rest, Value.ReplacedAt x (.ofArgument v) (Text.splitAll '.' k) d changed ∧
        Value.RemovedAt x (Text.splitAll '.' k) d rest ∧
        (∀ raw, ForDocument t root p raws raw ⟨.assign, k, some v⟩ →
          compose t root p (raws ++ [raw]) = .ok changed) ∧
        (∀ raw, ForDocument t root p raws raw ⟨.forceAdd, k, some v⟩ →
          compose t root p (raws ++ [raw]) = .ok changed) ∧
        (∀ raw, ForDocument t root p raws raw ⟨.append, k, some v⟩ →
          compose t root p (raws ++ [raw]) = .error (.keyExists k)) ∧
        (∀ raw w, ForDocument t root p raws raw ⟨.delete, k, w⟩ →
          compose t root p (raws ++ [raw]) = .ok rest)) ∧
    (d.get? (Text.splitAll '.' k) = none →
      (∀ raw, ForDocument t root p raws raw ⟨.assign, k, some v⟩ →
        compose t root p (raws ++ [raw]) = .error (.keyNotFound k)) ∧
      (∀ raw w, ForDocument t root p raws raw ⟨.delete, k, w⟩ →
        compose t root p (raws ++ [raw]) = .error (.deleteMissing k)) ∧
      (∃ outcome, (∀ raw, ForDocument t root p raws raw ⟨.append, k, some v⟩ →
          compose t root p (raws ++ [raw]) = outcome) ∧
        (∀ raw, ForDocument t root p raws raw ⟨.forceAdd, k, some v⟩ →
          compose t root p (raws ++ [raw]) = outcome)) ∧
      (∀ front last es raw raw' w, Text.splitAll '.' k = front ++ [last] →
        d.get? front = some (.mapping es) →
        ForDocument t root p raws raw ⟨.append, k, some v⟩ →
        ForDocument t root p raws raw' ⟨.delete, k, w⟩ →
        compose t root p (raws ++ [raw, raw']) = .ok d)) := by
  constructor
  · intro x hx
    have hsome : (d.get? (Text.splitAll '.' k)).isSome := by rw [hx]; rfl
    obtain ⟨changed, hset, hchanged⟩ := Value.set_found hx (.ofArgument v)
    obtain ⟨rest, hrem, hrest⟩ :=
      Value.remove?_found (compose_keyed h) (Text.splitAll_ne_nil '.' k) hx
    have hforce := applyOverride_forceAdd hset
    refine ⟨changed, rest, hchanged, hrest, fun raw ho => ?_, fun raw ho => ?_, fun raw ho => ?_,
      fun raw w ho => ?_⟩
    · exact (compose_concat h ho).1.trans ((applyOverride_assign hsome).trans hforce)
    · exact (compose_concat h ho).1.trans hforce
    · exact (compose_concat h ho).1.trans (applyOverride_append_found hsome)
    · exact (compose_concat h ho).1.trans (applyOverride_delete hrem)
  · intro hnone
    refine ⟨fun raw ho => ?_, fun raw w ho => ?_,
      ⟨applyOverride d ⟨.forceAdd, k, some v⟩, ?_, ?_⟩, ?_⟩
    · exact (compose_concat h ho).1.trans (applyOverride_assign_missing hnone)
    · exact (compose_concat h ho).1.trans (applyOverride_delete_missing hnone)
    · exact fun raw ho => (compose_concat h ho).1.trans (applyOverride_append hnone)
    · exact fun raw ho => (compose_concat h ho).1
    · intro front last es raw raw' w hk hfront ho ho'
      have hlast : (Value.mapping es).child? last = none := by
        rw [hk, Value.get?_concat, hfront] at hnone
        exact hnone
      obtain ⟨added, hset, hadded⟩ := Value.set_fresh hfront hlast rfl [] (.ofArgument v)
      rw [← hk] at hset
      obtain ⟨hcompose, hplan⟩ := compose_concat h ho
      rw [applyOverride_append hnone, applyOverride_forceAdd hset] at hcompose
      have hnext : ForDocument t root p (raws ++ [raw]) raw' ⟨.delete, k, w⟩ :=
        ⟨ho'.parsed, by rw [hplan]; exact ho'.left⟩
      have hrem : Value.remove? (Text.splitAll '.' k) added = some (.ofArgument v, d) := by
        rw [hk]
        exact Value.remove?_added hadded (Option.map_eq_none_iff.1 hlast)
      have hboth := (compose_concat hcompose hnext).1.trans (applyOverride_delete hrem)
      rwa [List.append_assoc] at hboth

/-- A root document with a selected group, a sequence and a number for a key. -/
def graded : FileTree where
  entries := [
    (["conf".toList], .directory),
    (["conf".toList, "config.yaml".toList],
      .file (.text "defaults:\n- db: mysql\nxs: [1, 2, 3]\n80: web\n")),
    (["conf".toList, "db".toList], .directory),
    (["conf".toList, "db".toList, "pg.yaml".toList], .file (.text "host: pg\n"))]
  workingDirectory := []

/-- What is composed of it with an override of the group and one of the first item. -/
def gradedDocument : Value := .mapping [
  (.string "db", .mapping [(.string "host", .string "pg")]),
  (.string "xs", .sequence [.number (.int 9), .number (.int 2), .number (.int 3)]),
  (.number (.int 80), .string "web")]

theorem forDocument_graded {raw : Text} {o : Override} (hraw : Override.parse? raw = some o)
    (hleft : Plan.meet graded "/conf" [.group "db" "pg", .ownKeys] o = .ok .left) :
    ForDocument graded "/conf" "/conf/config.yaml" ["db=pg", "xs.0=9"] raw o :=
  ⟨hraw, [.group "db" "pg", .ownKeys], by decide +kernel, hleft⟩

theorem compose_grammar_graded :
    compose graded "/conf" "/conf/config.yaml" ["db=pg", "xs.0=9"] = .ok gradedDocument ∧
    (∃ changed rest,
      Value.ReplacedAt (.number (.int 2)) (.ofArgument "x") (Text.splitAll '.' "xs.1")
        gradedDocument
        changed ∧
      Value.RemovedAt (.number (.int 2)) (Text.splitAll '.' "xs.1") gradedDocument rest ∧
      compose graded "/conf" "/conf/config.yaml" ["db=pg", "xs.0=9", " xs.1 =x"] = .ok changed ∧
      compose graded "/conf" "/conf/config.yaml" ["db=pg", "xs.0=9", "++xs.1=x"] = .ok changed ∧
      compose graded "/conf" "/conf/config.yaml" ["db=pg", "xs.0=9", "+xs.1=x"] =
        .error (.keyExists "xs.1") ∧
      compose graded "/conf" "/conf/config.yaml" ["db=pg", "xs.0=9", "~xs.1"] = .ok rest) ∧
    compose graded "/conf" "/conf/config.yaml" ["db=pg", "xs.0=9", "db.port=1"] =
      .error (.keyNotFound "db.port") ∧
    compose graded "/conf" "/conf/config.yaml" ["db=pg", "xs.0=9", "+db.port=1", "~db.port"] =
      .ok gradedDocument := by
  have h : compose graded "/conf" "/conf/config.yaml" ["db=pg", "xs.0=9"] = .ok gradedDocument := by
    decide +kernel
  have hfound : gradedDocument.get? (Text.splitAll '.' "xs.1") = some (.number (.int 2)) := by
    decide +kernel
  have hmissing : gradedDocument.get? (Text.splitAll '.' "db.port") = none := by decide +kernel
  have hparent : gradedDocument.get? ["db".toList] =
      some (.mapping [(.string "host", .string "pg")]) := by decide +kernel
  obtain ⟨changed, rest, hchanged, hrest, hassign, hforce, happend, hdelete⟩ :=
    (compose_grammar h "xs.1" "x").1 _ hfound
  obtain ⟨habsent, -, -, hundo⟩ := (compose_grammar h "db.port" "1").2 hmissing
  refine ⟨h, ⟨changed, rest, hchanged, hrest, ?_, ?_, ?_, ?_⟩, ?_, ?_⟩
  · exact hassign " xs.1 =x".toList (forDocument_graded (by decide +kernel) (by decide +kernel))
  · exact hforce "++xs.1=x".toList (forDocument_graded (by decide +kernel) (by decide +kernel))
  · exact happend "+xs.1=x".toList (forDocument_graded (by decide +kernel) (by decide +kernel))
  · exact hdelete "~xs.1".toList none (forDocument_graded (by decide +kernel) (by decide +kernel))
  · exact habsent "db.port=1".toList (forDocument_graded (by decide +kernel) (by decide +kernel))
  · exact hundo ["db"] "port" _ "+db.port=1".toList "~db.port".toList none (by decide +kernel)
      hparent (forDocument_graded (by decide +kernel) (by decide +kernel))
      (forDocument_graded (by decide +kernel) (by decide +kernel))

end Strict
end LayeredConfig
