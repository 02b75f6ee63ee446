import LayeredConfig.Proofs.Compose.Steps
import LayeredConfig.Proofs.Compose.Strict
import Mathlib.Data.List.Induction
import Mathlib.Logic.Function.Basic

/-!
# Entries that replace others

Entries marked `override` change a plan while it is made. What comes of it is the plan of another
list, without any marks: the first entry of each group has the name that the last `override` of the
group gives it, and all else stays in its place.
-/
namespace LayeredConfig

open Outcome DefaultsEntry

namespace Defaults

/-- The name that an entry marked `override` gives a group. -/
def markedName? (group : Text) : DefaultsEntry → Option Text
  | .group s => if s.isOverride ∧ s.group = group then some s.name else none
  | _ => none

/-- The name that the last entry marked `override` gives a group. -/
def overrideName? (es : List DefaultsEntry) (group : Text) : Option Text :=
  (es.filterMap (markedName? group)).getLast?

/-- The list with the names that `name?` gives to groups. The first entry of a group takes its name;
later ones keep their own. -/
def settle (name? : Text → Option Text) : List DefaultsEntry → List DefaultsEntry
  | [] => []
  | .group s :: es =>
    .group { s with name := (name? s.group).getD s.name } ::
      settle (Function.update name? s.group none) es
  | e :: es => e :: settle name? es

/-- The list without its marked entries, the first entry of each group with the name that the last
`override` of the group gives it. -/
def settled (es : List DefaultsEntry) : List DefaultsEntry :=
  settle (overrideName? es) (es.filter fun e => ¬ e.isMarked)

/-- Every entry marked `override` has an entry of its group before it that is not marked. -/
def Aimed (es : List DefaultsEntry) : Prop :=
  ∀ before s after, es = before ++ .group s :: after → s.isOverride = true →
    ∃ e ∈ before, e.isMarked = false ∧ e.isOf s.group = true

theorem Aimed.front {es fs : List DefaultsEntry} (h : Aimed (es ++ fs)) : Aimed es := by
  rintro before s after rfl
  exact h before s (after ++ fs) (by simp)

theorem aimed_nil : Aimed [] := fun before _ _ h => absurd h (by simp)

theorem aimed_append {es fs : List DefaultsEntry} : Aimed (es ++ fs) ↔ Aimed es ∧
    ∀ before s after, fs = before ++ .group s :: after → s.isOverride = true →
      ∃ e ∈ es ++ before, e.isMarked = false ∧ e.isOf s.group = true := by
  constructor
  · rintro h
    refine ⟨h.front, ?_⟩
    rintro before s after rfl hmark
    exact h (es ++ before) s after (by simp) hmark
  · rintro ⟨hes, hfs⟩ before s after hsplit hmark
    rcases List.append_eq_append_iff.1 hsplit with ⟨more, rfl, hmore⟩ | ⟨more, rfl, hmore⟩
    · exact hfs more s after hmore hmark
    · cases more with
      | nil => simpa using hfs [] s after hmore.symm hmark
      | cons f more =>
        obtain ⟨rfl, -⟩ := List.cons.inj hmore
        exact hes before s more rfl hmark

theorem Aimed.concat {es : List DefaultsEntry} (h : Aimed es) {e : DefaultsEntry}
    (he : ∀ s, e = .group s → s.isOverride = true →
      ∃ f ∈ es, f.isMarked = false ∧ f.isOf s.group = true) : Aimed (es ++ [e]) := by
  refine aimed_append.2 ⟨h, fun before s after hsplit hmark => ?_⟩
  cases before with
  | nil =>
    obtain ⟨rfl, -⟩ := List.cons.inj hsplit
    simpa using he s rfl hmark
  | cons f before => simp at hsplit

/-- If there is an entry of a group, there is one that is not marked. -/
theorem Aimed.exists_of_isOf {es : List DefaultsEntry} (h : Aimed es) {e : DefaultsEntry}
    (he : e ∈ es) {group : Text} (hgroup : e.isOf group = true) :
    ∃ f ∈ es, f.isMarked = false ∧ f.isOf group = true := by
  cases hmark : e.isMarked with
  | false => exact ⟨e, he, hmark, hgroup⟩
  | true =>
    obtain ⟨before, after, rfl⟩ := List.append_of_mem he
    cases e with
    | group s =>
      obtain rfl : s.group = group := by simpa [isOf] using hgroup
      obtain ⟨f, hf, hplain⟩ := h before s after rfl hmark
      exact ⟨f, List.mem_append_left _ hf, hplain⟩
    | _ => cases hmark

theorem Aimed.any_isOf {es : List DefaultsEntry} (h : Aimed es) (group : Text) :
    (es.filter fun e => ¬ e.isMarked).any (isOf group) = es.any (isOf group) := by
  rw [Bool.eq_iff_iff, List.any_eq_true, List.any_eq_true]
  constructor
  · rintro ⟨e, he, hgroup⟩
    exact ⟨e, (List.mem_filter.1 he).1, hgroup⟩
  · rintro ⟨e, he, hgroup⟩
    obtain ⟨f, hf, hplain, hfgroup⟩ := h.exists_of_isOf he hgroup
    exact ⟨f, List.mem_filter.2 ⟨hf, by simp [hplain]⟩, hfgroup⟩

theorem overrideName?_concat_plain (es : List DefaultsEntry) {e : DefaultsEntry}
    (h : e.isMarked = false) : overrideName? (es ++ [e]) = overrideName? es := by
  funext group
  have hnone : markedName? group e = none := by
    cases e with
    | group s => exact if_neg (by simpa [isMarked] using fun hs => absurd (hs.symm.trans h) nofun)
    | _ => rfl
  simp [overrideName?, hnone]

theorem overrideName?_concat_override (es : List DefaultsEntry) {s : GroupSelection}
    (h : s.isOverride = true) : overrideName? (es ++ [.group s]) =
      Function.update (overrideName? es) s.group (some s.name) := by
  funext group
  by_cases hg : group = s.group
  · subst hg
    simp [overrideName?, markedName?, h]
  · rw [Function.update_of_ne hg]
    have hnone : markedName? group (.group s) = none := if_neg fun hs => hg hs.2.symm
    simp [overrideName?, hnone]

theorem markedName?_eq_some {e : DefaultsEntry} {group name : Text}
    (h : markedName? group e = some name) :
    ∃ s, e = .group s ∧ s.isOverride = true ∧ s.group = group := by
  cases e with
  | group s =>
    simp only [markedName?] at h
    split at h
    · next hs => exact ⟨s, rfl, hs⟩
    · cases h
  | _ => cases h

/-- A name is given by an entry that is marked. -/
theorem overrideName?_eq_some {es : List DefaultsEntry} {group name : Text}
    (h : overrideName? es group = some name) :
    ∃ s, .group s ∈ es ∧ s.isOverride = true ∧ s.group = group := by
  obtain ⟨e, he, hname⟩ := List.mem_filterMap.1 (List.mem_of_getLast? h)
  obtain ⟨s, rfl, hs⟩ := markedName?_eq_some hname
  exact ⟨s, he, hs⟩

theorem Aimed.exists_of_name {es : List DefaultsEntry} (h : Aimed es) {group name : Text}
    (hname : overrideName? es group = some name) :
    ∃ e ∈ es, e.isMarked = false ∧ e.isOf group = true := by
  obtain ⟨s, hs, -, rfl⟩ := overrideName?_eq_some hname
  exact h.exists_of_isOf hs (by simp [isOf])

variable {name? : Text → Option Text}

/-- A name for one more group is given to its first entry. -/
theorem settle_update (name? : Text → Option Text) (group name : Text) (es : List DefaultsEntry) :
    settle (Function.update name? group (some name)) es = rename group name (settle name? es) := by
  induction es generalizing name? with
  | nil => rfl
  | cons e es ih =>
    cases e with
    | group s =>
      by_cases hg : s.group = group
      · subst hg
        simp [settle, rename, isOf, withName]
      · rw [settle, settle, Function.update_of_ne hg, Function.update_comm (Ne.symm hg), ih, rename,
          if_neg (by simpa [isOf] using hg)]
    | _ => simp [settle, rename, isOf, ih]

/-- What becomes of an entry behind others: another name, if it is the first of a group that is
given one. -/
def placed (name? : Text → Option Text) (before : List DefaultsEntry) :
    DefaultsEntry → DefaultsEntry
  | .group s =>
    if before.any (isOf s.group) then .group s
    else .group { s with name := (name? s.group).getD s.name }
  | e => e

/-- The names that are not taken by entries of a list. -/
def leftBy (before : List DefaultsEntry) (name? : Text → Option Text) (group : Text) :
    Option Text :=
  if before.any (isOf group) then none else name? group

theorem leftBy_leftBy (es fs : List DefaultsEntry) :
    leftBy fs (leftBy es name?) = leftBy (es ++ fs) name? := by
  funext group
  simp only [leftBy, List.any_append]
  cases es.any (isOf group) <;> cases fs.any (isOf group) <;> rfl

theorem placed_leftBy (before after : List DefaultsEntry) (e : DefaultsEntry) :
    placed (leftBy before name?) after e = placed name? (before ++ after) e := by
  cases e with
  | group s =>
    simp only [placed, leftBy, List.any_append]
    cases before.any (isOf s.group) <;> cases after.any (isOf s.group) <;> rfl
  | _ => rfl

/-- The first entry takes the name of its group. -/
theorem settle_cons (e : DefaultsEntry) (es : List DefaultsEntry) :
    settle name? (e :: es) = placed name? [] e :: settle (leftBy [e] name?) es := by
  cases e with
  | group s =>
    have hleft : leftBy [.group s] name? = Function.update name? s.group none := by
      funext group
      by_cases hg : group = s.group
      · subst hg
        simp [leftBy, isOf]
      · simp [leftBy, isOf, Ne.symm hg, Function.update_of_ne hg]
    rw [settle, hleft]
    rfl
  | _ =>
    rw [settle]
    · rfl
    · simp

theorem settle_append (es fs : List DefaultsEntry) :
    settle name? (es ++ fs) = settle name? es ++ settle (leftBy es name?) fs := by
  induction es generalizing name? with
  | nil => rfl
  | cons e es ih =>
    rw [List.cons_append, settle_cons, settle_cons, ih, leftBy_leftBy, List.singleton_append,
      List.cons_append]

/-- An entry is placed by what is before it. -/
theorem settle_between (before : List DefaultsEntry) (e : DefaultsEntry)
    (after : List DefaultsEntry) :
    settle name? (before ++ e :: after) =
      settle name? before ++ placed name? before e ::
        settle (leftBy (before ++ [e]) name?) after := by
  rw [settle_append, settle_cons, placed_leftBy, leftBy_leftBy, List.append_nil]

/-- An entry keeps its name, unless it is the first of a group that is given one. -/
theorem placed_of_any {before : List DefaultsEntry} {e : DefaultsEntry}
    (h : ∀ group name, e.isOf group = true → name? group = some name →
      before.any (isOf group) = true) : placed name? before e = e := by
  cases e with
  | group s =>
    cases hname : name? s.group with
    | some name => exact if_pos (h s.group name (by simp [isOf]) hname)
    | none => simp [placed, hname]
  | _ => rfl

theorem any_isOf_settle (group : Text) (es : List DefaultsEntry) :
    (settle name? es).any (isOf group) = es.any (isOf group) := by
  induction es generalizing name? with
  | nil => rfl
  | cons e es ih => cases e <;> simp [settle, isOf, ih]

theorem length_settle (es : List DefaultsEntry) : (settle name? es).length = es.length := by
  induction es generalizing name? with
  | nil => rfl
  | cons e es ih => cases e <;> simp [settle, ih]

/-- Every entry stays at its position. -/
theorem getElem?_settle (before : List DefaultsEntry) (e : DefaultsEntry)
    (after : List DefaultsEntry) :
    (settle name? (before ++ e :: after))[before.length]? = some (placed name? before e) := by
  rw [settle_between, List.getElem?_append_right (Nat.le_of_eq (length_settle before)),
    length_settle, Nat.sub_self, List.getElem?_cons_zero]

/-- Settling brings no entries into a list but selections. -/
theorem mem_settle {es : List DefaultsEntry} {e : DefaultsEntry} (h : e ∈ settle name? es) :
    e ∈ es ∨ ∃ s, e = .group s ∧ ∃ g, .group g ∈ es ∧ s.isOverride = g.isOverride := by
  induction es generalizing name? with
  | nil => cases h
  | cons f es ih =>
    have hrest : ∀ {name?}, e ∈ settle name? es → e ∈ f :: es ∨
        ∃ s, e = .group s ∧ ∃ g, .group g ∈ f :: es ∧ s.isOverride = g.isOverride := by
      intro name? h
      refine (ih h).imp (List.mem_cons_of_mem _) ?_
      rintro ⟨s, rfl, g, hg, hs⟩
      exact ⟨s, rfl, g, List.mem_cons_of_mem _ hg, hs⟩
    cases f with
    | group s =>
      rcases List.mem_cons.1 h with rfl | h
      · exact Or.inr ⟨_, rfl, s, List.mem_cons_self, rfl⟩
      · exact hrest h
    | _ =>
      rw [settle] at h
      · rcases List.mem_cons.1 h with rfl | h
        · exact Or.inl List.mem_cons_self
        · exact hrest h
      all_goals simp

theorem any_isOf_settled {es : List DefaultsEntry} {group : Text}
    (h : ∃ e ∈ es, e.isMarked = false ∧ e.isOf group = true) :
    (settled es).any (isOf group) = true := by
  obtain ⟨e, he, hplain, hgroup⟩ := h
  rw [settled, any_isOf_settle]
  exact List.any_eq_true.2 ⟨e, List.mem_filter.2 ⟨he, by simp [hplain]⟩, hgroup⟩

theorem not_isMarked_of_mem_settled {es : List DefaultsEntry} {e : DefaultsEntry}
    (h : e ∈ settled es) : e.isMarked = false := by
  have hplain : ∀ f ∈ es.filter fun e => ¬ e.isMarked, f.isMarked = false := by
    intro f hf
    simpa using (List.mem_filter.1 hf).2
  rcases mem_settle h with he | ⟨s, rfl, g, hg, hs⟩
  · exact hplain e he
  · exact hs.trans (hplain _ hg)

theorem settled_concat_plain {es : List DefaultsEntry} {e : DefaultsEntry} (he : e.isMarked = false)
    (h : Aimed es) : settled (es ++ [e]) = settled es ++ [e] := by
  have hfilter : (es ++ [e]).filter (fun e => ¬ e.isMarked) =
      es.filter (fun e => ¬ e.isMarked) ++ [e] := by
    simp [List.filter_append, he]
  rw [settled, settled, overrideName?_concat_plain es he, hfilter, settle_between, settle]
  refine congrArg (fun f => _ ++ [f]) (placed_of_any fun group name _ hname => ?_)
  obtain ⟨f, hf, hplain, hgroup⟩ := h.exists_of_name hname
  exact List.any_eq_true.2 ⟨f, List.mem_filter.2 ⟨hf, by simp [hplain]⟩, hgroup⟩

theorem settled_concat_override {es : List DefaultsEntry} {s : GroupSelection}
    (h : s.isOverride = true) :
    settled (es ++ [.group s]) = rename s.group s.name (settled es) := by
  have hfilter : (es ++ [DefaultsEntry.group s]).filter (fun e => ¬ e.isMarked) =
      es.filter (fun e => ¬ e.isMarked) := by
    simp [List.filter_append, isMarked, h]
  rw [settled, settled, overrideName?_concat_override es h, hfilter, settle_update]

end Defaults

open Defaults

namespace Plan

variable {t : FileTree} {root : Path} {es : List DefaultsEntry}

/-- While a plan is made, it is the steps of the settled list of the entries so far. -/
theorem foldlM_add_eq_settled (h : Aimed es) :
    es.foldlM (add t root) [] = steps t root (settled es) := by
  induction es using List.reverseRecOn with
  | nil => rfl
  | append_singleton es e ih =>
    rw [List.foldlM_append, ih h.front]
    cases he : e.isMarked with
    | false =>
      rw [settled_concat_plain he h.front, steps_append]
      refine congrArg (Except.bind _) (funext fun p => ?_)
      exact foldlM_add_eq_steps (by simpa using he) p
    | true =>
      cases e with
      | group s =>
        have hmark : s.isOverride = true := he
        rw [settled_concat_override hmark, steps_rename]
        cases hp : steps t root (settled es) with
        | error _ => rfl
        | ok p =>
          have hsel : p.selects s.group = true :=
            (selects_steps hp _).trans (any_isOf_settled (h es s [] rfl hmark))
          simp [ok_bind, add, hmark, hsel, Except.map]
      | _ => cases he

/-- An entry marked `override` with nothing to take the place of is the end of a plan. -/
theorem aimed_of_foldlM_add {p : Plan} (h : es.foldlM (add t root) [] = .ok p) : Aimed es := by
  induction es using List.reverseRecOn generalizing p with
  | nil => exact aimed_nil
  | append_singleton es e ih =>
    rw [List.foldlM_append] at h
    obtain ⟨q, hq, h⟩ := bind_eq_ok.1 h
    have haimed := ih hq
    refine haimed.concat ?_
    rintro s rfl hmark
    rw [foldlM_add_eq_settled haimed] at hq
    have hsel : q.selects s.group = true := by
      by_contra hnone
      simp [add, hmark, hnone] at h
    rw [selects_steps hq, settled, any_isOf_settle, List.any_eq_true] at hsel
    obtain ⟨f, hf, hgroup⟩ := hsel
    obtain ⟨hf, hplain⟩ := List.mem_filter.1 hf
    exact ⟨f, hf, by simpa using hplain, hgroup⟩

theorem aimed_of_ofEntries {p : Plan} (h : ofEntries t root es = .ok p) : Aimed es := by
  obtain ⟨q, hq, -⟩ := bind_eq_ok.1 h
  exact aimed_of_foldlM_add hq

theorem ofEntries_eq_settled (h : Aimed es) :
    ofEntries t root es = ofEntries t root (settled es) := by
  rw [ofEntries_eq_steps fun _ => not_isMarked_of_mem_settled, ofEntries, foldlM_add_eq_settled h]
  cases steps t root (settled es) <;> rfl

/-- Entries that each stand for a step make a plan. -/
theorem exists_steps (h : ∀ e ∈ es, ∃ s, e.step t root = .ok s) : ∃ p, steps t root es = .ok p := by
  induction es with
  | nil => exact ⟨[], rfl⟩
  | cons e es ih =>
    obtain ⟨⟨s, hs⟩, hes⟩ := List.forall_mem_cons.1 h
    obtain ⟨p, hp⟩ := ih hes
    exact ⟨s :: p, by rw [steps_cons, hs, hp]; rfl⟩

theorem exists_steps_settled (hknown : ∀ raw, .unrecognized raw ∉ es)
    (hbare : ∀ name, .bare name ∈ es →
      t.isFile (modulePath root Defaults.rootGroup name) = true) :
    ∃ p, steps t root (settled es) = .ok p := by
  refine exists_steps fun e he => ?_
  have hcases : e ∈ es ∨ ∃ s, e = .group s := by
    refine (mem_settle he).imp (fun h => (List.mem_filter.1 h).1) ?_
    rintro ⟨s, rfl, -⟩
    exact ⟨s, rfl⟩
  cases e with
  | selfMarker => exact ⟨_, rfl⟩
  | bare name => exact ⟨_, if_pos (hbare name (hcases.resolve_right (by simp)))⟩
  | group s => exact ⟨_, rfl⟩
  | unrecognized raw => exact absurd (hcases.resolve_right (by simp)) (hknown raw)

/-- **Entries marked `override` replace in place.** In a list whose entries are all recognized and
whose bare names all have a file, the first entry marked `override` with nothing before it to take
the place of is the reason why there is no plan. If there is none, the plan is that of the settled
list: the entries that are not marked, each at its position, the first of a group with the name of
the last `override` of the group. -/
theorem ofEntries_override_in_place (hknown : ∀ raw, .unrecognized raw ∉ es)
    (hbare : ∀ name, .bare name ∈ es →
      t.isFile (modulePath root Defaults.rootGroup name) = true) :
    (∀ before s after, es = before ++ .group s :: after → s.isOverride = true → Aimed before →
      (∀ e ∈ before, e.isMarked = false → e.isOf s.group = false) →
      ofEntries t root es = .error (.overrideWithoutTarget s.group)) ∧
    (Aimed es → ∃ p, steps t root (settled es) = .ok p ∧ ofEntries t root es = .ok (close p) ∧
      ofEntries t root (settled es) = .ok (close p) ∧ .ownKeys ∈ close p) ∧
    (settled es).length = (es.filter fun e => ¬ e.isMarked).length ∧
    ∀ before e after, (es.filter fun e => ¬ e.isMarked) = before ++ e :: after →
      (settled es)[before.length]? = some (placed (overrideName? es) before e) := by
  refine ⟨?_, ?_, length_settle _, fun before e after hsplit => ?_⟩
  · rintro before s after rfl hmark haimed hnone
    obtain ⟨p, hp⟩ : ∃ p, steps t root (settled before) = .ok p := exists_steps_settled
      (fun raw hraw => hknown raw (List.mem_append_left _ hraw))
      (fun name hname => hbare name (List.mem_append_left _ hname))
    have hsel : p.selects s.group = false := by
      rw [selects_steps hp, settled, any_isOf_settle, List.any_eq_false]
      intro e he
      obtain ⟨he, hplain⟩ := List.mem_filter.1 he
      simpa using hnone e he (by simpa using hplain)
    rw [ofEntries, List.foldlM_append, foldlM_add_eq_settled haimed, hp, ok_bind, List.foldlM_cons]
    simp only [add, hmark, hsel, if_true, Bool.false_eq_true, if_false]
    rfl
  · intro haimed
    obtain ⟨p, hp⟩ := exists_steps_settled hknown hbare
    have hplan : ofEntries t root (settled es) = .ok (close p) := by
      rw [ofEntries_eq_steps fun _ => not_isMarked_of_mem_settled, hp]
      rfl
    exact ⟨p, hp, (ofEntries_eq_settled haimed).trans hplan, hplan, ownKeys_mem_close p⟩
  · rw [settled, hsplit]
    exact getElem?_settle before e after

/-- A list in which two entries marked `override` replace the first of two selections from a
group. -/
def replacing : List DefaultsEntry := [
  .bare "base", .group ⟨"model", "wide", false, .mapping⟩, .selfMarker,
  .group ⟨"model", "deep", false, .path⟩, .group ⟨"model", "narrow", true, .mapping⟩,
  .group ⟨"model", "flat", true, .mapping⟩]

theorem aimed_replacing : Aimed replacing := by
  have hfirst : Aimed [.bare "base", .group ⟨"model", "wide", false, .mapping⟩, .selfMarker,
      .group ⟨"model", "deep", false, .path⟩] :=
    (((aimed_nil.concat (by simp)).concat (by simp)).concat (by simp)).concat (by simp)
  refine (hfirst.concat ?_).concat ?_ <;>
  · intro s hs _
    cases hs
    exact ⟨.group ⟨"model", "wide", false, .mapping⟩, by simp, rfl, rfl⟩

theorem ofEntries_override_in_place_replacing :
    ofEntries Strict.interleaved "/conf" replacing = .ok
      [.rootFile "base", .group "model" "flat", .ownKeys, .group "model" "deep"] ∧
    ofEntries Strict.interleaved "/conf" (replacing ++ [.group ⟨"db", "main", true, .mapping⟩]) =
      .error (.overrideWithoutTarget "db") := by
  have hknown : ∀ raw, .unrecognized raw ∉ replacing := by simp [replacing]
  have hbare : ∀ name, .bare name ∈ replacing →
      Strict.interleaved.isFile (modulePath "/conf" Defaults.rootGroup name) = true := by
    intro name hname
    obtain rfl : name = "base".toList := by simpa [replacing] using hname
    decide +kernel
  obtain ⟨p, hp, hplan, -, -⟩ := (ofEntries_override_in_place hknown hbare).2.1 aimed_replacing
  have hsteps : steps Strict.interleaved "/conf" (settled replacing) = .ok
      [.rootFile "base", .group "model" "flat", .ownKeys, .group "model" "deep"] := by
    decide +kernel
  cases hsteps.symm.trans hp
  refine ⟨hplan, ?_⟩
  refine (ofEntries_override_in_place ?_ ?_).1 replacing ⟨"db", "main", true, .mapping⟩ [] rfl rfl
    aimed_replacing (by decide)
  · intro raw hraw
    exact hknown raw (by simpa using hraw)
  · intro name hname
    exact hbare name (by simpa using hname)

end Plan
end LayeredConfig
