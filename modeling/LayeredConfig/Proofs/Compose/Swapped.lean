import LayeredConfig.Proofs.Compose.ListEdits
import LayeredConfig.Proofs.Compose.Settled
import LayeredConfig.Proofs.Document.Reordered

/-!
# Neighbours that change places

Two entries next to each other in a defaults list that set no common key can change places: the plan
has two of its steps in the other order, and the composition its keys. Entries marked `override`
depend on the order of the list too, since each replaces the first entry of its group, and of two
for one group the later counts.
-/
namespace LayeredConfig

open Outcome DefaultsEntry

namespace Defaults

variable {front back : List DefaultsEntry} {x y : DefaultsEntry}

/-- No `override` depends on which of two neighbours is the first. If both are of one group, then an
entry before them is the one that is replaced, and at most one of them replaces it, or none of them
and of the entries behind them is marked for that group. -/
def Swappable (front : List DefaultsEntry) (x y : DefaultsEntry) (back : List DefaultsEntry) :
    Prop :=
  ∀ group, x.isOf group = true → y.isOf group = true →
    (front.any (isOf group) = true ∧ (x.isMarked = false ∨ y.isMarked = false)) ∨
      ∀ e ∈ x :: y :: back, e.isOf group = true → e.isMarked = false

/-- The groups are given the same names. -/
theorem overrideName?_swap (h : Swappable front x y back) :
    overrideName? (front ++ y :: x :: back) = overrideName? (front ++ x :: y :: back) := by
  funext group
  simp only [overrideName?, List.filterMap_append, List.filterMap_cons]
  cases hx : markedName? group x with
  | none => rfl
  | some n =>
    cases hy : markedName? group y with
    | none => rfl
    | some m =>
      obtain ⟨s, rfl, hs, rfl⟩ := markedName?_eq_some hx
      obtain ⟨g, rfl, hg, hgroup⟩ := markedName?_eq_some hy
      have hof : isOf s.group (.group s) = true := by simp [isOf]
      rcases h s.group hof (by simpa [isOf] using hgroup) with ⟨-, hplain | hplain⟩ | hplain
      · exact absurd (hplain.symm.trans hs) Bool.false_ne_true
      · exact absurd (hplain.symm.trans hg) Bool.false_ne_true
      · exact absurd ((hplain _ List.mem_cons_self hof).symm.trans hs) Bool.false_ne_true

theorem aimed_swap (h : Swappable front x y back) (haimed : Aimed (front ++ x :: y :: back)) :
    Aimed (front ++ y :: x :: back) := by
  have hsplit : ∀ e f : DefaultsEntry, front ++ e :: f :: back = front ++ [e] ++ [f] ++ back := by
    simp
  rw [hsplit] at haimed ⊢
  obtain ⟨hboth, hback⟩ := aimed_append.1 haimed
  have hfront : Aimed front := hboth.front.front
  have hy : Aimed (front ++ [y]) := by
    refine hfront.concat ?_
    rintro s rfl hmark
    obtain ⟨f, hf, hplain, hgroup⟩ := hboth (front ++ [x]) s [] rfl hmark
    rcases List.mem_append.1 hf with hf | hf
    · exact ⟨f, hf, hplain, hgroup⟩
    · -- It is aimed at its neighbour, and then at what that is aimed at.
      obtain rfl := List.mem_singleton.1 hf
      rcases h s.group hgroup (by simp [isOf]) with ⟨hany, -⟩ | hnone
      · obtain ⟨e, he, hgroup⟩ := List.any_eq_true.1 hany
        exact hfront.exists_of_isOf he hgroup
      · exact absurd ((hnone (.group s) (by simp) (by simp [isOf])).symm.trans hmark)
          Bool.false_ne_true
  have hx : Aimed (front ++ [y] ++ [x]) := by
    refine hy.concat ?_
    rintro s rfl hmark
    obtain ⟨f, hf, hplain⟩ := hboth.front front s [] rfl hmark
    exact ⟨f, List.mem_append_left _ hf, hplain⟩
  refine aimed_append.2 ⟨hx, fun before s after hafter hmark => ?_⟩
  obtain ⟨f, hf, hplain⟩ := hback before s after hafter hmark
  refine ⟨f, ?_, hplain⟩
  simp only [List.mem_append] at hf ⊢
  tauto

variable {name? : Text → Option Text}

/-- What becomes of an entry does not depend on a neighbour before it, unless there is a name left
for both of them. -/
theorem placed_concat {f e : DefaultsEntry}
    (h : ∀ group, f.isOf group = true → e.isOf group = true → leftBy front name? group = none) :
    placed name? (front ++ [f]) e = placed name? front e := by
  cases e with
  | group s =>
    simp only [placed, List.any_append, List.any_cons, List.any_nil, Bool.or_false]
    cases hf : f.isOf s.group with
    | false => rw [Bool.or_false]
    | true =>
      have hnone := h s.group hf (by simp [isOf])
      cases hany : front.any (isOf s.group) with
      | true => rfl
      | false =>
        have hname : name? s.group = none := by simpa [leftBy, hany] using hnone
        simp [hname]
  | _ => rfl

/-- For a group of both neighbours there is no name left. -/
theorem leftBy_eq_none (h : Swappable front x y back) {group : Text} (hx : x.isOf group = true)
    (hy : y.isOf group = true) :
    leftBy front (overrideName? (front ++ x :: y :: back)) group = none := by
  unfold leftBy
  split
  · rfl
  next hfront =>
  cases hname : overrideName? (front ++ x :: y :: back) group with
  | none => rfl
  | some name =>
    rcases h group hx hy with ⟨hany, -⟩ | hplain
    · exact absurd hany hfront
    · obtain ⟨s, hs, hmark, hgroup⟩ := overrideName?_eq_some hname
      rcases List.mem_append.1 hs with hs | hs
      · exact absurd (List.any_eq_true.2 ⟨_, hs, by simpa [isOf] using hgroup⟩) hfront
      · exact absurd ((hplain _ hs (by simpa [isOf] using hgroup)).symm.trans hmark)
          Bool.false_ne_true

theorem settle_neighbours (before : List DefaultsEntry) (e f : DefaultsEntry)
    (after : List DefaultsEntry) :
    settle name? (before ++ e :: f :: after) = settle name? before ++
      placed name? before e :: placed name? (before ++ [e]) f ::
        settle (leftBy (before ++ [e, f]) name?) after := by
  rw [settle_between, settle_cons, placed_leftBy, leftBy_leftBy, List.append_nil, List.append_assoc,
    List.singleton_append]

theorem leftBy_swap (before : List DefaultsEntry) (e f : DefaultsEntry) :
    leftBy (before ++ [e, f]) name? = leftBy (before ++ [f, e]) name? := by
  funext group
  have hany : [e, f].any (isOf group) = [f, e].any (isOf group) := by simp [Bool.or_comm]
  rw [leftBy, leftBy, List.any_append, List.any_append, hany]

/-- Neighbours that no name is left for stand in a settled list as they do in the list. -/
theorem settle_swap
    (h : ∀ group, x.isOf group = true → y.isOf group = true → leftBy front name? group = none)
    (back : List DefaultsEntry) : ∃ after,
    settle name? (front ++ x :: y :: back) =
      settle name? front ++ placed name? front x :: placed name? front y :: after ∧
    settle name? (front ++ y :: x :: back) =
      settle name? front ++ placed name? front y :: placed name? front x :: after := by
  rw [settle_neighbours, settle_neighbours, leftBy_swap front y x, placed_concat h,
    placed_concat fun group hy hx => h group hx hy]
  exact ⟨_, rfl, rfl⟩

/-- If one of the neighbours is marked, the settled list stays as it is. -/
theorem settled_swap_of_marked (h : Swappable front x y back)
    (hm : x.isMarked = true ∨ y.isMarked = true) :
    settled (front ++ y :: x :: back) = settled (front ++ x :: y :: back) := by
  rw [settled, settled, overrideName?_swap h]
  simp only [List.filter_append, List.filter_cons]
  rcases hm with hm | hm <;> simp [hm]

/-- If none is, they stand in it in the other order. -/
theorem settled_swap_of_plain (h : Swappable front x y back) (haimed : Aimed front)
    (hx : x.isMarked = false) (hy : y.isMarked = false) :
    let name? := overrideName? (front ++ x :: y :: back)
    ∃ before after,
      settled (front ++ x :: y :: back) =
        before ++ placed name? front x :: placed name? front y :: after ∧
      settled (front ++ y :: x :: back) =
        before ++ placed name? front y :: placed name? front x :: after := by
  intro name?
  have hleft : ∀ name?, leftBy (front.filter fun e => ¬ e.isMarked) name? = leftBy front name? := by
    intro name?
    funext group
    rw [leftBy, haimed.any_isOf, leftBy]
  have hplaced : ∀ e, placed name? (front.filter fun e => ¬ e.isMarked) e =
      placed name? front e := by
    intro e
    rw [← List.append_nil (front.filter _), ← placed_leftBy, hleft, placed_leftBy, List.append_nil]
  have hnone : ∀ group, x.isOf group = true → y.isOf group = true →
      leftBy (front.filter fun e => ¬ e.isMarked) name? group = none := by
    intro group hgx hgy
    rw [hleft]
    exact leftBy_eq_none h hgx hgy
  obtain ⟨after, hxy, hyx⟩ := settle_swap hnone (back.filter fun e => ¬ e.isMarked)
  rw [hplaced, hplaced] at hxy hyx
  refine ⟨_, after, Eq.trans ?_ hxy, Eq.trans ?_ hyx⟩
  · simp [settled, List.filter_append, hx, hy, name?]
  · simp [settled, List.filter_append, hx, hy, name?, overrideName?_swap h]

end Defaults

open Defaults

namespace Plan

variable {t : FileTree} {root : Path} {front back : List DefaultsEntry} {x y : DefaultsEntry}

theorem steps_swap {e f : DefaultsEntry} {before after : List DefaultsEntry} {plan : Plan}
    (h : steps t root (before ++ e :: f :: after) = .ok plan) :
    ∃ front s s' back, e.step t root = .ok s ∧ f.step t root = .ok s' ∧
      plan = front ++ s :: s' :: back ∧
      steps t root (before ++ f :: e :: after) = .ok (front ++ s' :: s :: back) := by
  obtain ⟨front, behind, hfront, hbehind, rfl⟩ := steps_append_eq_ok.1 h
  obtain ⟨s, rest, hs, hrest, rfl⟩ := steps_cons_eq_ok.1 hbehind
  obtain ⟨s', back, hs', hback, rfl⟩ := steps_cons_eq_ok.1 hrest
  refine ⟨front, s, s', back, hs, hs', rfl, steps_append_eq_ok.2 ⟨front, _, hfront, ?_, rfl⟩⟩
  exact steps_cons_eq_ok.2 ⟨s', _, hs', steps_cons_eq_ok.2 ⟨s, back, hs, hback, rfl⟩, rfl⟩

theorem close_swap (front : Plan) (s s' : Step) (back : Plan) : ∃ more,
    close (front ++ s :: s' :: back) = front ++ s :: s' :: (back ++ more) ∧
    close (front ++ s' :: s :: back) = front ++ s' :: s :: (back ++ more) := by
  have hmem : (front ++ s' :: s :: back).contains .ownKeys =
      (front ++ s :: s' :: back).contains .ownKeys :=
    ((List.Perm.swap s s' back).append_left front).contains_eq
  unfold close
  rw [hmem]
  split
  · exact ⟨[], by simp⟩
  · exact ⟨[.ownKeys], by simp⟩

/-- **Neighbours that can be swapped** give the same plan, or one with their steps in the other
order. -/
theorem ofEntries_swap (h : Swappable front x y back) {plan : Plan}
    (hplan : ofEntries t root (front ++ x :: y :: back) = .ok plan) :
    let name? := overrideName? (front ++ x :: y :: back)
    ofEntries t root (front ++ y :: x :: back) = .ok plan ∨
      x.isMarked = false ∧ y.isMarked = false ∧
      ∃ before s s' after, (placed name? front x).step t root = .ok s ∧
        (placed name? front y).step t root = .ok s' ∧
        plan = before ++ s :: s' :: after ∧
        ofEntries t root (front ++ y :: x :: back) = .ok (before ++ s' :: s :: after) := by
  intro name?
  have haimed := aimed_of_ofEntries hplan
  rw [ofEntries_eq_settled haimed] at hplan
  rw [ofEntries_eq_settled (aimed_swap h haimed)]
  cases hx : x.isMarked with
  | true => exact Or.inl ((settled_swap_of_marked h (Or.inl hx)).symm ▸ hplan)
  | false =>
    cases hy : y.isMarked with
    | true => exact Or.inl ((settled_swap_of_marked h (Or.inr hy)).symm ▸ hplan)
    | false =>
      refine Or.inr ⟨rfl, rfl, ?_⟩
      obtain ⟨before, after, hxy, hyx⟩ := settled_swap_of_plain h haimed.front hx hy
      rw [ofEntries_eq_steps fun _ => not_isMarked_of_mem_settled, hxy] at hplan
      rw [ofEntries_eq_steps fun _ => not_isMarked_of_mem_settled, hyx]
      obtain ⟨p, hp, rfl⟩ := map_eq_ok.1 hplan
      obtain ⟨before, s, s', after, hs, hs', rfl, hswapped⟩ := steps_swap hp
      obtain ⟨more, hclosed, hclosed'⟩ := close_swap before s s' after
      refine ⟨before, s, s', after ++ more, hs, hs', hclosed, ?_⟩
      rw [hswapped, ← hclosed']
      rfl

end Plan

namespace Strict

variable {t : FileTree} {root p : Path} {document own : Value}

/-- An entry of a defaults list, behind the entries `before`, adds `c` to the composition: what the
step of the entry adds, under the name that an `override` gives it. -/
def Sets (t : FileTree) (root : Path) (document : Value) (es before : List DefaultsEntry)
    (e : DefaultsEntry) (c : Value) : Prop :=
  ∃ s, (placed (overrideName? es) before e).step t root = .ok s ∧ Contributes t root document s c

/-- Steps that set no common key change places, and the keys of the composition with them. -/
theorem layer_swap {front back : Plan} {s s' : Step} {v : Value} (hd : document.Keyed)
    (hown : ownKeys p document = .ok own)
    (hind : ∀ b c, Contributes t root document s b → Contributes t root document s' c →
      b.Independent c)
    (h : layer t root own (front ++ s :: s' :: back) = .ok v) :
    ∃ w, layer t root own (front ++ s' :: s :: back) = .ok w ∧ v.Reordered w := by
  rw [layer, List.foldlM_append] at h
  obtain ⟨a, ha, h⟩ := bind_eq_ok.1 h
  obtain ⟨ab, hab, h⟩ := bind_eq_ok.1 h
  obtain ⟨b, hb, hab⟩ := bind_eq_ok.1 hab
  cases hab
  obtain ⟨abc, habc, h⟩ := bind_eq_ok.1 h
  obtain ⟨c, hc, habc⟩ := bind_eq_ok.1 habc
  cases habc
  obtain ⟨layers, hlayers, rfl⟩ := layer_from_eq_ok.1 h
  refine ⟨layers.foldl Value.merge ((a.merge c).merge b), ?_, ?_⟩
  · rw [layer, List.foldlM_append]
    refine bind_eq_ok.2 ⟨a, ha, ?_⟩
    refine bind_eq_ok.2 ⟨a.merge c, bind_eq_ok.2 ⟨c, hc, rfl⟩, ?_⟩
    refine bind_eq_ok.2 ⟨(a.merge c).merge b, bind_eq_ok.2 ⟨b, hb, rfl⟩, ?_⟩
    exact layer_from_eq_ok.2 ⟨layers, hlayers, rfl⟩
  · have hcb := contributes_of_contribution hown hb
    have hcc := contributes_of_contribution hown hc
    have hka : a.Keyed := layer_keyed hd hown ha
    have hkb := hcb.keyed hd
    have hkc := hcc.keyed hd
    have hkl := contributes_keyed hd (hlayers.imp fun _ _ => contributes_of_contribution hown)
    exact ((hind b c hcb hcc).merge_merge hka hkb hkc).foldl_merge hkl ((hka.merge hkb).merge hkc)
      ((hka.merge hkc).merge hkb)

/-- Without overrides from outside, a document is its plan in layers. -/
theorem composeValue_nil (hown : ownKeys p document = .ok own) :
    composeValue t root p document [] =
      (Plan.ofEntries t root (entriesOf document)).bind (layer t root own) := by
  rw [composeValue_eq hown rfl]
  cases Plan.ofEntries t root (entriesOf document) with
  | error _ => rfl
  | ok plan =>
    cases hv : layer t root own plan with
    | error _ => simp [Except.bind, Plan.applyOverrides, hv]
    | ok v => simp [Except.bind, Plan.applyOverrides, hv]; rfl

/-- **Neighbours that set no common key can change places.** Layers that share only mappings can be
merged in either order, up to the order of keys. So can two entries next to each other in a defaults
list, if what they set is of this kind and no `override` depends on which of them is the first: the
document with the edited list is composed as well, to the same value up to the order of keys. -/
theorem compose_swap :
    (∀ a b c : Value, a.Keyed → b.Keyed → c.Keyed → b.Independent c →
      ((a.merge b).merge c).Reordered ((a.merge c).merge b)) ∧
    ∀ (t : FileTree) (root p : Path) (document edited v : Value) (front back : List DefaultsEntry)
      (x y : DefaultsEntry),
      document.Keyed → ownKeys p edited = ownKeys p document →
      entriesOf document = front ++ x :: y :: back → entriesOf edited = front ++ y :: x :: back →
      Swappable front x y back →
      (x.isMarked = false → y.isMarked = false → ∀ b c,
        Sets t root document (entriesOf document) front x b →
        Sets t root document (entriesOf document) (front ++ [x]) y c → b.Independent c) →
      composeValue t root p document [] = .ok v →
      ∃ w, composeValue t root p edited [] = .ok w ∧ v.Reordered w := by
  refine ⟨fun a b c ha hb hc h => h.merge_merge ha hb hc, ?_⟩
  intro t root p document edited v front back x y hd hown hlist hedited hswap hind hv
  obtain ⟨own, ho, -⟩ := bind_eq_ok.1 hv
  rw [composeValue_nil ho] at hv
  rw [composeValue_nil (hown.trans ho), hedited]
  obtain ⟨plan, hplan, hv⟩ := bind_eq_ok.1 hv
  rw [hlist] at hplan hind
  rcases Plan.ofEntries_swap hswap hplan
    with hsame | ⟨hx, hy, before, s, s', after, hs, hs', rfl, hother⟩
  · exact ⟨v, by rw [hsame]; exact hv, .same v⟩
  · have hs'y := hs'
    rw [← placed_concat fun group hgx hgy => leftBy_eq_none hswap hgx hgy] at hs'y
    obtain ⟨w, hw, hvw⟩ := layer_swap hd ho
      (fun b c hb hc => hind hx hy b c ⟨s, hs, hb⟩ ⟨s', hs'y, hc⟩) hv
    exact ⟨w, by rw [hother]; exact hw, hvw⟩

/-- Modules of a group, and modules beside the root document. -/
def swapped : FileTree where
  entries := [
    (["conf".toList], .directory),
    (["conf".toList, "base.yaml".toList], .file (.text "db: {user: u}\nlog: {level: 2}\n")),
    (["conf".toList, "one.yaml".toList], .file (.text "x: 1\n")),
    (["conf".toList, "two.yaml".toList], .file (.text "y: 2\n")),
    (["conf".toList, "none.yaml".toList], .file (.text "{}\n")),
    (["conf".toList, "number.yaml".toList], .file (.text "80: 1\n")),
    (["conf".toList, "text.yaml".toList], .file (.text "'80': 2\n")),
    (["conf".toList, "db".toList], .directory),
    (["conf".toList, "db".toList, "main.yaml".toList], .file (.text "user: m\n")),
    (["conf".toList, "db".toList, "one.yaml".toList], .file (.text "x: 1\n")),
    (["conf".toList, "db".toList, "two.yaml".toList], .file (.text "y: 2\n")),
    (["conf".toList, "db".toList, "none.yaml".toList], .file (.text "{}\n"))]
  workingDirectory := []

/-- A root document with a defaults list only. -/
def listing (items : List Value) : Value := .mapping [(.string "defaults", .sequence items)]

/-- An item that selects a name from a group. -/
def selection (group name : Text) : Value := .mapping [(.string group, .string name)]

/-- The name that is replaced would set a key of its neighbour. The name in its place sets another
one in the same mapping. -/
theorem compose_swap_replaced :
    let a : Value := .mapping [(.string "db", .number (.int 1))]
    let b : Value := .mapping [(.string "db", .mapping [(.string "user", .string "u")]),
      (.string "log", .mapping [(.string "level", .number (.int 2))])]
    let c : Value := .mapping [(.string "db", .mapping [(.string "y", .number (.int 2))])]
    let v : Value := .mapping [
      (.string "db", .mapping [(.string "user", .string "u"), (.string "y", .number (.int 2))]),
      (.string "log", .mapping [(.string "level", .number (.int 2))])]
    let w : Value := .mapping [
      (.string "db", .mapping [(.string "y", .number (.int 2)), (.string "user", .string "u")]),
      (.string "log", .mapping [(.string "level", .number (.int 2))])]
    let document := listing
      [.string "_self_", .string "base", selection "db" "main", selection "override db" "two"]
    let edited := listing
      [.string "_self_", selection "db" "main", .string "base", selection "override db" "two"]
    ((a.merge b).merge c).Reordered ((a.merge c).merge b) ∧
    composeValue swapped "/conf" "/conf/config.yaml" document [] = .ok v ∧
    composeValue swapped "/conf" "/conf/config.yaml" edited [] = .ok w ∧ v.Reordered w := by
  intro a b c v w document edited
  have hind : b.Independent c := by
    refine Value.independent_mapping ?_
    simp only [List.forall_mem_cons]
    refine ⟨?_, ?_, by simp⟩
    · rintro y ⟨⟩
      refine Value.independent_mapping ?_
      simp only [List.forall_mem_cons]
      exact ⟨by rintro y ⟨⟩, by simp⟩
    · rintro y ⟨⟩
  refine ⟨compose_swap.1 a b c (by decide) (by decide) (by decide) hind, ?_⟩
  let base : DefaultsEntry := .bare "base"
  let main : DefaultsEntry := .group ⟨"db", "main", false, .mapping⟩
  let two : DefaultsEntry := .group ⟨"db", "two", true, .mapping⟩
  have hlist : entriesOf document = [.selfMarker] ++ base :: main :: [two] := by decide +kernel
  have hedited : entriesOf edited = [.selfMarker] ++ main :: base :: [two] := by decide +kernel
  have hswap : Swappable [.selfMarker] base main [two] :=
    fun group h => absurd h Bool.false_ne_true
  have hbase :
      (placed (overrideName? (entriesOf document)) [.selfMarker] base).step swapped "/conf" =
      .ok (.rootFile "base") := by decide +kernel
  have hmain : (placed (overrideName? (entriesOf document)) ([.selfMarker] ++ [base]) main).step
      swapped "/conf" = .ok (.group "db" "two") := by decide +kernel
  have hsets : ∀ d e, Sets swapped "/conf" document (entriesOf document) [.selfMarker] base d →
      Sets swapped "/conf" document (entriesOf document) ([.selfMarker] ++ [base]) main e →
      d.Independent e := by
    rintro d e ⟨s, hs, hd⟩ ⟨s', hs', he⟩
    cases hbase.symm.trans hs
    cases hmain.symm.trans hs'
    cases hd with
    | rootFile hd =>
      cases he with
      | group he =>
        have hb : swapped.fragment? (modulePath "/conf" rootGroup "base") = some [
          (.string "db", .mapping [(.string "user", .string "u")]),
          (.string "log", .mapping [(.string "level", .number (.int 2))])] := by decide +kernel
        have hc : swapped.fragment? (modulePath "/conf" "db" "two") = some [
          (.string "y", .number (.int 2))] := by decide +kernel
        cases hb.symm.trans hd
        cases hc.symm.trans he
        exact hind
  have hv : composeValue swapped "/conf" "/conf/config.yaml" document [] = .ok v := by
    decide +kernel
  have hw : composeValue swapped "/conf" "/conf/config.yaml" edited [] = .ok w := by decide +kernel
  obtain ⟨w', hw', hreordered⟩ :=
    compose_swap.2 swapped "/conf" "/conf/config.yaml" document edited v
    [.selfMarker] [two] base main (by decide) rfl hlist hedited hswap (fun _ _ => hsets) hv
  cases hw.symm.trans hw'
  exact ⟨hv, hw, hreordered⟩

/-- Neighbours that set no common key cannot always change places. Of two selections from one group
an `override` replaces the first, whichever it is, and so does an assignment from outside. The two
can share the mapping of their group, or nothing at all if the group has no name. An `override` must
stand behind the entry that it replaces, and of two for one group the later counts. An assignment of
a value follows the first key that has its text. -/
theorem compose_not_swap :
    let composed := fun items raws =>
      composeValue swapped "/conf" "/conf/config.yaml" (listing items) raws
    let x : Value := .mapping [(.string "x", .number (.int 1))]
    let y : Value := .mapping [(.string "y", .number (.int 2))]
    let one := x.nest ["db"]
    let two := y.nest ["db"]
    let none := (Value.mapping []).nest ["db"]
    let v : Value := .mapping [(.number (.int 80), .string "z"), (.string "80", .number (.int 2))]
    let w : Value := .mapping [(.string "80", .string "z"), (.number (.int 80), .number (.int 1))]
    ((∀ document, Contributes swapped "/conf" document (.group "db" "one") one ∧
        Contributes swapped "/conf" document (.group "db" "two") two ∧
        Contributes swapped "/conf" document (.group "db" "none") none) ∧
      (one.Independent two ∧ one.Independent none ∧ two.Independent none) ∧ ¬ two.Reordered one ∧
      (composed [selection "db" "one", selection "db" "two", selection "override db" "none"] [] =
          .ok two ∧
        composed [selection "db" "two", selection "db" "one", selection "override db" "none"] [] =
          .ok one) ∧
      (composed [selection "db" "one", selection "override db" "two"] [] = .ok two ∧
        composed [selection "override db" "two", selection "db" "one"] [] =
          .error (.overrideWithoutTarget "db")) ∧
      (composed
          [selection "db" "none", selection "override db" "one", selection "override db" "two"]
          [] = .ok two ∧
        composed
          [selection "db" "none", selection "override db" "two", selection "override db" "one"]
          [] = .ok one) ∧
      composed [selection "db" "one", selection "db" "two"] ["db=none"] = .ok two ∧
      composed [selection "db" "two", selection "db" "one"] ["db=none"] = .ok one) ∧
    ((∀ document, Contributes swapped "/conf" document (.group "" "one") x ∧
        Contributes swapped "/conf" document (.group "" "two") y) ∧ ¬ y.Reordered x ∧
      composed [selection "" "one", selection "" "two", selection "override " "none"] [] = .ok y ∧
      composed [selection "" "two", selection "" "one", selection "override " "none"] [] = .ok x) ∧
    ¬ v.Reordered w ∧ composed [.string "number", .string "text"] ["80=z"] = .ok v ∧
      composed [.string "text", .string "number"] ["80=z"] = .ok w := by
  intro composed x y one two none v w
  have hind : ∀ es fs : Entries, (∀ e ∈ es, Entries.find? fs e.1 = Option.none) →
      ((Value.mapping es).nest ["db"]).Independent ((Value.mapping fs).nest ["db"]) := by
    intro es fs h
    refine Value.independent_mapping ?_
    simp only [List.forall_mem_cons]
    refine ⟨?_, by simp⟩
    rintro y ⟨⟩
    refine Value.independent_mapping fun e he y hy => ?_
    rw [h e he] at hy
    cases hy
  have hdiffer : ¬ two.Reordered one ∧ ¬ y.Reordered x ∧ ¬ v.Reordered w := by
    refine ⟨fun h => ?_, fun h => ?_, fun h => ?_⟩
    · cases h.shownAt? (by decide) [.string "db", .string "y"]
    · cases h.shownAt? (by decide) [.string "y"]
    · cases h.shownAt? (by decide) [.string "80"]
  refine ⟨⟨fun document => ⟨.group ?_, .group ?_, .group ?_⟩,
    ⟨hind _ _ ?_, hind _ _ ?_, hind _ _ ?_⟩,
      hdiffer.1, ⟨?_, ?_⟩, ⟨?_, ?_⟩, ⟨?_, ?_⟩, ?_, ?_⟩,
    ⟨fun document => ⟨.group ?_, .group ?_⟩, hdiffer.2.1, ?_, ?_⟩, hdiffer.2.2, ?_, ?_⟩
  all_goals decide +kernel

end Strict
end LayeredConfig
