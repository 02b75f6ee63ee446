import LayeredConfig.Proofs.Compose.Grammar

/-!
# What becomes of a defaults list

Strict composition takes up every entry that a defaults list is decoded into, or reports it. What is
decoded into no entry is dropped all the same: a list that is no sequence, and an empty mapping in a
list.
-/
namespace LayeredConfig

namespace Defaults

variable {t : FileTree} {root : Path} {document : Value} {plan : Plan}

/-- What a document holds in the place of its defaults list. -/
def written? (document : Value) : Option Value :=
  document.mappingEntries?.bind fun es => Entries.find? es (.string listKey)

/-- A defaults list of which all is in a plan: it is a sequence, each of its items is decoded into
entries, and each entry is taken up. -/
def IsRepresented (t : FileTree) (root : Path) (document : Value) (plan : Plan) : Prop :=
  ∀ v, written? document = some v → ∃ items q, v = .sequence items ∧
    (∀ item ∈ items, decodeItem item ≠ []) ∧
    Plan.TakesUpAll t root [] (items.flatMap decodeItem) q ∧ plan = q.close

/-- Only an empty mapping has no entries. -/
theorem decodeItem_eq_nil {item : Value} : decodeItem item = [] ↔ item = .mapping [] := by
  cases item <;> simp [decodeItem]

theorem entriesOf_sequence {items : List Value} (h : written? document = some (.sequence items)) :
    entriesOf document = items.flatMap decodeItem := by
  cases document with
  | mapping es =>
    have hfind : Entries.find? es (.string listKey) = some (.sequence items) := h
    have hentries : (Value.mapping es).entries? = some es := rfl
    rw [entriesOf, ofDocument?, hentries]
    simp only [hfind, Option.getD_some]
  | _ => cases h

/-- The list of a plan is represented if it is a sequence without empty mappings. -/
theorem isRepresented_iff (h : Plan.ofEntries t root (entriesOf document) = .ok plan) :
    IsRepresented t root document plan ↔
      ∀ v, written? document = some v → ∃ items, v = .sequence items ∧ .mapping [] ∉ items := by
  constructor
  · intro hrepresented v hv
    obtain ⟨items, q, rfl, hdecoded, -⟩ := hrepresented v hv
    exact ⟨items, rfl, fun hmem => hdecoded _ hmem (decodeItem_eq_nil.2 rfl)⟩
  · intro hwritten v hv
    obtain ⟨items, rfl, hmem⟩ := hwritten v hv
    obtain ⟨q, hq, hclose⟩ := Plan.ofEntries_eq_ok.1 h
    rw [entriesOf_sequence hv] at hq
    refine ⟨items, q, rfl, fun item hitem hnil => hmem ?_, hq, hclose⟩
    rwa [decodeItem_eq_nil.1 hnil] at hitem

end Defaults

namespace Strict

/-- **What strict composition drops of a defaults list.** All entries are taken up into the plan.
The list itself is represented in it if there is none, or if it is a sequence without empty
mappings. -/
theorem compose_represents_iff {t : FileTree} {root p : Path} {raws : List Text} {v : Value}
    (h : compose t root p raws = .ok v) :
    ∃ document q, t.document? p = some document ∧
      Plan.TakesUpAll t root [] (Defaults.entriesOf document) q ∧
      Plan.ofEntries t root (Defaults.entriesOf document) = .ok q.close ∧
      (Defaults.IsRepresented t root document q.close ↔
        ∀ list, Defaults.written? document = some list →
        ∃ items, list = .sequence items ∧ .mapping [] ∉ items) := by
  obtain ⟨document, own, os, plan, -, -, -, hd, -, -, hplan, -⟩ := compose_eq_ok.1 h
  obtain ⟨q, hq, rfl⟩ := Plan.ofEntries_eq_ok.1 hplan
  exact ⟨document, q, hd, hq, hplan, Defaults.isRepresented_iff hplan⟩

/-- A configuration whose document selects a module and overrides the selection in the same item. -/
def switching : FileTree where
  entries := [(["conf".toList], .directory),
    (["conf".toList, "config.yaml".toList],
      .file (.text "defaults:\n- db: main\n  override db: other\n- _self_\nx: 1\n")),
    (["conf".toList, "db".toList], .directory),
    (["conf".toList, "db".toList, "other.yaml".toList], .file (.text "port: 1\n"))]
  workingDirectory := []

def switchingItems : List Value :=
  [.mapping [(.string "db", .string "main"), (.string "override db", .string "other")],
    .string "_self_"]

theorem compose_represents_iff_switching :
    compose switching "/conf" "/conf/config.yaml" ["x=2"] = .ok (.mapping
        [(.string "db", .mapping [(.string "port", .number (.int 1))]),
          (.string "x", .number (.int 2))]) ∧
      ∃ document plan, switching.document? "/conf/config.yaml" = some document ∧
        Plan.ofEntries switching "/conf" (Defaults.entriesOf document) = .ok plan ∧
        Defaults.written? document = some (.sequence switchingItems) ∧
        Defaults.IsRepresented switching "/conf" document plan := by
  have h : compose switching "/conf" "/conf/config.yaml" ["x=2"] = .ok (.mapping
      [(.string "db", .mapping [(.string "port", .number (.int 1))]),
        (.string "x", .number (.int 2))]) := by
    decide +kernel
  have hwritten : (switching.document? "/conf/config.yaml").bind Defaults.written? =
      some (.sequence switchingItems) := by decide +kernel
  obtain ⟨document, q, hd, -, hplan, hiff⟩ := compose_represents_iff h
  rw [hd, Option.bind_some] at hwritten
  refine ⟨h, document, q.close, hd, hplan, hwritten, hiff.2 fun list hlist => ?_⟩
  cases hwritten.symm.trans hlist
  exact ⟨_, rfl, by decide⟩

/-- A configuration of one document. -/
def single (source : String) : FileTree where
  entries := [(["conf".toList], .directory),
    (["conf".toList, "config.yaml".toList], .file (.text source.toList))]
  workingDirectory := []

/-- A configuration of one document is composed without its defaults list, which no plan
represents. -/
def Drops (source : String) (list : Value) : Prop :=
  compose (single source) "/conf" "/conf/config.yaml" [] =
    .ok (.mapping [(.string "x", .number (.int 1))]) ∧
    ∃ document, (single source).document? "/conf/config.yaml" = some document ∧
      Defaults.written? document = some list ∧
      ∀ plan, ¬ Defaults.IsRepresented (single source) "/conf" document plan

theorem drops_of_written {source : String} {list : Value}
    (h : compose (single source) "/conf" "/conf/config.yaml" [] =
      .ok (.mapping [(.string "x", .number (.int 1))]))
    (hwritten : ((single source).document? "/conf/config.yaml").bind Defaults.written? = some list)
    (hempty : ∀ items, list = .sequence items → .mapping [] ∈ items) : Drops source list := by
  obtain ⟨document, hd, hlist⟩ := Option.bind_eq_some_iff.1 hwritten
  refine ⟨h, document, hd, hlist, fun plan hrepresented => ?_⟩
  obtain ⟨items, -, hitems, hdecoded, -⟩ := hrepresented _ hlist
  exact hdecoded _ (hempty items hitems) rfl

/-- **Not all of a defaults list is taken up or reported.** A scalar, nothing behind the key, and a
list of an empty mapping are dropped. -/
theorem compose_drops_list :
    Drops "defaults: nope\nx: 1\n" (.string "nope") ∧ Drops "defaults:\nx: 1\n" .null ∧
      Drops "defaults:\n- \x7b\x7d\nx: 1\n" (.sequence [.mapping []]) := by
  refine ⟨drops_of_written (by decide +kernel) (by decide +kernel) ?_,
    drops_of_written (by decide +kernel) (by decide +kernel) ?_,
    drops_of_written (by decide +kernel) (by decide +kernel) ?_⟩
  · rintro items ⟨⟩
  · rintro items ⟨⟩
  · rintro items ⟨⟩
    exact List.mem_singleton_self _

end Strict
end LayeredConfig
