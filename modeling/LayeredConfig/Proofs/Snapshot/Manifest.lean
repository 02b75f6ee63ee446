import LayeredConfig.Proofs.Json.Complete
import LayeredConfig.Proofs.Text.Digits
import LayeredConfig.Snapshot.Manifest

/-!
# Manifests are read back as they were written

A manifest that can be read at all has the tag and the files it was written with.
-/
namespace LayeredConfig

open JsonValue (isNumeric Plain PlainItems)

theorem Text.isNumeric_ofNat {n : Nat} : ∀ c ∈ Text.ofNat n, isNumeric c = true := by
  intro c hc
  have hdigit := Text.isDigit_of_mem_ofNat hc
  have hrange : '0' ≤ c ∧ c ≤ '9' := by
    simpa [Char.isDigit, Char.le_def] using hdigit
  refine JsonValue.isNumeric_of_isDigit ?_
  rw [JsonValue.isDigit, decide_eq_true hrange.1, decide_eq_true hrange.2]
  rfl

theorem Text.isNumeric_ofInt (n : Int) : ∀ c ∈ Text.ofInt n, isNumeric c = true := by
  cases n with
  | ofNat n => exact Text.isNumeric_ofNat
  | negSucc n => exact List.forall_mem_cons.2 ⟨by decide, Text.isNumeric_ofNat⟩

namespace Double

theorem placeDigits_numeric (n : Nat) (place : Int) :
    placeDigits n place ≠ [] ∧ ∀ c ∈ placeDigits n place, isNumeric c = true := by
  have hds : ∀ c ∈ Text.ofNat n, isNumeric c = true := Text.isNumeric_ofNat
  have hne : Text.ofNat n ≠ [] := Nat.toDigits_ne_nil
  have hzeros : ∀ k, ∀ c ∈ List.replicate k '0', isNumeric c = true := by
    intro k c hc
    rw [List.eq_of_mem_replicate hc]
    decide
  have hpower : ∀ m, ∀ c ∈ 'e' :: Text.ofInt m, isNumeric c = true := fun m =>
    List.forall_mem_cons.2 ⟨by decide, Text.isNumeric_ofInt m⟩
  unfold placeDigits
  simp only
  split
  · refine ⟨by simp, ?_⟩
    rw [List.forall_mem_append, List.forall_mem_append]
    exact ⟨⟨hds, hzeros _⟩, List.all_eq_true.1 (by decide)⟩
  split
  · refine ⟨by simp, ?_⟩
    rw [List.forall_mem_append, List.forall_mem_cons]
    exact ⟨fun c hc => hds c (List.mem_of_mem_take hc), by decide,
      fun c hc => hds c (List.mem_of_mem_drop hc)⟩
  split
  · refine ⟨by simp, ?_⟩
    rw [List.cons_append, List.cons_append, List.forall_mem_cons, List.forall_mem_cons,
      List.forall_mem_append]
    exact ⟨by decide, by decide, hzeros _, hds⟩
  · split
    · next h => exact absurd h hne
    · next d h =>
      rw [h] at hds
      exact ⟨by simp, List.forall_mem_cons.2 ⟨hds d (by simp), hpower _⟩⟩
    · next d rest _ h =>
      rw [h] at hds
      refine ⟨by simp, ?_⟩
      rw [List.cons_append, List.cons_append, List.forall_mem_cons, List.forall_mem_cons,
        List.forall_mem_append]
      exact ⟨hds d (by simp), by decide, fun c hc => hds c (List.mem_cons_of_mem _ hc),
        hpower _⟩

/-- A finite double is written with the characters of numbers. -/
theorem text_numeric {d : Double} (hd : d.isFinite = true) :
    d.text ≠ [] ∧ ∀ c ∈ d.text, isNumeric c = true := by
  cases d with
  | nan => cases hd
  | infinite negative => cases hd
  | finite negative mantissa exponent =>
    have hbody : ∀ body : Text, (body ≠ [] ∧ ∀ c ∈ body, isNumeric c = true) →
        (if negative then '-' :: body else body) ≠ [] ∧
          ∀ c ∈ (if negative then '-' :: body else body), isNumeric c = true := by
      rintro body ⟨hne, hc⟩
      split
      · exact ⟨by simp, List.forall_mem_cons.2 ⟨by decide, hc⟩⟩
      · exact ⟨hne, hc⟩
    refine hbody _ ?_
    split
    · exact ⟨by decide, List.all_eq_true.1 (by decide)⟩
    · exact placeDigits_numeric _ _

end Double

namespace Manifest

/-- A manifest as a value. -/
def json (m : Manifest) : JsonValue :=
  .ofFields [("tag", .ofText m.tag), ("timestamp", timestampJson m.timestamp),
    ("modules", filesJson m.files)]

theorem plain_timestampJson (d : Double) : Plain (timestampJson d) := by
  unfold timestampJson
  split
  · next hd => exact Double.text_numeric hd
  · trivial

theorem plain_texts (files : List Text) : PlainItems (files.map JsonValue.ofText) := by
  induction files with
  | nil => trivial
  | cons f files ih => exact ⟨rfl, ih⟩

theorem plain_json (m : Manifest) : Plain m.json :=
  ⟨rfl, rfl, rfl, plain_timestampJson m.timestamp, rfl, plain_texts m.files, trivial⟩

theorem texts?_filesJson (files : List Text) : texts? (filesJson files) = some files := by
  unfold texts? filesJson
  induction files with
  | nil => rfl
  | cons f files ih =>
    simp only [JsonValue.items?, Option.bind_eq_bind, Option.bind_some, List.map_cons,
      List.mapM_cons] at ih ⊢
    rw [ih]
    rfl

theorem ofJson?_json (m : Manifest) :
    ofJson? m.json = (double? (timestampJson m.timestamp)).map fun d => ⟨m.tag, d, m.files⟩ := by
  change ofFields? (.ofText m.tag) (timestampJson m.timestamp) (filesJson m.files) = _
  simp only [ofFields?, texts?_filesJson]
  cases double? (timestampJson m.timestamp) with
  | none => rfl
  | some d => rfl

/-- **A manifest that can be read has the tag and the files it was written with.** -/
theorem read?_text {m m' : Manifest} (h : read? m.text = some m') :
    m'.tag = m.tag ∧ m'.files = m.files := by
  obtain ⟨v, hread, h⟩ := Option.bind_eq_some_iff.1 h
  obtain rfl : v = m.json := JsonValue.read?_text (plain_json m) hread
  rw [ofJson?_json] at h
  obtain ⟨d, -, rfl⟩ := Option.map_eq_some_iff.1 h
  exact ⟨rfl, rfl⟩

/-- The double that the JSON reader takes a written timestamp for. -/
def reread? (d : Double) : Option Double := (JsonValue.read? (timestampJson d).text).bind double?

theorem readable_timestampJson {d d' : Double} (h : reread? d = some d') :
    (timestampJson d).Readable ∧ double? (timestampJson d) = some d' := by
  obtain ⟨v, hread, hdouble⟩ := Option.bind_eq_some_iff.1 h
  obtain rfl := JsonValue.read?_text (plain_timestampJson d) hread
  refine ⟨?_, hdouble⟩
  have hplain := plain_timestampJson d
  unfold timestampJson at hread hplain ⊢
  split
  · next hd =>
    rw [if_pos hd] at hread hplain
    exact .number (JsonValue.number?_of_read? hplain hread)
  · exact .null

/-- **A manifest is read back when its timestamp is.** -/
theorem read?_of_reread? {m : Manifest} {d : Double} (h : reread? m.timestamp = some d) :
    read? m.text = some ⟨m.tag, d, m.files⟩ := by
  obtain ⟨htimestamp, hdouble⟩ := readable_timestampJson h
  have hfiles : (filesJson m.files).Readable := .array fun v hv => by
    obtain ⟨f, -, rfl⟩ := List.mem_map.1 hv
    exact .string f
  have hjson : m.json.Readable := .object (by simp) (by
    simp only [List.map_cons, List.map_nil, List.forall_mem_cons]
    exact ⟨.string m.tag, htimestamp, hfiles, List.forall_mem_nil _⟩)
  have hread : JsonValue.read? m.text = some m.json := hjson.read?_text
  rw [read?, hread, Option.bind_some, ofJson?_json, hdouble]
  rfl

end Manifest
end LayeredConfig
