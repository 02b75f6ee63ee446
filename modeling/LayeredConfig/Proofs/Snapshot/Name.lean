import LayeredConfig.Proofs.Files.Path
import LayeredConfig.Proofs.Text.Digits
import LayeredConfig.Snapshot.Store

/-!
# Names of snapshots

Whatever the tag and the time are, the directory of a snapshot has one plain name.
-/
namespace LayeredConfig

theorem DateTime.noSlash_compact (d : DateTime) : '/' ∉ d.compact := by
  have hyear : '/' ∉ DateTime.yearText d.year := by
    unfold DateTime.yearText
    split
    · exact Text.noSlash_zeroPadded _ _
    · split <;> simp [Text.noSlash_zeroPadded]
  have htwo : ∀ n, '/' ∉ DateTime.twoDigits n := Text.noSlash_zeroPadded 2
  simp [DateTime.compact, hyear, htwo]

theorem DateTime.underscore_mem_compact (d : DateTime) : '_' ∈ d.compact := by
  simp [DateTime.compact]

namespace SnapshotStore

theorem noSlash_nameOfTag (tag : Text) : '/' ∉ nameOfTag tag := by
  have hcleaned : '/' ∉ trimPoints ((Text.trim tag).map fun c => if isPlain c then c else '_') := by
    intro h
    have h := (List.dropWhile_sublist _).mem (List.mem_reverse.1 h)
    have h := (List.dropWhile_sublist _).mem (List.mem_reverse.1 h)
    obtain ⟨c, -, hc⟩ := List.mem_map.1 h
    split at hc
    · next hplain =>
      rw [hc] at hplain
      revert hplain
      decide
    · revert hc
      decide
  unfold nameOfTag
  simp only
  split
  · decide
  · exact hcleaned

theorem mem_attemptName {base : Text} {c : Char} (attempt : Nat) (h : c ∈ base) :
    c ∈ attemptName base attempt := by
  cases attempt with
  | zero => exact h
  | succ n => exact List.mem_append_left _ h

theorem noSlash_attemptName {base : Text} (attempt : Nat) (h : '/' ∉ base) :
    '/' ∉ attemptName base attempt := by
  cases attempt with
  | zero => exact h
  | succ n => simp [attemptName, h, Text.noSlash_ofNat]

/-- The name of a snapshot's directory before attempts are counted. -/
def baseName (now : Int) (tag : Text) : Text :=
  (DateTime.ofSeconds (now / 1000000)).compact ++ '_' :: nameOfTag tag

/-- **Every snapshot has a plain name.** -/
theorem isName_attemptName (now : Int) (tag : Text) (attempt : Nat) :
    Path.IsName (attemptName (baseName now tag) attempt) := by
  have hunderscore : '_' ∈ attemptName (baseName now tag) attempt :=
    mem_attemptName attempt (List.mem_append_left _ (DateTime.underscore_mem_compact _))
  have hslash : '/' ∉ baseName now tag := by
    simp [baseName, DateTime.noSlash_compact, noSlash_nameOfTag]
  refine ⟨List.ne_nil_of_mem hunderscore, noSlash_attemptName attempt hslash, ?_, ?_⟩
  · intro h
    rw [h] at hunderscore
    revert hunderscore
    decide
  · intro h
    rw [h] at hunderscore
    revert hunderscore
    decide

end SnapshotStore
end LayeredConfig
