import Mathlib.Data.List.Induction
import LayeredConfig.Proofs.Files.Copy
import LayeredConfig.Proofs.Text.Bytes

/-!
# Copies below a directory

Below a directory that can be reached, making the way to a path touches nothing but that way, and
a copy succeeds unless its path is too long or something else stands in its place.
-/
namespace LayeredConfig

open LayeredConfig.Path (join below parent? IsName Named)

namespace Path

/-- A join begins with the path and holds the name. -/
theorem join_eq (p : Path) {s : Text} (hs : IsName s) : ∃ sep, join p s = p ++ sep ++ s := by
  unfold join
  rw [if_neg (by simp [isAbsolute_of_isName hs])]
  split
  · exact ⟨[], by simp⟩
  · exact ⟨['/'], by simp⟩

end Path

namespace FileTree

variable {t : FileTree} {base : Path}

theorem Fits.of_join {p : Path} {s : Text} (hs : IsName s) (hp : p ≠ []) (h : Fits (join p s)) :
    Fits p := by
  obtain ⟨hnul, -, hlen⟩ := h
  obtain ⟨sep, hjoin⟩ := Path.join_eq p hs
  rw [hjoin] at hnul hlen
  rw [Text.byteLength_append, Text.byteLength_append] at hlen
  refine ⟨fun h => hnul (by simp [h]), hp, by omega⟩

theorem createDirectory_of_entry {p : Path} {e : FileEntry} (hp : Named p) (h : t.Reaches p)
    (he : t.at? (t.spelled p) = some e) : t.createDirectory p = .error .exists := by
  rw [createDirectory, locate_of_reaches hp h, Outcome.ok_bind]
  simp only [he]

theorem createDirectory_of_none {p : Path} (hp : Named p) (h : t.Reaches p)
    (hnone : t.at? (t.spelled p) = none)
    (hup : t.at? (t.spelled p).dropLast = some .directory) :
    t.createDirectory p = .ok (t.put (t.spelled p) .directory) := by
  rw [createDirectory, locate_of_reaches hp h, Outcome.ok_bind]
  simp only [hnone, needDirectory_eq_ok.2 hup]
  rfl

/-- One tree becomes another by directories on the way to names, and by nothing else. -/
def Paved (t u : FileTree) (names : Names) (ns : List Text) : Prop :=
  ∀ m, u.at? m = t.at? m ∨
    u.at? m = some .directory ∧ ∃ front, front <+: ns ∧ m = names ++ front

theorem Paved.refl (t : FileTree) (names : Names) (ns : List Text) : Paved t t names ns :=
  fun _ => Or.inl rfl

theorem Paved.trans {u u' : FileTree} {names : Names} {ns : List Text}
    (h : Paved t u names ns) (h' : Paved u u' names ns) : Paved t u' names ns := by
  intro m
  rcases h' m with hsame | hmade
  · rw [hsame]
    exact h m
  · exact Or.inr hmade

theorem Paved.longer {u : FileTree} {names : Names} {ns : List Text} (h : Paved t u names ns)
    (rest : List Text) : Paved t u names (ns ++ rest) := by
  intro m
  refine (h m).imp_right ?_
  rintro ⟨hd, front, hfront, hm⟩
  exact ⟨hd, front, hfront.trans (List.prefix_append _ _), hm⟩

theorem paved_createDirectory {t' : FileTree} {ns : List Text} (hns : ∀ s ∈ ns, IsName s)
    (hne : ns ≠ []) (h : t.createDirectory (below base ns) = .ok t') :
    Paved t t' (t.spelled base) ns := by
  obtain ⟨-, -, -, rfl⟩ := createDirectory_eq_ok h
  intro m
  rw [spelled_below _ _ hns, at?_put t (by simp [hne])]
  split
  · next hm => exact Or.inr ⟨rfl, ns, List.prefix_refl _, hm⟩
  · exact Or.inl rfl

/-- Only the names on the way become directories. -/
theorem paved_createDirectories (hbase : Named base) (hreach : t.Reaches base)
    (hdir : t.at? (t.spelled base) = some .directory) {ns : List Text}
    (hns : ∀ s ∈ ns, IsName s) (fuel : Nat) :
    Paved t (createDirectories fuel t (below base ns)).2 (t.spelled base) ns := by
  induction ns using List.reverseRecOn generalizing fuel with
  | nil =>
    cases fuel with
    | zero => exact Paved.refl _ _ _
    | succ fuel =>
      have hhere : below base [] = base := rfl
      rw [hhere, createDirectories_of_error hreach.fits.2.1
        (createDirectory_of_entry hbase hreach hdir) (by decide)]
      split <;> exact Paved.refl _ _ _
  | append_singleton ns s ih =>
    cases fuel with
    | zero => exact Paved.refl _ _ _
    | succ fuel =>
      obtain ⟨hns', hs⟩ := List.forall_mem_append.1 hns
      have hs := hs s List.mem_cons_self
      have hjoined : below base (ns ++ [s]) = join (below base ns) s := Path.below_concat base ns s
      have hne : below base (ns ++ [s]) ≠ [] := hjoined ▸ Path.join_ne_nil _ hs
      have hup : parent? (below base (ns ++ [s])) = some (below base ns) :=
        hjoined ▸ Path.parent?_join (hbase.below hns') hs
      cases hmade : t.createDirectory (below base (ns ++ [s])) with
      | ok t' =>
        rw [createDirectories_of_ok hne hmade]
        exact paved_createDirectory hns (by simp) hmade
      | error f =>
        by_cases hf : f = .notFound
        · -- The directories above are made first, and the last one after them.
          subst hf
          rw [createDirectories_of_notFound hne hmade hup]
          have hway := (ih hns' fuel).longer [s]
          have hgrows := grows_createDirectories fuel t (below base ns)
          rcases habove : createDirectories fuel t (below base ns) with ⟨f | _, u⟩
          · rw [habove] at hway
            exact hway
          rw [habove] at hway hgrows
          simp only
          cases hlast : u.createDirectory (below base (ns ++ [s])) with
          | error f =>
            simp only
            split <;> exact hway
          | ok u' =>
            have hpaved := paved_createDirectory hns (by simp) hlast
            rw [hgrows.spelled] at hpaved
            exact hway.trans hpaved
        · rw [createDirectories_of_error hne hmade hf]
          split <;> exact Paved.refl _ _ _

theorem walk_append (t : FileTree) (names : Names) (a b : List Text) :
    t.walk names (a ++ b) = t.walk names a >>= fun names => t.walk names b := by
  induction a generalizing names with
  | nil => rfl
  | cons s a ih =>
    rw [List.cons_append]
    cases hs : Path.segment? s with
    | none =>
      rw [walk_cons_of_none hs, walk_cons_of_none hs, ih]
      split
      · rfl
      · cases t.needDirectory names <;> rfl
    | some c =>
      rw [walk_cons_of_some hs, walk_cons_of_some hs, ih]
      cases t.needDirectory names with
      | error f => rfl
      | ok u =>
        rw [Outcome.ok_bind, Outcome.ok_bind]
        split <;> rfl

/-- Names below others that are directories, or nothing yet. -/
def Clear (t : FileTree) (names : Names) (ns : List Text) : Prop :=
  ∀ front, front <+: ns → t.at? (names ++ front) = none ∨
    t.at? (names ++ front) = some .directory

/-- Where a directory on the way is missing, nothing is found. -/
theorem walk_of_missing {names : Names} {ns : List Text} (hns : ∀ s ∈ ns, IsName s)
    (hlen : ∀ s ∈ ns, Text.byteLength s ≤ nameLimit) (hclear : t.Clear names ns)
    (hmissing : ∃ front, front <+: ns ∧ t.at? (names ++ front) = none) {s : Text}
    (hs : IsName s) : t.walk names (ns ++ [s]) = .error .notFound := by
  induction ns generalizing names with
  | nil =>
    obtain ⟨front, hfront, hnone⟩ := hmissing
    rw [List.prefix_nil.1 hfront, List.append_nil] at hnone
    rw [List.nil_append, walk_cons_of_some hs.segment?, needDirectory, hnone]
    rfl
  | cons a ns ih =>
    obtain ⟨ha, hns⟩ := List.forall_mem_cons.1 hns
    obtain ⟨halen, hlen⟩ := List.forall_mem_cons.1 hlen
    rw [List.cons_append, walk_cons_of_some ha.segment?]
    have hhere := hclear [] (List.nil_prefix)
    rw [List.append_nil] at hhere
    rcases hhere with hnone | hdir
    · rw [needDirectory, hnone]
      rfl
    · rw [needDirectory_eq_ok.2 hdir, Outcome.ok_bind]
      have hshift : ∀ front, stepInto names (.name a) ++ front = names ++ a :: front :=
        fun front => by simp [stepInto]
      have hlong : ¬ nameLimit < Text.byteLength (Component.name a).text := Nat.not_lt.2 halen
      rw [if_neg hlong]
      refine ih hns hlen (fun front hfront => ?_) ?_
      · rw [hshift]
        exact hclear (a :: front) (List.cons_prefix_cons.2 ⟨rfl, hfront⟩)
      · obtain ⟨front, hfront, hnone⟩ := hmissing
        cases front with
        | nil =>
          rw [List.append_nil, hdir] at hnone
          cases hnone
        | cons b front =>
          obtain ⟨rfl, hrest⟩ := List.cons_prefix_cons.1 hfront
          exact ⟨front, hrest, by rw [hshift, hnone]⟩

theorem createDirectory_of_missing (hbase : Named base) (hreach : t.Reaches base)
    {ns : List Text} (hns : ∀ s ∈ ns, IsName s)
    (hlen : ∀ s ∈ ns, Text.byteLength s ≤ nameLimit) (hclear : t.Clear (t.spelled base) ns)
    (hmissing : ∃ front, front <+: ns ∧ t.at? (t.spelled base ++ front) = none) {s : Text}
    (hs : IsName s) (hfits : Fits (join (below base ns) s)) :
    t.createDirectory (join (below base ns) s) = .error .notFound := by
  obtain ⟨-, names, hwalk, hplace⟩ := locate_eq_ok_iff.1 (locate_of_reaches hbase hreach)
  obtain rfl : t.spelled base = names := congrArg Place.names hplace
  have hjoined : join (below base ns) s = below base (ns ++ [s]) :=
    (Path.below_concat base ns s).symm
  have hall : ∀ x ∈ ns ++ [s], IsName x :=
    List.forall_mem_append.2 ⟨hns, List.forall_mem_singleton.2 hs⟩
  have hlost : t.walk (t.start (join (below base ns) s))
      (Text.splitAll '/' (join (below base ns) s)) = .error .notFound := by
    rw [hjoined, start_below t base hall, hbase.splitAll_below hall, walk_append, hwalk,
      Outcome.ok_bind]
    exact walk_of_missing hns hlen hclear hmissing hs
  obtain ⟨hnul, hne, hlimit⟩ := hfits
  rw [start] at hlost
  rw [createDirectory, locate, if_neg (by simpa using hnul), if_neg (by simpa using hne),
    if_neg (Nat.not_lt.2 hlimit)]
  simp only [hlost]
  rfl

/-- Names can be followed along directories. -/
theorem reaches_below_of_directories (hreach : t.Reaches base) {ns : List Text} {s : Text}
    (hns : ∀ x ∈ ns ++ [s], IsName x)
    (hlen : ∀ x ∈ ns ++ [s], Text.byteLength x ≤ nameLimit)
    (hfits : Fits (below base (ns ++ [s])))
    (hdirs : ∀ front, front <+: ns → t.at? (t.spelled base ++ front) = some .directory) :
    t.Reaches (below base (ns ++ [s])) := by
  refine ⟨hfits, (followed_below hns).2 ⟨hreach.followed, ?_⟩⟩
  clear hfits hns
  induction ns using List.reverseRecOn generalizing s with
  | nil =>
    have hhere := hdirs [] (List.prefix_refl _)
    exact followed_names_concat.2 ⟨trivial, hhere, hlen s (by simp)⟩
  | append_singleton ns a ih =>
    refine followed_names_concat.2 ⟨ih (fun x hx => hlen x (List.mem_append_left _ hx)) ?_,
      hdirs _ (List.prefix_refl _), hlen s (by simp)⟩
    exact fun front hfront => hdirs front (hfront.trans (List.prefix_append _ _))

/-- Once the directories above are there, the last one of a way is made or there as well. -/
theorem createDirectory_last (hreach : t.Reaches base) {ns : List Text} {s : Text}
    (hns : ∀ x ∈ ns ++ [s], IsName x)
    (hlen : ∀ x ∈ ns ++ [s], Text.byteLength x ≤ nameLimit)
    (hfits : Fits (below base (ns ++ [s])))
    (hdirs : ∀ front, front <+: ns → t.at? (t.spelled base ++ front) = some .directory)
    (hlast : t.at? (t.spelled base ++ (ns ++ [s])) = none ∨
      t.at? (t.spelled base ++ (ns ++ [s])) = some .directory) :
    (∃ t', t.createDirectory (below base (ns ++ [s])) = .ok t' ∧ ∀ front, front <+: ns ++ [s] →
        t'.at? (t.spelled base ++ front) = some .directory) ∨
      (t.createDirectory (below base (ns ++ [s])) = .error .exists ∧
        t.isDirectory (below base (ns ++ [s])) = true ∧ ∀ front, front <+: ns ++ [s] →
          t.at? (t.spelled base ++ front) = some .directory) := by
  have hready := reaches_below_of_directories hreach hns hlen hfits hdirs
  have hnamed := Path.named_below base hns (by simp)
  have hspelled := spelled_below t base hns
  have hall : ∀ u : FileTree, (∀ front, front <+: ns →
      u.at? (t.spelled base ++ front) = some .directory) →
      u.at? (t.spelled base ++ (ns ++ [s])) = some .directory →
      ∀ front, front <+: ns ++ [s] → u.at? (t.spelled base ++ front) = some .directory := by
    intro u hdirs hd front hfront
    rcases List.prefix_concat_iff.1 hfront with rfl | hfront
    · exact hd
    · exact hdirs front hfront
  rcases hlast with hnone | hdir
  · have hup : t.at? (t.spelled (below base (ns ++ [s]))).dropLast = some .directory := by
      rw [hspelled, ← List.append_assoc, List.dropLast_concat]
      exact hdirs ns (List.prefix_refl _)
    have hmade := createDirectory_of_none hnamed hready (hspelled ▸ hnone) hup
    refine Or.inl ⟨_, hmade, hall _ (fun front hfront => ?_) ?_⟩
    · exact (grows_createDirectory hmade).directory _ (hdirs front hfront)
    · rw [hspelled, at?_put t (by simp), if_pos rfl]
  · rw [← hspelled] at hdir
    refine Or.inr ⟨createDirectory_of_entry hnamed hready hdir,
      isDirectory_iff.2 (stat_of_reaches hnamed hready hdir), hall t hdirs ?_⟩
    rwa [hspelled] at hdir

/-- **The way to names is made below a directory**, where nothing but directories stands on it. -/
theorem createDirectories_below (hbase : Named base) (hreach : t.Reaches base) {ns : List Text}
    (hdir : t.at? (t.spelled base) = some .directory) (hns : ∀ s ∈ ns, IsName s)
    (hlen : ∀ s ∈ ns, Text.byteLength s ≤ nameLimit) (hfits : Fits (below base ns))
    (hclear : t.Clear (t.spelled base) ns) {fuel : Nat} (hfuel : ns.length < fuel) :
    ∃ u, createDirectories fuel t (below base ns) = (.ok (), u) ∧
      ∀ front, front <+: ns → u.at? (t.spelled base ++ front) = some .directory := by
  induction ns using List.reverseRecOn generalizing fuel with
  | nil =>
    obtain ⟨fuel, rfl⟩ : ∃ n, fuel = n + 1 := ⟨fuel - 1, by simp at hfuel; omega⟩
    have hhere : below base [] = base := rfl
    rw [hhere, createDirectories_of_error hreach.fits.2.1
      (createDirectory_of_entry hbase hreach hdir) (by decide),
      if_pos (isDirectory_iff.2 (stat_of_reaches hbase hreach hdir))]
    refine ⟨t, rfl, fun front hfront => ?_⟩
    rw [List.prefix_nil.1 hfront, List.append_nil, hdir]
  | append_singleton ns s ih =>
    obtain ⟨fuel, rfl⟩ : ∃ n, fuel = n + 1 := ⟨fuel - 1, by simp at hfuel; omega⟩
    obtain ⟨hns', hs⟩ := List.forall_mem_append.1 hns
    have hs := hs s List.mem_cons_self
    have hlen' := (List.forall_mem_append.1 hlen).1
    have hclear' : t.Clear (t.spelled base) ns := fun front hfront =>
      hclear front (hfront.trans (List.prefix_append _ _))
    have hnamed : Named (below base ns) := hbase.below hns'
    have hlast := hclear _ (List.prefix_refl _)
    have hjoined : below base (ns ++ [s]) = join (below base ns) s := Path.below_concat base ns s
    have hne : below base (ns ++ [s]) ≠ [] := hfits.2.1
    by_cases hmissing : ∃ front, front <+: ns ∧ t.at? (t.spelled base ++ front) = none
    · -- Something above is missing: the way to it is made first.
      have hlost := createDirectory_of_missing hbase hreach hns' hlen' hclear' hmissing hs
        (hjoined ▸ hfits)
      have hup : parent? (below base (ns ++ [s])) = some (below base ns) :=
        hjoined ▸ Path.parent?_join hnamed hs
      have hfits' : Fits (below base ns) := Fits.of_join hs hnamed.ne_nil (hjoined ▸ hfits)
      have hless : ns.length < fuel := by
        rw [List.length_append, List.length_singleton] at hfuel
        omega
      obtain ⟨u, hmade, hdirs⟩ := ih hns' hlen' hfits' hclear' hless
      have hgrows := grows_createDirectories fuel t (below base ns)
      rw [hmade] at hgrows
      have hlast' : u.at? (t.spelled base ++ (ns ++ [s])) = none ∨
          u.at? (t.spelled base ++ (ns ++ [s])) = some .directory :=
        hlast.elim (hgrows.nothing _ fun h => h) fun hd => Or.inr (hgrows.directory _ hd)
      have hfinish := createDirectory_last (hgrows.reaches hreach) hns hlen hfits
      rw [hgrows.spelled] at hfinish
      rw [createDirectories_of_notFound hne (hjoined ▸ hlost) hup, hmade]
      rcases hfinish hdirs hlast' with ⟨u', hu', hall⟩ | ⟨hu', hpresent, hall⟩
      · simp only [hu']
        exact ⟨u', rfl, hall⟩
      · simp only [hu', hpresent, if_true]
        exact ⟨u, rfl, hall⟩
    · have hdirs : ∀ front, front <+: ns → t.at? (t.spelled base ++ front) = some .directory :=
        fun front hfront => (hclear' front hfront).resolve_left fun hnone =>
          hmissing ⟨front, hfront, hnone⟩
      rcases createDirectory_last hreach hns hlen hfits hdirs hlast with
        ⟨u', hu', hall⟩ | ⟨hu', hpresent, hall⟩
      · rw [createDirectories_of_ok hne hu']
        exact ⟨u', rfl, hall⟩
      · rw [createDirectories_of_error hne hu' (by decide), if_pos hpresent]
        exact ⟨t, rfl, hall⟩

theorem ne_concat_of_front {way front : List Text} {last : Text} (h : way <+: front) :
    way ≠ front ++ [last] := by
  intro heq
  have hlength := h.length_le
  rw [heq, List.length_append, List.length_singleton] at hlength
  omega

theorem length_le_below (base : Path) {ns : List Text} (hns : ∀ s ∈ ns, IsName s) :
    ns.length ≤ (below base ns).length := by
  induction ns using List.reverseRecOn with
  | nil => exact Nat.zero_le _
  | append_singleton ns s ih =>
    obtain ⟨hns, hs⟩ := List.forall_mem_append.1 hns
    have hs := hs s List.mem_cons_self
    obtain ⟨sep, hjoin⟩ := Path.join_eq (below base ns) hs
    have hpos : 0 < s.length := List.length_pos_iff.2 hs.ne_nil
    have hrest := ih hns
    rw [Path.below_concat, hjoin, List.length_append, List.length_append, List.length_append,
      List.length_singleton]
    omega

/-- **A file is copied below a directory**, where the way is clear and no directory stands in its
place, if its path is not too long. -/
theorem copyInto_below (hbase : Named base) (hreach : t.Reaches base) {ns : List Text} {s : Text}
    (hdir : t.at? (t.spelled base) = some .directory) (hns : ∀ x ∈ ns ++ [s], IsName x)
    (hlen : ∀ x ∈ ns ++ [s], Text.byteLength x ≤ nameLimit)
    (hfits : Fits (below base (ns ++ [s]))) (hclear : t.Clear (t.spelled base) ns)
    (hlast : t.at? (t.spelled base ++ (ns ++ [s])) ≠ some .directory) {source : Path}
    (hsource : t.isFile source = true) :
    (t.copyInto source (below base (ns ++ [s]))).1.isOk = true := by
  obtain ⟨hns', hs⟩ := List.forall_mem_append.1 hns
  have hs := hs s List.mem_cons_self
  have hnamed : Named (below base ns) := hbase.below hns'
  have hjoined : below base (ns ++ [s]) = join (below base ns) s := Path.below_concat base ns s
  have hfits' : Fits (below base ns) := Fits.of_join hs hnamed.ne_nil (hjoined ▸ hfits)
  obtain ⟨u, hmade, hdirs⟩ := createDirectories_below hbase hreach hdir hns'
    (List.forall_mem_append.1 hlen).1 hfits' hclear (Nat.lt_succ_of_le (length_le_below base hns'))
  have hway := paved_createDirectories hbase hreach hdir hns' ((below base ns).length + 1)
  have hgrows := grows_createDirectories ((below base ns).length + 1) t (below base ns)
  rw [hmade] at hway hgrows
  have hparent : t.withParent (below base (ns ++ [s])) = (.ok (), u) := by
    rw [withParent, hjoined, Path.parent?_join hnamed hs]
    exact hmade
  have hready : u.Reaches (below base (ns ++ [s])) := by
    refine reaches_below_of_directories (hgrows.reaches hreach) hns hlen hfits ?_
    rw [hgrows.spelled]
    exact hdirs
  have hspelled : u.spelled (below base (ns ++ [s])) = t.spelled base ++ (ns ++ [s]) := by
    rw [spelled_below _ _ hns, hgrows.spelled]
  have htarget : u.target (below base (ns ++ [s])) = .ok (u.spelled (below base (ns ++ [s]))) := by
    refine target_of_reaches (Path.named_below base hns (by simp)) hready ?_ ?_
    · rw [hspelled]
      rcases hway _ with hsame | ⟨-, front, hfront, heq⟩
      · rw [hsame]
        exact hlast
      · exact absurd (List.append_cancel_left heq).symm (ne_concat_of_front hfront)
    · rw [hspelled, ← List.append_assoc, List.dropLast_concat]
      exact hdirs ns (List.prefix_refl _)
  rw [copyInto_isOk hsource, writable, hparent]
  simp only [htarget]
  rfl

/-- What a copy below a directory changes: directories on the way, and the file itself. -/
theorem copyInto_below_made (hbase : Named base) (hreach : t.Reaches base) {ns : List Text}
    {s : Text} (hdir : t.at? (t.spelled base) = some .directory)
    (hns : ∀ x ∈ ns ++ [s], IsName x) (source : Path) (m : Names) :
    (t.copyInto source (below base (ns ++ [s]))).2.at? m = t.at? m ∨
      ((t.copyInto source (below base (ns ++ [s]))).2.at? m = some .directory ∧
        ∃ front, front <+: ns ∧ m = t.spelled base ++ front) ∨
      (m = t.spelled base ++ (ns ++ [s]) ∧
        ∃ c, (t.copyInto source (below base (ns ++ [s]))).2.at? m = some (.file c)) := by
  obtain ⟨hns', hs⟩ := List.forall_mem_append.1 hns
  have hs := hs s List.mem_cons_self
  have hnamed : Named (below base ns) := hbase.below hns'
  have hjoined : below base (ns ++ [s]) = join (below base ns) s := Path.below_concat base ns s
  have hway := paved_createDirectories hbase hreach hdir hns' ((below base ns).length + 1)
  have hgrows := grows_createDirectories ((below base ns).length + 1) t (below base ns)
  have hparent : t.withParent (below base (ns ++ [s])) =
      createDirectories ((below base ns).length + 1) t (below base ns) := by
    rw [withParent, hjoined, Path.parent?_join hnamed hs]
    rfl
  rw [copyInto_eq, hparent]
  rcases hmade : createDirectories ((below base ns).length + 1) t (below base ns) with ⟨f | _, u⟩
  · rw [hmade] at hway
    exact (hway m).imp_right Or.inl
  rw [hmade] at hway hgrows
  simp only
  cases hcopy : u.copy source (below base (ns ++ [s])) with
  | error f => exact (hway m).imp_right Or.inl
  | ok t' =>
    obtain ⟨c, names, -, htarget, rfl⟩ := copy_eq_ok.1 hcopy
    obtain ⟨-, hnames, hold, -⟩ := target_eq_ok htarget
    rw [spelled_below _ _ hns, hgrows.spelled] at hnames
    subst hnames
    rw [at?_put u (fun hnil => hold (by rw [hnil, at?_nil]))]
    split
    · next hm => exact Or.inr (Or.inr ⟨hm, _, rfl⟩)
    · exact (hway m).imp_right Or.inl

end FileTree
end LayeredConfig
