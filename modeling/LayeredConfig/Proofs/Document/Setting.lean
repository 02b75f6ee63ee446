import LayeredConfig.Proofs.Document.Places
import LayeredConfig.Proofs.Text.Segments

/-!
# Setting a path

A path is set by changing the document on the way down, before it is known whether the way leads to
the end. It is all or nothing nevertheless: the first change is made where the document has nothing
to read, and below that nothing can be in the way. A failure spells the path one segment past the
node it stopped at.
-/
namespace LayeredConfig.Value

variable {v n new : Value} {path walked parents below : List Text} {s last : Text} {depth : Nat}

theorem opened_eq_mapping {es : Entries} :
    v.opened = .mapping es ↔ v = .mapping es ∨ v.isNull = true ∧ es = [] := by
  unfold opened
  split
  · next hnull =>
    have hne : v ≠ .mapping es := by rintro rfl; cases hnull
    simp [hne, hnull, eq_comm]
  · next hnull => simp [hnull]

theorem opened_of_not_null (h : v.isNull = false) : v.opened = v := by
  rw [opened, h, if_neg Bool.false_ne_true]

/-- A node has a place for a new entry, or it is neither a mapping nor null. -/
theorem opened_cases (v : Value) :
    (∃ es, v.opened = .mapping es) ∨ v.isMapping = false ∧ v.isNull = false := by
  cases hnull : v.isNull with
  | true => exact Or.inl ⟨[], opened_eq_mapping.2 (Or.inr ⟨hnull, rfl⟩)⟩
  | false =>
    cases v with
    | mapping es => exact Or.inl ⟨es, rfl⟩
    | _ => exact Or.inr ⟨rfl, rfl⟩

/-- A node with a child is not null. -/
theorem opened_of_child {c : Value} (h : v.child? s = some c) : v.opened = v := by
  cases v with
  | mapping es => rfl
  | sequence items => rfl
  | _ => cases h

theorem entryNamed?_of_opened {es : Entries} (h : v.opened = .mapping es)
    (hs : v.child? s = none) : entryNamed? es s = none := by
  rcases opened_eq_mapping.1 h with rfl | ⟨-, rfl⟩
  · exact Option.map_eq_none_iff.1 hs
  · rfl

theorem find?_of_entryNamed?_none {es : Entries} (h : entryNamed? es s = none) :
    Entries.find? es (.string s) = none := by
  cases hf : Entries.find? es (.string s) with
  | none => rfl
  | some x =>
    obtain ⟨e, he, -⟩ := entryNamed?_of_find? hf
    rw [h] at he
    cases he

/-- An entry behind others that the segment does not name is the child it names. -/
theorem swapped_last {es : Entries} (h : entryNamed? es s = none) (c c' : Value) :
    Swapped s c c' (.mapping (es ++ [(.string s, c)])) (.mapping (es ++ [(.string s, c')])) := by
  refine .entry (fun e he => ?_) (matchesSegment_string.2 rfl)
  simpa using List.find?_eq_none.1 h e he

theorem get?_nest (path : List Text) (v : Value) : (nest path v).get? path = some v := by
  induction path with
  | nil => rfl
  | cons s path ih =>
    have hs : Swapped s (nest path v) v (nest (s :: path) v) (single s v) :=
      swapped_last (show entryNamed? [] s = none from rfl) _ _
    rw [get?, hs.child?, Option.bind_some, ih]

/-- The walk goes down to whatever can be read, and changes nothing else on the way. -/
theorem setAlong_walk (path : List Text) (last : Text) (new : Value) (h : v.get? walked = some n)
    (parents : List Text) (depth : Nat) :
    ∃ w, ReplacedAt n (setAlong path last new (depth + walked.length) parents n).1 walked v w ∧
      setAlong path last new depth (walked ++ parents) v =
        (w, (setAlong path last new (depth + walked.length) parents n).2) := by
  induction walked generalizing v depth with
  | nil =>
    cases h
    exact ⟨_, .here, rfl⟩
  | cons s walked ih =>
    obtain ⟨c, hc, h⟩ := Option.bind_eq_some_iff.1 h
    have hdepth : depth + (s :: walked).length = (depth + 1) + walked.length := by
      rw [List.length_cons]; omega
    obtain ⟨w, hw, hset⟩ := ih h (depth + 1)
    rw [hdepth]
    obtain ⟨⟨c', put⟩, hput, hc'⟩ := Option.map_eq_some_iff.1 ((child?_eq_slot? v s).symm.trans hc)
    cases hc'
    refine ⟨put w, .inside (swapped_of_slot? hput w) hw, ?_⟩
    simp only [List.cons_append, setAlong, opened_of_child hc, hc, Option.isSome_some,
      if_true, hput, hset]

/-- Where the next segment names nothing, a mapping or a null gets the rest of the path as a new
last entry. -/
theorem setAlong_fresh {es : Entries} (hv : v.opened = .mapping es)
    (hpath : parents ++ [last] = s :: below) (hs : entryNamed? es s = none) :
    setAlong path last new depth parents v =
      (.mapping (es ++ [(.string s, nest below new)]), .ok ()) := by
  have hinsert : ∀ c, (mapping es).inserted? s c = some (.mapping (es ++ [(.string s, c)])) :=
    fun c => by rw [inserted?, Entries.insert_of_find?_none (find?_of_entryNamed?_none hs)]
  induction parents generalizing v es s below depth with
  | nil =>
    obtain ⟨rfl, rfl⟩ := List.cons.inj hpath
    have hslot : (mapping es).slot? last = none := by rw [slot?, hs]; rfl
    simp only [setAlong, hv, hslot, hinsert]
    rfl
  | cons t parents ih =>
    rw [List.cons_append] at hpath
    obtain ⟨rfl, rfl⟩ := List.cons.inj hpath
    have hchild : (mapping es).child? t = none := Option.map_eq_none_iff.2 hs
    -- The new mapping is empty, so that the rest of the path is fresh in it.
    obtain ⟨u, rest, hrest⟩ : ∃ u rest, parents ++ [last] = u :: rest := by
      cases parents with
      | nil => exact ⟨last, [], rfl⟩
      | cons u parents => exact ⟨u, parents ++ [last], rfl⟩
    have hinner : setAlong path last new (depth + 1) parents (.mapping []) =
        (nest (parents ++ [last]) new, .ok ()) := by
      rw [hrest]
      exact ih (v := .mapping []) (show opened (.mapping []) = .mapping [] from rfl) hrest rfl
        fun c => rfl
    obtain ⟨put, hput, hw⟩ := (swapped_last hs (.mapping []) (nest (parents ++ [last]) new)).slot?
    simp only [setAlong, hv, hchild,
      Option.isSome_none, Bool.false_eq_true, if_false, hinsert, hput, hinner, ← hw]

/-- Where the next segment names nothing and there is no place for an entry, the walk ends. -/
theorem setAlong_stuck (hmap : v.isMapping = false) (hnull : v.isNull = false)
    (hpath : parents ++ [last] = s :: below) (hs : v.child? s = none) :
    setAlong path last new depth parents v = (v, .error (blockedAt path depth)) := by
  have hinsert : ∀ t c, v.inserted? t c = none := by
    intro t c
    cases v with
    | mapping es => cases hmap
    | _ => rfl
  cases parents with
  | nil =>
    obtain ⟨rfl, rfl⟩ := List.cons.inj hpath
    have hslot : v.slot? last = none :=
      Option.map_eq_none_iff.1 ((child?_eq_slot? v last).symm.trans hs)
    simp only [setAlong, opened_of_not_null hnull, hslot, hinsert]
  | cons t parents =>
    obtain ⟨rfl, rfl⟩ := List.cons.inj hpath
    simp only [setAlong, opened_of_not_null hnull, hs, Option.isSome_none, Bool.false_eq_true,
      if_false, hinsert]

theorem setInPlace_concat (front : List Text) :
    v.setInPlace (front ++ [last]) new = setAlong (front ++ [last]) last new 0 front v := by
  rw [setInPlace, List.getLast?_concat, List.dropLast_concat]

/-- A path that can be read has the new value in its place. -/
theorem setInPlace_found (h : v.get? path = some n) (new : Value) :
    ∃ w, v.setInPlace path new = (w, .ok ()) ∧ ReplacedAt n new path v w := by
  rcases List.eq_nil_or_concat path with rfl | ⟨front, last, rfl⟩
  · cases h
    exact ⟨new, rfl, .here⟩
  · rw [List.concat_eq_append] at h ⊢
    rw [get?_concat] at h
    obtain ⟨m, hm, hn⟩ := Option.bind_eq_some_iff.1 h
    obtain ⟨w, hw, hset⟩ := setAlong_walk (front ++ [last]) last new hm [] 0
    obtain ⟨⟨c, put⟩, hput, hc⟩ := Option.map_eq_some_iff.1 ((child?_eq_slot? m last).symm.trans hn)
    cases hc
    have hend : ∀ depth, setAlong (front ++ [last]) last new depth [] m = (put new, .ok ()) :=
      fun depth => by simp only [setAlong, opened_of_child hn, hput]
    rw [hend] at hw hset
    rw [List.append_nil] at hset
    exact ⟨w, (setInPlace_concat front).trans hset,
      hw.within (.inside (swapped_of_slot? hput new) .here)⟩

theorem exists_concat (s : Text) (below : List Text) :
    ∃ parents last, parents ++ [last] = s :: below := by
  rcases List.eq_nil_or_concat (s :: below) with h | ⟨parents, last, h⟩
  · cases h
  · exact ⟨parents, last, by rw [h, List.concat_eq_append]⟩

/-- The walk in place, as far as the path can be read and from there on. -/
theorem setInPlace_walk (h : v.get? walked = some n) (hpath : parents ++ [last] = s :: below)
    (new : Value) :
    ∃ w,
      ReplacedAt n (setAlong (walked ++ s :: below) last new walked.length parents n).1 walked v w ∧
      v.setInPlace (walked ++ s :: below) new =
        (w, (setAlong (walked ++ s :: below) last new walked.length parents n).2) := by
  obtain ⟨w, hw, hset⟩ := setAlong_walk (walked ++ s :: below) last new h parents 0
  rw [Nat.zero_add] at hw hset
  refine ⟨w, hw, ?_⟩
  have hfull : walked ++ s :: below = (walked ++ parents) ++ [last] := by
    rw [List.append_assoc, hpath]
  rw [← hset, hfull, setInPlace_concat]

/-- A path that can be read as far as a mapping or a null gets a new entry there. -/
theorem setInPlace_fresh {es : Entries} (h : v.get? walked = some n) (hs : n.child? s = none)
    (hopen : n.opened = .mapping es) (below : List Text) (new : Value) :
    ∃ w, v.setInPlace (walked ++ s :: below) new = (w, .ok ()) ∧
      ReplacedAt n (.mapping (es ++ [(.string s, nest below new)])) walked v w := by
  obtain ⟨parents, last, hpath⟩ := exists_concat s below
  obtain ⟨w, hw, hset⟩ := setInPlace_walk h hpath new
  rw [setAlong_fresh hopen hpath (entryNamed?_of_opened hopen hs)] at hw hset
  exact ⟨w, hset, hw⟩

/-- A path that ends at any other node leaves the document as it is. -/
theorem setInPlace_stuck (h : v.get? walked = some n) (hs : n.child? s = none)
    (hmap : n.isMapping = false) (hnull : n.isNull = false) (below : List Text) (new : Value) :
    v.setInPlace (walked ++ s :: below) new =
      (v, .error (blockedAt (walked ++ s :: below) walked.length)) := by
  obtain ⟨parents, last, hpath⟩ := exists_concat s below
  obtain ⟨w, hw, hset⟩ := setInPlace_walk h hpath new
  rw [setAlong_stuck hmap hnull hpath hs] at hw hset
  rw [hset, hw.eq_of_same]

/-- A path can be read, or there is a last node on it that can be read. -/
theorem get?_cases (v : Value) (path : List Text) :
    (∃ n, v.get? path = some n) ∨
      ∃ walked s below n, path = walked ++ s :: below ∧ v.get? walked = some n ∧
        n.child? s = none := by
  induction path generalizing v with
  | nil => exact Or.inl ⟨v, rfl⟩
  | cons t path ih =>
    cases hc : v.child? t with
    | none => exact Or.inr ⟨[], t, path, v, rfl, rfl, hc⟩
    | some c =>
      have hdown : ∀ more, v.get? (t :: more) = c.get? more := fun more => by
        rw [get?, hc, Option.bind_some]
      rcases ih c with ⟨n, hn⟩ | ⟨walked, s, below, n, rfl, hn, hs⟩
      · exact Or.inl ⟨n, (hdown path).trans hn⟩
      · exact Or.inr ⟨t :: walked, s, below, n, rfl, (hdown walked).trans hn, hs⟩

/-- No longer part of the path can be read. -/
theorem get?_longer {longer : List Text} (h : v.get? walked = some n) (hs : n.child? s = none)
    (hpre : longer <+: walked ++ s :: below) (hlen : walked.length < longer.length) :
    v.get? longer = none := by
  obtain ⟨more, rfl⟩ : walked <+: longer :=
    List.prefix_of_prefix_length_le (List.prefix_append _ _) hpre (Nat.le_of_lt hlen)
  rw [List.prefix_append_right_inj] at hpre
  cases more with
  | nil => simp at hlen
  | cons t more =>
    obtain ⟨rfl, -⟩ := List.cons_prefix_cons.1 hpre
    rw [get?_append, h, Option.bind_some, get?, hs, Option.bind_none]

/-- Setting a path ends at the node that it leads to, at a mapping or a null that lacks the next
segment, or at another node that lacks it. -/
theorem setInPlace_cases (v : Value) (path : List Text) (new : Value) :
    (∃ n w, v.get? path = some n ∧
      v.setInPlace path new = (w, .ok ()) ∧ ReplacedAt n new path v w) ∨
      (∃ walked s below n es w, path = walked ++ s :: below ∧ v.get? walked = some n ∧
        n.child? s = none ∧ n.opened = .mapping es ∧ v.setInPlace path new = (w, .ok ()) ∧
        ReplacedAt n (.mapping (es ++ [(.string s, nest below new)])) walked v w) ∨
      ∃ walked s below n, path = walked ++ s :: below ∧ v.get? walked = some n ∧ n.child? s = none ∧
        n.isMapping = false ∧ n.isNull = false ∧
        v.setInPlace path new = (v, .error (blockedAt path walked.length)) := by
  rcases get?_cases v path with ⟨n, hn⟩ | ⟨walked, s, below, n, rfl, hn, hs⟩
  · obtain ⟨w, hset, hw⟩ := setInPlace_found hn new
    exact Or.inl ⟨n, w, hn, hset, hw⟩
  · rcases opened_cases n with ⟨es, hes⟩ | ⟨hmap, hnull⟩
    · obtain ⟨w, hset, hw⟩ := setInPlace_fresh hn hs hes below new
      exact Or.inr (Or.inl ⟨walked, s, below, n, es, w, rfl, hn, hs, hes, hset, hw⟩)
    · have hset := setInPlace_stuck hn hs hmap hnull below new
      exact Or.inr (Or.inr ⟨walked, s, below, n, rfl, hn, hs, hmap, hnull, hset⟩)

/-- A path that can be read can be set, and only the place it leads to changes. -/
theorem set_found (h : v.get? path = some n) (new : Value) :
    ∃ w, v.set path new = .ok w ∧ ReplacedAt n new path v w := by
  obtain ⟨w, hset, hw⟩ := setInPlace_found h new
  exact ⟨w, by rw [set, hset]; rfl, hw⟩

/-- A path that can be read as far as a mapping or a null can be set by adding an entry there. -/
theorem set_fresh {es : Entries} (h : v.get? walked = some n) (hs : n.child? s = none)
    (hopen : n.opened = .mapping es) (below : List Text) (new : Value) :
    ∃ w, v.set (walked ++ s :: below) new = .ok w ∧
      ReplacedAt n (.mapping (es ++ [(.string s, nest below new)])) walked v w := by
  obtain ⟨w, hset, hw⟩ := setInPlace_fresh h hs hopen below new
  exact ⟨w, by rw [set, hset]; rfl, hw⟩

/-- Setting a path does not give a mapping a key twice. -/
theorem set_keyed {w : Value} (hv : v.Keyed) (hnew : new.Keyed) (h : v.set path new = .ok w) :
    w.Keyed := by
  rw [set] at h
  rcases setInPlace_cases v path new with ⟨n, after, -, hset, hafter⟩ |
    ⟨walked, s, below, n, es, after, rfl, -, hs, hes, hset, hafter⟩ |
    ⟨walked, s, below, n, rfl, -, -, -, -, hset⟩
  all_goals
    rw [hset] at h
    cases h
  · exact hafter.keyed hv fun _ => hnew
  · refine hafter.keyed hv fun hkeyed => ?_
    have hmapping : (mapping es).Keyed := by
      rcases opened_eq_mapping.1 hes with rfl | ⟨-, rfl⟩
      · exact hkeyed
      · exact keyed_empty
    have hadded := hmapping.insert (k := .string s) trivial (nest_keyed hnew below)
    rwa [Entries.insert_of_find?_none
      (find?_of_entryNamed?_none (entryNamed?_of_opened hes hs))] at hadded

/-- **Setting a path is exact, and all or nothing.** Let `n` be the node at the longest part of the
path that can be read. If that is the whole path, `n` becomes the new value. If `n` is a mapping, or
a null, which counts as an empty one, it gets one new entry, the last: under the next segment as a
string key the new value below the rest of the path. At any other node the document is left as it
is. -/
theorem setInPlace_exact (doc : Value) (path : List Text) (new : Value) :
    ∃ walked rest n, path = walked ++ rest ∧ doc.get? walked = some n ∧
      (∀ longer, longer <+: path → walked.length < longer.length → doc.get? longer = none) ∧
      ((rest = [] ∧ ∃ after, doc.setInPlace path new = (after, .ok ()) ∧
          ReplacedAt n new path doc after ∧ after.get? path = some new) ∨
        (∃ s below es after, rest = s :: below ∧ (n = .mapping es ∨ n.isNull = true ∧ es = []) ∧
          doc.setInPlace path new = (after, .ok ()) ∧
          ReplacedAt n (.mapping (es ++ [(.string s, nest below new)])) walked doc after ∧
          after.get? path = some new) ∨
        (rest ≠ [] ∧ n.isMapping = false ∧ n.isNull = false ∧
          ∃ e, doc.setInPlace path new = (doc, .error e))) := by
  rcases setInPlace_cases doc path new with ⟨n, after, hn, hset, hafter⟩ |
    ⟨walked, s, below, n, es, after, rfl, hn, hs, hes, hset, hafter⟩ |
    ⟨walked, s, below, n, rfl, hn, hs, hmap, hnull, hset⟩
  · refine ⟨path, [], n, (List.append_nil path).symm, hn, fun longer hpre hlen => ?_,
      Or.inl ⟨rfl, ?_⟩⟩
    · exact absurd hpre.length_le (Nat.not_le_of_lt hlen)
    · exact ⟨after, hset, hafter, hafter.get?_after⟩
  · refine ⟨walked, s :: below, n, rfl, hn, fun longer => get?_longer hn hs, Or.inr (Or.inl ?_)⟩
    refine ⟨s, below, es, after, rfl, opened_eq_mapping.1 hes, hset, hafter, ?_⟩
    have hchild := (swapped_last (entryNamed?_of_opened hes hs) (nest below new) new).child?
    rw [get?_append, hafter.get?_after, Option.bind_some, get?, hchild, Option.bind_some, get?_nest]
  · refine ⟨walked, s :: below, n, rfl, hn, fun longer => get?_longer hn hs, Or.inr (Or.inr ?_)⟩
    exact ⟨List.cons_ne_nil _ _, hmap, hnull, _, hset⟩

/-- The failure spells the path, and a part of it that leads to a node without a place for an
entry. -/
def Blames (doc : Value) (path : List Text) (e : NotAMapping) : Prop :=
  e.key = Text.joinWith "." path ∧
    ∃ part n, part <+: path ∧ doc.get? part = some n ∧ n.isMapping = false ∧ n.isNull = false ∧
      e.parent = Text.joinWith "." part

theorem blockedAt_append (walked below : List Text) (s : Text) :
    blockedAt (walked ++ s :: below) walked.length =
      ⟨Text.joinWith "." (walked ++ s :: below), Text.joinWith "." (walked ++ [s])⟩ := by
  have hmin : min walked.length ((walked ++ s :: below).length - 1) + 1 = walked.length + 1 := by
    simp only [List.length_append, List.length_cons]
    omega
  have htake : (walked ++ s :: below).take (walked.length + 1) = walked ++ [s] := by
    rw [List.take_length_add_append]
    rfl
  rw [blockedAt, hmin, htake]

/-- A path is spelled differently from its beginnings, except that an empty segment alone is spelled
like no segment at all. -/
theorem joinWith_append_eq {part more : List Text} (hmore : more ≠ []) :
    Text.joinWith "." (part ++ more) = Text.joinWith "." part ↔ part = [] ∧ more = [[]] := by
  obtain ⟨t, ts, rfl⟩ := List.exists_cons_of_ne_nil hmore
  cases part with
  | nil =>
    rw [List.nil_append, Text.joinWith_cons]
    cases ts with
    | nil => simp [Text.joinWith]
    | cons u ts => simp [Text.joinWith]
  | cons a part =>
    rw [List.cons_append, Text.joinWith_cons, Text.joinWith_cons, List.flatMap_append]
    simp

/-- The path as far as the missing segment is spelled like none of the parts that can be read,
except that an empty first segment is spelled like the document itself. -/
theorem spelled_iff {doc : Value} (hn : doc.get? walked = some n) (hs : n.child? s = none)
    (below : List Text) :
    (∃ part m, part <+: walked ++ s :: below ∧ doc.get? part = some m ∧
      Text.joinWith "." (walked ++ [s]) = Text.joinWith "." part) ↔ walked = [] ∧ s = [] := by
  constructor
  · rintro ⟨part, m, hpart, hm, hspell⟩
    have hshort : ¬ walked.length < part.length := by
      intro hlong
      have hnone := get?_longer hn hs hpart hlong
      rw [hm] at hnone
      cases hnone
    obtain ⟨more, rfl⟩ : part <+: walked :=
      List.prefix_of_prefix_length_le hpart (List.prefix_append _ _) (Nat.le_of_not_lt hshort)
    rw [List.append_assoc, joinWith_append_eq (by simp)] at hspell
    obtain ⟨rfl, hmore⟩ := hspell
    cases more with
    | nil => exact ⟨rfl, List.singleton_inj.1 hmore⟩
    | cons t more => simp at hmore
  · rintro ⟨rfl, rfl⟩
    exact ⟨[], doc, List.nil_prefix, rfl, rfl⟩

/-- Setting a path fails at a node that is neither a mapping nor null and lacks the next segment. -/
theorem stuck_of_set_error {doc : Value} {e : NotAMapping} (h : doc.set path new = .error e) :
    ∃ walked s below n, path = walked ++ s :: below ∧ doc.get? walked = some n ∧ n.child? s = none ∧
      n.isMapping = false ∧ n.isNull = false ∧ e = blockedAt path walked.length := by
  rw [set] at h
  rcases setInPlace_cases doc path new with ⟨n, after, -, hset, -⟩ |
    ⟨walked, s, below, n, es, after, rfl, -, -, -, hset, -⟩ |
    ⟨walked, s, below, n, rfl, hn, hs, hmap, hnull, hset⟩
  all_goals
    rw [hset] at h
    cases h
  exact ⟨walked, s, below, n, rfl, hn, hs, hmap, hnull, rfl⟩

/-- **A failure spells the path one segment too far.** The walk stopped at a node that is neither a
mapping nor null, and the failure spells the path up to the segment that is not in this node, not up
to the node. So it blames a node on the path only where the two are spelled alike: at a first
segment that is empty. -/
theorem set_blames_iff {doc : Value} {e : NotAMapping} (h : doc.set path new = .error e) :
    ∃ walked s below n, path = walked ++ s :: below ∧ doc.get? walked = some n ∧
      n.isMapping = false ∧ n.isNull = false ∧ n.child? s = none ∧
      e.key = Text.joinWith "." path ∧ e.parent = Text.joinWith "." (walked ++ [s]) ∧
      (Blames doc path e ↔ walked = [] ∧ s = []) := by
  obtain ⟨walked, s, below, n, rfl, hn, hs, hmap, hnull, rfl⟩ := stuck_of_set_error h
  rw [blockedAt_append]
  refine ⟨walked, s, below, n, rfl, hn, hmap, hnull, hs, rfl, rfl, ?_, ?_⟩
  · rintro ⟨-, part, m, hpart, hm, -, -, hspell⟩
    exact (spelled_iff hn hs below).1 ⟨part, m, hpart, hm, hspell⟩
  · rintro ⟨rfl, rfl⟩
    exact ⟨rfl, [], n, List.nil_prefix, hn, hmap, hnull, rfl⟩

/-- A document with a sequence two segments down. -/
def listed : Value :=
  .mapping [(.string "a", .mapping [(.string "b", .sequence [.null, .bool true])])]

theorem set_blames_iff_item :
    listed.set ["a", "b", "2", "c"] .null = .error ⟨"a.b.2.c", "a.b.2"⟩ ∧
    ∃ walked s below n, ["a".toList, "b".toList, "2".toList, "c".toList] = walked ++ s :: below ∧
      listed.get? walked = some n ∧ n.isMapping = false ∧ n.isNull = false ∧ n.child? s = none ∧
      "a.b.2.c".toList = Text.joinWith "." ["a", "b", "2", "c"] ∧
      "a.b.2".toList = Text.joinWith "." (walked ++ [s]) ∧
      (Blames listed ["a", "b", "2", "c"] ⟨"a.b.2.c", "a.b.2"⟩ ↔ walked = [] ∧ s = []) := by
  have h : listed.set ["a", "b", "2", "c"] .null = .error ⟨"a.b.2.c", "a.b.2"⟩ := rfl
  exact ⟨h, set_blames_iff h⟩

/-- The scalar at `a` has no place for `b`, and what the failure spells is `a.b`, where nothing
is. -/
theorem set_not_blames :
    let doc : Value := .mapping [(.string "a", .bool true)]
    doc.set ["a", "b"] .null = .error ⟨"a.b", "a.b"⟩ ∧
      doc.get? ["a"] = some (.bool true) ∧ doc.get? ["a", "b"] = none ∧
      ¬ Blames doc ["a", "b"] ⟨"a.b", "a.b"⟩ := by
  intro doc
  have hn : doc.get? ["a"] = some (.bool true) := by decide +kernel
  refine ⟨rfl, hn, by decide +kernel, ?_⟩
  rintro ⟨-, part, m, hpart, hm, -, -, hspell⟩
  have hspelled : Text.joinWith "." (["a".toList] ++ ["b".toList]) = "a.b".toList := by
    decide +kernel
  have hempty := (spelled_iff hn rfl []).1 ⟨part, m, hpart, hm, hspelled.trans hspell⟩
  cases hempty.1

end LayeredConfig.Value
