import LayeredConfig.Proofs.Yaml.Local.Text
import LayeredConfig.Yaml.Token.Tag

/-!
# Anchors, tags and directives are read locally

Where a name ends is seen in the next character. A directive takes its whole line.
-/
namespace LayeredConfig.Yaml

open Outcome

variable {s : Text} {c c' : Cursor}

/-- What may follow a name. -/
def endsName (c : Cursor) : Bool :=
  gapAhead c.rest ||
    c.peek.any fun x => ['?', ':', ',', ']', '\x7d', '%', '@', '\x60'].contains x

def closeName (name : Text) (c : Cursor) : Except Fault (Text × Cursor) :=
  if name.isEmpty || ¬ endsName c then .error .lexical else .ok (name, c)

theorem readAnchorName_eq (c : Cursor) :
    readAnchorName c = .ok (c.next.takeRun isWordChar) >>= fun p => closeName p.1 p.2 := by
  rw [readAnchorName]
  rfl

theorem takes_readAnchorName (h : readAnchorName c = .ok (s, c')) :
    Takes (fun _ => readAnchorName) c (s, ·) c' := by
  rw [readAnchorName_eq] at h
  obtain ⟨⟨name, c₁⟩, hrun, h⟩ := bind_eq_ok.1 h
  have htake := Cursor.takes_nextRun isWordChar c
  rw [Except.ok.inj hrun] at htake
  refine (htake.andThen (g := closeName) (a := name) ?_).congr fun w _ _ => readAnchorName_eq _
  rw [closeName] at h
  split at h
  · cases h
  next hends =>
  cases h
  exact .stop fun w _ hw => by
    rw [closeName, endsName, Cursor.onto_rest, hw.gapAhead_eq, Cursor.peek_onto hw]
    exact if_neg hends

theorem length_readAnchorName_le (h : readAnchorName c = .ok (s, c')) :
    c'.rest.length ≤ c.next.rest.length := by
  rw [readAnchorName_eq] at h
  obtain ⟨⟨name, c₁⟩, hrun, h⟩ := bind_eq_ok.1 h
  have hle := (Cursor.takes_takeRun isWordChar c.next).length_le
  rw [Except.ok.inj hrun] at hle
  rw [closeName] at h
  split at h
  · cases h
  · cases h
    exact hle

theorem takes_readTagText {delimited : Bool} (h : readTagText delimited c = .ok (s, c')) :
    Takes (fun _ => readTagText delimited) c (s, ·) c' := by
  have htake := Cursor.takes_takeRun (isTagChar delimited) c
  rw [readTagText] at h
  rcases hrun : c.takeRun (isTagChar delimited) with ⟨raw, c₁⟩
  rw [hrun] at h htake
  simp only at h
  cases htext : tagText (raw.length + 1) raw with
  | none =>
    rw [htext] at h
    cases h
  | some t =>
    rw [htext] at h
    cases h
    refine htake.conclude fun w w₁ fuel _ _ hfuel hread => ?_
    rw [readTagText, Except.ok.inj (hread _ hfuel)]
    simp only [htext]

def closeHandle (word : Text) (c : Cursor) : Text × Cursor :=
  if c.peek = some '!' then ('!' :: word ++ ['!'], c.next) else ('!' :: word, c)

theorem readHandle_eq (c : Cursor) :
    readHandle c = closeHandle (c.next.takeRun isWordChar).1 (c.next.takeRun isWordChar).2 := by
  rw [readHandle]
  rfl

theorem takes_readHandle (c : Cursor) :
    Takes (fun _ c => .ok (readHandle c)) c ((readHandle c).1, ·) (readHandle c).2 := by
  have htake := Cursor.takes_nextRun isWordChar c
  rw [readHandle_eq]
  generalize c.next.takeRun isWordChar = p at htake
  obtain ⟨word, c₁⟩ := p
  have hclose : Takes (fun _ c => .ok (closeHandle word c)) c₁ ((closeHandle word c₁).1, ·)
      (closeHandle word c₁).2 := by
    rw [closeHandle]
    split
    · next hmark =>
      refine (Cursor.goes_next c₁).conclude fun w w₁ fuel hw _ hfuel hnext => ?_
      rw [closeHandle, Cursor.peek_onto hw, if_pos hmark, Except.ok.inj (hnext _ hfuel)]
      rfl
    · next hmark =>
      exact .stop fun w _ hw => by rw [closeHandle, Cursor.peek_onto hw, if_neg hmark]
  exact (htake.andThen (g := fun word c => .ok (closeHandle word c)) hclose).congr fun w _ _ => by
    rw [readHandle_eq]
    rfl

/-- Whether a tag is written out in angle brackets. -/
def isVerbatim (s : Text) : Bool := s.take 2 == ['!', '<']

theorem Alike.isVerbatim_eq {s t : Text} (h : Alike s t) : isVerbatim t = isVerbatim s := by
  obtain ⟨front, k, u, v, hk, rfl, rfl⟩ := h
  have hsigns : k ≠ '!' ∧ k ≠ '<' := by
    rw [isClosing, Bool.or_eq_true, beq_iff_eq, beq_iff_eq] at hk
    rcases hk with rfl | rfl <;> decide
  rcases front with _ | ⟨a, _ | ⟨b, front⟩⟩
  · have hfalse : ∀ r, isVerbatim (k :: r) = false := by simp [isVerbatim, hsigns]
    exact (hfalse v).trans (hfalse u).symm
  · rfl
  · rfl

def closeVerbatim (name : Text) (c : Cursor) : Except Fault (TagMark × Cursor) :=
  if name.isEmpty || c.peek ≠ some '>' then .error .lexical else .ok (⟨[], name⟩, c.next)

/-- The tag of a handle and what follows it; a handle that is not closed belongs to what follows. -/
def shortMark (handle name : Text) : Except Fault TagMark :=
  if 2 ≤ handle.length ∧ handle.getLast? = some '!' then
    if name.isEmpty then .error .lexical else .ok ⟨handle, name⟩
  else
    let suffix := handle.drop 1 ++ name
    .ok (if suffix.isEmpty then ⟨[], ['!']⟩ else ⟨['!'], suffix⟩)

def readShort (c : Cursor) : Except Fault (TagMark × Cursor) :=
  readTagText false (readHandle c).2 >>= fun p => (shortMark (readHandle c).1 p.1).map (·, p.2)

def closeTag (flow : Bool) (mark : TagMark) (c : Cursor) : Except Fault (TagMark × Cursor) :=
  if gapAhead c.rest || (flow && c.peek = some ',') then .ok (mark, c) else .error .lexical

theorem readTag_eq (flow : Bool) (c : Cursor) : readTag flow c =
    (if isVerbatim c.rest then readTagText true (c.skip 2) >>= fun p => closeVerbatim p.1 p.2
      else readShort c) >>= fun p => closeTag flow p.1 p.2 := by
  rw [readTag]
  split
  · next heq =>
    rw [heq]
    show _ = (readTagText true (c.skip 2) >>= fun p => closeVerbatim p.1 p.2) >>= _
    rcases readTagText true (c.skip 2) with e | ⟨s, c₁⟩
    · rfl
    · simp only [ok_bind, closeVerbatim]
      split <;> rfl
  · next hne =>
    have hverbatim : isVerbatim c.rest = false := by
      rcases hrest : c.rest with _ | ⟨a, _ | ⟨b, r⟩⟩
      · rfl
      · simp [isVerbatim]
      · simp only [isVerbatim, List.take_succ_cons, List.take_zero]
        refine beq_eq_false_iff_ne.2 ?_
        rintro ⟨⟩
        exact hne r hrest
    rw [hverbatim]
    show _ = readShort c >>= _
    rw [readShort]
    rcases readHandle c with ⟨handle, after⟩
    simp only [shortMark]
    split
    · rcases readTagText false after with e | ⟨s, c₁⟩
      · rfl
      · simp only [ok_bind]
        split <;> rfl
    · rcases readTagText false after with e | ⟨s, c₁⟩ <;> rfl

theorem takes_verbatim {mark : TagMark}
    (h : (readTagText true (c.skip 2) >>= fun p => closeVerbatim p.1 p.2) = .ok (mark, c')) :
    Takes (fun _ c => readTagText true (c.skip 2) >>= fun p => closeVerbatim p.1 p.2) c
      (mark, ·) c' := by
  obtain ⟨⟨s, c₁⟩, htext, h⟩ := bind_eq_ok.1 h
  have htake := (Cursor.goes_skip 2 c).before (takes_readTagText htext)
    (F := fun _ c => readTagText true (c.skip 2)) fun _ _ => rfl
  refine htake.andThen ?_
  rw [closeVerbatim] at h
  split at h
  · cases h
  next hclose =>
  cases h
  refine (Cursor.goes_next c₁).conclude fun w w₁ fuel hw _ hfuel hnext => ?_
  rw [closeVerbatim, Cursor.peek_onto hw, if_neg hclose, Except.ok.inj (hnext _ hfuel)]
  rfl

theorem takes_readShort {c₀ : Cursor} {mark : TagMark} (h : readShort c₀ = .ok (mark, c')) :
    Takes (fun _ => readShort) c₀ (mark, ·) c' := by
  obtain ⟨⟨s, c₁⟩, htext, h⟩ := bind_eq_ok.1 h
  obtain ⟨m, hmark, h⟩ := map_eq_ok.1 h
  cases h
  have hrest : Takes (fun _ c => readTagText false c >>= fun p =>
      (shortMark (readHandle c₀).1 p.1).map (·, p.2)) (readHandle c₀).2 (mark, ·) c₁ :=
    (takes_readTagText htext).andThen (g := fun s c => (shortMark (readHandle c₀).1 s).map (·, c))
      (.stop fun w _ _ => by simp only [hmark, Except.map])
  exact (takes_readHandle c₀).andThen hrest (g := fun handle c => readTagText false c >>= fun p =>
    (shortMark handle p.1).map (·, p.2))

theorem takes_readTag {flow : Bool} {mark : TagMark} (h : readTag flow c = .ok (mark, c')) :
    Takes (fun _ => readTag flow) c (mark, ·) c' := by
  rw [readTag_eq] at h
  obtain ⟨⟨m, c₁⟩, hbody, h⟩ := bind_eq_ok.1 h
  have hmark : Takes (fun _ c => if isVerbatim c.rest then
        readTagText true (c.skip 2) >>= fun p => closeVerbatim p.1 p.2
      else readShort c) c (m, ·) c₁ := by
    split at hbody
    · next hverbatim =>
      exact (takes_verbatim hbody).congr fun w _ hw => by
        rw [Cursor.onto_rest, hw.isVerbatim_eq, if_pos hverbatim]
    · next hverbatim =>
      exact (takes_readShort hbody).congr fun w _ hw => by
        rw [Cursor.onto_rest, hw.isVerbatim_eq, if_neg hverbatim]
  refine (hmark.andThen (g := closeTag flow) ?_).congr fun w _ _ => readTag_eq flow _
  rw [closeTag] at h
  split at h
  · next hends =>
    cases h
    exact .stop fun w _ hw => by
      rw [closeTag, Cursor.onto_rest, hw.gapAhead_eq, Cursor.peek_onto hw]
      exact if_pos hends
  · cases h

theorem length_readHandle_le (c : Cursor) : (readHandle c).2.rest.length ≤ c.next.rest.length := by
  have hrun := (Cursor.takes_takeRun isWordChar c.next).length_le
  rw [readHandle_eq, closeHandle]
  split
  · exact Nat.le_trans (Cursor.goes_next _).length_le hrun
  · exact hrun

theorem length_readTag_le {flow : Bool} {mark : TagMark} (h : readTag flow c = .ok (mark, c')) :
    c'.rest.length ≤ c.next.rest.length := by
  rw [readTag_eq] at h
  obtain ⟨⟨m, c₁⟩, hbody, h⟩ := bind_eq_ok.1 h
  have hle : c₁.rest.length ≤ c.next.rest.length := by
    split at hbody
    · obtain ⟨⟨s, c₂⟩, htext, hclose⟩ := bind_eq_ok.1 hbody
      have htextle := (takes_readTagText htext).length_le
      have hskip : (c.skip 2).rest.length ≤ c.next.rest.length :=
        (Cursor.goes_next c.next).length_le
      rw [closeVerbatim] at hclose
      split at hclose
      · cases hclose
      · cases hclose
        exact Nat.le_trans (Cursor.goes_next _).length_le (Nat.le_trans htextle hskip)
    · obtain ⟨⟨s, c₂⟩, htext, hmark⟩ := bind_eq_ok.1 hbody
      obtain ⟨_, -, heq⟩ := map_eq_ok.1 hmark
      cases heq
      exact Nat.le_trans (takes_readTagText htext).length_le (length_readHandle_le c)
  rw [closeTag] at h
  split at h
  · cases h
    exact hle
  · cases h

end LayeredConfig.Yaml
