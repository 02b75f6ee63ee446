import LayeredConfig.Proofs.Yaml.FlowElements
import LayeredConfig.Proofs.Yaml.Lexemes

/-!
# The node of a collection in brackets

Inside brackets a node is read from tokens that can stand there, up to the closing bracket. It is
the same node without the marks for the end of the document that may follow, and no more fuel is
needed than two steps for each token.
-/
namespace LayeredConfig.Yaml.Node

open Outcome

variable {α : Type} {handles : Handles} {close t : Token}

/-- `a` is read from the tokens `used` in front, which can stand in brackets. With fuel for two
steps a token it is read from them again, before any tokens that begin as those left over. -/
structure Consumes (read : Nat → Rest → Except Fault (α × Rest)) (used : List Token) (r : Rest)
    (a : α) (left : Rest) : Prop where
  tokens : r.tokens = used ++ left.tokens
  inFlow : ∀ t ∈ used, t.inFlow = true
  again : ∀ m tail, 2 * used.length ≤ m → tail.head? = left.tokens.head? →
    read m ⟨used ++ tail, r.names⟩ = .ok (a, ⟨tail, left.names⟩)

/-- The same up to a closing bracket, and before any tokens at all. -/
structure Closes (close : Token) (spare : Nat) (read : Nat → Rest → Except Fault (α × Rest))
    (used : List Token) (r : Rest) (a : α) (left : Rest) : Prop where
  tokens : r.tokens = used ++ left.tokens
  inFlow : ∀ t ∈ used, t.inFlow = true
  last : used.getLast? = some close
  again : ∀ m tail, 2 * used.length + spare ≤ m →
    read m ⟨used ++ tail, r.names⟩ = .ok (a, ⟨tail, left.names⟩)

section

variable {β : Type} {read : Nat → Rest → Except Fault (α × Rest)} {used used₁ used₂ : List Token}
  {spare : Nat} {r r₁ r₂ left : Rest} {a : α} {b : β}

/-- A reading up to the bracket behind another reading. -/
theorem Consumes.closes (next : α → Nat → Rest → Except Fault (β × Rest)) (spare : Nat)
    (h : Consumes read used₁ r a r₁)
    (hnext : Closes close 1 (next a) used₂ r₁ b r₂) (hspare : 1 ≤ 2 * used₁.length + spare) :
    Closes close spare (fun m r => read m r >>= fun p => next p.1 m p.2) (used₁ ++ used₂) r b
      r₂ where
  tokens := by rw [h.tokens, hnext.tokens, List.append_assoc]
  inFlow t ht := (List.mem_append.1 ht).elim (h.inFlow t) (hnext.inFlow t)
  last := by rw [List.getLast?_append, hnext.last, Option.some_or]
  again m tail hm := by
    rw [List.length_append] at hm
    have hhead : (used₂ ++ tail).head? = r₁.tokens.head? := by
      rw [hnext.tokens]
      cases used₂ with
      | nil => cases hnext.last
      | cons t used₂ => rfl
    rw [List.append_assoc, h.again m _ (by omega) hhead, ok_bind]
    exact hnext.again m tail (by omega)

theorem Closes.map {f : α → β} (h : Closes close spare read used r a left) :
    Closes close spare (fun m r => read m r >>= fun p => .ok (f p.1, p.2)) used r (f a) left where
  tokens := h.tokens
  inFlow := h.inFlow
  last := h.last
  again m tail hm := by rw [h.again m tail hm, ok_bind]

/-- The step that fuel is spent on. -/
theorem Closes.succ (h : Closes close 0 (fun m => read (m + 1)) used r a left) :
    Closes close 1 read used r a left where
  tokens := h.tokens
  inFlow := h.inFlow
  last := h.last
  again m tail hm := by
    obtain ⟨m, rfl⟩ : ∃ k, m = k + 1 := ⟨m - 1, by omega⟩
    exact h.again m tail (by omega)

/-- A token in front. -/
theorem Closes.cons {read' : Nat → Rest → Except Fault (α × Rest)}
    (h : Closes close spare read used r.tail a left)
    (hr : r.tokens = t :: r.tail.tokens) (ht : t.inFlow = true) {spare' : Nat}
    (hspare : spare ≤ spare' + 2)
    (hread : ∀ m ts, read' m ⟨t :: ts, r.names⟩ = read m ⟨ts, r.names⟩) :
    Closes close spare' read' (t :: used) r a left where
  tokens := by rw [hr, h.tokens, List.cons_append]
  inFlow := List.forall_mem_cons.2 ⟨ht, h.inFlow⟩
  last := by
    rw [List.getLast?_cons, h.last]
    rfl
  again m tail hm := by
    rw [List.length_cons] at hm
    rw [List.cons_append, hread]
    exact h.again m tail (by omega)

/-- The bracket itself. -/
theorem closes_close {read : Nat → Rest → Except Fault (α × Rest)}
    (hr : r.tokens = close :: r.tail.tokens)
    (hclose : close.inFlow = true)
    (hread : ∀ m ts, read m ⟨close :: ts, r.names⟩ = .ok (a, ⟨ts, r.names⟩)) :
    Closes close spare read [close] r a r.tail where
  tokens := hr
  inFlow := List.forall_mem_cons.2 ⟨hclose, by simp⟩
  last := rfl
  again m tail _ := hread m tail

end

theorem tokens_of_head {r : Rest} (h : r.tokens.head? = some t) :
    r.tokens = t :: r.tail.tokens := by
  obtain ⟨ts, hts⟩ := List.head?_eq_some_iff.1 h
  rw [tail_tokens hts, hts]

theorem head?_consumed {used : List Token} {r left : Rest} (h : r.tokens = used ++ left.tokens)
    (hne : used ≠ []) (tail : List Token) : (used ++ tail).head? = r.tokens.head? := by
  obtain ⟨t, used, rfl⟩ := List.exists_cons_of_ne_nil hne
  rw [h]
  rfl

section

variable {along : Bool} {pair : Node → Node → α} {single : Node → α}
  {read : Rest → Except Fault (Node × Rest)}
  {again : Nat → Rest → Except Fault (Node × Rest)} {more : Rest → Except Fault (List α × Rest)}
  {moreAgain : Nat → Rest → Except Fault (List α × Rest)} {r left : Rest} {n : Node} {as : List α}

theorem consumes_keyPart (hclose : close.inFlow = true)
    (hread : ∀ r n left, read r = .ok (n, left) → ∃ used, used ≠ [] ∧ Consumes again used r n left)
    (h : keyPart close along read r = .ok (n, left)) :
    ∃ used, Consumes (fun m => keyPart close along (again m)) used r n left := by
  rw [keyPart] at h
  split at h
  · next hhead =>
    cases h
    cases along with
    | false =>
      refine ⟨[], rfl, by simp, fun m tail _ htail => ?_⟩
      rw [List.nil_append, keyPart, htail]
      exact if_pos hhead
    | true =>
      obtain ⟨t, ht, hempty, hflow⟩ : ∃ t, r.tokens.head? = some t ∧
          (some t = some Token.value ∨ some t = some Token.flowEntry ∨ some t = some close) ∧
          t.inFlow = true := by
        obtain h | h | h := hhead
        · exact ⟨_, h, Or.inl rfl, rfl⟩
        · exact ⟨_, h, Or.inr (Or.inl rfl), rfl⟩
        · exact ⟨_, h, Or.inr (Or.inr rfl), hclose⟩
      exact ⟨[t], tokens_of_head ht,
        List.forall_mem_cons.2 ⟨hflow, by simp⟩, fun m tail _ _ => if_pos hempty⟩
  · next hhead =>
    obtain ⟨used, hne, hconsumes⟩ := hread r n left h
    refine ⟨used, hconsumes.tokens, hconsumes.inFlow, fun m tail hm htail => ?_⟩
    rw [keyPart, head?_consumed hconsumes.tokens hne, if_neg hhead]
    exact hconsumes.again m tail hm htail

theorem valuePart_value {read : Rest → Except Fault (Node × Rest)} {ts : List Token}
    {names : Names} :
    valuePart close read ⟨.value :: ts, names⟩ =
      if ts.head? = some .flowEntry ∨ ts.head? = some close then .ok (blank, ⟨ts, names⟩)
      else read ⟨ts, names⟩ :=
  if_pos rfl

theorem consumes_valuePart
    (hread : ∀ r n left, read r = .ok (n, left) → ∃ used, used ≠ [] ∧ Consumes again used r n left)
    (h : valuePart close read r = .ok (n, left)) :
    ∃ used, Consumes (fun m => valuePart close (again m)) used r n left := by
  rw [valuePart] at h
  split at h
  · next hhead =>
    split at h
    · next hempty =>
      cases h
      refine ⟨[.value], tokens_of_head hhead, by simp [Token.inFlow], fun m tail _ htail => ?_⟩
      rw [List.singleton_append, valuePart_value, htail]
      exact if_pos hempty
    · next hempty =>
      obtain ⟨used, hne, hconsumes⟩ := hread _ n left h
      refine ⟨.value :: used, ?_, ?_, fun m tail hm htail => ?_⟩
      · rw [tokens_of_head hhead, hconsumes.tokens, List.cons_append]
      · exact List.forall_mem_cons.2 ⟨rfl, hconsumes.inFlow⟩
      · rw [List.length_cons] at hm
        rw [List.cons_append, valuePart_value, head?_consumed hconsumes.tokens hne, if_neg hempty]
        exact hconsumes.again m tail (by omega) htail
  · next hhead =>
    cases h
    refine ⟨[], rfl, by simp, fun m tail _ htail => ?_⟩
    rw [List.nil_append, valuePart, htail]
    exact if_neg hhead

theorem closes_elements (hclose : close.inFlow = true) (hkey : close ≠ .key)
    (hread : ∀ r n left, read r = .ok (n, left) → ∃ used, used ≠ [] ∧ Consumes again used r n left)
    (hmore : ∀ r as left, more r = .ok (as, left) → ∃ used, Closes close 1 moreAgain used r as left)
    (h : elements close along pair single read more r = .ok (as, left)) :
    ∃ used, Closes close 0 (fun m => elements close along pair single (again m) (moreAgain m)) used
      r as left := by
  rw [elements] at h
  split at h
  · next hhead =>
    obtain ⟨⟨k, r₁⟩, hk, h⟩ := bind_eq_ok.1 h
    obtain ⟨⟨v, r₂⟩, hv, h⟩ := bind_eq_ok.1 h
    obtain ⟨⟨as, r₃⟩, has, h⟩ := bind_eq_ok.1 h
    cases h
    obtain ⟨used₁, hconsumes₁⟩ := consumes_keyPart hclose hread hk
    obtain ⟨used₂, hconsumes₂⟩ := consumes_valuePart hread hv
    obtain ⟨used₃, hcloses⟩ := hmore _ _ _ has
    have hvalue := hconsumes₂.closes (fun v m r => moreAgain m r >>= fun p =>
      .ok (pair k v :: p.1, p.2)) 1 (hcloses.map (f := fun as => pair k v :: as)) (by omega)
    have hentry := hconsumes₁.closes (fun k m r => valuePart close (again m) r >>= fun p =>
      moreAgain m p.2 >>= fun q => .ok (pair k p.1 :: q.1, q.2)) 1 hvalue (by omega)
    exact ⟨.key :: (used₁ ++ (used₂ ++ used₃)), hentry.cons (tokens_of_head hhead) rfl (by omega)
      fun m ts => if_pos rfl⟩
  · next hkeyless =>
    split at h
    · next hhead =>
      cases h
      exact ⟨[close], closes_close (tokens_of_head hhead) hclose fun m ts =>
        (if_neg fun h => hkey (Option.some.inj h)).trans (if_pos rfl)⟩
    · next hopen =>
      obtain ⟨⟨n, r₁⟩, hn, h⟩ := bind_eq_ok.1 h
      obtain ⟨⟨as, r₂⟩, has, h⟩ := bind_eq_ok.1 h
      cases h
      obtain ⟨used₁, hne, hconsumes⟩ := hread _ _ _ hn
      obtain ⟨used₂, hcloses⟩ := hmore _ _ _ has
      have hlength := List.length_pos_iff.2 hne
      have helement := hconsumes.closes (fun n m r => moreAgain m r >>= fun p =>
        .ok (single n :: p.1, p.2)) 0 (hcloses.map (f := fun as => single n :: as)) (by omega)
      refine ⟨used₁ ++ used₂, helement.tokens, helement.inFlow, helement.last, fun m tail hm => ?_⟩
      have hhead : (used₁ ++ used₂ ++ tail).head? = r.tokens.head? := by
        rw [List.append_assoc]
        exact head?_consumed hconsumes.tokens hne _
      rw [elements, hhead, if_neg hkeyless, if_neg hopen]
      exact helement.again m tail hm

end

/-- A node behind its anchor and tag, outside blocks. -/
def content (handles : Handles) (fuel : Nat) (p : Option Nat × Option Text × Rest) :
    Except Fault (Node × Rest) :=
  match p.2.2.tokens with
  | .scalar s plain :: _ =>
    .ok (.scalar p.1 (if p.2.1 = some ['!'] then none else p.2.1) s plain, p.2.2.tail)
  | .flowSequenceStart :: _ =>
    readFlowItems handles fuel true p.2.2.tail >>= fun q => .ok (.sequence p.1 p.2.1 q.1, q.2)
  | .flowMappingStart :: _ =>
    readFlowEntries handles fuel true p.2.2.tail >>= fun q => .ok (.mapping p.1 p.2.1 q.1, q.2)
  | _ =>
    if p.1.isSome || p.2.1.isSome then .ok (.scalar p.1 p.2.1 [] true, p.2.2) else .error .grammar

theorem read_eq_content {fuel : Nat} {r : Rest}
    (h : ∀ name ts, r.tokens = .alias name :: ts → False) :
    read handles false false (fuel + 1) r = properties handles r >>= content handles fuel := by
  rw [read]
  split
  · next name ts heq => exact absurd heq (h name ts)
  · refine congrArg _ (funext fun ⟨anchor, tag, r⟩ => ?_)
    rw [content]
    dsimp only
    cases r.tokens with
    | nil => rfl
    | cons t ts => cases t <;> rfl

/-- The tokens in front that stand for an anchor and a tag. -/
structure Marks (handles : Handles) (used : List Token) (r : Rest) (anchor : Option Nat)
    (tag : Option Text) (left : Rest) : Prop where
  tokens : r.tokens = used ++ left.tokens
  marks : ∀ t ∈ used, (∃ name, t = .anchor name) ∨ ∃ mark, t = .tag mark
  none : used = [] → anchor = none ∧ tag = none
  again : ∀ tail, tail.head? = left.tokens.head? →
    properties handles ⟨used ++ tail, r.names⟩ = .ok (anchor, tag, ⟨tail, left.names⟩)

theorem Marks.inFlow {used : List Token} {r left : Rest} {anchor : Option Nat} {tag : Option Text}
    (h : Marks handles used r anchor tag left) (ht : t ∈ used) : t.inFlow = true := by
  obtain ⟨name, rfl⟩ | ⟨mark, rfl⟩ := h.marks t ht
  · rfl
  · rfl

theorem properties_anchor {name : Text} {ts : List Token} {names : Names}
    (h : ∀ mark, ts.head? ≠ some (.tag mark)) : properties handles ⟨.anchor name :: ts, names⟩ =
      .ok (some (names.register name).2, none, ⟨ts, (names.register name).1⟩) := by
  cases ts with
  | nil => rfl
  | cons t ts =>
    cases t
    case tag mark => exact absurd rfl (h mark)
    all_goals rfl

theorem properties_tag {mark : TagMark} {ts : List Token} {names : Names}
    (h : ∀ name, ts.head? ≠ some (.anchor name)) : properties handles ⟨.tag mark :: ts, names⟩ =
      resolveTag handles mark >>= fun text => .ok (none, some text, ⟨ts, names⟩) := by
  cases ts with
  | nil => rfl
  | cons t ts =>
    cases t
    case anchor name => exact absurd rfl (h name)
    all_goals rfl

theorem properties_none {ts : List Token} {names : Names}
    (hanchor : ∀ name, ts.head? ≠ some (.anchor name))
    (htag : ∀ mark, ts.head? ≠ some (.tag mark)) :
    properties handles ⟨ts, names⟩ = .ok (none, none, ⟨ts, names⟩) := by
  cases ts with
  | nil => rfl
  | cons t ts =>
    cases t
    case anchor name => exact absurd rfl (hanchor name)
    case tag mark => exact absurd rfl (htag mark)
    all_goals rfl

theorem exists_marks {r left : Rest} {anchor : Option Nat} {tag : Option Text}
    (h : properties handles r = .ok (anchor, tag, left)) :
    ∃ used, Marks handles used r anchor tag left := by
  rw [properties.eq_def] at h
  split at h
  · next name mark ts hr =>
    obtain ⟨text, htag, h⟩ := bind_eq_ok.1 h
    cases h
    refine ⟨[.anchor name, .tag mark], hr, by simp, by simp, fun tail _ => ?_⟩
    simp only [List.cons_append, List.nil_append, properties, htag]
    rfl
  · next name ts hne hr =>
    cases h
    exact ⟨[.anchor name], hr, by simp, by simp, fun tail htail =>
      properties_anchor fun mark => htail ▸ head?_ne (hne mark)⟩
  · next mark name ts hr =>
    obtain ⟨text, htag, h⟩ := bind_eq_ok.1 h
    cases h
    refine ⟨[.tag mark, .anchor name], hr, by simp, by simp, fun tail _ => ?_⟩
    simp only [List.cons_append, List.nil_append, properties, htag]
    rfl
  · next mark ts hne hr =>
    obtain ⟨text, htag, h⟩ := bind_eq_ok.1 h
    cases h
    refine ⟨[.tag mark], hr, by simp, by simp, fun tail htail => ?_⟩
    rw [List.singleton_append, properties_tag fun name => htail ▸ head?_ne (hne name), htag]
    rfl
  · next hanchor _ htag =>
    cases h
    exact ⟨[], rfl, by simp, fun _ => ⟨rfl, rfl⟩, fun tail htail =>
      properties_none (fun name => htail ▸ head?_ne (hanchor name)) fun mark =>
        htail ▸ head?_ne (htag mark)⟩

/-- What is read within brackets with so much fuel. -/
structure ReadsInside (handles : Handles) (fuel : Nat) : Prop where
  node : ∀ r n left, read handles false false fuel r = .ok (n, left) →
    ∃ used, used ≠ [] ∧ Consumes (read handles false false) used r n left
  items : ∀ first r items left, readFlowItems handles fuel first r = .ok (items, left) →
    ∃ used, Closes .flowSequenceEnd 1 (fun m => readFlowItems handles m first) used r items left
  entries : ∀ first r entries left, readFlowEntries handles fuel first r = .ok (entries, left) →
    ∃ used, Closes .flowMappingEnd 1 (fun m => readFlowEntries handles m first) used r entries left

theorem consumes_content {fuel : Nat} {anchor : Option Nat} {tag : Option Text} {r left : Rest}
    {n : Node}
    (hfuel : ReadsInside handles fuel) (h : content handles fuel (anchor, tag, r) = .ok (n, left)) :
    ∃ used, (used = [] → anchor.isSome ∨ tag.isSome) ∧
      Consumes (fun m r => content handles (m - 1) (anchor, tag, r)) used r n left := by
  rw [content] at h
  dsimp only at h
  split at h
  · next s plain ts heq =>
    cases h
    refine ⟨[.scalar s plain], by simp, ?_, by simp [Token.inFlow], fun m tail _ _ => rfl⟩
    rw [tail_tokens heq, heq, List.singleton_append]
  · next ts heq =>
    obtain ⟨⟨items, r₁⟩, hitems, h⟩ := bind_eq_ok.1 h
    cases h
    obtain ⟨used, hcloses⟩ := hfuel.items _ _ _ _ hitems
    refine ⟨.flowSequenceStart :: used, by simp, ?_, ?_, fun m tail hm _ => ?_⟩
    · rw [heq, ← tail_tokens heq, hcloses.tokens, List.cons_append]
    · exact List.forall_mem_cons.2 ⟨rfl, hcloses.inFlow⟩
    · rw [List.length_cons] at hm
      exact bind_eq_ok.2 ⟨_, hcloses.again (m - 1) tail (by omega), rfl⟩
  · next ts heq =>
    obtain ⟨⟨entries, r₁⟩, hentries, h⟩ := bind_eq_ok.1 h
    cases h
    obtain ⟨used, hcloses⟩ := hfuel.entries _ _ _ _ hentries
    refine ⟨.flowMappingStart :: used, by simp, ?_, ?_, fun m tail hm _ => ?_⟩
    · rw [heq, ← tail_tokens heq, hcloses.tokens, List.cons_append]
    · exact List.forall_mem_cons.2 ⟨rfl, hcloses.inFlow⟩
    · rw [List.length_cons] at hm
      exact bind_eq_ok.2 ⟨_, hcloses.again (m - 1) tail (by omega), rfl⟩
  · next hscalar hsequence hmapping =>
    split at h
    · next hsome =>
      cases h
      refine ⟨[], fun _ => by simpa using hsome, rfl, by simp, fun m tail _ htail => ?_⟩
      rw [List.nil_append, content]
      dsimp only
      have hfront : ∀ {t ts}, tail = t :: ts → ∃ ts, r.tokens = t :: ts := by
        rintro t ts rfl
        exact List.head?_eq_some_iff.1 htail.symm
      split
      · exact ((hfront rfl).elim (hscalar _ _)).elim
      · exact ((hfront rfl).elim hsequence).elim
      · exact ((hfront rfl).elim hmapping).elim
      · exact if_pos hsome
    · cases h

theorem consumes_read {fuel : Nat} {r left : Rest} {n : Node}
    (hfuel : ReadsInside handles fuel) (h : read handles false false (fuel + 1) r = .ok (n, left)) :
    ∃ used, used ≠ [] ∧ Consumes (read handles false false) used r n left := by
  by_cases halias : ∃ name ts, r.tokens = .alias name :: ts
  · obtain ⟨name, ts, hr⟩ := halias
    rw [read, hr] at h
    dsimp only at h
    split at h
    · next number hnumber =>
      cases h
      refine ⟨[.alias name], by simp, hr, by simp [Token.inFlow], fun m tail hm _ => ?_⟩
      obtain ⟨m, rfl⟩ : ∃ k, m = k + 1 := ⟨m - 1, by simp at hm; omega⟩
      rw [List.singleton_append, read]
      dsimp only
      rw [hnumber]
    · cases h
  · have hr : ∀ name ts, r.tokens = .alias name :: ts → False :=
      fun name ts hr => halias ⟨name, ts, hr⟩
    rw [read_eq_content hr] at h
    obtain ⟨⟨anchor, tag, r₁⟩, hmarks, hcontent⟩ := bind_eq_ok.1 h
    obtain ⟨used₁, hmarks⟩ := exists_marks hmarks
    obtain ⟨used₂, hnone, hconsumes⟩ := consumes_content hfuel hcontent
    have hne : used₁ ++ used₂ ≠ [] := by
      intro hnil
      obtain ⟨h₁, h₂⟩ := List.append_eq_nil_iff.1 hnil
      obtain ⟨rfl, rfl⟩ := hmarks.none h₁
      obtain h | h := hnone h₂ <;> cases h
    have hused : r.tokens = (used₁ ++ used₂) ++ left.tokens := by
      rw [hmarks.tokens, hconsumes.tokens, List.append_assoc]
    refine ⟨used₁ ++ used₂, hne, hused, fun t ht => ?_, fun m tail hm htail => ?_⟩
    · exact (List.mem_append.1 ht).elim hmarks.inFlow (hconsumes.inFlow t)
    · have hlength := List.length_pos_iff.2 hne
      rw [List.length_append] at hm hlength
      obtain ⟨m, rfl⟩ : ∃ k, m = k + 1 := ⟨m - 1, by omega⟩
      have halike : ∀ name ts, used₁ ++ used₂ ++ tail = .alias name :: ts → False := by
        intro name ts heq
        have hhead := head?_consumed hused hne tail
        rw [heq] at hhead
        exact hr name _ (tokens_of_head hhead.symm)
      rw [read_eq_content halike, List.append_assoc, hmarks.again, ok_bind]
      · exact hconsumes.again (m + 1) tail (by omega) htail
      · rw [hconsumes.tokens, List.head?_append, List.head?_append, htail]

/-- The elements between brackets, the first one or those behind it. -/
theorem closes_more {fuel : Nat} {along : Bool} {pair : Node → Node → α} {single : Node → α}
    {more : Nat → Bool → Rest → Except Fault (List α × Rest)} (hclose : close.inFlow = true)
    (hkey : close ≠ .key) (hentry : close ≠ .flowEntry)
    (hfirst : ∀ fuel r, more (fuel + 1) true r =
      elements close along pair single (read handles false false fuel) (more fuel false) r)
    (hnext : ∀ fuel r, more (fuel + 1) false r =
      if r.tokens.head? = some close then .ok ([], r.tail)
      else if r.tokens.head? = some .flowEntry then more (fuel + 1) true r.tail
      else .error .grammar)
    (hread : ∀ r n left, read handles false false fuel r = .ok (n, left) →
      ∃ used, used ≠ [] ∧ Consumes (read handles false false) used r n left)
    (hmore : ∀ r as left, more fuel false r = .ok (as, left) →
      ∃ used, Closes close 1 (fun m => more m false) used r as left)
    (first : Bool) {r left : Rest} {as : List α} (h : more (fuel + 1) first r = .ok (as, left)) :
    ∃ used, Closes close 1 (fun m => more m first) used r as left := by
  have hbehind : ∀ r, more (fuel + 1) true r = .ok (as, left) →
      ∃ used, Closes close 0 (fun m => more (m + 1) true) used r as left := by
    intro r h
    rw [hfirst] at h
    obtain ⟨used, hcloses⟩ := closes_elements hclose hkey hread hmore h
    exact ⟨used, hcloses.tokens, hcloses.inFlow, hcloses.last, fun m tail hm => by
      rw [hfirst]
      exact hcloses.again m tail hm⟩
  cases first with
  | true =>
    obtain ⟨used, hcloses⟩ := hbehind r h
    exact ⟨used, hcloses.succ⟩
  | false =>
    rw [hnext] at h
    split at h
    · next hhead =>
      cases h
      refine ⟨[close], Closes.succ (closes_close (tokens_of_head hhead) hclose fun m ts => ?_)⟩
      rw [hnext]
      exact if_pos rfl
    · split at h
      · next hhead =>
        obtain ⟨used, hcloses⟩ := hbehind _ h
        refine ⟨.flowEntry :: used,
          Closes.succ (hcloses.cons (tokens_of_head hhead) rfl (by omega) fun m ts => ?_)⟩
        rw [hnext]
        exact (if_neg fun h => hentry (Option.some.inj h).symm).trans (if_pos rfl)
      · cases h

/-- **What is read within brackets is taken from the front.** -/
theorem readsInside (fuel : Nat) : ReadsInside handles fuel := by
  induction fuel with
  | zero =>
    refine ⟨fun _ _ _ h => ?_, fun _ _ _ _ h => ?_, fun _ _ _ _ h => ?_⟩
    · rw [read] at h; cases h
    · rw [readFlowItems] at h; cases h
    · rw [readFlowEntries] at h; cases h
  | succ fuel ih =>
    exact ⟨fun r n left h => consumes_read ih h,
      fun first r items left h =>
        closes_more rfl (by simp) (by simp) readFlowItems_first readFlowItems_next
        ih.node (ih.items false) first h,
      fun first r entries left h =>
        closes_more rfl (by simp) (by simp) readFlowEntries_first readFlowEntries_next
        ih.node (ih.entries false) first h⟩

end LayeredConfig.Yaml.Node
