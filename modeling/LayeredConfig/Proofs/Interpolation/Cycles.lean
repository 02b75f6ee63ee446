import LayeredConfig.Proofs.Interpolation.Expansion
import LayeredConfig.Proofs.Interpolation.Resolved
import LayeredConfig.Proofs.Text.Segments
import Mathlib.Data.List.Chain
import Mathlib.Logic.Relation

/-!
# Cycles of references

The targets that are being resolved are told apart by their dotted texts. Where no key on the way to
a text with interpolations is empty or has a dot, two targets have the same dotted text only if they
are the same path, so that a reference is refused as a cycle only if its target is in progress, and
a cycle is reported only if some node refers to itself along a chain of references. With a dot in a
key, two nodes can have one dotted text, and a reference to the one is refused while the other is
being resolved.
-/
namespace LayeredConfig.Interpolation

open Outcome
open Text (joinWith splitAll)

/-- The expressions of a text: its bodies, and the expressions of these. -/
inductive ExpressionOf : Text → Text → Prop
  | body {s e : Text} {ps : List Piece} : pieces? s = some ps → .body e ∈ ps → ExpressionOf s e
  | inside {s e f : Text} {ps : List Piece} : pieces? s = some ps → .body e ∈ ps →
    hasOpening e = true → ExpressionOf e f → ExpressionOf s f

/-- A text refers to a path by one of its expressions, where `value` gives the values of the
expressions inside. -/
def Leaf.RefersTo (value : List Text → Text → Except Reason Value) (l : Leaf) (path : List Text) :
    Prop :=
  ∃ e e', ExpressionOf l.text e ∧ expanded (value l.location) e = .ok e' ∧
    call? (Text.trim e') = none ∧ target (Text.trim e') l.location = .ok path

/-- A node refers to a path if a text at or below it does. -/
def Context.Refers (ctx : Context) (path path' : List Text) : Prop :=
  ∃ n, ctx.document.get? path = some n ∧ ∃ l ∈ leaves path n, l.RefersTo ctx.alone path'

/-- A text has the value that it has while the targets of a chain are being resolved. -/
def Context.during (ctx : Context) (chain : List (List Text)) :
    List Text → Text → Except Reason Value :=
  resolveText ctx (depthLimit - chain.length) (chain.map (joinWith "."))

/-- The texts that are come to in resolving a document, each with the chain of the targets that are
being resolved then, the newest first. -/
inductive Reached (ctx : Context) : (chain : List (List Text)) → Leaf → Prop
  | start {l : Leaf} : l ∈ leaves [] ctx.document → Reached ctx [] l
  | follow {chain : List (List Text)} {l m : Leaf} {path : List Text} {key : Text} {n : Value} :
    Reached ctx chain l → chain.length < depthLimit → l.RefersTo (ctx.during chain) path →
    enter ctx (chain.map (joinWith ".")) path = .ok (key, n) → m ∈ leaves path n →
    Reached ctx (path :: chain) m

/-- A reference that is refused as a cycle, come to with a chain in progress. -/
structure Refused (ctx : Context) (chain : List (List Text)) (l : Leaf) (path : List Text)
    (key : Text) : Prop where
  reached : Reached ctx chain l
  refers : l.RefersTo (ctx.during chain) path
  refused : enter ctx (chain.map (joinWith ".")) path = .error (.cycle key)

/-- A cycle that is met in expanding a text is met at one of its expressions. -/
theorem expand_cycle {f : Text → Except Reason Value} {fuel : Nat} {s key : Text}
    (hfuel : s.length < fuel)
    (h : expand f fuel s = .error (.cycle key)) :
    ∃ e e', ExpressionOf s e ∧ expanded (fun t => expand f (t.length + 1) t) e = .ok e' ∧
      f (Text.trim e') = .error (.cycle key) := by
  induction fuel generalizing s with
  | zero => omega
  | succ fuel ih =>
    rw [expand_succ] at h
    rcases ofPieces_error h with h | h | ⟨ps, e, hps, he, h⟩
    · cases h
    · cases h
    have hlt := length_body_lt hps he
    have hsame : expand f fuel e = expand f (e.length + 1) e := expand_fuel (by omega) (by omega)
    rcases bind_eq_error.1 h with h | ⟨e', he', h⟩
    · rw [expanded] at h
      split at h
      · next hopen =>
        rcases bind_eq_error.1 h with h | ⟨v, -, h⟩
        · obtain ⟨a, a', ha, ha', h⟩ := ih (by omega) h
          exact ⟨a, a', .inside hps he hopen ha, ha', h⟩
        · cases scalarText_error h
      · cases h
    · refine ⟨e, e', .body hps he, ?_, h⟩
      rw [← he', expanded, expanded, hsame]

variable {ctx : Context}

theorem evalCall_ne_cycle (name args key : Text) :
    evalCall ctx name args ≠ .error (.cycle key) := by
  intro h
  unfold evalCall at h
  split at h
  · dsimp only at h
    split at h <;> cases h
  · cases h

theorem target_ne_cycle (e : Text) (here : List Text) (key : Text) :
    target e here ≠ .error (.cycle key) := by
  intro h
  unfold target at h
  dsimp only at h
  split at h
  · split at h <;> cases h
  · split at h <;> cases h

/-- A cycle that is met at an expression is met at its own target or in resolving the node there. -/
theorem refer_cycle {room : Nat} {chain here : List Text} {e key : Text}
    (h : refer ctx room chain here e = .error (.cycle key)) :
    call? e = none ∧ ∃ path, target e here = .ok path ∧
      (enter ctx chain path = .error (.cycle key) ∨ ∃ name n, enter ctx chain path = .ok (name, n) ∧
        resolveAll (resolveText ctx room (name :: chain)) path n = .error (.cycle key)) := by
  unfold refer at h
  split at h
  · exact absurd h (evalCall_ne_cycle _ _ _)
  · next hcall =>
    refine ⟨hcall, ?_⟩
    rcases bind_eq_error.1 h with h | ⟨path, hpath, h⟩
    · exact absurd h (target_ne_cycle _ _ _)
    · rcases bind_eq_error.1 h with h | ⟨⟨name, n⟩, henter, h⟩
      · exact ⟨path, hpath, Or.inl h⟩
      · exact ⟨path, hpath, Or.inr ⟨name, n, henter, h⟩⟩

/-- A text fails as a cycle only if a reference is refused on the way. -/
theorem exists_refused {room : Nat} {chain : List (List Text)} {l : Leaf} {key : Text}
    (hroom : chain.length + room = depthLimit) (hl : Reached ctx chain l)
    (h : resolveText ctx room (chain.map (joinWith ".")) l.location l.text = .error (.cycle key)) :
    ∃ chain l path, Refused ctx chain l path key := by
  induction room generalizing chain l with
  | zero =>
    rw [resolveText_zero] at h
    rcases ofPieces_error h with h | h | ⟨ps, e, -, -, h⟩ <;> cases h
  | succ room ih =>
    have hduring : ctx.during chain = resolveText ctx (room + 1) (chain.map (joinWith ".")) := by
      rw [Context.during, ← hroom, Nat.add_sub_cancel_left]
    rw [resolveText_succ] at h
    obtain ⟨e, e', he, he', h⟩ := expand_cycle (Nat.lt_succ_self _) h
    obtain ⟨hcall, path, hpath, h⟩ := refer_cycle h
    have hrefers : l.RefersTo (ctx.during chain) path := by
      rw [hduring]
      exact ⟨e, e', he, he', hcall, hpath⟩
    rcases h with h | ⟨name, n, henter, h⟩
    · exact ⟨chain, l, path, hl, hrefers, h⟩
    · obtain ⟨m, hm, h⟩ := resolveAll_error path n h
      have hname : name = joinWith "." path := (enter_eq_ok.1 henter).1
      subst hname
      have hchain : (path :: chain).length + room = depthLimit := by
        rw [List.length_cons]
        omega
      exact ih hchain (.follow hl (by omega) hrefers henter hm) h

theorem Leaf.RefersTo.mono {f g : List Text → Text → Except Reason Value}
    (h : ∀ here, Extends (f here) (g here)) {l : Leaf} {path : List Text} (hl : l.RefersTo f path) :
    l.RefersTo g path := by
  obtain ⟨e, e', he, he', hcall, hpath⟩ := hl
  exact ⟨e, e', he, expanded_extends (h _) e e' he', hcall, hpath⟩

section
variable {chain : List (List Text)} {l : Leaf} {path : List Text}

theorem Leaf.RefersTo.alone (h : l.RefersTo (ctx.during chain) path) : l.RefersTo ctx.alone path :=
  h.mono fun here => resolveText_extends (List.nil_subset _) (Nat.sub_le _ _) here

/-- What is in progress is found, and a text that is come to stands at or below the newest
target. -/
theorem Reached.found (h : Reached ctx chain l) :
    (∀ path ∈ chain, ∃ n, ctx.document.get? path = some n) ∧
      ∃ n, ctx.document.get? (chain.headD []) = some n ∧ l ∈ leaves (chain.headD []) n := by
  induction h with
  | start hl => exact ⟨by simp, ctx.document, rfl, hl⟩
  | follow _ _ _ henter hm ih =>
    obtain ⟨-, -, hn⟩ := enter_eq_ok.1 henter
    exact ⟨List.forall_mem_cons.2 ⟨⟨_, hn⟩, ih.1⟩, _, hn, hm⟩

/-- A text that is come to refers from the newest target, if there is one. -/
theorem Reached.isChain_cons (hl : Reached ctx chain l)
    (hchain : chain.IsChain fun newer older => ctx.Refers older newer)
    (hrefers : l.RefersTo (ctx.during chain) path) :
    (path :: chain).IsChain fun newer older => ctx.Refers older newer := by
  cases chain with
  | nil => exact List.isChain_singleton path
  | cons newest chain =>
    obtain ⟨-, n, hn, hmem⟩ := hl.found
    exact List.isChain_cons_cons.2 ⟨⟨n, hn, l, hmem, hrefers.alone⟩, hchain⟩

/-- Every target in progress refers to the next newer one. -/
theorem Reached.isChain (h : Reached ctx chain l) :
    chain.IsChain fun newer older => ctx.Refers older newer := by
  induction h with
  | start => exact List.isChain_nil
  | follow hl _ hrefers _ _ ih => exact hl.isChain_cons ih hrefers

/-- A target that is in progress and is referred to refers to itself along a chain. -/
theorem Reached.transGen (hl : Reached ctx chain l) (hrefers : l.RefersTo (ctx.during chain) path)
    (hmem : path ∈ chain) : Relation.TransGen ctx.Refers path path := by
  have hchain := hl.isChain_cons hl.isChain hrefers
  have htrans : (path :: chain).IsChain (Function.swap (Relation.TransGen ctx.Refers)) :=
    hchain.imp fun _ _ h => .single h
  exact List.rel_of_pairwise_cons (List.isChain_iff_pairwise.1 htrans) hmem

end

/-- A path that can be read off its dotted text. -/
def IsDotted (path : List Text) : Prop := ∀ s ∈ path, s ≠ [] ∧ '.' ∉ s

instance (path : List Text) : Decidable (IsDotted path) := List.decidableBAll ..

theorem IsDotted.append {p q : List Text} (hp : IsDotted p) (hq : IsDotted q) : IsDotted (p ++ q) :=
  List.forall_mem_append.2 ⟨hp, hq⟩

theorem IsDotted.of_append_right {p q : List Text} (h : IsDotted (p ++ q)) : IsDotted q :=
  fun s hs => h s (List.mem_append_right _ hs)

/-- A target can be read off its text if the location can that it is read from. -/
theorem IsDotted.target {e : Text} {here path : List Text} (hhere : IsDotted here)
    (h : target e here = .ok path) : IsDotted path := by
  have hsegments : ∀ rest : Text, IsDotted ((splitAll '.' rest).filter fun s => ¬ s.isEmpty) := by
    intro rest s hs
    obtain ⟨hs, hne⟩ := List.mem_filter.1 hs
    exact ⟨by simpa using hne, Text.not_mem_of_mem_splitAll hs⟩
  unfold Interpolation.target at h
  dsimp only at h
  split at h
  · split at h
    · cases h
    · cases h
      exact hsegments _
  · split at h
    · cases h
    · cases h
      exact IsDotted.append (fun s hs => hhere s (List.mem_of_mem_take hs)) (hsegments _)

/-- Where no key on the way to a text is empty or has a dot, all targets can be read off their
texts. -/
theorem Reached.isDotted (hdotted : ∀ l ∈ leaves [] ctx.document, IsDotted l.location)
    {chain : List (List Text)} {l : Leaf} (h : Reached ctx chain l) :
    (∀ path ∈ chain, IsDotted path) ∧ IsDotted l.location := by
  induction h with
  | start hl => exact ⟨by simp, hdotted _ hl⟩
  | @follow chain l m path key n _ _ hrefers henter hm ih =>
    obtain ⟨_, _, -, -, -, htarget⟩ := hrefers
    have hpath : IsDotted path := ih.2.target htarget
    refine ⟨List.forall_mem_cons.2 ⟨hpath, ih.1⟩, ?_⟩
    -- The text stands somewhere below the node, and so in the document.
    obtain ⟨below, there, s, hbelow, hs, rfl⟩ := mem_leaves_iff.1 hm
    obtain ⟨-, -, hn⟩ := enter_eq_ok.1 henter
    rw [Value.get?_eq_place?, Option.bind_eq_some_iff] at hn
    obtain ⟨goal, -, hn⟩ := hn
    obtain ⟨⟨location, _⟩, hgoal, rfl⟩ := Option.map_eq_some_iff.1 hn
    have hplace : ctx.document.place? (goal ++ below) = some (location ++ there, .string s) := by
      rw [Value.place?_append, hgoal, Option.bind_some, hbelow, Option.map_some]
    have hlocation : IsDotted (location ++ there) :=
      hdotted _ (mem_leaves_iff.2 ⟨_, _, s, hplace, hs, rfl⟩)
    exact hpath.append hlocation.of_append_right

/-- Where targets can be read off their texts, a reference that is refused is to a target in
progress. -/
theorem Refused.inProgress (hdotted : ∀ l ∈ leaves [] ctx.document, IsDotted l.location)
    {chain : List (List Text)} {l : Leaf} {path : List Text} {key : Text}
    (h : Refused ctx chain l path key) : path ∈ chain ∧ key = joinWith "." path := by
  obtain ⟨hchain, hlocation⟩ := h.reached.isDotted hdotted
  obtain ⟨_, _, -, -, -, htarget⟩ := h.refers
  obtain ⟨hkey, hmem⟩ := enter_eq_cycle.1 h.refused
  obtain ⟨path', hpath', hsame⟩ := List.mem_map.1 hmem
  have hpath : path' = path := Text.joinWith_inj (hchain path' hpath') (hlocation.target htarget)
    (hsame.trans hkey)
  subst hpath
  exact ⟨hpath', hkey⟩

/-- **Where texts tell paths apart, a cycle is one.** No key on the way to a text with
interpolations is empty or has a dot. A reference is refused as a cycle only if its target is in
progress, and then the node there refers to itself along a chain of references; every cycle that is
reported comes from such a reference, so that a document in which no node refers to itself has
none. -/
theorem cycle_in_progress (environment : Text → Option Text) (document : Value)
    (hdotted : ∀ l ∈ leaves [] document, IsDotted l.location) :
    let ctx : Context := ⟨document, environment⟩
    let failures := (resolve environment document).failures
    (∀ chain l path key, Refused ctx chain l path key → path ∈ chain ∧ key = joinWith "." path ∧
      (∃ n, document.get? path = some n) ∧ Relation.TransGen ctx.Refers path path) ∧
    (∀ f ∈ failures, ∀ key, f.reason = .cycle key → ∃ chain l path, Refused ctx chain l path key) ∧
    ((∀ path, ¬ Relation.TransGen ctx.Refers path path) →
      ∀ f ∈ failures, ∀ key, f.reason ≠ .cycle key) := by
  intro ctx failures
  have hrefused : ∀ chain l path key, Refused ctx chain l path key → path ∈ chain ∧
      key = joinWith "." path ∧ (∃ n, document.get? path = some n) ∧
        Relation.TransGen ctx.Refers path path := by
    intro chain l path key h
    obtain ⟨hmem, hkey⟩ := h.inProgress hdotted
    exact ⟨hmem, hkey, h.reached.found.1 path hmem, h.reached.transGen h.refers hmem⟩
  have hreported : ∀ f ∈ failures, ∀ key, f.reason = .cycle key →
      ∃ chain l path, Refused ctx chain l path key := by
    intro f hf key hkey
    obtain ⟨hleaf, hreason⟩ := mem_failures_iff.1 hf
    rw [hkey] at hreason
    have hstart : Reached ctx [] ⟨f.location, f.expression⟩ := .start hleaf
    exact exists_refused rfl hstart hreason
  refine ⟨hrefused, hreported, fun hacyclic f hf key hkey => ?_⟩
  obtain ⟨chain, l, path, h⟩ := hreported f hf key hkey
  exact hacyclic path (hrefused chain l path key h).2.2.2

/-- Two texts that refer to each other are reported, and the third is not. -/
theorem cycle_in_progress_pair :
    let document : Value := .mapping [(.string "a", .string (reference "b")),
      (.string "b", .string (reference "a")), (.string "c", .string (reference "d")),
      (.string "d", .string "x")]
    let ctx : Context := ⟨document, fun _ => none⟩
    (∀ l ∈ leaves [] document, IsDotted l.location) ∧
    (resolve (fun _ => none) document).failures =
      [⟨["a"], reference "b", .cycle "b"⟩, ⟨["b"], reference "a", .cycle "a"⟩] ∧
    ∃ path, Relation.TransGen ctx.Refers path path := by
  intro document ctx
  have hdotted : ∀ l ∈ leaves [] document, IsDotted l.location := by decide +kernel
  have hfailures : (resolve (fun _ => none) document).failures =
      [⟨["a"], reference "b", .cycle "b"⟩, ⟨["b"], reference "a", .cycle "a"⟩] := by decide +kernel
  obtain ⟨hrefused, hreported, -⟩ := cycle_in_progress (fun _ => none) document hdotted
  obtain ⟨chain, l, path, h⟩ := hreported ⟨["a"], reference "b", .cycle "b"⟩
    (by rw [hfailures]; exact List.mem_cons_self) "b" rfl
  exact ⟨hdotted, hfailures, path, (hrefused chain l path _ h).2.2.2⟩

/-- With a dot in a key, a reference is refused as a cycle although another node is in progress, and
the node that it means is a plain text. -/
theorem cycle_not_in_progress :
    let document : Value := .mapping [
      (.string "a.b", .mapping [(.string "x", .string (reference ".y")),
        (.string "y", .string (reference "a.b.y"))]),
      (.string "a", .mapping [(.string "b", .mapping [(.string "y", .string "1")])])]
    let ctx : Context := ⟨document, fun _ => none⟩
    (resolve (fun _ => none) document).failures =
      [⟨["a.b", "x"], reference ".y", .cycle "a.b.y"⟩] ∧
    Refused ctx [["a.b", "y"]] ⟨["a.b", "y"], reference "a.b.y"⟩ ["a", "b", "y"] "a.b.y" ∧
    document.get? ["a", "b", "y"] = some (.string "1") := by
  intro document ctx
  have hbody : ∀ e : Text, pieces? (reference e) = some [.body e] → ExpressionOf (reference e) e :=
    fun e h => .body h List.mem_cons_self
  have hstart : Reached ctx [] ⟨["a.b", "x"], reference ".y"⟩ := .start (by decide +kernel)
  have hsibling : Leaf.RefersTo (ctx.during []) ⟨["a.b", "x"], reference ".y"⟩ ["a.b", "y"] :=
    ⟨".y", ".y", hbody ".y" (by decide +kernel), rfl, by decide +kernel, by decide +kernel⟩
  have henter : enter ctx [] ["a.b", "y"] = .ok ("a.b.y", .string (reference "a.b.y")) := by
    decide +kernel
  have habsolute : Leaf.RefersTo (ctx.during [["a.b", "y"]]) ⟨["a.b", "y"], reference "a.b.y"⟩
      ["a", "b", "y"] :=
    ⟨"a.b.y", "a.b.y", hbody "a.b.y" (by decide +kernel), rfl, by decide +kernel, by decide +kernel⟩
  have hreached : Reached ctx [["a.b", "y"]] ⟨["a.b", "y"], reference "a.b.y"⟩ :=
    .follow hstart (by decide) hsibling henter (by decide +kernel)
  exact ⟨by decide +kernel, ⟨hreached, habsolute, by decide +kernel⟩, by decide +kernel⟩

end LayeredConfig.Interpolation
