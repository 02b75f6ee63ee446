import LayeredConfig.Yaml.Token.Lexer

/-!
# Nodes

The structure of one document before its scalars are typed and its references followed. Anchors
are numbered in the order of the text; a reference holds the number its name had when it was
read.
-/
namespace LayeredConfig.Yaml

inductive Node where
  | reference (anchor : Nat)
  | scalar (anchor : Option Nat) (tag : Option Text) (text : Text) (plain : Bool)
  | sequence (anchor : Option Nat) (tag : Option Text) (items : List Node)
  | mapping (anchor : Option Nat) (tag : Option Text) (entries : List (Node × Node))
deriving Inhabited

namespace Node

/-- The node where nothing is written. -/
def blank : Node := .scalar none none [] true

/-- The numbers of the anchors by name. -/
abbrev Names := List (Text × Nat)

/-- Numbers an anchor by the count of different names before it; a name that is taken again
gets its new number. -/
def Names.register (names : Names) (name : Text) : Names × Nat :=
  let n := names.length
  if names.any (·.1 = name) then (names.map fun p => if p.1 = name then (name, n) else p, n)
  else ((name, n) :: names, n)

/-- The tokens still to be read and the anchors so far. -/
structure Rest where
  tokens : List Token
  names : Names

def Rest.tail (r : Rest) : Rest := { r with tokens := r.tokens.tail }

/-- The prefixes that tag handles stand for. -/
abbrev Handles := List (Text × Text)

def resolveTag (handles : Handles) (mark : TagMark) : Except Fault Text :=
  if mark.handle.isEmpty then .ok mark.suffix
  else match handles.lookup mark.handle with
    | some lead => .ok (lead ++ mark.suffix)
    | none => .error .grammar

/-- The anchor and the tag in front of a node, in either order. -/
def properties (handles : Handles) (r : Rest) :
    Except Fault (Option Nat × Option Text × Rest) :=
  match r.tokens with
  | .anchor name :: .tag mark :: ts => do
    let (names, n) := r.names.register name
    .ok (some n, some (← resolveTag handles mark), ⟨ts, names⟩)
  | .anchor name :: ts =>
    let (names, n) := r.names.register name
    .ok (some n, none, ⟨ts, names⟩)
  | .tag mark :: .anchor name :: ts => do
    let (names, n) := r.names.register name
    .ok (some n, some (← resolveTag handles mark), ⟨ts, names⟩)
  | .tag mark :: ts => do .ok (none, some (← resolveTag handles mark), ⟨ts, r.names⟩)
  | _ => .ok (none, none, r)

/-- Whether no node is written before a block goes on. -/
def blockGoesOn : List Token → Bool
  | .key :: _ | .value :: _ | .blockEnd :: _ => true
  | _ => false

mutual
/-- Reads a node. `block` admits block collections, `bare` also a sequence that is indented no
further than the mapping around it. -/
def read (handles : Handles) (block bare : Bool) : (fuel : Nat) → Rest →
    Except Fault (Node × Rest)
  | 0, _ => .error .grammar
  | fuel + 1, r =>
    match r.tokens with
    | .alias name :: ts =>
      match r.names.lookup name with
      | some n => .ok (.reference n, ⟨ts, r.names⟩)
      | none => .error .unknownAnchor
    | _ => do
      let (anchor, tag, r) ← properties handles r
      match r.tokens with
      | .scalar s plain :: _ =>
        .ok (.scalar anchor (if tag = some ['!'] then none else tag) s plain, r.tail)
      | .flowSequenceStart :: _ => do
        let (items, r) ← readFlowItems handles fuel true r.tail
        .ok (.sequence anchor tag items, r)
      | .flowMappingStart :: _ => do
        let (entries, r) ← readFlowEntries handles fuel true r.tail
        .ok (.mapping anchor tag entries, r)
      | t :: _ =>
        if bare && t = .blockEntry then do
          let (items, r) ← readBareItems handles fuel r
          .ok (.sequence anchor tag items, r)
        else if block && t = .blockSequenceStart then do
          let (items, r) ← readItems handles fuel r.tail
          .ok (.sequence anchor tag items, r)
        else if block && t = .blockMappingStart then do
          let (entries, r) ← readEntries handles fuel r.tail
          .ok (.mapping anchor tag entries, r)
        else if anchor.isSome || tag.isSome then .ok (.scalar anchor tag [] true, r)
        else .error .grammar
      | [] =>
        if anchor.isSome || tag.isSome then .ok (.scalar anchor tag [] true, r)
        else .error .grammar

/-- Reads the items of a block sequence up to its end. -/
def readItems (handles : Handles) : (fuel : Nat) → Rest → Except Fault (List Node × Rest)
  | 0, _ => .error .grammar
  | fuel + 1, r =>
    match r.tokens with
    | .blockEntry :: ts => do
      let r := r.tail
      let (item, r) ← match ts with
        | .blockEntry :: _ | .blockEnd :: _ => .ok (blank, r)
        | _ => read handles true false fuel r
      let (items, r) ← readItems handles fuel r
      .ok (item :: items, r)
    | .blockEnd :: _ => .ok ([], r.tail)
    | _ => .error .grammar

/-- Reads the items of a sequence that has no end token of its own. -/
def readBareItems (handles : Handles) : (fuel : Nat) → Rest → Except Fault (List Node × Rest)
  | 0, _ => .error .grammar
  | fuel + 1, r =>
    match r.tokens with
    | .blockEntry :: ts => do
      let r := r.tail
      let (item, r) ← match ts with
        | .blockEntry :: _ => .ok (blank, r)
        | _ => if blockGoesOn ts then .ok (blank, r) else read handles true false fuel r
      let (items, r) ← readBareItems handles fuel r
      .ok (item :: items, r)
    | _ => .ok ([], r)

/-- Reads the entries of a block mapping up to its end. -/
def readEntries (handles : Handles) : (fuel : Nat) → Rest →
    Except Fault (List (Node × Node) × Rest)
  | 0, _ => .error .grammar
  | fuel + 1, r =>
    match r.tokens with
    | .key :: ts => do
      let r := r.tail
      let (k, r) ← if blockGoesOn ts then .ok (blank, r) else read handles true true fuel r
      let (v, r) ← match r.tokens with
        | .value :: ts =>
          let r := r.tail
          if blockGoesOn ts then .ok (blank, r) else read handles true true fuel r
        | _ => .ok (blank, r)
      let (entries, r) ← readEntries handles fuel r
      .ok ((k, v) :: entries, r)
    | .blockEnd :: _ => .ok ([], r.tail)
    | _ => .error .grammar

/-- Reads the items between brackets. An item may be a mapping of one entry without braces. -/
def readFlowItems (handles : Handles) : (fuel : Nat) → (first : Bool) → Rest →
    Except Fault (List Node × Rest)
  | 0, _, _ => .error .grammar
  | fuel + 1, first, r =>
    match r.tokens with
    | .flowSequenceEnd :: _ => .ok ([], r.tail)
    | ts => do
      let r ← if first then .ok r
        else match ts with
          | .flowEntry :: _ => .ok r.tail
          | _ => .error .grammar
      match r.tokens with
      | .key :: ts =>
        let r := r.tail
        let (k, r) ← match ts with
          -- An empty key takes the token after it along.
          | .value :: _ | .flowEntry :: _ | .flowSequenceEnd :: _ => .ok (blank, r.tail)
          | _ => read handles false false fuel r
        let (v, r) ← match r.tokens with
          | .value :: ts =>
            let r := r.tail
            match ts with
            | .flowEntry :: _ | .flowSequenceEnd :: _ => .ok (blank, r)
            | _ => read handles false false fuel r
          | _ => .ok (blank, r)
        let (items, r) ← readFlowItems handles fuel false r
        .ok (.mapping none none [(k, v)] :: items, r)
      | .flowSequenceEnd :: _ => .ok ([], r.tail)
      | _ =>
        let (item, r) ← read handles false false fuel r
        let (items, r) ← readFlowItems handles fuel false r
        .ok (item :: items, r)

/-- Reads the entries between braces. -/
def readFlowEntries (handles : Handles) : (fuel : Nat) → (first : Bool) → Rest →
    Except Fault (List (Node × Node) × Rest)
  | 0, _, _ => .error .grammar
  | fuel + 1, first, r =>
    match r.tokens with
    | .flowMappingEnd :: _ => .ok ([], r.tail)
    | ts => do
      let r ← if first then .ok r
        else match ts with
          | .flowEntry :: _ => .ok r.tail
          | _ => .error .grammar
      match r.tokens with
      | .key :: ts =>
        let r := r.tail
        let (k, r) ← match ts with
          | .value :: _ | .flowEntry :: _ | .flowMappingEnd :: _ => .ok (blank, r)
          | _ => read handles false false fuel r
        let (v, r) ← match r.tokens with
          | .value :: ts =>
            let r := r.tail
            match ts with
            | .flowEntry :: _ | .flowMappingEnd :: _ => .ok (blank, r)
            | _ => read handles false false fuel r
          | _ => .ok (blank, r)
        let (entries, r) ← readFlowEntries handles fuel false r
        .ok ((k, v) :: entries, r)
      | .flowMappingEnd :: _ => .ok ([], r.tail)
      | _ =>
        let (k, r) ← read handles false false fuel r
        let (entries, r) ← readFlowEntries handles fuel false r
        .ok ((k, blank) :: entries, r)
end

/-- The directives of a document: at most one version, which is 1.1 or 1.2, and no handle
twice. -/
def readDirectives (versioned : Bool) (handles : Handles) : List Token →
    Except Fault (Handles × List Token)
  | .versionDirective major minor :: ts =>
    if versioned || major ≠ 1 || (minor ≠ 1 && minor ≠ 2) then .error .grammar
    else readDirectives true handles ts
  | .tagDirective handle lead :: ts =>
    if (handles.lookup handle).isSome then .error .grammar
    else readDirectives versioned (handles ++ [(handle, lead)]) ts
  | ts => .ok (handles, ts)

/-- The handles that need no directive. -/
def standardHandles : Handles := [("!", "!"), ("!!", "tag:yaml.org,2002:")]

/-- Reads the node of the first document. -/
def readFirst (fuel : Nat) (ts : List Token) : Except Fault (Node × List Token) := do
  let (handles, rest) ← readDirectives false [] ts
  let all := handles ++ standardHandles
  let content (ts : List Token) : Except Fault (Node × List Token) := do
    let (n, r) ← read all true false fuel ⟨ts, []⟩
    .ok (n, r.tokens)
  match ts with
  | .versionDirective .. :: _ | .tagDirective .. :: _ | .documentStart :: _ =>
    match rest with
    | .documentStart :: inner =>
      match inner with
      | [] | .versionDirective .. :: _ | .tagDirective .. :: _ | .documentStart :: _
      | .documentEnd :: _ => .ok (blank, inner)
      | _ => content inner
    | _ => .error .grammar
  | _ => content ts

/-- The node of a text that holds one document; a text without tokens is a blank one. -/
def ofTokens (ts : List Token) : Except Fault Node :=
  match ts with
  | [] => .ok blank
  | _ => do
    let (n, rest) ← readFirst (4 * ts.length + 8) ts
    if rest.all (· = .documentEnd) then .ok n else .error .manyDocuments

mutual
/-- The number of events a node is read as. -/
def eventCount : Node → Nat
  | .reference _ | .scalar .. => 1
  | .sequence _ _ items => 2 + eventCountItems items
  | .mapping _ _ entries => 2 + eventCountEntries entries

def eventCountItems : List Node → Nat
  | [] => 0
  | n :: rest => eventCount n + eventCountItems rest

def eventCountEntries : List (Node × Node) → Nat
  | [] => 0
  | (k, v) :: rest => eventCount k + eventCount v + eventCountEntries rest
end

def own (anchor : Option Nat) (n : Node) : List (Nat × Node) := (anchor.map (·, n)).toList

mutual
/-- The anchored nodes with their numbers, in the order of the text. -/
def anchored : Node → List (Nat × Node)
  | .reference _ => []
  | .scalar a t s p => own a (.scalar a t s p)
  | .sequence a t items => own a (.sequence a t items) ++ anchoredItems items
  | .mapping a t entries => own a (.mapping a t entries) ++ anchoredEntries entries

def anchoredItems : List Node → List (Nat × Node)
  | [] => []
  | n :: rest => anchored n ++ anchoredItems rest

def anchoredEntries : List (Node × Node) → List (Nat × Node)
  | [] => []
  | (k, v) :: rest => anchored k ++ anchored v ++ anchoredEntries rest
end

end Node
end LayeredConfig.Yaml
