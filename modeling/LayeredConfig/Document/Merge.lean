import LayeredConfig.Yaml.Value

/-!
# Deep merge

Mappings are merged key by key, the later layer winning; anything else is replaced as a whole.
Keys keep the order of the earlier layer, and new ones follow in the order of the later.
-/
namespace LayeredConfig

/-- What a null in the later layer means. -/
inductive NullPolicy where
  /-- It replaces the value. -/
  | replace
  /-- It leaves the value as it is. -/
  | keepBase
deriving DecidableEq, Inhabited

namespace Value

mutual
/-- `base` with `overlay` over it. -/
def mergeWith (nulls : NullPolicy) (base overlay : Value) : Value :=
  match overlay with
  | .mapping os =>
    match base with
    | .mapping bs => .mapping (mergeEntries nulls bs os)
    | _ => .mapping os
  | .null => if nulls = .keepBase then base else .null
  | v => v

/-- Puts the entries of an overlay into a mapping, one after the other. -/
def mergeEntries (nulls : NullPolicy) (bs : Entries) : (os : List (Value × Value)) → Entries
  | [] => bs
  | (k, v) :: rest =>
    let bs := match Entries.find? bs k with
      | some b => Entries.insert bs k (mergeWith nulls b v)
      | none => if nulls = .keepBase ∧ v.isNull then bs else Entries.insert bs k v
    mergeEntries nulls bs rest
end

def merge (base overlay : Value) : Value := mergeWith .replace base overlay

/-- The layers one over the other. Nothing is lost of a layer that lies over null ones only. -/
def mergeAll (nulls : NullPolicy) (layers : List Value) : Value :=
  layers.foldl (fun acc next => if acc = .null then next else mergeWith nulls acc next) .null

end Value
end LayeredConfig
