import LayeredConfig.Files.Tree
import LayeredConfig.Wording

/-!
# Why a composition fails

The causes, and the message of each.
-/
namespace LayeredConfig

inductive ComposeError where
  | noRootDocument
  | missingModule (group name : Text) (path : Path)
  | unsupportedEntry (description : Text)
  | overrideWithoutTarget (group : Text)
  | invalidOverride (raw : Text)
  | keyNotFound (key : Text)
  | keyExists (key : Text)
  | deleteMissing (key : Text)
  | notAMapping (key parent : Text)
  | parse (path : Path) (fault : Yaml.Fault)
  | render
  | io (path : Path) (fault : FileFault)
deriving DecidableEq

namespace ComposeError

def message (e : ComposeError) (wording : Wording := .marked) : Text :=
  match e with
  | .noRootDocument => "no root document found"
  | .missingModule group name path =>
    "could not find module '" ++ group ++ "/" ++ name ++ "' (expected " ++ path ++ ")"
  | .unsupportedEntry s => "unsupported defaults entry: " ++ s
  | .overrideWithoutTarget group =>
    "'override " ++ group ++ "' has no earlier defaults entry to override"
  | .invalidOverride raw => "invalid override '" ++ raw ++ "': expected key=value"
  | .keyNotFound key =>
    "could not override '" ++ key ++ "': key not found (use +" ++ key ++ "=... to add it)"
  | .keyExists key =>
    "could not append '" ++ key ++ "': key already exists (use ++" ++ key ++ "=... to force)"
  | .deleteMissing key => "could not delete '" ++ key ++ "': key not found"
  | .notAMapping key parent => "cannot set '" ++ key ++ "': '" ++ parent ++ "' is not a mapping"
  | .parse path fault => "failed to parse " ++ path ++ ": " ++ wording.document path fault
  | .render => "failed to render composed config: " ++ wording.value
  | .io path fault => "I/O error on " ++ path ++ ": " ++ fault.message

end ComposeError
end LayeredConfig
