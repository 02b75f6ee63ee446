import LayeredConfig.Files.Path
import LayeredConfig.Yaml.Fault

/-!
# Wordings

What the libraries that read and write YAML and JSON say about a fault. It stands in messages as it
is, and nothing is known about it: it can quote the keys above a fault, whatever they hold.
-/
namespace LayeredConfig

/-- The texts of the libraries, for the files as they are. -/
structure Wording where
  /-- What is said of the document at a path. -/
  document : Path → Yaml.Fault → Text
  /-- What is said of a value that cannot be written. -/
  value : Text
  /-- What is said of merged settings that have another shape. -/
  settings : Text
  /-- What is said of the manifest at a path. -/
  manifest : Path → Text

/-- The wording that has a fixed mark in place of every text. -/
def Wording.marked : Wording where
  document _ _ := "<yaml error>"
  value := "<yaml error>"
  settings := "<yaml error>"
  manifest _ := "<json error>"

end LayeredConfig
