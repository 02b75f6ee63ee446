import LayeredConfig.Calendar
import LayeredConfig.Decimal.Shortest
import LayeredConfig.Decimal.Written
import LayeredConfig.Json.Printer
import LayeredConfig.Json.Reader

/-!
# Manifests

What a snapshot says about itself: its tag, when it was taken and which files it holds. A manifest
is written as a JSON object; it is also read from an array of its fields in order. Entries with
other keys are passed over.
-/
namespace LayeredConfig

structure Manifest where
  tag : Text
  /-- Seconds from the beginning of 1970. -/
  timestamp : Double
  /-- The files, by their paths below the configuration root. -/
  files : List Text
deriving DecidableEq, Inhabited

namespace Manifest

def double? : JsonValue → Option Double
  | .number written => Double.ofWritten? written
  | _ => none

def texts? (v : JsonValue) : Option (List Text) := do
  (← v.items?).mapM JsonValue.text?

def ofFields? (tag timestamp files : JsonValue) : Option Manifest := do
  some ⟨← tag.text?, ← double? timestamp, ← texts? files⟩

/-- The value of a key that is given once. -/
def field? (entries : List (Text × JsonValue)) (key : Text) : Option JsonValue :=
  match entries.filter (·.1 = key) with
  | [e] => some e.2
  | _ => none

/-- The manifest a value holds. Every key has to be a text. -/
def ofJson? : JsonValue → Option Manifest
  | .object entries => do
    let named ← entries.mapM fun e => e.1.map (·, e.2)
    ofFields? (← field? named "tag") (← field? named "timestamp") (← field? named "modules")
  | .array [tag, timestamp, files] => ofFields? tag timestamp files
  | _ => none

def read? (s : Text) : Option Manifest := (JsonValue.read? s).bind ofJson?

def timestampJson (d : Double) : JsonValue := if d.isFinite then .number d.text else .null

def filesJson (files : List Text) : JsonValue := .array (files.map JsonValue.ofText)

def text (m : Manifest) : Text :=
  (JsonValue.ofFields [("tag", .ofText m.tag), ("timestamp", timestampJson m.timestamp),
    ("modules", filesJson m.files)]).text

/-- The double of a number of seconds that is given in microseconds. -/
def timestampOf (micros : Int) : Double :=
  (Double.ofRatio (micros < 0) micros.natAbs 1).div (Double.powerOfTen 6)

/-- The timestamp in microseconds, a half away from zero, within 64 bits. -/
def micros (m : Manifest) : Int :=
  let limit : Int := Nat.pow 2 63
  match m.timestamp.mul (Double.powerOfTen 6) with
  | .finite negative mantissa exponent =>
    let (num, den) := Double.magnitude mantissa exponent
    let n : Int := (2 * num + den) / (2 * den)
    if negative then max (-limit) (-n) else min (limit - 1) n
  | .infinite negative => if negative then -limit else limit - 1
  | .nan => 0

/-- The seconds of the years -262143 to 262142, beyond which there are no dates. -/
def isDate (seconds : Int) : Bool := -8334601228800 ≤ seconds && seconds ≤ 8210266876799

/-- When the snapshot was taken, in microseconds; nothing if there is no such date. -/
def createdMicros? (m : Manifest) : Option Int :=
  if isDate (m.micros / 1000000) then some m.micros else none

/-- The date and time of the snapshot, in UTC. -/
def created? (m : Manifest) : Option DateTime :=
  m.createdMicros?.map fun micros => DateTime.ofSeconds (micros / 1000000)

end Manifest
end LayeredConfig
