/-
# OpenApi.Version -- target versions and their dialects

The supported versions speak two dialects. In `flags`, spoken by every 3.0 version, null
is marked by `nullable: true` and an exclusive bound by a flag beside the bound. In
`types`, spoken from 3.1 on, null is a type of its own and an exclusive bound is a number
of its own. Nothing else depends on the version but webhooks, which exist from 3.1 on.
-/
import OpenApi.Reference
import OpenApi.Schema.Basic

namespace OpenApi

/-! ## Dialects -/

/-- How null and exclusive bounds are written. -/
inductive Dialect where
  | flags
  | types
  deriving DecidableEq, Repr

namespace Dialect

/-- The fragment that stands for null. -/
def nullFragment : Dialect → Fragment
  | flags => [("nullable", .bool true)]
  | types => [("type", .string "null")]

/-- The keys that give a type, marked nullable if asked. Without a type, any value is
meant. -/
def typeKeys (dialect : Dialect) (type : Option Json) (nullable : Bool) : Fragment :=
  match dialect, type with
  | flags, type =>
    let typed : Fragment := Entries.insertSome [] "type" type
    if nullable then typed ++ [("nullable", .bool true)] else typed
  | types, none => []
  | types, some type =>
    if nullable then
      let listed := match type with
        | .array several => several
        | single => [single]
      [("type", .array (listed ++ [.string "null"]))]
    else [("type", type)]

/-- A list of alternatives, with one for null if asked. -/
def withNull (dialect : Dialect) (alternatives : List Json) (nullable : Bool) : List Json :=
  if nullable then alternatives ++ [.object dialect.nullFragment] else alternatives

/-- A number in a document: an integer where it is one of magnitude below `2^63`, so that
`5.0` is written `5`. -/
def numberValue (value : Binary64) : Json :=
  match value.toInt? with
  | some i => if i.natAbs < Nat.pow 2 63 then .int i else .ofBinary64 value
  | none => .ofBinary64 value

/-- What one check writes. -/
def checkKeys : Dialect → NumberCheck → Fragment
  | flags, .min bound inclusive =>
    ("minimum", numberValue bound)
      :: if inclusive then [] else [("exclusiveMinimum", .bool true)]
  | flags, .max bound inclusive =>
    ("maximum", numberValue bound)
      :: if inclusive then [] else [("exclusiveMaximum", .bool true)]
  | types, .min bound inclusive =>
    [(if inclusive then "minimum" else "exclusiveMinimum", numberValue bound)]
  | types, .max bound inclusive =>
    [(if inclusive then "maximum" else "exclusiveMaximum", numberValue bound)]
  | _, .multipleOf factor => [("multipleOf", numberValue factor)]
  | _, .int => []
  | _, .finite => []

/-- The keys of a list of checks: each check is written over those before it. -/
def numberKeys (dialect : Dialect) (checks : List NumberCheck) : Fragment :=
  checks.foldl (fun keys check => Entries.extend keys (dialect.checkKeys check)) []

/-- Whether a document may have webhooks. -/
def hasWebhooks : Dialect → Bool
  | flags => false
  | types => true

end Dialect

/-! ## Versions -/

/-- A supported version. -/
inductive Version where
  | v300
  | v301
  | v302
  | v303
  | v310
  deriving DecidableEq, Repr

namespace Version

/-- The supported versions in ascending order. -/
def all : List Version := [v300, v301, v302, v303, v310]

/-- The version that is meant when none is named. -/
def latest : Version := v310

/-- The version as it stands in a document. -/
def text : Version → String
  | v300 => "3.0.0"
  | v301 => "3.0.1"
  | v302 => "3.0.2"
  | v303 => "3.0.3"
  | v310 => "3.1.0"

/-- The texts of the supported versions. -/
def texts : List String := all.map text

/-- The version with exactly the given text. -/
def ofText? (text : String) : Option Version := all.find? fun v => v.text == text

/-- The place of a version among the supported ones. -/
def rank : Version → Nat
  | v300 => 0
  | v301 => 1
  | v302 => 2
  | v303 => 3
  | v310 => 4

/-- The order of versions. -/
def order (a b : Version) : Ordering := compare a.rank b.rank

/-- The dialect that a version speaks. -/
def dialect (v : Version) : Dialect := if rank v310 ≤ v.rank then .types else .flags

/-- Whether a document of this version may have webhooks. -/
def hasWebhooks (v : Version) : Bool := decide (rank v310 ≤ v.rank)

end Version

end OpenApi
