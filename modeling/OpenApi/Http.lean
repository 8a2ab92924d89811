/-
# OpenApi.Http -- methods, and where a request carries a parameter

Two closed vocabularies. Each name has one spelling, which is the key of an operation in
a path item or the value of `in` in a parameter object.
-/

namespace OpenApi

/-- The method of an operation. -/
inductive Method where
  | get
  | put
  | post
  | delete
  | options
  | head
  | patch
  | trace
  deriving DecidableEq, Repr

namespace Method

/-- The methods in order. -/
def all : List Method := [get, put, post, delete, options, head, patch, trace]

/-- The spelling of a method. -/
def text : Method → String
  | get => "get"
  | put => "put"
  | post => "post"
  | delete => "delete"
  | options => "options"
  | head => "head"
  | patch => "patch"
  | trace => "trace"

/-- The method with the given spelling. -/
def ofText? (text : String) : Option Method := all.find? fun m => m.text == text

end Method

/-- Where a request carries a parameter. -/
inductive Location where
  | path
  | query
  | header
  | cookie
  deriving DecidableEq, Repr

namespace Location

/-- The locations in the order in which an operation lists its parameters. -/
def all : List Location := [path, query, header, cookie]

/-- The spelling of a location. -/
def text : Location → String
  | path => "path"
  | query => "query"
  | header => "header"
  | cookie => "cookie"

/-- The location with the given spelling. -/
def ofText? (text : String) : Option Location := all.find? fun l => l.text == text

end Location

end OpenApi
