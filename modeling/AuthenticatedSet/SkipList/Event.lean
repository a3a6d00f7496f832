import AuthenticatedSet.Hasher

/-!
# What a list reports about its changes

Operations that change a list say so in *events*, oldest first: what happened, how much it matters,
and the sentence that is logged.
-/

namespace AuthenticatedSet

/-- How much an event matters. -/
inductive Severity where
  | debug
  | trace
deriving DecidableEq, Repr

/-- Something that happened to a list. -/
inductive Event where
  /-- An empty level was put on top. -/
  | grew (levels : Nat)
  /-- A list was built from keys at once. -/
  | built (keys levels : Nat)
  /-- A key was put on so many levels. -/
  | inserted (key : Key) (levels : Nat) (version : UInt64)
  /-- A key was taken off all its levels. -/
  | erased (key : Key) (version : UInt64)
deriving DecidableEq, Repr

namespace Event

/-- Changes of the shape are for debugging, changes of single keys for tracing. -/
def severity : Event → Severity
  | .grew .. | .built .. => .debug
  | .inserted .. | .erased .. => .trace

/-- The event in words. -/
def message : Event → String
  | .grew levels => "skip list grew to " ++ toString levels ++ " levels"
  | .built keys levels =>
    "built skip list with " ++ toString keys ++ " keys over " ++ toString levels ++ " levels"
  | .inserted key levels version =>
    "inserted " ++ toString key.toInt ++ " at height " ++ toString levels ++ ", version "
      ++ toString version.toNat
  | .erased key version =>
    "deleted " ++ toString key.toInt ++ ", version " ++ toString version.toNat

/-- The line that is logged: severity and words. -/
def line (event : Event) : String :=
  let severity := match event.severity with
    | .debug => "DEBUG"
    | .trace => "TRACE"
  severity ++ " " ++ event.message

end Event

end AuthenticatedSet
