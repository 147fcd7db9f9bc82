import Mathlib.Data.Rat.Defs

/-!
# Errors, identifiers, times and JSON values

What every part of the service shares: `AppError` with the texts it displays, job ids, database
timestamps (in microseconds) and `serde_json`'s value tree.
-/

namespace KatagoWs

abbrev Uuid := Nat

/-- a `timestamptz`: microseconds since the epoch -/
abbrev Timestamp := Int

/-- `serde_json::Value` -/
inductive Json where
  | null
  | bool (b : Bool)
  | num (q : ℚ)
  | str (s : String)
  | arr (xs : List Json)
  | obj (fields : List (String × Json))

/-- `Value::get` with a string key: `none` for anything but an object -/
def Json.get (key : String) : Json → Option Json
  | .obj fields => (fields.find? fun f => f.1 == key).map Prod.snd
  | _ => none

def Json.asStr : Json → Option String
  | .str s => some s
  | _ => none

inductive AppError where
  | sgf (msg : String)
  | notFound
  | badRequest (msg : String)
  | unauthorized
  | inference (msg : String)
  | modelLoad (msg : String)
  | db (msg : String)
  | queue (msg : String)
  | internal (msg : String)
deriving DecidableEq, Repr

def AppError.toString : AppError → String
  | .sgf msg => s!"invalid SGF: {msg}"
  | .notFound => "not found"
  | .badRequest msg => s!"bad request: {msg}"
  | .unauthorized => "unauthorized"
  | .inference msg => s!"inference error: {msg}"
  | .modelLoad msg => s!"model load error: {msg}"
  | .db msg => s!"database error: {msg}"
  | .queue msg => s!"queue error: {msg}"
  | .internal msg => s!"internal error: {msg}"

abbrev AppResult := Except AppError

end KatagoWs
