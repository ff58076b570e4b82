import WireLayout.OsError

/-! Everything that can go wrong, as causes, with one place for the words. -/

namespace WireLayout

inductive Error where
  | fileRead (path : String) (cause : OsError)
  | fileWrite (path : String) (cause : OsError)
  | notADirectory (path : String)
  | emptySource (path : String)
  | sourceParse (path details : String)
  | missingBundle (entity : String)
  | unresolved (entity : String) (missing : List String)
  | oracleTransport (details : String)
  | oracleStatus (status : Nat) (body : String)
  | malformedResponse (entity details : String)
  | invalidLayout (entity details : String)
  | timeout (entity : String) (milliseconds : Nat)
  | cancelled (entity : String)
  | missingCredential (source : String)
  | json (details : String)
  | internal (details : String)
  deriving DecidableEq, Repr

def fractionDigits (milliseconds : Nat) : List Char :=
  let digits := [milliseconds / 100, milliseconds / 10 % 10, milliseconds % 10]
  (digits.reverse.dropWhile (· = 0)).reverse.map fun d => Char.ofNat (48 + d)

/-- A duration in seconds from one second on, in milliseconds below. -/
def durationText (milliseconds : Nat) : String :=
  if milliseconds = 0 then "0ns"
  else if milliseconds < 1000 then s!"{milliseconds}ms"
  else
    let fraction := fractionDigits (milliseconds % 1000)
    let point := if fraction.isEmpty then "" else "."
    s!"{milliseconds / 1000}{point}{String.ofList fraction}s"

namespace Error

def message : Error → String
  | fileRead path cause => s!"failed to read file '{path}': {cause.message}"
  | fileWrite path cause => s!"failed to write file '{path}': {cause.message}"
  | notADirectory path => s!"source directory '{path}' does not exist or is not a directory"
  | emptySource path => s!"source file '{path}' is empty"
  | sourceParse path details => s!"failed to parse '{path}': {details}"
  | missingBundle entity => s!"entity '{entity}' has no context bundle"
  | unresolved entity missing =>
    s!"layout of '{entity}' is unresolved for fields: " ++ ", ".intercalate missing
  | oracleTransport details => s!"inference request failed: {details}"
  | oracleStatus status body => s!"inference oracle returned HTTP {status}: {body}"
  | malformedResponse entity details => s!"malformed inference response for '{entity}': {details}"
  | invalidLayout entity details => s!"invalid layout for '{entity}': {details}"
  | timeout entity milliseconds =>
    s!"inference for '{entity}' timed out after {durationText milliseconds}"
  | cancelled entity => s!"inference for '{entity}' was cancelled"
  | missingCredential source =>
    s!"no inference credential configured (pass one explicitly or set {source})"
  | json details => s!"json error: {details}"
  | internal details => s!"internal error: {details}"

/-- The fault of one file, which is skipped. -/
def isRecoverable : Error → Bool
  | fileRead .. | emptySource .. | sourceParse .. => true
  | _ => false

end Error

/-- Where the program breaks off instead of failing: at a cut within a character, and at a number that leaves
the width of its type. -/
inductive Fault where
  | splitCharacter (argument : String)
  | overflow
  deriving DecidableEq, Repr

/-- Why there is no result: an error, or the program broke off. -/
inductive Abort (ε : Type) where
  | failed (e : ε)
  | broken (fault : Fault)
  deriving DecidableEq, Repr

namespace Abort

variable {ε ε' α : Type}

def map (f : ε → ε') : Abort ε → Abort ε'
  | failed e => failed (f e)
  | broken fault => broken fault

/-- What a computation comes to where it does not break off. -/
def settle : Except (Abort ε) α → Except Fault (Except ε α)
  | .ok a => .ok (.ok a)
  | .error (failed e) => .ok (.error e)
  | .error (broken fault) => .error fault

end Abort

end WireLayout
