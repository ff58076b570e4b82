import WireLayout.Inference

/-! One inference call on a clock that counts milliseconds. A call that ends at its deadline is in time, and
a cancellation comes after all else that happens at its instant. -/

namespace WireLayout.Batch

/-- What a call comes to once its delay is over. -/
inductive Outcome where
  | answers (result : Except Error Layout)
  | hangs
  | breaks (fault : Fault)

structure Call where
  delay : Nat
  outcome : Outcome

/-- Why a run has no end: a call never resolves, or the program broke off. -/
inductive Halt where
  | never
  | fault (fault : Fault)

/-- What became of a call: it was not made at all, it ended by itself, or it was given up. -/
inductive Fate where
  | refused | ended | timedOut | cancelled
  deriving DecidableEq, Repr

/-- How a call ended. `left` tells that it was given up before its delay was over. -/
structure Ending where
  time : Nat
  result : Except Error Layout
  fate : Fate
  left : Bool := false

namespace Ending

def begun (e : Ending) : Bool := e.fate ≠ .refused

def metCancellation (e : Ending) : Bool := e.fate = .refused || e.fate = .cancelled

end Ending

/-- The cancellation that is due at an instant, if any, lies before another instant. -/
def isPast (cancelAt : Option Nat) (now : Nat) : Bool := cancelAt.any (· < now)

/-- The end of a call that is given up at its deadline or on cancellation, whichever comes first. -/
def giveUp (name : String) (timeout cancelAt : Option Nat) (start delay : Nat) : Except Halt Ending :=
  match timeout, cancelAt with
  | none, none => .error .never
  | some limit, none => .ok (timedOut limit)
  | none, some c => .ok (cancelled c)
  | some limit, some c => if c < start + limit then .ok (cancelled c) else .ok (timedOut limit)
where
  timedOut (limit : Nat) : Ending :=
    ⟨start + limit, .error (.timeout name limit), .timedOut, limit < delay⟩
  cancelled (c : Nat) : Ending := ⟨c, .error (.cancelled name), .cancelled, c < start + delay⟩

/-- The end of a call that is made at an instant, with a limit on its time and an instant of
cancellation. -/
def Call.ending (name : String) (timeout cancelAt : Option Nat) (start : Nat) (call : Call) :
    Except Halt Ending :=
  let inTime := timeout.all (call.delay ≤ ·) && !isPast cancelAt (start + call.delay)
  match call.outcome with
  | .answers result =>
    if inTime then .ok { time := start + call.delay, result, fate := .ended }
    else giveUp name timeout cancelAt start call.delay
  | .breaks fault =>
    if inTime then .error (.fault fault) else giveUp name timeout cancelAt start call.delay
  | .hangs => giveUp name timeout cancelAt start call.delay

/-- The end of a call that is not made, because the run is cancelled. -/
def refused (name : String) (now : Nat) : Ending :=
  { time := now, result := .error (.cancelled name), fate := .refused }

end WireLayout.Batch
