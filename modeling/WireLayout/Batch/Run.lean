import WireLayout.Batch.Call
import WireLayout.Catalog.Basic

/-! The run over all messages with a bundle, in groups of a fixed size. The calls of a group run at the
same time, and the next group starts when the last of them has ended. A failure keeps a message
without a layout and touches nothing else. -/

namespace WireLayout.Batch

structure Config where
  concurrency : Nat := 5
  /-- The limit of a call in milliseconds. -/
  timeout : Option Nat := some 120000
  deriving DecidableEq, Repr

/-- When the run is cancelled: before it begins, at an instant, or when the progress of a group is
reported. -/
structure Cancellation where
  before : Bool := false
  at_ : Option Nat := none
  afterGroup : Option Nat := none
  deriving DecidableEq, Repr

structure Progress where
  completed : Nat
  total : Nat
  group : Nat
  groups : Nat
  deriving DecidableEq, Repr

/-- Zero counts as one. -/
def Config.groupSize (config : Config) : Nat := max 1 config.concurrency

/-- Consecutive groups of a size. The fuel is the length of the list. -/
def groupsOf {α : Type} (size : Nat) : Nat → List α → List (List α)
  | 0, _ => []
  | fuel + 1, xs => if xs.isEmpty then [] else xs.take size :: groupsOf size fuel (xs.drop size)

abbrev Pending := String × Bundle

def pending (messages : List Message) : List Pending :=
  messages.filterMap fun m => m.bundle.map fun b => (m.id.name, b)

/-- A message that is due, with its bundle and with what its call comes to. -/
structure Due where
  name : String
  bundle : Bundle
  call : Call

/-- The messages with a bundle, and the calls that an inference makes of them. -/
def plan (inference : Bundle → Call) (messages : List Message) : List Due :=
  (pending messages).map fun p => ⟨p.1, p.2, inference p.2⟩

/-- What became of a message that was due, from the instant on at which its turn came. -/
structure Resolved extends Due where
  start : Nat
  ending : Ending

structure State where
  now : Nat := 0
  cancelled : Bool := false
  /-- The instant at which a cancellation is due. -/
  cancelAt : Option Nat := none
  /-- Calls that were given up before their delay was over. -/
  left : Nat := 0
  maxInFlight : Nat := 0
  completed : Nat := 0
  layouts : LayoutIndex := ∅
  progress : List Progress := []
  /-- The messages whose turn has come, in order. -/
  calls : List Resolved := []

def State.started (s : State) : List Bundle := (s.calls.filter fun r => r.ending.begun).map (·.bundle)

def resolve (config : Config) (s : State) (d : Due) : Except Halt Resolved := do
  let ending ←
    if s.cancelled then .ok (refused d.name s.now)
    else d.call.ending d.name config.timeout s.cancelAt s.now
  .ok { d with start := s.now, ending }

/-- The largest number of calls in flight while the calls of a group begin, with `count` in flight
before. A call without delay is over before the next one begins. -/
def peak : Nat → List Resolved → Nat
  | _, [] => 0
  | count, r :: rest =>
    if r.ending.begun then
      max (count + 1) (peak (if r.call.delay = 0 then count else count + 1) rest)
    else peak count rest

def accept (layouts : LayoutIndex) (r : Resolved) : LayoutIndex :=
  match r.ending.result with
  | .ok layout => layouts.insert r.name layout
  | .error _ => layouts

def State.afterCalls (s : State) (group : List Resolved) : State :=
  { s with
    now := (group.map fun r => r.ending.time).foldl max s.now
    cancelled := s.cancelled || group.any fun r => r.ending.metCancellation
    left := s.left + group.countP fun r => r.ending.left
    maxInFlight := max s.maxInFlight (peak s.left group)
    calls := s.calls ++ group }

/-- Runs one group, unless the run is cancelled. The groups are counted from zero. -/
def runGroup (config : Config) (cancellation : Cancellation) (total groups : Nat) (s : State)
    (group : List Due × Nat) : Except Halt State :=
  if s.cancelled then .ok s
  else do
    let resolved ← group.1.mapM (resolve config s)
    let s := s.afterCalls resolved
    let completed := s.completed + resolved.length
    let number := group.2 + 1
    .ok { s with
      completed
      layouts := resolved.foldl accept s.layouts
      progress := s.progress ++ [⟨completed, total, number, groups⟩]
      cancelled := s.cancelled || cancellation.afterGroup = some number }

def State.initial (cancellation : Cancellation) : State :=
  { cancelled := cancellation.before, cancelAt := cancellation.at_ }

def runCalls (config : Config) (cancellation : Cancellation) (calls : List Due) : Except Halt State :=
  let groups := groupsOf config.groupSize calls.length calls
  groups.zipIdx.foldlM (runGroup config cancellation calls.length groups.length) (State.initial cancellation)

def run (config : Config) (cancellation : Cancellation) (inference : Bundle → Call)
    (messages : List Message) : Except Halt State :=
  runCalls config cancellation (plan inference messages)

def inferMessage (config : Config) (inference : Bundle → Call) (s : State) (m : Message) :
    Except Halt (State × Except Error Layout) :=
  match m.bundle with
  | none => .ok (s, .error (.missingBundle m.id.name))
  | some b => do
    let resolved ← resolve config s ⟨m.id.name, b, inference b⟩
    .ok (s.afterCalls [resolved], resolved.ending.result)

structure Timed where
  result : Except Error Layout
  time : Nat

def inferEach (config : Config) (inference : Bundle → Call) :
    State → List Message → Except Halt (State × List Timed)
  | s, [] => .ok (s, [])
  | s, m :: rest => do
    let (s, result) ← inferMessage config inference s m
    let (final, results) ← inferEach config inference s rest
    .ok (final, ⟨result, s.now⟩ :: results)

def engineCall (engine : Engine) (b : Bundle) : Call :=
  match engine.infer b with
  | .ok attempt => ⟨0, .answers attempt.result⟩
  | .error fault => ⟨0, .breaks fault⟩

end WireLayout.Batch
