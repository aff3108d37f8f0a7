import Primer.Memory.Command

/-!
# Sessions

A `Session` is a memory together with a bounded log of its snapshots. A request is a command to the
memory, or it records the memory under a label, or it goes back to what was recorded. Whatever is
refused leaves the session as it was.
-/

namespace Primer.Memory

/-- A memory and its recorded past. -/
structure Session where
  memory : Memory
  snapshots : Log Snapshot
deriving Repr

/-- How much a session may use. -/
structure Limits where
  /-- Bytes of the heap in use at a time. -/
  heap : Nat := 10485760
  /-- Room for recorded snapshots. -/
  snapshots : Nat := 104857600
deriving Repr, DecidableEq

namespace Limits

/-- The empty memory within the limits. -/
def memory (limits : Limits) : Memory := .empty limits.heap

/-- A session on a memory, with nothing recorded. -/
def session (limits : Limits) (memory : Memory) : Session :=
  { memory, snapshots := .empty limits.snapshots }

end Limits

/-- What can be asked of a session. -/
inductive Request where
  | command (command : Command)
  | record (label : String)
  | restore (index : Nat)
deriving Repr, DecidableEq

/-- What came of recording a snapshot of the given size. -/
structure Recorded where
  size : Nat
  refused : Option Log.Full
deriving Repr, DecidableEq

/-- What a session replies. -/
inductive Reply where
  | answer (answer : Answer)
  | fault (fault : Fault)
  | recorded (outcome : Recorded)
  /-- The label of the snapshot that was gone back to, if there was one. -/
  | restored (label : Option String)
deriving Repr

namespace Session

/-- Carry out one request. -/
def step (session : Session) : Request → Reply × Session
  | .command command =>
    match session.memory.perform command with
    | .ok (answer, memory) => (.answer answer, { session with memory })
    | .error fault => (.fault fault, session)
  | .record label =>
    let snapshot : Snapshot := ⟨label, session.memory⟩
    match session.snapshots.push snapshot with
    | .ok snapshots => (.recorded ⟨snapshot.size, none⟩, { session with snapshots })
    | .error full => (.recorded ⟨snapshot.size, some full⟩, session)
  | .restore index =>
    match session.snapshots.get? index with
    | some snapshot =>
      (.restored (some snapshot.label), { session with memory := snapshot.memory })
    | none => (.restored none, session)

/-- The session after all requests. -/
def after (session : Session) (requests : List Request) : Session :=
  requests.foldl (fun session request => (session.step request).2) session

end Session

end Primer.Memory
