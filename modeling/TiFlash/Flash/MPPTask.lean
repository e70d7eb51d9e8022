import TiFlash.Flash.MPPTunnel

/-!
# Dispatching and running a task

`MPPHandler::execute` prepares a task, registers it and its tunnels, and starts a thread. `runImpl` copies
the blocks to the tunnels; if something throws, it writes the error to all tunnels.

What the streams do is an input: the packets that each call writes, and whether it then throws. So is when
the receivers connect. The encoding threads are left out: a call writes its packets in order.
-/

namespace TiFlash.Flash

/-! ## State -/

/-- Why a computation does not return -/
inductive Interrupt where
  | exception (msg : String)
  /-- The thread waits for a connection, and nobody connects. -/
  | waits
  deriving DecidableEq, Repr

/-- The manager's maps and the tunnels of a task -/
structure MPPWorld (Data : Type) where
  /-- `MPPTaskManager::task_map`, with the address of each task. -/
  taskMap : MPPTaskId → Option Nat
  /-- `tunnel_map` of the task. -/
  tunnels : MPPTaskId → Option (MPPTunnel Data)
  /-- The keys of `tunnel_map`, in its order. -/
  receivers : List MPPTaskId
  /-- The receivers that connect before the end of the next wait, of the one after it, and so on. -/
  arrivals : List (List MPPTaskId)

/-- Changes of the state stay when an exception is thrown. -/
abbrev MPPM (Data : Type) := EStateM Interrupt (MPPWorld Data)

variable {Data : Type}

def throwIf : Option String → MPPM Data Unit
  | none => pure ()
  | some msg => throw (.exception msg)

/-- `catch (Exception & e)`, `catch (std::exception & e)` and `catch (...)`, which do the same. -/
def catchException {α : Type} (x : MPPM Data α) (handler : String → MPPM Data α) : MPPM Data α :=
  fun w =>
    match x w with
    | .ok a w' => .ok a w'
    | .error (.exception msg) w' => handler msg w'
    | .error .waits w' => .error .waits w'

/-! ## Tunnels of the task -/

/-- `MPPTunnel::connect`; a second connection fails and leaves the tunnel as it is. -/
def MPPTunnel.arrive (tunnel : MPPTunnel Data) : MPPTunnel Data :=
  match tunnel.connect with
  | .ok tunnel' => tunnel'
  | .error _ => tunnel

/-- The receivers that connect until the end of a wait. -/
def MPPWorld.arrive (w : MPPWorld Data) : MPPWorld Data :=
  match w.arrivals with
  | [] => w
  | ids :: rest =>
    { w with
      arrivals := rest
      tunnels := fun id => (w.tunnels id).map fun tunnel => if id ∈ ids then tunnel.arrive else tunnel }

/-- Changes one tunnel. -/
def MPPWorld.setTunnel (w : MPPWorld Data) (id : MPPTaskId) (tunnel : MPPTunnel Data) : MPPWorld Data :=
  { w with tunnels := Function.update w.tunnels id (some tunnel) }

variable (id : MPPTaskId)

/-- `write` of the tunnel -/
def writeTunnel (data : MPPDataPacket Data) : MPPM Data Unit := fun w =>
  let w := w.arrive
  match w.tunnels id with
  | none => .ok () w
  | some tunnel =>
    match tunnel.write data with
    | .ok tunnel' => .ok () (w.setTunnel id tunnel')
    | .isTimeout msg => .error (.exception msg) w
    | .waits => .error .waits w

/-- `writeDone` of the tunnel -/
def writeDoneTunnel : MPPM Data Unit := fun w =>
  match w.tunnels id with
  | none => .ok () w
  | some tunnel =>
    match tunnel.writeDone with
    | .ok tunnel' => .ok () (w.setTunnel id tunnel')
    | .error msg => .error (.exception msg) w

/-- The error and the end -/
def writeErrTunnel (e : String) (id : MPPTaskId) : MPPM Data Unit := do
  writeTunnel id (.error e)
  writeDoneTunnel id

def writeErrToAllTunnel (e : String) : MPPM Data Unit := fun w => w.receivers.forM (writeErrTunnel e) w

def finishWrite : MPPM Data Unit := fun w => w.receivers.forM writeDoneTunnel w

def registerTunnel (tunnel : MPPTunnel Data) : MPPM Data Unit := fun w =>
  match w.tunnels id with
  | some _ => .error (.exception ("the tunnel " ++ tunnel.tunnelId ++ " has been registered")) w
  | none =>
    .ok () { w.setTunnel id tunnel with receivers := w.receivers.orderedInsert (fun a b => a.lt b) id }

/-! ## The manager -/

def registerTask (task : Nat) : MPPM Data Unit := fun w =>
  match w.taskMap id with
  | some _ => .error (.exception ("The task " ++ id.text ++ " has been registered")) w
  | none => .ok () { w with taskMap := Function.update w.taskMap id (some task) }

/-- A task that is not there is only logged. -/
def unregisterTask : MPPM Data Unit := modify fun w => { w with taskMap := Function.update w.taskMap id none }

/-! ## Dispatch -/

/-- `mpp::DispatchTaskRequest`: `plan` has the receivers of the root executor, if the encoded plan can be
parsed. -/
structure DispatchTaskRequest where
  taskMeta : MPPTaskId
  timeout : Nat
  encodedPlan : String
  plan : Option (List MPPTaskId)
  regions : List Nat

/-- The first region that the loop of `prepare` meets a second time. -/
def duplicateRegion (seen : List Nat) : List Nat → Option Nat
  | [] => none
  | region :: regions =>
    if region ∈ seen then some region else duplicateRegion (region :: seen) regions

def prettyFunction : String := "DB::BlockIO DB::MPPTask::prepare(const mpp::DispatchTaskRequest &)"

/-- A call of a stream: the packets that it writes, and what it throws after them. -/
structure StreamCall (Data : Type) where
  writes : List (MPPTaskId × Data)
  throws : Option String

/-- The calls that `runImpl` makes. -/
structure BlockIO (Data : Type) where
  readPrefix : StreamCall Data
  writePrefix : StreamCall Data
  /-- `from->read()` that returns a block, and `to->write(block)`. -/
  blocks : List (StreamCall Data × StreamCall Data)
  /-- `from->read()` that returns no block. -/
  lastRead : StreamCall Data
  profileInfo : StreamCall Data
  readSuffix : StreamCall Data
  writeSuffix : StreamCall Data

/-- The calls of the `try` block of `runImpl` in their order. -/
def BlockIO.calls (io : BlockIO Data) : List (StreamCall Data) :=
  [io.readPrefix, io.writePrefix] ++ io.blocks.flatMap (fun block => [block.1, block.2]) ++
    [io.lastRead, io.profileInfo, io.readSuffix, io.writeSuffix]

/-- A dispatch: the request, the address of the new task, and what the calls of other components do. -/
structure Dispatch (Data : Type) where
  request : DispatchTaskRequest
  task : Nat
  /-- `resetByDAGRequest` -/
  timezone : Option String
  /-- The constructors of `DAGContext` and `DAGQuerySource`. -/
  dagContext : Option String
  querySource : Option String
  executeQuery : Option String
  /-- `decodeDAGInt64` of the partition keys. -/
  partitionKeys : Option String
  responseWriter : Option String
  thread : Option String
  io : BlockIO Data

namespace Dispatch

variable (d : Dispatch Data)

/-- What `prepare` does before it registers the task. -/
def checkRequest : MPPM Data (List MPPTaskId) :=
  match d.request.plan with
  | none => throw (.exception (prettyFunction ++ ": Invalid encoded plan: " ++ d.request.encodedPlan))
  | some receivers =>
    match duplicateRegion [] d.request.regions with
    | some region =>
      throw (.exception (prettyFunction ++ ": contain duplicate region " ++ toString region))
    | none => do
      throwIf d.timezone
      pure receivers

variable (receivers : List MPPTaskId)

/-- One tunnel for each receiver -/
def registerTunnels : MPPM Data Unit :=
  receivers.forM fun id => registerTunnel id (.new id d.request.taskMeta d.request.timeout)

/-- What `prepare` does after it has registered the task. -/
def build : MPPM Data Unit := do
  throwIf d.dagContext
  throwIf d.querySource
  d.registerTunnels receivers
  throwIf d.executeQuery
  throwIf d.partitionKeys
  throwIf d.responseWriter

def prepare : MPPM Data Unit := do
  let receivers ← d.checkRequest
  registerTask d.request.taskMeta d.task
  d.build receivers

/-- `MPPHandler::execute`, up to the start of the thread: the error of the response, if there is one. -/
def execute : MPPM Data (Option String) := catchException
    (do
      d.prepare
      throwIf d.thread
      pure none)
    (fun msg => pure (some msg))

/-- One call of the output stream -/
def call (c : StreamCall Data) : MPPM Data Unit := do
  c.writes.forM fun p => writeTunnel p.1 (.data p.2)
  throwIf c.throws

/-- The `try` block of `runImpl`. -/
def copy : MPPM Data Unit := do
  d.io.calls.forM call
  finishWrite

def runImpl : MPPM Data Unit := do
  catchException d.copy writeErrToAllTunnel
  unregisterTask d.request.taskMeta

/-! ## What should hold at the end -/

/-- The task is not registered, every tunnel is done, and, after an error, every connected receiver has got
one. -/
structure Cleaned (failed : Prop) (w : MPPWorld Data) : Prop where
  not_registered : w.taskMap d.request.taskMeta ≠ some d.task
  done_once : ∀ id tunnel, w.tunnels id = some tunnel → tunnel.doneCalls = 1
  error_sent : failed → ∀ id tunnel, w.tunnels id = some tunnel → tunnel.connected = true →
    ∃ packet ∈ tunnel.sent, packet.hasError = true

/-- `runImpl` has not ended, or has ended without an exception and with everything cleaned up. -/
def RunCleansUp (w : MPPWorld Data) : Prop :=
  match d.runImpl w with
  | .ok _ w' => d.Cleaned (∀ w'', d.copy w ≠ .ok () w'') w'
  | .error (.exception _) _ => False
  | .error .waits _ => True

/-- A dispatch that starts in `w` leaves nothing behind: neither when `execute` returns an error, nor when
`runImpl` ends. -/
def CleansUp (w : MPPWorld Data) : Prop :=
  match d.execute w with
  | .error _ _ => False
  | .ok (some _) w₁ => d.Cleaned True w₁
  | .ok none w₁ => d.RunCleansUp w₁

end Dispatch

end TiFlash.Flash
