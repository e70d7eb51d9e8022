import TiFlash.Flash.MPPTunnel

/-!
# An exchange receiver and its sources

For each source a thread opens a stream to the sender's server and reads it. The server looks up the task
and its tunnel, connects the tunnel to the stream and ends the stream when the tunnel is finished.

The steps of the three parties may happen in any order. A packet holds a response; `ParseFromString` of what
`SerializeToString` wrote returns it.
-/

namespace TiFlash.Flash

/-! ## One source -/

/-- Where the sending task stands -/
inductive SenderPhase where
  | idle
  /-- `prepare` has registered the task. -/
  | preparing
  /-- `prepare` has registered the tunnel. -/
  | prepared
  /-- The `try` block of `runImpl`. -/
  | running
  /-- A `catch` block of `runImpl`, before the error is written to the tunnel. -/
  | failing
  | errorWritten
  | succeeded
  | failed
  /-- `prepare` has thrown an exception. -/
  | aborted
  /-- An exception has left `runImpl`, and the process is gone. -/
  | crashed
  deriving DecidableEq, Repr

/-- Where `EstablishMPPConnection` stands -/
inductive ServerPhase where
  | idle
  | findTask
  | findTunnel
  | connecting
  | waiting
  | closed
  deriving DecidableEq, Repr

/-- Where `ReadLoop` stands -/
inductive ReaderPhase where
  | idle
  | reading
  /-- After the `catch` blocks. -/
  | leaving
  | ended
  deriving DecidableEq, Repr

/-- A sender, the server's handler of the connection, the stream and the thread that reads it. -/
structure ExchangeSource (Data : Type) where
  senderMeta : MPPTaskId
  receiverMeta : MPPTaskId
  sender : SenderPhase
  taskRegistered : Bool
  tunnelRegistered : Bool
  tunnel : MPPTunnel Data
  /-- What was passed to `MPPTunnel::write`. -/
  passed : List Data
  server : ServerPhase
  stream : List (MPPDataPacket Data)
  broken : Bool
  reader : ReaderPhase

namespace ExchangeSource

variable {Data : Type} (s : ExchangeSource Data)

/-! ### The sender -/

def registerTask : ExchangeSource Data :=
  if s.sender = .idle then { s with sender := .preparing, taskRegistered := true } else s

def registerTunnel : ExchangeSource Data :=
  if s.sender = .preparing then { s with sender := .prepared, tunnelRegistered := true } else s

/-- The rest of `prepare` throws. -/
def abort : ExchangeSource Data :=
  if s.sender = .preparing ∨ s.sender = .prepared then { s with sender := .aborted } else s

/-- `prepare` has returned and the thread of `runImpl` starts. -/
def startRun : ExchangeSource Data :=
  if s.sender = .prepared then { s with sender := .running } else s

/-- What a call of `MPPTunnel::write` that ends with `tunnel'` gives to the stream. -/
def written (tunnel' : MPPTunnel Data) : List (MPPDataPacket Data) := tunnel'.sent.drop s.tunnel.sent.length

/-- `MPPTunnel::write` of the running task -/
def write (d : Data) : ExchangeSource Data :=
  if s.sender = .running then
    match s.tunnel.write (.data d) with
    | .ok tunnel' =>
      { s with tunnel := tunnel', stream := s.stream ++ s.written tunnel', passed := s.passed ++ [d] }
    | .isTimeout _ => { s with sender := .failing, passed := s.passed ++ [d] }
    | .waits => s
  else s

/-- Anything else in the `try` block throws. -/
def fail : ExchangeSource Data := if s.sender = .running then { s with sender := .failing } else s

def writeError (msg : String) : ExchangeSource Data :=
  if s.sender = .failing then
    match s.tunnel.write (.error msg) with
    | .ok tunnel' =>
      { s with sender := .errorWritten, tunnel := tunnel', stream := s.stream ++ s.written tunnel' }
    | .isTimeout _ => { s with sender := .crashed, broken := true }
    | .waits => s
  else s

/-- `writeErrToAllTunnel` throws at the tunnel to another receiver. -/
def crash : ExchangeSource Data :=
  if s.sender = .failing then { s with sender := .crashed, broken := true } else s

/-- `MPPTunnel::writeDone`, after which the task is in the given phase. -/
def writeDone (phase : SenderPhase) : ExchangeSource Data :=
  match s.tunnel.writeDone with
  | .ok tunnel' => { s with sender := phase, tunnel := tunnel' }
  | .error _ => s

/-- `writeErrToAllTunnel`: the end of the tunnel. -/
def errorDone : ExchangeSource Data := if s.sender = .errorWritten then s.writeDone .failed else s

def finishWrite : ExchangeSource Data := if s.sender = .running then s.writeDone .succeeded else s

def unregisterTask : ExchangeSource Data :=
  if s.sender = .succeeded ∨ s.sender = .failed then { s with taskRegistered := false } else s

/-! ### The server -/

/-- The wait for the task ends. -/
def findTask : ExchangeSource Data :=
  if s.server = .findTask ∧ s.taskRegistered then { s with server := .findTunnel } else s

def refuse (msg : String) : ExchangeSource Data :=
  { s with server := .closed, stream := s.stream ++ [.error msg] }

/-- The wait for the task times out. -/
def taskMissing : ExchangeSource Data :=
  if s.server = .findTask ∧ ¬ s.taskRegistered then
    s.refuse ("can't find task " ++ s.senderMeta.text ++ " within 10 s")
  else s

/-- The look-up of the tunnel; the server keeps the task. -/
def findTunnel : ExchangeSource Data :=
  if s.server = .findTunnel ∧ s.tunnelRegistered then { s with server := .connecting } else s

def tunnelMissing : ExchangeSource Data :=
  if s.server = .findTunnel ∧ ¬ s.tunnelRegistered then
    s.refuse ("can't find tunnel ( " ++ toString s.receiverMeta.taskId ++ " + " ++
      toString s.senderMeta.taskId ++ " ) within 10 s")
  else s

def connect : ExchangeSource Data :=
  if s.server = .connecting then
    match s.tunnel.connect with
    | .ok tunnel' => { s with server := .waiting, tunnel := tunnel' }
    | .error _ => s
  else s

/-- `waitForFinish` returns. -/
def endWait : ExchangeSource Data :=
  if s.server = .waiting ∧ s.tunnel.finished then { s with server := .closed } else s

/-! ### The connection -/

/-- The connection is lost. -/
def breakConnection : ExchangeSource Data := { s with broken := true }

/-- The receiver calls the sender. -/
def openStream : ExchangeSource Data :=
  if s.reader = .idle then { s with reader := .reading, server := .findTask } else s

/-- `Read` returns false: at the end of the stream, or because the connection is broken. -/
def readFalse : ExchangeSource Data :=
  if s.reader = .reading ∧ (s.broken ∨ s.server = .closed ∧ s.stream = []) then
    { s with reader := .leaving }
  else s

end ExchangeSource

/-! ## The receiver -/

/-- What `nextResult` returns -/
inductive NextResult (n : Nat) (Data : Type) where
  | packet (source : Fin n) (d : Data)
  | eof
  | error (msg : String)
  deriving DecidableEq

/-- `ExchangeReceiver` with its sources, and what `nextResult` has returned so far. -/
structure Exchange (n : Nat) (Data : Type) where
  sources : Fin n → ExchangeSource Data
  inited : Bool
  liveConnections : Int
  meetError : Bool
  err : String
  /-- `result_buffer` -/
  buffer : List (Fin n × Data)
  reported : List (NextResult n Data)

namespace Exchange

variable {n : Nat} {Data : Type} (e : Exchange n Data) (i : Fin n)

/-- Changes one source. -/
def modify (f : ExchangeSource Data → ExchangeSource Data) : Exchange n Data :=
  { e with sources := Function.update e.sources i (f (e.sources i)) }

/-- When `nextResult` is called for the first time. -/
def init : Exchange n Data :=
  if e.inited then e else { e with inited := true, liveConnections := e.liveConnections + n }

/-- The thread of a source starts after `init`. -/
def openStream : Exchange n Data := if e.inited then e.modify i (·.openStream) else e

/-- A `catch` block of `ReadLoop`. -/
def catchError (msg : String) (f : ExchangeSource Data → ExchangeSource Data) : Exchange n Data :=
  { e.modify i (fun s => { f s with reader := .leaving }) with meetError := true, err := msg }

/-- The call fails. -/
def openFails (msg : String) : Exchange n Data :=
  if e.inited ∧ (e.sources i).reader = .idle then e.catchError i msg (·.breakConnection) else e

/-- An iteration of `ReadLoop` that reads a packet, with `decodePacket`. -/
def read : Exchange n Data :=
  if (e.sources i).reader = .reading then
    match (e.sources i).stream with
    | [] => e
    | .error msg :: rest =>
      e.catchError i ("exchange receiver meet error : " ++ msg) fun s => { s with stream := rest }
    | .data d :: rest =>
      { e.modify i (fun s => { s with stream := rest }) with buffer := e.buffer ++ [(i, d)] }
  else e

/-- The end of `ReadLoop` -/
def leave : Exchange n Data :=
  if (e.sources i).reader = .leaving then
    { e.modify i (fun s => { s with reader := .ended }) with liveConnections := e.liveConnections - 1 }
  else e

/-- `nextResult` after `init`; it waits if there is nothing to report. -/
def nextResult : Exchange n Data :=
  if e.inited = false then e
  else if e.meetError then { e with reported := e.reported ++ [.error e.err] }
  else
    match e.buffer with
    | (i, d) :: rest => { e with buffer := rest, reported := e.reported ++ [.packet i d] }
    | [] => if e.liveConnections = 0 then { e with reported := e.reported ++ [.eof] } else e

/-- Nothing has happened. -/
def start (ids : Fin n → MPPTaskId) (receiver : MPPTaskId) (timeout : Fin n → Nat) : Exchange n Data where
  sources i :=
    { senderMeta := ids i, receiverMeta := receiver, sender := .idle, taskRegistered := false,
      tunnelRegistered := false, tunnel := .new receiver (ids i) (timeout i), passed := [], server := .idle,
      stream := [], broken := false, reader := .idle }
  inited := false
  liveConnections := 0
  meetError := false
  err := ""
  buffer := []
  reported := []

end Exchange

/-! ## Runs -/

/-- A step of the sender, of the server or of the connection of a source. -/
inductive SourceAction (Data : Type) where
  | registerTask
  | registerTunnel
  | abort
  | startRun
  | write (d : Data)
  | fail
  | writeError (msg : String)
  | crash
  | errorDone
  | finishWrite
  | unregisterTask
  | findTask
  | taskMissing
  | findTunnel
  | tunnelMissing
  | connect
  | endWait
  | breakConnection
  | readFalse
  deriving DecidableEq

/-- One action at a source -/
def ExchangeSource.step {Data : Type} (s : ExchangeSource Data) : SourceAction Data → ExchangeSource Data
  | .registerTask => s.registerTask
  | .registerTunnel => s.registerTunnel
  | .abort => s.abort
  | .startRun => s.startRun
  | .write d => s.write d
  | .fail => s.fail
  | .writeError msg => s.writeError msg
  | .crash => s.crash
  | .errorDone => s.errorDone
  | .finishWrite => s.finishWrite
  | .unregisterTask => s.unregisterTask
  | .findTask => s.findTask
  | .taskMissing => s.taskMissing
  | .findTunnel => s.findTunnel
  | .tunnelMissing => s.tunnelMissing
  | .connect => s.connect
  | .endWait => s.endWait
  | .breakConnection => s.breakConnection
  | .readFalse => s.readFalse

/-- The steps of the exchange. A step that cannot be taken changes nothing. -/
inductive ExchangeAction (n : Nat) (Data : Type) where
  | source (i : Fin n) (action : SourceAction Data)
  | init
  | openStream (i : Fin n)
  | openFails (i : Fin n) (msg : String)
  | read (i : Fin n)
  | leave (i : Fin n)
  | nextResult
  deriving DecidableEq

namespace Exchange

variable {n : Nat} {Data : Type} (e : Exchange n Data)

/-- One action -/
def step : ExchangeAction n Data → Exchange n Data
  | .source i action => e.modify i (·.step action)
  | .init => e.init
  | .openStream i => e.openStream i
  | .openFails i msg => e.openFails i msg
  | .read i => e.read i
  | .leave i => e.leave i
  | .nextResult => e.nextResult

/-- Any interleaving of actions -/
def run (actions : List (ExchangeAction n Data)) : Exchange n Data := actions.foldl step e

/-! ## What the receiver should see -/

/-- The packets of a source that `nextResult` has returned. -/
def returned (i : Fin n) : List Data :=
  e.reported.filterMap fun
    | .packet j d => if j = i then some d else none
    | .eof | .error _ => none

/-- If the end of the stream was reported, then every source was returned as a whole and its task finished
without an error. -/
def WholeStream : Prop :=
  .eof ∈ e.reported → ∀ i, e.returned i = (e.sources i).passed ∧ (e.sources i).sender = .succeeded

/-- If all tasks finished without an error and no connection broke, then no error was reported. -/
def NoFalseError : Prop :=
  (∀ i, (e.sources i).sender = .succeeded ∧ (e.sources i).broken = false) → ∀ msg, .error msg ∉ e.reported

end Exchange

end TiFlash.Flash
