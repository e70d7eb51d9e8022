import Mathlib.Tactic

/-!
# Tunnels between tasks

A task sends its data to another task through a tunnel. The sender waits until the receiver has connected
the tunnel; `timeout` bounds the wait, and zero means no bound.
-/

namespace TiFlash.Flash

/-- `MPPTaskId` -/
structure MPPTaskId where
  startTs : Nat
  taskId : Int
  deriving DecidableEq, Repr

namespace MPPTaskId

/-- `operator<` -/
def lt (a b : MPPTaskId) : Bool :=
  a.startTs < b.startTs || (a.startTs = b.startTs && a.taskId < b.taskId)

def text (id : MPPTaskId) : String := "[" ++ toString id.startTs ++ "," ++ toString id.taskId ++ "]"

end MPPTaskId

/-- `mpp::MPPDataPacket`: a response, or an error with its message. -/
inductive MPPDataPacket (Data : Type) where
  | data (d : Data)
  | error (msg : String)
  deriving DecidableEq, Repr

namespace MPPDataPacket

/-- The packet is an error. -/
def hasError {Data : Type} : MPPDataPacket Data → Bool
  | data _ => false
  | error _ => true

end MPPDataPacket

/-- With what was passed to the writer of the connection and how often `writeDone` was
called. -/
structure MPPTunnel (Data : Type) where
  tunnelId : String
  timeout : Nat
  connected : Bool
  finished : Bool
  sent : List (MPPDataPacket Data)
  doneCalls : Nat
  deriving DecidableEq, Repr

/-- How `write` ends, for the value that `connected` has when the wait is over. -/
inductive WriteResult (Data : Type) where
  | ok (tunnel : MPPTunnel Data)
  /-- The exception after a wait that was too long. -/
  | isTimeout (msg : String)
  | waits
  deriving DecidableEq, Repr

namespace MPPTunnel

variable {Data : Type}

/-- A tunnel that nobody has connected -/
def new (receiver sender : MPPTaskId) (timeout : Nat) : MPPTunnel Data where
  tunnelId := "tunnel" ++ toString sender.taskId ++ "+" ++ toString receiver.taskId
  timeout := timeout
  connected := false
  finished := false
  sent := []
  doneCalls := 0

variable (tunnel : MPPTunnel Data)

def write (data : MPPDataPacket Data) : WriteResult Data :=
  if tunnel.timeout > 0 then
    if tunnel.connected then .ok { tunnel with sent := tunnel.sent ++ [data] }
    else .isTimeout (tunnel.tunnelId ++ " is timeout")
  else
    -- the branch without a bound ends after the wait
    if tunnel.connected then .ok tunnel else .waits

def writeDone : Except String (MPPTunnel Data) :=
  if tunnel.finished then .error "has finished"
  else .ok { tunnel with finished := true, doneCalls := tunnel.doneCalls + 1 }

def connect : Except String (MPPTunnel Data) :=
  if tunnel.connected then .error "has connected" else .ok { tunnel with connected := true }

end MPPTunnel

end TiFlash.Flash
