import Lox.Session
/-!
# Connections

Every connection has a session of its own. A text frame is run as source, any other frame is
passed over, and a frame that is too long closes its connection.
-/

namespace Lox

/-- A message of a client. -/
inductive Frame where
  | text (source : Bytes)
  | binary (data : Bytes)
deriving DecidableEq, Repr

namespace Frame

def size : Frame → Nat
  | text s => s.length
  | binary s => s.length

/-- How long a frame may be. -/
def maxSize : Nat := 65536

end Frame

/-- What comes back for a frame. -/
inductive Reply where
  /-- What a source printed, and its diagnostics. -/
  | ran (output errors : Bytes)
  | nothing
  /-- The frame was too long, and the connection is closed now. -/
  | closing
  | closed
deriving DecidableEq, Repr

/-- An open connection: its session, and what has been printed and reported. Both buffers are
used again for every source. -/
structure Client where
  session : Session
  output : Bytes
  errors : Bytes

namespace Client

/-- Runs a source for at most `fuel` steps. The buffers are emptied and earlier failures
forgotten first. -/
def run (fuel : Nat) (source : Bytes) (c : Client) : Reply × Client :=
  let c : Client := ⟨c.session.reset, [], []⟩
  let (report, session) := c.session.run fuel source
  let c : Client := ⟨session, c.output ++ report.outputText, c.errors ++ report.errorText⟩
  (.ran c.output c.errors, c)

end Client

/-- A connection: its client while it is open. -/
abbrev Connection := Option Client

namespace Connection

def opened (state : State) : Connection := some ⟨⟨.clear, state⟩, [], []⟩

/-- Receives one frame. A source may take at most `fuel` steps. -/
def receive (fuel : Nat) (c : Connection) (frame : Frame) : Reply × Connection :=
  match c with
  | none => (.closed, none)
  | some client =>
    if Frame.maxSize < frame.size then (.closing, none)
    else match frame with
      | .binary _ => (.nothing, some client)
      | .text source =>
        let (reply, client) := client.run fuel source
        (reply, some client)

/-- Receives frames one after another. -/
def receiveAll (fuel : Nat) (c : Connection) : List Frame → List Reply × Connection
  | [] => ([], c)
  | frame :: rest =>
    let (reply, c) := c.receive fuel frame
    let (replies, c) := receiveAll fuel c rest
    (reply :: replies, c)

end Connection

/-- All connections, by number. -/
abbrev Hub := List Connection

namespace Hub

/-- Delivers a frame to the connection of a number. -/
def deliver (fuel : Nat) (hub : Hub) (number : Nat) (frame : Frame) : Reply × Hub :=
  let (reply, c) := (hub[number]?.getD none).receive fuel frame
  (reply, hub.set number c)

/-- Delivers frames of several connections one after another. -/
def deliverAll (fuel : Nat) (hub : Hub) : List (Nat × Frame) → List Reply × Hub
  | [] => ([], hub)
  | (number, frame) :: rest =>
    let (reply, hub) := hub.deliver fuel number frame
    let (replies, hub) := deliverAll fuel hub rest
    (reply :: replies, hub)

end Hub

end Lox
