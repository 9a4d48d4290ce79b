import ChainSync.CommandLine.Run
import ChainSync.Http.Wire
import Std.Async.DNS
import Std.Async.TCP
import Std.Async.Timer
import Std.Time

/-!
# The program

Runs a command line: files are those of the machine, peers are reached over TCP, and serving answers
every connection by itself. What a command does, and what messages look like, is said in other
modules.
-/

namespace ChainSync.Program

open Std.Async

def help : String :=
  "Usage: chain-sync [--data-dir DIR] COMMAND\n\n" ++
  "  serve [--listen ADDRESS]\n" ++
  "  seed [--count N] [--salt TEXT]\n" ++
  "  sync --peer URL --trusted HASH [--config FILE] [--batch-size N] [--max-retries N]\n" ++
  "    [--retry-delay-ms N]\n" ++
  "  head\n"

/-- The most bytes that are taken from a connection at once. -/
def portion : UInt64 := 65536

def maxRequest : Nat := 65536

def patience : Std.Time.Millisecond.Offset := 10000

def wait (milliseconds : UInt64) : IO Unit := (sleep (.ofNat milliseconds.toNat)).block

/-- Takes what a connection brings until it is closed. -/
partial def receiveAll (socket : TCP.Socket.Client) (received : ByteArray) : Async ByteArray := do
  match ← socket.recv? portion with
  | some bytes => receiveAll socket (received ++ bytes)
  | none => return received

/-- Takes what a connection brings until a head is complete. -/
partial def receiveHead (socket : TCP.Socket.Client) (received : ByteArray) :
    Async (Option Bytes) := do
  match Http.splitHead? received.toList with
  | some (head, _) => return some head
  | none =>
    if maxRequest < received.size then return none
    match ← socket.recv? portion with
    | some bytes => receiveHead socket (received ++ bytes)
    | none => return none

/-- The socket address with an IP address and a port. -/
def socketAddress (port : UInt16) : Std.Net.IPAddr → Std.Net.SocketAddress
  | .v4 addr => .v4 { addr, port }
  | .v6 addr => .v6 { addr, port }

/-- One request to a host at one of its addresses. -/
def requestAt (destination : Http.Destination) (ip : Std.Net.IPAddr) :
    Async (Option Http.Response) := do
  let socket ← TCP.Socket.Client.mk
  socket.connect (socketAddress destination.port ip)
  let request : Http.Request := { method := "GET", target := destination.target }
  socket.send (ByteArray.mk (request.toWire destination.host).toArray)
  let received ← receiveAll socket ByteArray.empty
  return Http.Response.ofWire? received.toList

/-- One request to a host, at the first of its addresses that can be reached. -/
def request (destination : Http.Destination) : Async (Option Http.Response) := do
  let addresses ← DNS.getAddrInfo destination.host destination.port.toNat.repr
  for ip in addresses do
    try return ← requestAt destination ip
    catch _ => pure ()
  return none

/-- The exchange with all hosts of the network. -/
structure Network where

instance : Http.Exchange Network IO where
  get address network := do
    let answer ←
      match Http.Destination.ofAddress? address with
      | none => pure none
      | some destination =>
        try (Async.race (request destination) (do sleep patience; return none)).block
        catch _ => pure none
    return (answer, network)
  pause milliseconds network := do
    wait milliseconds
    return ((), network)

def answer (chain : Chain) (socket : TCP.Socket.Client) : Async Unit := do
  let response :=
    match (← receiveHead socket ByteArray.empty).bind Http.Request.ofHead? with
    | some request => Http.respond chain request
    | none => { status := 400 }
  socket.send (ByteArray.mk response.toWire.toArray)
  socket.shutdown

partial def acceptAll (chain : Chain) (server : TCP.Socket.Server) : Async Unit := do
  let socket ← server.accept
  background (answer chain socket)
  acceptAll chain server

def listenAddress : SocketAddress.Address → Std.Net.SocketAddress
  | .v4 high low port =>
    let octet (n : Nat) := UInt8.ofNat n
    let addr := .ofParts (octet (high / 256)) (octet high) (octet (low / 256)) (octet low)
    .v4 { addr, port := UInt16.ofNat port }
  | .v6 groups port =>
    let group (i : Nat) := UInt16.ofNat (groups.getD i 0)
    let addr := .ofParts (group 0) (group 1) (group 2) (group 3) (group 4) (group 5) (group 6)
      (group 7)
    .v6 { addr, port := UInt16.ofNat port }

def serve (chain : Chain) (address : SocketAddress.Address) : IO Unit := do
  let server ← TCP.Socket.Server.mk
  server.bind (listenAddress address)
  server.listen 128
  (acceptAll chain server).block

/-- The files of the machine. -/
structure Disk where

def readFile (path : String) : IO (Except FileFault Bytes) := do
  try return .ok (← IO.FS.readBinFile path).toList
  catch
  | .noFileOrDirectory .. => return .error .missing
  | _ => return .error .unusable

/-- Does something. Returns whether that was possible. -/
def attempt (act : IO Unit) : IO Bool := do
  try
    act
    return true
  catch _ => return false

instance : FileSystem Disk IO where
  read path disk := return (← readFile path, disk)
  write path content disk := do
    let written ← attempt do
      let fresh := s!"{path}.new"
      IO.FS.writeBinFile fresh (ByteArray.mk content.toArray)
      IO.FS.rename fresh path
    return (written, disk)
  makeDirectories path disk := return (← attempt (IO.FS.createDirAll path), disk)

def report (outcome : CommandLine.Outcome) : IO UInt32 := do
  match outcome with
  | .stopped .help => IO.print help
  | .stopped .usage => IO.eprint help
  | _ =>
    IO.print outcome.output
    if outcome.complaint ≠ "" then IO.eprintln outcome.complaint
  return outcome.code

def run (words : List String) : IO UInt32 := do
  let now ← Std.Time.Timestamp.now
  let surroundings : CommandLine.Surroundings Disk Network :=
    { files := {}, exchange := {}, now := UInt64.ofNat now.toSecondsSinceUnixEpoch.toInt.toNat }
  let (outcome, _) ← (CommandLine.run words).run surroundings
  match outcome with
  | .serving chain address =>
    try serve chain address
    catch cause =>
      IO.eprintln s!"Error: {cause}"
      return 1
  | _ => pure ()
  report outcome

end ChainSync.Program

def main (args : List String) : IO UInt32 := ChainSync.Program.run args
