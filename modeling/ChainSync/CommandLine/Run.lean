import ChainSync.CommandLine
import ChainSync.Node.DataDirectory
import ChainSync.Node.Database
import ChainSync.Text.SocketAddress

/-!
# Running a command

A command works with files, among them those of its node's data directory, at a point of time and
with a way to reach peers. It ends with an exit code, what it prints and what it complains about;
only serving does not end by itself.
-/

namespace ChainSync.CommandLine

/-- Why a command failed. -/
inductive Failure where
  | dataDir (path : String)
  | configUnreadable (path : String)
  | configBroken (path : String)
  | address
  | chain (cause : ChainError)
  | sync (cause : Node.SyncFailure)

def Failure.message : Failure → String
  | .dataDir path => s!"opening sled db at {path}"
  | .configUnreadable path => s!"reading {path}"
  | .configBroken path => s!"parsing {path}"
  | .address => "invalid socket address syntax"
  | .chain cause => cause.message
  | .sync cause => cause.message

/-- How a command ends. -/
inductive Outcome where
  /-- It succeeded and printed this. -/
  | done (output : String)
  | failed (cause : Failure)
  | stopped (reason : Stop)
  /-- It serves a chain at an address until it is stopped. -/
  | serving (chain : Chain) (address : SocketAddress.Address)

/-- The exit code; serving ends well. -/
def Outcome.code : Outcome → UInt32
  | .done _ => 0
  | .failed _ => 1
  | .stopped .help => 0
  | .stopped .usage => 2
  | .serving _ _ => 0

def Outcome.output : Outcome → String
  | .done output => output
  | _ => ""

def Outcome.complaint : Outcome → String
  | .failed cause => s!"Error: {cause.message}"
  | _ => ""

/-- What a command works with beside its options. -/
structure Surroundings (φ τ : Type) where
  files : φ
  exchange : τ
  now : UInt64

/-- The settings of a file, overridden by options. -/
def SyncOptions.override (options : SyncOptions) (config : Config) : Config where
  batchSize := options.batchSize.getD config.batchSize
  maxRetries := options.maxRetries.getD config.maxRetries
  retryDelay := options.retryDelay.getD config.retryDelay

def headLine (c : Chain) : Except ChainError String := do
  let (height, hash) ← c.tip
  let shown := hash.elim "" (·.hex)
  return s!"{height} {shown}\n"

variable {m : Type → Type} [Monad m] {φ τ α : Type} [FileSystem φ m] [Http.Exchange τ m]

def onFiles (act : StateT φ m α) : StateT (Surroundings φ τ) m α := fun s => do
  let (result, files) ← act.run s.files
  return (result, { s with files })

/-- The settings of a sync: those of a file or else the defaults, overridden by options. -/
def settings (options : SyncOptions) : StateT φ m (Except Failure Config) := do
  match options.configFile with
  | none => return .ok (options.override {})
  | some path =>
    match ← FileSystem.read path with
    | .error _ => return .error (.configUnreadable path)
    | .ok text =>
      match Config.parse? text with
      | none => return .error (.configBroken path)
      | some config => return .ok (options.override config)

/-- Runs a command on a node. Returns what the node keeps then. -/
def runOn (db : Node.Database) :
    Command → StateT (Surroundings φ τ) m (Outcome × Node.Database)
  | .head =>
    match headLine db.chain with
    | .ok line => return (.done line, db)
    | .error cause => return (.failed (.chain cause), db)
  | .seed count salt => do
    let (result, chain) := (Node.seed count (Utf8.encode salt) (← get).now).exec db.chain
    match result with
    | .ok _ => return (.done "", { db with chain })
    | .error cause => return (.failed (.chain cause), { db with chain })
  | .sync options => do
    match ← onFiles (settings options) with
    | .error cause => return (.failed cause, db)
    | .ok config =>
      let peer := Http.HttpPeer.ofAddress options.peer (← get).exchange
      let (result, db, peer) ← Node.sync (m := m) db peer options.trusted config
      modify ({ · with exchange := peer.exchange })
      match result with
      | .ok _ => return (.done "", db)
      | .error cause => return (.failed (.sync cause), db)
  | .serve listen =>
    match SocketAddress.parse? listen with
    | none => return (.failed .address, db)
    | some address => return (.serving db.chain address, db)

/-- Opens the data directory, makes sure that its chain begins, runs the command and keeps what the
node holds then. -/
def runInvocation (i : Invocation) : StateT (Surroundings φ τ) m Outcome := do
  match ← onFiles (Node.DataDirectory.open? i.dataDir) with
  | none => return .failed (.dataDir i.dataDir)
  | some db =>
    match db.chain.ensureGenesis with
    | .error cause => return .failed (.chain cause)
    | .ok chain =>
      let (outcome, db) ← runOn { db with chain } i.command
      if ← onFiles (Node.DataDirectory.keep i.dataDir db) then return outcome
      else return .failed (.dataDir i.dataDir)

def run (words : List String) : StateT (Surroundings φ τ) m Outcome :=
  match parse words with
  | .error reason => return .stopped reason
  | .ok invocation => runInvocation invocation

end ChainSync.CommandLine
