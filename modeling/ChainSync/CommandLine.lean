import ChainSync.Text.Decimal
import ChainSync.Text.Utf8

/-!
# The command line

A command line names a data directory and one command with its options. An option takes one value,
after an equals sign or as the next word, and occurs at most once. A word that begins with a hyphen
is never a value on its own, except the lone hyphen.
-/

namespace ChainSync.CommandLine

/-- Why no command is run. -/
inductive Stop where
  | help
  | usage
deriving DecidableEq

/-- An option that takes a value. -/
structure OptionSpec where
  /-- The name, with its hyphens. -/
  name : String
  accepts : String → Bool

/-- A word that is read as an option. -/
def isOption (word : String) : Bool := word.startsWith "-" && word ≠ "-"

/-- The name of an option and the value that is attached to it. -/
def splitOption (word : String) : String × Option String :=
  match word.toList.span (· ≠ '=') with
  | (name, []) => (String.ofList name, none)
  | (name, _ :: value) => (String.ofList name, some (String.ofList value))

/-- The options of a command line, in order of occurrence. -/
abbrev Found := List (String × String)

/-- Takes the value of an option that has not occurred before. -/
def addOption (found : Found) (option : OptionSpec) (value : String) : Except Stop Found :=
  if found.any (·.1 = option.name) then .error .usage
  else if option.accepts value then .ok (found ++ [(option.name, value)])
  else .error .usage

/-- What an option word without a known name stops with. -/
def stopAt (word name : String) (attached : Option String) : Stop :=
  if name = "--help" ∧ attached = none then .help
  else if word.startsWith "-h" then .help
  else .usage

/-- Reads options up to the first other word, which is returned with the words after it. -/
def scan (options : List OptionSpec) (found : Found) :
    List String → Except Stop (Found × List String)
  | [] => .ok (found, [])
  | word :: rest =>
    if word = "--" then (if rest = [] then .ok (found, []) else .error .usage)
    else if isOption word then
      let (name, attached) := splitOption word
      match options.find? (·.name = name), attached, rest with
      | none, attached, _ => .error (stopAt word name attached)
      | some option, some value, rest => do scan options (← addOption found option value) rest
      | some _, none, [] => .error .usage
      | some option, none, value :: rest =>
        if isOption value then .error .usage
        else do scan options (← addOption found option value) rest
    else .ok (found, word :: rest)

def valueOf? (found : Found) (name : String) : Option String :=
  (found.find? (·.1 = name)).map (·.2)

/-- The 64-bit word that a value writes; a plus sign may come first. -/
def word64? (value : String) : Option UInt64 :=
  (Decimal.word UInt64.size (Utf8.encode value)).toOption.map UInt64.ofNat

/-- The 32-bit word that a value writes; a sign may come first, and zero may have a minus sign. -/
def word32? (value : String) : Option UInt32 :=
  match Utf8.encode value with
  | Ascii.minus :: digits => if Decimal.decode? digits = some 0 then some 0 else none
  | text => (Decimal.word UInt32.size text).toOption.map UInt32.ofNat

def textOption (name : String) : OptionSpec := ⟨name, fun _ => true⟩

def pathOption (name : String) : OptionSpec := ⟨name, (· ≠ "")⟩

def word64Option (name : String) : OptionSpec := ⟨name, fun v => (word64? v).isSome⟩

def word32Option (name : String) : OptionSpec := ⟨name, fun v => (word32? v).isSome⟩

/-- What to sync with, and how. -/
structure SyncOptions where
  peer : String
  trusted : String
  configFile : Option String
  /-- Settings that override those of the file. -/
  batchSize : Option UInt32
  maxRetries : Option UInt32
  retryDelay : Option UInt64

/-- The commands of a node. -/
inductive Command where
  | head
  | seed (count : UInt64) (salt : String)
  | sync (options : SyncOptions)
  | serve (listen : String)

/-- A command and the directory of the node that it is for. -/
structure Invocation where
  dataDir : String
  command : Command

/-- The options of a command that takes nothing else. -/
def optionsOnly (options : List OptionSpec) (words : List String) : Except Stop Found := do
  let (found, rest) ← scan options [] words
  if rest = [] then return found else throw .usage

def parseSeed (words : List String) : Except Stop Command := do
  let found ← optionsOnly [word64Option "--count", textOption "--salt"] words
  return .seed (((valueOf? found "--count").bind word64?).getD 50)
    ((valueOf? found "--salt").getD "seed")

def parseSync (words : List String) : Except Stop Command := do
  let found ← optionsOnly
    [textOption "--peer", textOption "--trusted", pathOption "--config",
      word32Option "--batch-size", word32Option "--max-retries", word64Option "--retry-delay-ms"]
    words
  match valueOf? found "--peer", valueOf? found "--trusted" with
  | some peer, some trusted =>
    return .sync {
      peer
      trusted
      configFile := valueOf? found "--config"
      batchSize := (valueOf? found "--batch-size").bind word32?
      maxRetries := (valueOf? found "--max-retries").bind word32?
      retryDelay := (valueOf? found "--retry-delay-ms").bind word64? }
  | _, _ => throw .usage

def parseServe (words : List String) : Except Stop Command := do
  let found ← optionsOnly [textOption "--listen"] words
  return .serve ((valueOf? found "--listen").getD "127.0.0.1:8080")

def commandNames : List String := ["serve", "seed", "sync", "head", "help"]

/-- What a request for help stops with: the help for at most one command. -/
def stopHelp : List String → Stop
  | [] => .help
  | [name] => if commandNames.contains name then .help else .usage
  | _ => .usage

def parseCommand (name : String) (words : List String) : Except Stop Command :=
  match name with
  | "head" => (optionsOnly [] words).map fun _ => .head
  | "seed" => parseSeed words
  | "sync" => parseSync words
  | "serve" => parseServe words
  | "help" => .error (stopHelp words)
  | _ => .error .usage

/-- Reads a command line, without the name of the program. -/
def parse (words : List String) : Except Stop Invocation := do
  let (found, rest) ← scan [textOption "--data-dir"] [] words
  match rest with
  | [] => throw .usage
  | name :: rest =>
    return {
      dataDir := (valueOf? found "--data-dir").getD "./data"
      command := ← parseCommand name rest }

end ChainSync.CommandLine
