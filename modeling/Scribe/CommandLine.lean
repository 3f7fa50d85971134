import Scribe.Library.Basic
import Scribe.Session.Inserter

/-!
# The command line

`tokenize --rules <RULES> <FILE>` prints the tokens of a file, one to a line, and the state after each of
its lines. `expand [--dry-run] <TEMPLATE>` prints a snippet as it is inserted into an empty buffer, and the
places of its tabstops. Everything to print is known before anything is printed.
-/

namespace Scribe

/-- The commands about which help can be asked for. -/
inductive HelpTopic where
  | general | tokenize | expand
  deriving DecidableEq, Repr

def HelpTopic.text : HelpTopic → String
  | .general =>
    "Tokenize files and expand snippets\n\nUsage: scribe <COMMAND>\n\nCommands:\n" ++
    "  tokenize  Tokenize a file with a JSON rule table and print one token per line\n" ++
    "  expand    Expand a snippet into an empty buffer and print the text and its tabstops\n" ++
    "  help      Print this message or the help of the given subcommand(s)\n\n" ++
    "Options:\n  -h, --help  Print help\n"
  | .tokenize =>
    "Tokenize a file with a JSON rule table and print one token per line\n\n" ++
    "Usage: scribe tokenize --rules <RULES> <FILE>\n\nArguments:\n  <FILE>  \n\n" ++
    "Options:\n      --rules <RULES>  Path to the rule table\n  -h, --help           Print help\n"
  | .expand =>
    "Expand a snippet into an empty buffer and print the text and its tabstops\n\n" ++
    "Usage: scribe expand [OPTIONS] <TEMPLATE>\n\nArguments:\n  <TEMPLATE>  \n\n" ++
    "Options:\n      --dry-run  Only compute the expansion\n  -h, --help     Print help\n"

/-- What the arguments ask for. -/
inductive Invocation where
  | tokenize (rules file : String)
  | expand (source : String) (dryRun : Bool)
  | help (topic : HelpTopic)
  deriving DecidableEq, Repr

namespace Invocation

/-! ## Arguments -/

/-- An option and not a value; a lone hyphen is a value. -/
def isOption (arg : String) : Bool := Text.startsWith arg.toList ['-'] && arg != "-"

def asksHelp (arg : String) : Bool := arg == "--help" || Text.startsWith arg.toList ['-', 'h']

/-- Gives a field its value; a second one is an error. -/
def setOnce {α : Type} (field : Option α) (value : α) : Option (Option α) :=
  match field with
  | none => some (some value)
  | some _ => none

/-- A path may not be empty. -/
def setPath (field : Option String) (path : String) : Option (Option String) :=
  if path.isEmpty then none else setOnce field path

/-- After `--` nothing is an option. -/
def tokenizeArgs (onlyValues : Bool) (rules file : Option String) : List String → Option Invocation
  | [] => do return .tokenize (← rules) (← file)
  | arg :: rest =>
    if onlyValues || !isOption arg then do tokenizeArgs onlyValues rules (← setPath file arg) rest
    else if arg == "--" then tokenizeArgs true rules file rest
    else if asksHelp arg then some (.help .tokenize)
    else if arg == "--rules" then
      match rest with
      | [] => none
      | value :: rest =>
        if isOption value then none else do tokenizeArgs onlyValues (← setPath rules value) file rest
    else
      match Text.dropStart? "--rules=".toList arg.toList with
      | some value => do tokenizeArgs onlyValues (← setPath rules (String.ofList value)) file rest
      | none => none

def expandArgs (onlyValues : Bool) (source : Option String) (dryRun : Bool) :
    List String → Option Invocation
  | [] => source.map fun source => .expand source dryRun
  | arg :: rest =>
    if onlyValues || !isOption arg then do expandArgs onlyValues (← setOnce source arg) dryRun rest
    else if arg == "--" then expandArgs true source dryRun rest
    else if asksHelp arg then some (.help .expand)
    else if arg == "--dry-run" && !dryRun then expandArgs onlyValues source true rest
    else none

def helpArgs : List String → Option Invocation
  | [] | ["help"] => some (.help .general)
  | ["tokenize"] => some (.help .tokenize)
  | ["expand"] => some (.help .expand)
  | _ => none

/-- What the arguments ask for, if they are right. -/
def parse? : List String → Option Invocation
  | [] => none
  | "tokenize" :: args => tokenizeArgs false none none args
  | "expand" :: args => expandArgs false none false args
  | "help" :: args => helpArgs args
  | arg :: _ => if asksHelp arg then some (.help .general) else none

/-! ## What is printed -/

def line (text : String) : List Char := text.toList ++ ['\n']

/-- The tokens of a row and the state after it. -/
def showRow (row : Nat) (tokens : LineTokens) : List Char :=
  let start := Text.padded 1 row ++ ": "
  tokens.tokens.flatMap (fun t => line (start ++ t.kind ++ " " ++ Text.quote t.value)) ++
    line (start ++ "-> " ++ tokens.state.render)

def showTokens (lines : List LineTokens) : String :=
  String.ofList (lines.zipIdx.flatMap fun (tokens, row) => showRow row tokens)

def showPosition (p : Position) : String := Text.padded 1 p.row ++ ":" ++ Text.padded 1 p.column

def showGroup (g : TabstopGroup) : List Char :=
  let ranges := g.ranges.map fun r => showPosition r.range.start ++ "-" ++ showPosition r.range.stop
  line ("$" ++ Text.padded 1 g.id ++ " " ++ " ".intercalate ranges)

def showExpansion (text : String) (tabstops : List TabstopGroup) : String :=
  String.ofList (line text ++ line "---" ++ tabstops.flatMap showGroup)

/-! ## Running -/

/-- The tokens of a file in the mode of a table. -/
def tokenizeFile (rules file : Option ByteArray) : Except Error String := do
  let library ← ({} : Library).addModeFrom "cli" rules
  let content ← Library.textOf file
  return showTokens (← library.tokenize "cli" content false)

/-- A snippet inserted into an empty buffer. -/
def expandSource (vars : Variables) (source : String) (dryRun : Bool) : String :=
  let (expanded, _, buffer) :=
    (SnippetInserter.create vars).insert ({} : Buffer) source { dryRun }
  showExpansion (if dryRun then expanded.text else buffer.text) expanded.tabstops

/-- What is printed, given the files by their paths. -/
def output (vars : Variables) (files : String → Option ByteArray) : Invocation → Except Error String
  | tokenize rules file => tokenizeFile (files rules) (files file)
  | expand source dryRun => .ok (expandSource vars source dryRun)
  | help topic => .ok (HelpTopic.text topic)

/-- The files that are read. -/
def paths : Invocation → List String
  | tokenize rules file => [rules, file]
  | _ => []

end Invocation

/-- What a run of the program leaves. -/
structure Outcome where
  /-- 1 for an error of the program, 2 for wrong arguments. -/
  code : UInt32
  output : String
  complaint : String := ""
  deriving DecidableEq, Repr

def Invocation.outcome (vars : Variables) (files : String → Option ByteArray) (args : List String) :
    Outcome :=
  match parse? args with
  | none => { code := 2, output := "", complaint := "wrong arguments, try --help" }
  | some i =>
    match i.output vars files with
    | .ok output => { code := 0, output }
    | .error e => { code := 1, output := "", complaint := e.message }

end Scribe
