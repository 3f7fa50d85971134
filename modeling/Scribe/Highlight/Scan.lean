import Scribe.Highlight.Tokenizer

/-!
# Scanning lines

A line is scanned from left to right. The earliest match in the current state wins, the text before it
gets the kind that the state gives to such text, and the state reached at the end of a line is where
the next line starts. The tokens of a line make up the line.
-/

namespace Scribe

structure LineTokens where
  tokens : List Token
  state : StateStack
  deriving DecidableEq, Repr

/-- The tokens of a line so far, the last one first. -/
structure TokenRun where
  reversed : List Token := []
  /-- Whether the last token may still grow. -/
  extensible : Bool := false
  deriving DecidableEq, Repr

namespace TokenRun

/-- Adds a text, which joins the last token if both may and their kinds agree. -/
def add (run : TokenRun) (kind value : String) (merge : Bool) : TokenRun :=
  if value.isEmpty then run
  else match run.reversed with
    | last :: rest =>
      if merge && run.extensible && last.kind == kind then
        { run with reversed := { last with value := last.value ++ value } :: rest }
      else ⟨⟨kind, value⟩ :: run.reversed, true⟩
    | [] => ⟨[⟨kind, value⟩], true⟩

/-- Adds a token that joins no other. -/
def addAlone (run : TokenRun) (kind value : String) : TokenRun :=
  if value.isEmpty then run else ⟨⟨kind, value⟩ :: run.reversed, false⟩

def addAllAlone (run : TokenRun) (tokens : List Token) : TokenRun :=
  tokens.foldl (fun run t => run.addAlone t.kind t.value) run

def tokens (run : TokenRun) : List Token := run.reversed.reverse

end TokenRun

/-- Where a scan stands. -/
structure Scan where
  pos : Nat := 0
  stack : StateStack
  run : TokenRun := {}
  /-- Empty matches in a row since the last one that took something. -/
  stalled : Nat := 0
  deriving DecidableEq, Repr

/-- One token for each group that stands after those before it and inside of the match, and text in
between. -/
def addGroups (defaultKind : String) (text : Array Char) (stop cursor : Nat) (run : TokenRun) :
    List (String × Option Span) → TokenRun
  | [] => run.addAlone defaultKind (Text.slice text ⟨cursor, stop⟩)
  | (_, none) :: rest => addGroups defaultKind text stop cursor run rest
  | (kind, some span) :: rest =>
    if span.start < cursor || span.stop ≤ span.start || stop < span.stop then
      addGroups defaultKind text stop cursor run rest
    else
      let run := run.addAlone defaultKind (Text.slice text ⟨cursor, span.start⟩)
      addGroups defaultKind text stop span.stop (run.addAlone kind (Text.slice text span)) rest

namespace Tokenizer

variable (t : Tokenizer)

/-- The state to scan with. A stack that names no state is put on the start. -/
def currentState (stack : StateStack) : CompiledState × StateStack :=
  match t.states.get? stack.current with
  | some state => (state, stack)
  | none => (t.start, stack.next startState)

end Tokenizer

/-- The tokens for a match. A handler decides by itself, as long as its tokens make up the match. -/
def emit (rule : CompiledRule) (state : CompiledState) (text : Array Char) (m : UnionMatch)
    (stack : StateStack) (run : TokenRun) : StateStack × TokenRun :=
  let value := Text.slice text m.whole
  match rule.onMatch with
  | some handler =>
    let (tokens, stack) := handler value stack.current stack
    if String.join (tokens.map (·.value)) = value then (stack, run.addAllAlone tokens)
    else (stack, run.add state.defaultKind value rule.merge)
  | none =>
    match rule.token with
    | .literal kind => (stack, run.add kind value rule.merge)
    | .classify f => (stack, run.add (f (m.spans.map (Text.sliceOr text))) value rule.merge)
    | .groups kinds =>
      (stack, addGroups state.defaultKind text m.whole.stop m.whole.start run (kinds.zip m.spans.tail))

/-- The text in pieces of `n` characters, the last one perhaps shorter. -/
def chunks (n : Nat) (text : List Char) : List (List Char) :=
  if _h : n = 0 ∨ text = [] then (if text = [] then [] else [text])
  else text.take n :: chunks n (text.drop n)
termination_by text.length
decreasing_by
  have : 0 < text.length := List.length_pos_iff.2 (fun e => _h (.inr e))
  simp only [List.length_drop]
  omega

namespace Tokenizer

variable (t : Tokenizer)

/-- Gives up on the rest of the line: plain pieces of it, and the stack starts anew. -/
def overflow (text : Array Char) (s : Scan) : Scan :=
  if s.pos < text.size then
    let rest := (text.extract s.pos text.size).toList
    { s with
      pos := text.size
      stack := s.stack.reset
      run := s.run.addAllAlone ((chunks t.options.overflowChunk rest).map fun cs =>
        ⟨Token.overflowKind, String.ofList cs⟩) }
  else s

/-- What follows a match in `state`. -/
def afterMatch (text : Array Char) (state : CompiledState) (s : Scan) (m : UnionMatch) : Scan :=
  let run := s.run.add state.defaultKind (Text.slice text ⟨s.pos, m.whole.start⟩) true
  match state.rules[m.rule]? with
  | none => { s with pos := text.size, run }
  | some rule =>
    let (stack, run) := emit rule state text m s.stack run
    let stack := (rule.jump.map (·.apply stack)).getD stack
    if m.whole.start < m.whole.stop then { pos := m.whole.stop, stack, run, stalled := 0 }
    else if stack = s.stack ∨ t.states.entries.length < s.stalled + 1 then
      -- An empty match may change the state without taking anything, but not for ever.
      let next := min (m.whole.start + 1) text.size
      { pos := next, stack, stalled := 0,
        run := run.addAlone Token.emptyKind (Text.slice text ⟨m.whole.start, next⟩) }
    else { pos := m.whole.start, stack, run, stalled := s.stalled + 1 }

/-- Scans to the end of the line with a budget of matches. -/
def scan (text : Array Char) : Nat → Scan → Scan
  | 0, s => t.overflow text s
  | budget + 1, s =>
    if s.pos < text.size then
      let (state, stack) := t.currentState s.stack
      let s := { s with stack }
      match state.patterns.find? text s.pos with
      | none =>
        { s with
          pos := text.size
          run := s.run.add state.defaultKind (Text.slice text ⟨s.pos, text.size⟩) true }
      | some m => scan text budget (t.afterMatch text state s m)
    else s

/-- The tokens of one line, without its line end, from the stack that the line before has left. -/
def lineTokens (line : String) (stack : StateStack) : LineTokens :=
  let s := t.scan (Text.chars line) t.options.maxMatches { stack }
  ⟨s.run.tokens, s.stack⟩

/-- Several lines in a row, each from the stack of the one before. -/
def tokenizeFrom (stack : StateStack) : List String → List LineTokens
  | [] => []
  | line :: rest =>
    let tokens := t.lineTokens line stack
    tokens :: tokenizeFrom tokens.state rest

/-- The text up to a carriage return at its end. -/
def stripReturn (line : String) : String :=
  let cs := line.toList
  if Text.endsWith cs ['\r'] then String.ofList cs.dropLast else line

/-- The lines of a text, line ends not counted. -/
def tokenize (text : String) : List LineTokens :=
  t.tokenizeFrom .initial ((Text.splitLines text).map stripReturn)

end Tokenizer

end Scribe
