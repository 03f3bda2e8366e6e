import Mathlib.Logic.Function.Basic
/-!
# The parser of the shell (sh.c)

The line is a NUL-terminated buffer, and pointers into it are positions. The
parser passes its moving pointer `*ps` along; `panic` is an error. The loops
and the recursion take fuel, and running out of it is an error of its own.
-/

namespace Xv6.Sh

/-! ## The line -/

/-- The bytes before the NUL. -/
structure Line where
  bytes : List (BitVec 8)
  nonzero : ∀ b ∈ bytes, b ≠ 0

def chr (c : Char) : BitVec 8 := BitVec.ofNat 8 c.toNat

def whitespace : List (BitVec 8) := [chr ' ', chr '\t', chr '\r', chr '\n', 11]
def symbols : List (BitVec 8) := [chr '<', chr '|', chr '>', chr '&', chr ';', chr '(', chr ')']

def isSpace (b : BitVec 8) : Bool := whitespace.contains b
def isWord (b : BitVec 8) : Bool := !whitespace.contains b && !symbols.contains b

namespace Line

/-- `*s`: the NUL at the end. -/
def byte (l : Line) (s : Nat) : BitVec 8 := l.bytes.getD s 0

def es (l : Line) : Nat := l.bytes.length

/-- `while(s < es && p(*s)) s++`. -/
def scan (l : Line) (p : BitVec 8 → Bool) (s : Nat) : Nat := s + ((l.bytes.drop s).takeWhile p).length

end Line

/-! ## Tokens -/

/-- What `gettoken` returns, with `q` and `eq`. -/
structure Token where
  ret : BitVec 8
  q : Nat
  eq : Nat

/-- The `switch` of `gettoken`: the value and the end of the token. -/
def tokenAt (l : Line) (s : Nat) : BitVec 8 × Nat :=
  let c := l.byte s
  if c = 0 then (0, s)
  else if [chr '|', chr '(', chr ')', chr ';', chr '&', chr '<'].contains c then (c, s + 1)
  else if c = chr '>' then
    if l.byte (s + 1) = chr '>' then (chr '+', s + 2) else (c, s + 1)
  else (chr 'a', l.scan isWord s)

def gettoken (l : Line) (ps : Nat) : Token × Nat :=
  let q := l.scan isSpace ps
  let (ret, eq) := tokenAt l q
  (⟨ret, q, eq⟩, l.scan isSpace eq)

def peek (l : Line) (ps : Nat) (toks : List (BitVec 8)) : Bool × Nat :=
  let s := l.scan isSpace ps
  (l.byte s ≠ 0 && toks.contains (l.byte s), s)

/-! ## Commands -/

def MAXARGS : Nat := 10

def O_RDONLY : Nat := 0
def O_WRONLY : Nat := 1
def O_CREATE : Nat := 0x200

/-- A string in the line, from `argv[i]` or `file` to `eargv[i]` or `efile`. -/
structure Span where
  start : Nat
  stop : Nat
  deriving DecidableEq

inductive Cmd where
  | exec (argv : List Span)
  | redir (cmd : Cmd) (file : Span) (mode : Nat) (fd : Nat)
  | pipe (left right : Cmd)
  | list (left right : Cmd)
  | back (cmd : Cmd)

inductive ShPanic where
  | missingFile       -- "missing file for redirection"
  | parseblock        -- "parseblock"
  | missingParen      -- "syntax - missing )"
  | syntaxError       -- "syntax"
  | tooManyArgs       -- "too many args"
  | fuel
  deriving DecidableEq

/-- `cmd->argv[argc] = q; cmd->eargv[argc] = eq`, for the `execcmd` under the redirections. -/
def Cmd.addArg (w : Span) : Cmd → Cmd
  | .exec argv => .exec (argv ++ [w])
  | .redir cmd file mode fd => .redir (cmd.addArg w) file mode fd
  | cmd => cmd

def parseredirs (l : Line) : Nat → Cmd → Nat → Except ShPanic (Cmd × Nat)
  | 0, _, _ => .error .fuel
  | n + 1, cmd, ps =>
    match peek l ps [chr '<', chr '>'] with
    | (false, ps) => .ok (cmd, ps)
    | (true, ps) =>
      let (tok, ps) := gettoken l ps
      let (file, ps) := gettoken l ps
      if file.ret ≠ chr 'a' then .error .missingFile
      else if tok.ret = chr '<' then parseredirs l n (.redir cmd ⟨file.q, file.eq⟩ O_RDONLY 0) ps
      else if tok.ret = chr '>' then parseredirs l n (.redir cmd ⟨file.q, file.eq⟩ (O_WRONLY ||| O_CREATE) 1) ps
      else if tok.ret = chr '+' then parseredirs l n (.redir cmd ⟨file.q, file.eq⟩ (O_WRONLY ||| O_CREATE) 1) ps
      else parseredirs l n cmd ps

/-- The loop of `parseexec` over the words. -/
def parseargs (l : Line) : Nat → Cmd → Nat → Nat → Except ShPanic (Cmd × Nat)
  | 0, _, _, _ => .error .fuel
  | n + 1, ret, argc, ps =>
    match peek l ps [chr '|', chr ')', chr '&', chr ';'] with
    | (true, ps) => .ok (ret, ps)
    | (false, ps) =>
      let (tok, ps) := gettoken l ps
      if tok.ret = 0 then .ok (ret, ps)
      else if tok.ret ≠ chr 'a' then .error .syntaxError
      else if MAXARGS ≤ argc + 1 then .error .tooManyArgs
      else do
        let (ret, ps) ← parseredirs l n (ret.addArg ⟨tok.q, tok.eq⟩) ps
        parseargs l n ret (argc + 1) ps

/-- The loop of `parseline` over the `&`. -/
def parseback (l : Line) : Nat → Cmd → Nat → Except ShPanic (Cmd × Nat)
  | 0, _, _ => .error .fuel
  | n + 1, cmd, ps =>
    match peek l ps [chr '&'] with
    | (false, ps) => .ok (cmd, ps)
    | (true, ps) => parseback l n (.back cmd) (gettoken l ps).2

mutual

def parseline (l : Line) : Nat → Nat → Except ShPanic (Cmd × Nat)
  | 0, _ => .error .fuel
  | n + 1, ps => do
    let (cmd, ps) ← parsepipe l n ps
    let (cmd, ps) ← parseback l n cmd ps
    match peek l ps [chr ';'] with
    | (false, ps) => .ok (cmd, ps)
    | (true, ps) => do
      let (right, ps) ← parseline l n (gettoken l ps).2
      .ok (.list cmd right, ps)

def parsepipe (l : Line) : Nat → Nat → Except ShPanic (Cmd × Nat)
  | 0, _ => .error .fuel
  | n + 1, ps => do
    let (cmd, ps) ← parseexec l n ps
    match peek l ps [chr '|'] with
    | (false, ps) => .ok (cmd, ps)
    | (true, ps) => do
      let (right, ps) ← parsepipe l n (gettoken l ps).2
      .ok (.pipe cmd right, ps)

def parseexec (l : Line) : Nat → Nat → Except ShPanic (Cmd × Nat)
  | 0, _ => .error .fuel
  | n + 1, ps =>
    match peek l ps [chr '('] with
    | (true, ps) => parseblock l n ps
    | (false, ps) => do
      let (ret, ps) ← parseredirs l n (.exec []) ps
      parseargs l n ret 0 ps

def parseblock (l : Line) : Nat → Nat → Except ShPanic (Cmd × Nat)
  | 0, _ => .error .fuel
  | n + 1, ps =>
    match peek l ps [chr '('] with
    | (false, _) => .error .parseblock
    | (true, ps) => do
      let (cmd, ps) ← parseline l n (gettoken l ps).2
      match peek l ps [chr ')'] with
      | (false, _) => .error .missingParen
      | (true, ps) => parseredirs l n cmd (gettoken l ps).2

end

/-! ## Termination of the strings -/

abbrev Buffer := Nat → BitVec 8

/-- The line in memory. -/
def Line.buffer (l : Line) : Buffer := fun i => l.byte i

/-- `*e = 0`. -/
def Buffer.cut (b : Buffer) (w : Span) : Buffer := Function.update b w.stop 0

def nulterminate : Cmd → Buffer → Buffer
  | .exec argv, b => argv.foldl Buffer.cut b
  | .redir cmd file _ _, b => (nulterminate cmd b).cut file
  | .pipe left right, b => nulterminate right (nulterminate left b)
  | .list left right, b => nulterminate right (nulterminate left b)
  | .back cmd, b => nulterminate cmd b

/-- `parsecmd`: the command, and the line as it is left. -/
def parsecmd (l : Line) (n : Nat) : Except ShPanic (Cmd × Buffer) := do
  let (cmd, ps) ← parseline l n 0
  if (peek l ps []).2 ≠ l.es then .error .syntaxError
  else .ok (cmd, nulterminate cmd l.buffer)

end Xv6.Sh
