import Xv6.Sh.Grammar
import Xv6.Proc
/-!
# Redirections of a command (runcmd of sh.c)

`parseredirs` puts each redirection around the ones before it, and `runcmd`
opens the outermost first. So the leftmost is opened last, and wins. Every
`open` succeeds here, and takes the lowest descriptor that is free.
-/

namespace Xv6.Sh

/-! ## Descriptors -/

/-- What a descriptor refers to: what it did before the command, or a file of the command. -/
inductive Target (F : Type) where
  | was (f : F)
  | file (name : List (BitVec 8)) (mode : Nat)

abbrev Fds (F : Type) := Nat → Option (Target F)

namespace Fds

variable {F : Type}

def close (fds : Fds F) (fd : Nat) : Fds F := Function.update fds fd none

/-- `open`: the descriptor, unless none is free. -/
def openFile (fds : Fds F) (f : Target F) : Option (Nat × Fds F) :=
  ((List.range NOFILE).find? fun fd => (fds fd).isNone).map fun fd => (fd, Function.update fds fd (some f))

/-- The loop of `main` before the first command. -/
def openConsole (console : Target F) : Nat → Fds F → Fds F
  | 0, fds => fds
  | n + 1, fds =>
    match fds.openFile console with
    | none => fds
    | some (fd, fds) => if 3 ≤ fd then fds.close fd else openConsole console n fds

end Fds

/-- The case REDIR of `runcmd`, `n` times; `name` is the string that a pointer leads to. -/
def runRedirs {F : Type} (name : Span → List (BitVec 8)) : Nat → Cmd → Fds F → Option (Cmd × Fds F)
  | 0, cmd, fds => some (cmd, fds)
  | n + 1, .redir cmd file mode fd, fds =>
    ((fds.close fd).openFile (.file (name file) mode)).bind fun r => runRedirs name n cmd r.2
  | _ + 1, _, _ => none

/-! ## The lowest free descriptor -/

namespace Fds

variable {F : Type} {fds fds' : Fds F} {f : Target F} {fd : Nat}

theorem open_some (h : fds.openFile f = some (fd, fds')) :
    fds fd = none ∧ (∀ k < fd, (fds k).isSome) ∧ fds' = Function.update fds fd (some f) := by
  obtain ⟨k, hk, heq⟩ := Option.map_eq_some_iff.1 h
  obtain ⟨rfl, rfl⟩ := Prod.mk.inj heq
  rw [List.find?_range_eq_some] at hk
  exact ⟨Option.isNone_iff_eq_none.1 hk.1, fun j hj => by simpa using hk.2.2 j hj, rfl⟩

/-- A descriptor below which all are in use is the one that `open` returns, once closed. -/
theorem open_close (hfd : fd < NOFILE) (hlow : ∀ k < fd, (fds k).isSome) :
    (fds.close fd).openFile f = some (fd, Function.update fds fd (some f)) := by
  have hfind : (List.range NOFILE).find? (fun k => ((fds.close fd) k).isNone) = some fd := by
    rw [List.find?_range_eq_some]
    refine ⟨by simp [close], List.mem_range.2 hfd, fun j hj => ?_⟩
    rw [close, Function.update_of_ne (by omega)]
    simpa using hlow j hj
  rw [openFile, hfind, Option.map_some, close, Function.update_idem]

/-- Standard input and output are open. -/
def Ready (fds : Fds F) : Prop := (fds 0).isSome ∧ (fds 1).isSome

/-- `main` sees to it. -/
theorem openConsole_ready (console : Target F) (fds : Fds F) : (openConsole console 4 fds).Ready := by
  -- after `k` rounds the first `k` descriptors are in use
  have hround : ∀ n k (fds : Fds F), 4 ≤ k + n → (∀ j < k, (fds j).isSome) → (openConsole console n fds).Ready := by
    intro n
    induction n with
    | zero => exact fun k fds hk hlow => ⟨hlow 0 (by omega), hlow 1 (by omega)⟩
    | succ n ih =>
      intro k fds hk hlow
      unfold openConsole
      split
      · rename_i hnone
        have hall : ∀ j < NOFILE, (fds j).isSome := by
          intro j hj
          have hused := List.find?_eq_none.1 (Option.map_eq_none_iff.1 hnone) j (List.mem_range.2 hj)
          exact Option.isSome_iff_ne_none.2 (by simpa using hused)
        exact ⟨hall 0 (by decide), hall 1 (by decide)⟩
      · rename_i fd fds' hopen
        obtain ⟨hfree, hbelow, rfl⟩ := open_some hopen
        split
        · rename_i h3
          refine ⟨?_, ?_⟩
          · rw [close, Function.update_of_ne (by omega), Function.update_of_ne (by omega)]
            exact hbelow 0 (by omega)
          · rw [close, Function.update_of_ne (by omega), Function.update_of_ne (by omega)]
            exact hbelow 1 (by omega)
        · have hkfd : k ≤ fd := by
            by_contra hlt
            have := hlow fd (by omega)
            rw [hfree] at this
            cases this
          refine ih (fd + 1) _ (by omega) fun j hj => ?_
          by_cases hjfd : j = fd
          · rw [hjfd, Function.update_self]
            rfl
          · rw [Function.update_of_ne hjfd]
            exact hbelow j (by omega)
  exact hround 4 0 fds (by decide) fun j hj => absurd hj (Nat.not_lt_zero j)

end Fds

/-! ## The order of redirections -/

/-- A simple command or a block, with its redirections in the order of the line. -/
inductive Redirected : List Tok → Cmd → List Redirect → Prop
  | block {lpar rpar : Tok} {ts ts' : List Tok} {c : Cmd} {rs : List Redirect} : lpar.kind = .lpar → IsLine ts c →
      rpar.kind = .rpar → Redirs ts' rs → Redirected (lpar :: (ts ++ rpar :: ts')) c rs
  | simple {ts ts' : List Tok} {ws : List Span} {rs rs' : List Redirect} : Redirs ts rs → Args ts' ws rs' →
      ws.length ≤ 9 → Redirected (ts ++ ts') (.exec ws) (rs ++ rs')

theorem Redirected.isExec {ts : List Tok} {c : Cmd} {rs : List Redirect} (h : Redirected ts c rs) :
    IsExec ts (c.redirects rs) := by
  cases h with
  | block hl hline hr hrs => exact .block hl hline hr hrs
  | simple hrs hargs hle => exact .simple hrs hargs hle

/-- The redirections `<`, and the redirections `>` and `>>`. -/
def inputs (rs : List Redirect) : List Redirect := rs.filter (·.kind = .less)
def outputs (rs : List Redirect) : List Redirect := rs.filter (·.kind ≠ .less)

section

variable {F : Type} (name : Span → List (BitVec 8))

/-- What descriptors 0 and 1 refer to, if these redirections are the ones that count. -/
def Wins (fds : Fds F) (i o : Option Redirect) (fds' : Fds F) : Prop :=
  fds' 0 = i.elim (fds 0) (fun r => some (.file (name r.file) O_RDONLY)) ∧
    fds' 1 = o.elim (fds 1) fun r => some (.file (name r.file) (O_WRONLY ||| O_CREATE))

variable {fds fds' : Fds F} {c : Cmd}

/-- One redirection. -/
theorem runRedirs_one (r : Redirect) (n : Nat) (hready : fds.Ready) :
    ∃ fds₁, runRedirs name (n + 1) (c.redirect r) fds = runRedirs name n c fds₁ ∧ fds₁.Ready ∧
      Wins name fds (inputs [r]).head? (outputs [r]).head? fds₁ := by
  unfold Cmd.redirect
  by_cases hr : r.kind = .less
  · rw [if_pos hr, runRedirs, Fds.open_close (by decide) fun k hk => absurd hk (Nat.not_lt_zero k), Option.bind_some]
    refine ⟨_, rfl, ⟨by simp, by simpa using hready.2⟩, ?_⟩
    simp [Wins, inputs, outputs, hr]
  · have hlow : ∀ k < 1, (fds k).isSome := fun k hk => by rw [Nat.lt_one_iff.1 hk]; exact hready.1
    rw [if_neg hr, runRedirs, Fds.open_close (by decide) hlow, Option.bind_some]
    refine ⟨_, rfl, ⟨by simpa using hready.1, by simp⟩, ?_⟩
    simp [Wins, inputs, outputs, hr]

/-- The leftmost redirections win. -/
theorem runRedirs_leftmost (rs : List Redirect) (hready : fds.Ready) :
    ∃ fds', runRedirs name rs.length (c.redirects rs) fds = some (c, fds') ∧
      Wins name fds (inputs rs).head? (outputs rs).head? fds' := by
  -- the last redirection of the list is the first to be opened
  induction rs using List.reverseRecOn generalizing fds with
  | nil => exact ⟨fds, rfl, rfl, rfl⟩
  | append_singleton rs r ih =>
    obtain ⟨fds₁, hone, hready₁, hw₁⟩ := runRedirs_one (c := c.redirects rs) name r rs.length hready
    obtain ⟨fds₂, hrun, hw₂⟩ := ih hready₁
    refine ⟨fds₂, ?_, ?_, ?_⟩
    · rw [List.length_append, List.length_singleton, redirects_append]
      exact hone.trans hrun
    · rw [hw₂.1, hw₁.1, inputs, inputs, inputs, List.filter_append, List.head?_append]
      cases (List.filter _ rs).head? <;> rfl
    · rw [hw₂.2, hw₁.2, outputs, outputs, outputs, List.filter_append, List.head?_append]
      cases (List.filter _ rs).head? <;> rfl

end

/-- When the command is run, the rightmost redirections have won just if the leftmost ones
have the same files. -/
theorem rightmost_iff_same_files {l : Line} {ts rest : List Tok} {c : Cmd} {rs : List Redirect} {s n : Nat}
    (hcmd : Redirected ts c rs) (hat : At l s (ts ++ rest)) (hrest : Follow afterExec rest)
    (hn : 4 * (ts ++ rest).length + 2 ≤ n) :
    ∃ s' tree, parseexec l n s = .ok (tree, s') ∧
      ∀ (F : Type) (name : Span → List (BitVec 8)) (fds : Fds F), fds.Ready →
        ∃ fds', runRedirs name rs.length tree fds = some (c, fds') ∧
          (Wins name fds (inputs rs).getLast? (outputs rs).getLast? fds' ↔
            (inputs rs).head?.map (name ·.file) = (inputs rs).getLast?.map (name ·.file) ∧
              (outputs rs).head?.map (name ·.file) = (outputs rs).getLast?.map (name ·.file)) := by
  obtain ⟨s', hparse, -⟩ := exec_complete hcmd.isExec hat hrest hn
  refine ⟨s', _, hparse, fun F name fds hready => ?_⟩
  obtain ⟨fds', hrun, h0, h1⟩ := runRedirs_leftmost (c := c) name rs hready
  refine ⟨fds', hrun, ?_⟩
  -- the last redirection of a kind is there if the first is
  have hsame (old : Option (Target F)) (mode : Nat) (qs : List Redirect) :
      (qs.head?.elim old (fun r => some (.file (name r.file) mode)) =
        qs.getLast?.elim old fun r => some (.file (name r.file) mode)) ↔
      qs.head?.map (name ·.file) = qs.getLast?.map (name ·.file) := by
    cases qs with
    | nil => simp
    | cons q qs =>
      rw [List.getLast?_cons]
      simp
  unfold Wins
  rw [h0, h1, hsame, hsame]

/-- The name that a token of the line is. -/
def nameIn (bytes : List (BitVec 8)) (w : Span) : List (BitVec 8) := (bytes.drop w.start).take (w.stop - w.start)

/-- The lines `c>a` and `c>a>b`. -/
def once : Line := ⟨[chr 'c', chr '>', chr 'a'], by decide⟩
def twice : Line := ⟨[chr 'c', chr '>', chr 'a', chr '>', chr 'b'], by decide⟩

theorem once_rightmost : ∃ s' tree, parseexec once 30 0 = .ok (tree, s') ∧
    ∃ fds', runRedirs (nameIn once.bytes) 1 tree (fun _ => some (.was ())) = some (.exec [⟨0, 1⟩], fds') ∧
      Wins (nameIn once.bytes) (fun _ => some (.was ())) none (some ⟨.greater, ⟨2, 3⟩⟩) fds' := by
  have htoks : once.toks 0 = ([] ++ (⟨.word, 0, 1⟩ :: ([⟨.greater, 1, 2⟩, ⟨.word, 2, 3⟩] ++ []))) ++ [] := by
    simp [Line.toks, once, lex, isSpace, whitespace, isWord, symbols, symbol, Kind.ret, chr]
  have hcmd := Redirected.simple .nil (.cons (w := ⟨.word, 0, 1⟩) rfl
    (.cons (r := ⟨.greater, 1, 2⟩) (w := ⟨.word, 2, 3⟩) (by decide) rfl .nil) .nil) (by decide)
  obtain ⟨s', tree, hparse, hall⟩ := rightmost_iff_same_files hcmd ⟨Nat.zero_le _, htoks⟩ (.inl rfl) (n := 30) (by decide)
  obtain ⟨fds', hrun, hwins⟩ := hall Unit (nameIn once.bytes) (fun _ => some (.was ())) ⟨rfl, rfl⟩
  exact ⟨s', tree, hparse, fds', hrun, hwins.2 ⟨rfl, rfl⟩⟩

/-- The output of `c>a>b` goes to `a`. -/
theorem twice_leftmost :
    ∃ s', parseexec twice 30 0 = .ok (.redir (.redir (.exec [⟨0, 1⟩]) ⟨2, 3⟩ 0x201 1) ⟨4, 5⟩ 0x201 1, s') ∧
      ∃ fds', runRedirs (nameIn twice.bytes) 2 (.redir (.redir (.exec [⟨0, 1⟩]) ⟨2, 3⟩ 0x201 1) ⟨4, 5⟩ 0x201 1)
          (fun _ => some (.was ())) = some (.exec [⟨0, 1⟩], fds') ∧
        fds' 1 = some (.file [chr 'a'] 0x201) ∧ nameIn twice.bytes ⟨4, 5⟩ = [chr 'b'] := by
  have htoks : twice.toks 0 = ([] ++ (⟨.word, 0, 1⟩ ::
      ([⟨.greater, 1, 2⟩, ⟨.word, 2, 3⟩, ⟨.greater, 3, 4⟩, ⟨.word, 4, 5⟩] ++ []))) ++ [] := by
    simp [Line.toks, twice, lex, isSpace, whitespace, isWord, symbols, symbol, Kind.ret, chr]
  have hcmd := Redirected.simple .nil (.cons (w := ⟨.word, 0, 1⟩) rfl
    (.cons (r := ⟨.greater, 1, 2⟩) (w := ⟨.word, 2, 3⟩) (by decide) rfl
      (.cons (r := ⟨.greater, 3, 4⟩) (w := ⟨.word, 4, 5⟩) (by decide) rfl .nil)) .nil) (by decide)
  obtain ⟨s', hparse, -⟩ := exec_complete hcmd.isExec ⟨Nat.zero_le _, htoks⟩ (.inl rfl) (n := 30) (by decide)
  refine ⟨s', hparse, _, rfl, ?_, ?_⟩ <;> rfl

end Xv6.Sh
