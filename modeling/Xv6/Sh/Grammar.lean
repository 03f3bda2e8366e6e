import Xv6.Lib.Outcome
import Xv6.Sh.Tokens
/-!
# The grammar of the shell

    line  ::= pipe '&'* [';' line]
    pipe  ::= exec ['|' pipe]
    exec  ::= '(' line ')' redir* | redir* (word redir*)*      with at most 9 words
    redir ::= ('<' | '>' | '>>') word

Each derivation has its command. The parser gives the command of a derivation
of the tokens that it takes, and it fails only where there is none.
-/

namespace Xv6.Sh

open Outcome

structure Redirect where
  kind : Kind
  file : Span

def Cmd.redirect (c : Cmd) (r : Redirect) : Cmd :=
  if r.kind = .less then .redir c r.file O_RDONLY 0 else .redir c r.file (O_WRONLY ||| O_CREATE) 1

/-- The first redirection is the innermost. -/
def Cmd.redirects (c : Cmd) (rs : List Redirect) : Cmd := rs.foldl Cmd.redirect c

/-- One `back` for each `&`. -/
def Cmd.backs (c : Cmd) (ts : List Tok) : Cmd := ts.foldl (fun c _ => .back c) c

/-- `redir*` -/
inductive Redirs : List Tok → List Redirect → Prop
  | nil : Redirs [] []
  | cons {r w : Tok} {ts : List Tok} {rs : List Redirect} : r.kind ∈ [Kind.less, .greater, .append] → w.kind = .word →
      Redirs ts rs → Redirs (r :: w :: ts) (⟨r.kind, w.span⟩ :: rs)

/-- `(word redir*)*` -/
inductive Args : List Tok → List Span → List Redirect → Prop
  | nil : Args [] [] []
  | cons {w : Tok} {ts ts' : List Tok} {ws : List Span} {rs rs' : List Redirect} : w.kind = .word →
      Redirs ts rs → Args ts' ws rs' → Args (w :: (ts ++ ts')) (w.span :: ws) (rs ++ rs')

mutual

inductive IsLine : List Tok → Cmd → Prop
  | one {ts as : List Tok} {c : Cmd} : IsPipe ts c → (∀ a ∈ as, a.kind = .amp) → IsLine (ts ++ as) (c.backs as)
  | more {ts as ts' : List Tok} {semi : Tok} {c c' : Cmd} : IsPipe ts c → (∀ a ∈ as, a.kind = .amp) →
      semi.kind = .semi → IsLine ts' c' → IsLine (ts ++ (as ++ semi :: ts')) (.list (c.backs as) c')

inductive IsPipe : List Tok → Cmd → Prop
  | one {ts : List Tok} {c : Cmd} : IsExec ts c → IsPipe ts c
  | more {ts ts' : List Tok} {bar : Tok} {c c' : Cmd} : IsExec ts c → bar.kind = .bar → IsPipe ts' c' →
      IsPipe (ts ++ bar :: ts') (.pipe c c')

inductive IsExec : List Tok → Cmd → Prop
  | block {lpar rpar : Tok} {ts ts' : List Tok} {c : Cmd} {rs : List Redirect} : lpar.kind = .lpar → IsLine ts c →
      rpar.kind = .rpar → Redirs ts' rs → IsExec (lpar :: (ts ++ rpar :: ts')) (c.redirects rs)
  | simple {ts ts' : List Tok} {ws : List Span} {rs rs' : List Redirect} : Redirs ts rs → Args ts' ws rs' →
      ws.length ≤ 9 → IsExec (ts ++ ts') ((Cmd.exec ws).redirects (rs ++ rs'))

end

/-! ## What is looked at -/

variable {l : Line} {s n : Nat} {t : Tok} {ts rest : List Tok} {c : Cmd}

theorem At.peeks_redir (h : At l s ts) :
    ∃ s', peek l s [chr '<', chr '>'] = (decide (HeadIn [.less, .greater, .append] ts), s') ∧ At l s' ts :=
  h.peeks (by decide) fun k => by cases k <;> rfl

theorem At.peeks_stop (h : At l s ts) :
    ∃ s', peek l s [chr '|', chr ')', chr '&', chr ';'] = (decide (HeadIn [.bar, .rpar, .amp, .semi] ts), s') ∧ At l s' ts :=
  h.peeks (by decide) fun k => by cases k <;> rfl

/-- The symbols that `peek` looks for alone. -/
theorem At.peeks_one (h : At l s ts) {k : Kind} (hk : k ∈ [Kind.amp, .semi, .bar, .lpar, .rpar]) :
    ∃ s', peek l s [k.ret] = (decide (HeadIn [k] ts), s') ∧ At l s' ts := by
  have hall : ∀ k ∈ [Kind.amp, .semi, .bar, .lpar, .rpar], symbols.contains k.ret := by decide
  refine h.peeks (by simpa using hall k hk) fun k' => ?_
  simp only [List.mem_cons, List.not_mem_nil, or_false] at hk
  obtain rfl | rfl | rfl | rfl | rfl := hk <;> cases k' <;> rfl

/-! ## Commands are built as the grammar says -/

theorem redirects_cons (c : Cmd) (r : Redirect) (rs : List Redirect) :
    c.redirects (r :: rs) = (c.redirect r).redirects rs := rfl

theorem redirects_append (c : Cmd) (rs rs' : List Redirect) : c.redirects (rs ++ rs') = (c.redirects rs).redirects rs' :=
  List.foldl_append

/-- An argument goes below the redirections. -/
theorem addArg_redirects (w : Span) (c : Cmd) (rs : List Redirect) :
    (c.redirects rs).addArg w = (c.addArg w).redirects rs := by
  induction rs generalizing c with
  | nil => rfl
  | cons r rs ih =>
    have hone : (c.redirect r).addArg w = (c.addArg w).redirect r := by
      unfold Cmd.redirect
      split <;> rfl
    rw [redirects_cons, ih, hone, ← redirects_cons]

/-! ## One round of each loop -/

theorem HeadIn.elim {ks : List Kind} (h : HeadIn ks ts) : ∃ t ts', ts = t :: ts' ∧ t.kind ∈ ks := by
  cases ts with
  | nil => exact h.elim
  | cons t ts => exact ⟨t, ts, rfl, h⟩

theorem ret_word {k : Kind} : k.ret = chr 'a' ↔ k = .word := by
  cases k <;> decide

theorem ret_ne_zero (k : Kind) : k.ret ≠ 0 := by
  cases k <;> decide

/-- The token that `gettoken` returns is a word. -/
theorem At.word (h : At l s ts) : (gettoken l s).1.ret = chr 'a' ↔ HeadIn [.word] ts := by
  cases ts with
  | nil =>
    rw [h.gettoken_nil.1]
    exact ⟨fun hne => absurd hne (by decide), False.elim⟩
  | cons t ts =>
    rw [h.gettoken_cons.1, ret_word, HeadIn, List.mem_singleton]

theorem parseredirs_step (h : At l s ts) :
    (¬ HeadIn [.less, .greater, .append] ts ∧ ∃ s', At l s' ts ∧ ∀ n c, parseredirs l (n + 1) c s = .ok (c, s')) ∨
    (∃ r w ts', ts = r :: w :: ts' ∧ r.kind ∈ [Kind.less, .greater, .append] ∧ w.kind = .word ∧ ∃ s', At l s' ts' ∧
      ∀ n c, parseredirs l (n + 1) c s = parseredirs l n (c.redirect ⟨r.kind, w.span⟩) s') ∨
    (∃ r ts', ts = r :: ts' ∧ r.kind ∈ [Kind.less, .greater, .append] ∧ ¬ HeadIn [.word] ts' ∧
      ∀ n c, parseredirs l (n + 1) c s = .error .missingFile) := by
  obtain ⟨s₁, hpeek, h₁⟩ := h.peeks_redir
  by_cases hhead : HeadIn [.less, .greater, .append] ts
  · right
    rw [decide_eq_true hhead] at hpeek
    obtain ⟨r, ts, rfl, hr⟩ := hhead.elim
    obtain ⟨htok, h₂⟩ := h₁.gettoken_cons
    by_cases hword : HeadIn [.word] ts
    · left
      obtain ⟨w, ts, rfl, hw⟩ := hword.elim
      rw [List.mem_singleton] at hw
      obtain ⟨hfile, h₃⟩ := h₂.gettoken_cons
      refine ⟨r, w, ts, rfl, hr, hw, _, h₃, fun n c => ?_⟩
      rw [parseredirs, hpeek]
      dsimp only
      rw [hfile, htok, if_neg (not_not.2 (ret_word.2 hw))]
      simp only [List.mem_cons, List.not_mem_nil, or_false] at hr
      obtain hr | hr | hr := hr <;> rw [hr] <;> rfl
    · right
      refine ⟨r, ts, rfl, hr, hword, fun n c => ?_⟩
      rw [parseredirs, hpeek]
      dsimp only
      rw [if_pos (h₂.word.not.2 hword)]
  · left
    rw [decide_eq_false hhead] at hpeek
    refine ⟨hhead, s₁, h₁, fun n c => ?_⟩
    rw [parseredirs, hpeek]

theorem parseargs_step (h : At l s ts) :
    ((ts = [] ∨ HeadIn [.bar, .rpar, .amp, .semi] ts) ∧ ∃ s', At l s' ts ∧ ∀ n c argc, parseargs l (n + 1) c argc s = .ok (c, s')) ∨
    (∃ w ts', ts = w :: ts' ∧ w.kind = .word ∧ ∃ s', At l s' ts' ∧ ∀ n c argc, parseargs l (n + 1) c argc s =
      if MAXARGS ≤ argc + 1 then .error .tooManyArgs
      else (do
        let (ret, ps) ← parseredirs l n (c.addArg w.span) s'
        parseargs l n ret (argc + 1) ps)) ∨
    (HeadIn [.less, .greater, .append, .lpar] ts ∧ ∀ n c argc, parseargs l (n + 1) c argc s = .error .syntaxError) := by
  obtain ⟨s₁, hpeek, h₁⟩ := h.peeks_stop
  by_cases hhead : HeadIn [.bar, .rpar, .amp, .semi] ts
  · left
    rw [decide_eq_true hhead] at hpeek
    refine ⟨.inr hhead, s₁, h₁, fun n c argc => ?_⟩
    rw [parseargs, hpeek]
  · rw [decide_eq_false hhead] at hpeek
    cases ts with
    | nil =>
      left
      obtain ⟨htok, h₂⟩ := h₁.gettoken_nil
      refine ⟨.inl rfl, _, h₂, fun n c argc => ?_⟩
      rw [parseargs, hpeek]
      dsimp only
      rw [if_pos htok]
    | cons w ts =>
      right
      obtain ⟨htok, h₂⟩ := h₁.gettoken_cons
      by_cases hw : w.kind = .word
      · refine .inl ⟨w, ts, rfl, hw, _, h₂, fun n c argc => ?_⟩
        rw [parseargs, hpeek]
        dsimp only
        rw [htok, if_neg (ret_ne_zero _), if_neg (not_not.2 (ret_word.2 hw))]
      · refine .inr ⟨?_, fun n c argc => ?_⟩
        · rw [HeadIn] at hhead ⊢
          revert hw hhead
          cases w.kind <;> decide
        · rw [parseargs, hpeek]
          dsimp only
          rw [htok, if_neg (ret_ne_zero _), if_pos (ret_word.not.2 hw)]

theorem parseback_step (h : At l s ts) :
    (¬ HeadIn [.amp] ts ∧ ∃ s', At l s' ts ∧ ∀ n c, parseback l (n + 1) c s = .ok (c, s')) ∨
    (∃ a ts', ts = a :: ts' ∧ a.kind = .amp ∧ ∃ s', At l s' ts' ∧
      ∀ n c, parseback l (n + 1) c s = parseback l n (.back c) s') := by
  obtain ⟨s₁, (hpeek : peek l s [chr '&'] = _), h₁⟩ := h.peeks_one (k := .amp) (by decide)
  by_cases hhead : HeadIn [.amp] ts
  · right
    rw [decide_eq_true hhead] at hpeek
    obtain ⟨a, ts, rfl, ha⟩ := hhead.elim
    refine ⟨a, ts, rfl, List.mem_singleton.1 ha, _, h₁.gettoken_cons.2, fun n c => ?_⟩
    rw [parseback, hpeek]
  · left
    rw [decide_eq_false hhead] at hpeek
    refine ⟨hhead, s₁, h₁, fun n c => ?_⟩
    rw [parseback, hpeek]

/-! ## What is taken is derivable, and fuel for each token is enough -/

theorem parseredirs_ends (h : At l s ts) (hn : ts.length < n) :
    Ends (· ≠ .fuel) (parseredirs l n c s) fun r =>
      ∃ ts₁ rs ts₂, ts = ts₁ ++ ts₂ ∧ Redirs ts₁ rs ∧ r.1 = c.redirects rs ∧ At l r.2 ts₂ := by
  induction n generalizing s ts c with
  | zero => exact absurd hn (Nat.not_lt_zero _)
  | succ n ih =>
    obtain ⟨-, s₁, h₁, heq⟩ | ⟨r, w, ts, rfl, hr, hw, s₁, h₁, heq⟩ | ⟨r, ts, rfl, hr, hw, heq⟩ := parseredirs_step h
    · rw [heq]
      exact ⟨[], [], ts, rfl, .nil, rfl, h₁⟩
    · rw [heq]
      refine (ih h₁ (by simp only [List.length_cons] at hn; omega)).mono fun r' hr' => ?_
      obtain ⟨ts₁, rs, ts₂, rfl, hrs, hc, h₂⟩ := hr'
      exact ⟨r :: w :: ts₁, _, ts₂, rfl, .cons hr hw hrs, hc, h₂⟩
    · rw [heq]
      exact nofun

theorem parseargs_ends (ws : List Span) {rs : List Redirect} (h : At l s ts) (hn : ts.length < n) (hws : ws.length ≤ 9) :
    Ends (· ≠ .fuel) (parseargs l n ((Cmd.exec ws).redirects rs) ws.length s) fun r =>
      ∃ ts₁ ws' rs' ts₂, ts = ts₁ ++ ts₂ ∧ Args ts₁ ws' rs' ∧ (ws ++ ws').length ≤ 9 ∧
        r.1 = (Cmd.exec (ws ++ ws')).redirects (rs ++ rs') ∧ At l r.2 ts₂ := by
  induction n generalizing s ts ws rs with
  | zero => exact absurd hn (Nat.not_lt_zero _)
  | succ n ih =>
    obtain ⟨-, s₁, h₁, heq⟩ | ⟨w, ts, rfl, hw, s₁, h₁, heq⟩ | ⟨-, heq⟩ := parseargs_step h
    · rw [heq]
      exact ⟨[], [], [], ts, rfl, .nil, by rwa [List.append_nil], by rw [List.append_nil, List.append_nil], h₁⟩
    · rw [heq]
      rw [List.length_cons] at hn
      split
      · exact nofun
      · rename_i hmax
        have hlen : (ws ++ [w.span]).length = ws.length + 1 := List.length_append
        rw [addArg_redirects, Cmd.addArg]
        refine (parseredirs_ends h₁ (by omega)).bind fun ⟨c, s₂⟩ hr => ?_
        obtain ⟨ts₁, rs₁, ts₂, rfl, hrs₁, hc, h₂⟩ := hr
        obtain rfl : c = _ := hc
        rw [List.length_append] at hn
        dsimp only
        rw [← redirects_append, ← hlen]
        refine (ih _ h₂ (by omega) (by unfold MAXARGS at hmax; omega)).mono fun r hr => ?_
        obtain ⟨ts₃, ws', rs', ts₄, rfl, hargs, hle, hc, h₃⟩ := hr
        rw [List.append_assoc] at hle hc
        rw [List.append_assoc] at hc
        exact ⟨w :: (ts₁ ++ ts₃), w.span :: ws', rs₁ ++ rs', ts₄, by simp, .cons hw hrs₁ hargs, hle, hc, h₃⟩
    · rw [heq]
      exact nofun

theorem parseback_ends (h : At l s ts) (hn : ts.length < n) :
    Ends (· ≠ .fuel) (parseback l n c s) fun r =>
      ∃ as ts₂, ts = as ++ ts₂ ∧ (∀ a ∈ as, a.kind = .amp) ∧ r.1 = c.backs as ∧ At l r.2 ts₂ := by
  induction n generalizing s ts c with
  | zero => exact absurd hn (Nat.not_lt_zero _)
  | succ n ih =>
    obtain ⟨-, s₁, h₁, heq⟩ | ⟨a, ts, rfl, ha, s₁, h₁, heq⟩ := parseback_step h
    · rw [heq]
      exact ⟨[], ts, rfl, nofun, rfl, h₁⟩
    · rw [heq]
      refine (ih h₁ (by simp only [List.length_cons] at hn; omega)).mono fun r hr => ?_
      obtain ⟨as, ts₂, rfl, has, hc, h₂⟩ := hr
      refine ⟨a :: as, ts₂, rfl, fun b hb => ?_, hc, h₂⟩
      obtain rfl | hb := List.mem_cons.1 hb
      · exact ha
      · exact has b hb

/-- The tokens up to the position reached are derivable, as this command. -/
def Taken (l : Line) (D : List Tok → Cmd → Prop) (ts : List Tok) (r : Cmd × Nat) : Prop :=
  ∃ ts₁ ts₂, ts = ts₁ ++ ts₂ ∧ D ts₁ r.1 ∧ At l r.2 ts₂

theorem parse_ends (n : Nat) :
    (∀ s ts, At l s ts → 4 * ts.length + 4 ≤ n → Ends (· ≠ .fuel) (parseline l n s) (Taken l IsLine ts)) ∧
    (∀ s ts, At l s ts → 4 * ts.length + 3 ≤ n → Ends (· ≠ .fuel) (parsepipe l n s) (Taken l IsPipe ts)) ∧
    (∀ s ts, At l s ts → 4 * ts.length + 2 ≤ n → Ends (· ≠ .fuel) (parseexec l n s) (Taken l IsExec ts)) ∧
    (∀ s ts, At l s ts → 4 * ts.length + 1 ≤ n → Ends (· ≠ .fuel) (parseblock l n s) (Taken l IsExec ts)) := by
  induction n with
  | zero => exact ⟨fun _ _ _ h => absurd h (by omega), fun _ _ _ h => absurd h (by omega), fun _ _ _ h => absurd h (by omega),
      fun _ _ _ h => absurd h (by omega)⟩
  | succ n ih =>
    obtain ⟨ihline, ihpipe, ihexec, ihblock⟩ := ih
    refine ⟨fun s ts h hn => ?_, fun s ts h hn => ?_, fun s ts h hn => ?_, fun s ts h hn => ?_⟩
    · unfold parseline
      refine (ihpipe s ts h (by omega)).bind fun ⟨c, s₁⟩ hr => ?_
      obtain ⟨ts₁, ts₂, rfl, hpipe, h₁⟩ := hr
      rw [List.length_append] at hn
      refine (parseback_ends h₁ (by omega)).bind fun ⟨c', s₂⟩ hr => ?_
      obtain ⟨as, ts₃, rfl, has, hc, h₂⟩ := hr
      obtain rfl : c' = _ := hc
      obtain ⟨s₃, (hpeek : peek l s₂ [chr ';'] = _), h₃⟩ := h₂.peeks_one (k := .semi) (by decide)
      dsimp only
      rw [hpeek]
      by_cases hhead : HeadIn [.semi] ts₃
      · rw [decide_eq_true hhead]
        obtain ⟨semi, ts₃, rfl, hsemi⟩ := hhead.elim
        simp only [List.length_append, List.length_cons] at hn
        refine (ihline _ ts₃ h₃.gettoken_cons.2 (by omega)).bind fun ⟨c'', s₄⟩ hr => ?_
        obtain ⟨ts₄, ts₅, rfl, hline, h₄⟩ := hr
        exact ⟨ts₁ ++ (as ++ semi :: ts₄), ts₅, by simp, .more hpipe has (List.mem_singleton.1 hsemi) hline, h₄⟩
      · rw [decide_eq_false hhead]
        exact ⟨ts₁ ++ as, ts₃, by simp, .one hpipe has, h₃⟩
    · unfold parsepipe
      refine (ihexec s ts h (by omega)).bind fun ⟨c, s₁⟩ hr => ?_
      obtain ⟨ts₁, ts₂, rfl, hexec, h₁⟩ := hr
      obtain ⟨s₂, (hpeek : peek l s₁ [chr '|'] = _), h₂⟩ := h₁.peeks_one (k := .bar) (by decide)
      dsimp only
      rw [hpeek]
      by_cases hhead : HeadIn [.bar] ts₂
      · rw [decide_eq_true hhead]
        obtain ⟨bar, ts₂, rfl, hbar⟩ := hhead.elim
        simp only [List.length_append, List.length_cons] at hn
        refine (ihpipe _ ts₂ h₂.gettoken_cons.2 (by omega)).bind fun ⟨c', s₃⟩ hr => ?_
        obtain ⟨ts₃, ts₄, rfl, hpipe, h₃⟩ := hr
        exact ⟨ts₁ ++ bar :: ts₃, ts₄, by simp, .more hexec (List.mem_singleton.1 hbar) hpipe, h₃⟩
      · rw [decide_eq_false hhead]
        exact ⟨ts₁, ts₂, rfl, .one hexec, h₂⟩
    · obtain ⟨s₁, (hpeek : peek l s [chr '('] = _), h₁⟩ := h.peeks_one (k := .lpar) (by decide)
      unfold parseexec
      rw [hpeek]
      by_cases hhead : HeadIn [.lpar] ts
      · rw [decide_eq_true hhead]
        exact ihblock _ ts h₁ (by omega)
      · rw [decide_eq_false hhead]
        refine (parseredirs_ends h₁ (by omega)).bind fun ⟨c, s₂⟩ hr => ?_
        obtain ⟨ts₁, rs, ts₂, rfl, hrs, hc, h₂⟩ := hr
        obtain rfl : c = _ := hc
        rw [List.length_append] at hn
        refine (parseargs_ends [] h₂ (by omega) (Nat.zero_le _)).mono fun r hr => ?_
        obtain ⟨ts₃, ws, rs', ts₄, rfl, hargs, hle, hc, h₃⟩ := hr
        refine ⟨ts₁ ++ ts₃, ts₄, by simp, ?_, h₃⟩
        rw [hc]
        exact .simple hrs hargs hle
    · obtain ⟨s₁, (hpeek : peek l s [chr '('] = _), h₁⟩ := h.peeks_one (k := .lpar) (by decide)
      unfold parseblock
      rw [hpeek]
      by_cases hhead : HeadIn [.lpar] ts
      · rw [decide_eq_true hhead]
        obtain ⟨lpar, ts, rfl, hlpar⟩ := hhead.elim
        rw [List.length_cons] at hn
        refine (ihline _ ts h₁.gettoken_cons.2 (by omega)).bind fun ⟨c, s₂⟩ hr => ?_
        obtain ⟨ts₁, ts₂, rfl, hline, h₂⟩ := hr
        obtain ⟨s₃, (hpeek₂ : peek l s₂ [chr ')'] = _), h₃⟩ := h₂.peeks_one (k := .rpar) (by decide)
        dsimp only
        rw [hpeek₂]
        by_cases hhead₂ : HeadIn [.rpar] ts₂
        · rw [decide_eq_true hhead₂]
          obtain ⟨rpar, ts₂, rfl, hrpar⟩ := hhead₂.elim
          simp only [List.length_append, List.length_cons] at hn
          refine (parseredirs_ends h₃.gettoken_cons.2 (by omega)).mono fun r hr => ?_
          obtain ⟨ts₃, rs, ts₄, rfl, hrs, hc, h₄⟩ := hr
          refine ⟨lpar :: (ts₁ ++ rpar :: ts₃), ts₄, by simp, ?_, h₄⟩
          rw [hc]
          exact .block (List.mem_singleton.1 hlpar) hline (List.mem_singleton.1 hrpar) hrs
        · rw [decide_eq_false hhead₂]
          exact nofun
      · rw [decide_eq_false hhead]
        exact nofun

/-! ## What is derivable is taken -/

/-- Behind a line, a pipe and a command. -/
def afterLine : List Kind := [.rpar]
def afterPipe : List Kind := [.rpar, .amp, .semi]
def afterExec : List Kind := [.bar, .rpar, .amp, .semi]

/-- Nothing follows, or a token of these kinds. -/
def Follow (ks : List Kind) (ts : List Tok) : Prop := ts = [] ∨ HeadIn ks ts

theorem Follow.mono {ks ks' : List Kind} (h : Follow ks ts) (hks : ks ⊆ ks') : Follow ks' ts := by
  obtain rfl | h := h
  · exact .inl rfl
  · obtain ⟨t, ts, rfl, ht⟩ := h.elim
    exact .inr (hks ht)

theorem Follow.not_headIn {ks ks' : List Kind} (h : Follow ks ts) (hks : ∀ k ∈ ks, k ∉ ks') : ¬ HeadIn ks' ts := by
  obtain rfl | h := h
  · exact id
  · obtain ⟨t, ts, rfl, ht⟩ := h.elim
    exact hks _ ht

theorem Redirs.complete {rs : List Redirect} (hrs : Redirs ts rs) (h : At l s (ts ++ rest))
    (hrest : ¬ HeadIn [.less, .greater, .append] rest) (hn : (ts ++ rest).length < n) :
    ∃ s', parseredirs l n c s = .ok (c.redirects rs, s') ∧ At l s' rest := by
  induction hrs generalizing s n c with
  | nil =>
    obtain ⟨n, rfl⟩ := Nat.exists_eq_add_one_of_ne_zero (Nat.ne_zero_of_lt hn)
    obtain ⟨-, s₁, h₁, heq⟩ | ⟨r, w, ts, hts, hr, -⟩ | ⟨r, ts, hts, hr, -⟩ := parseredirs_step h
    · exact ⟨s₁, heq _ _, h₁⟩
    · rw [List.nil_append] at hts
      exact absurd (hts ▸ hr : HeadIn [.less, .greater, .append] rest) hrest
    · rw [List.nil_append] at hts
      exact absurd (hts ▸ hr : HeadIn [.less, .greater, .append] rest) hrest
  | @cons r w ts rs hr hw hrs ih =>
    obtain ⟨n, rfl⟩ := Nat.exists_eq_add_one_of_ne_zero (Nat.ne_zero_of_lt hn)
    obtain ⟨hno, -⟩ | ⟨r', w', ts', hts, -, -, s₁, h₁, heq⟩ | ⟨r', ts', hts, -, hno, -⟩ := parseredirs_step h
    · exact absurd hr hno
    · simp only [List.cons_append, List.cons.injEq] at hts
      obtain ⟨rfl, rfl, rfl⟩ := hts
      rw [heq]
      exact ih h₁ (by simp only [List.cons_append, List.length_cons] at hn; omega)
    · simp only [List.cons_append, List.cons.injEq] at hts
      obtain ⟨rfl, rfl⟩ := hts
      exact absurd (List.mem_singleton.2 hw) hno

theorem Args.not_redir {ws : List Span} {rs : List Redirect} (hargs : Args ts ws rs) (hrest : Follow afterExec rest) :
    ¬ HeadIn [.less, .greater, .append] (ts ++ rest) ∧ ¬ HeadIn [.lpar] (ts ++ rest) := by
  cases hargs with
  | nil => exact ⟨hrest.not_headIn (by decide), hrest.not_headIn (by decide)⟩
  | cons hw _ _ =>
    rw [List.cons_append, HeadIn, HeadIn, hw]
    decide

theorem Redirs.not_lpar {rs : List Redirect} (hrs : Redirs ts rs) (hrest : ¬ HeadIn [.lpar] rest) :
    ¬ HeadIn [.lpar] (ts ++ rest) := by
  cases hrs with
  | nil => exact hrest
  | @cons r _ _ _ hr _ _ =>
    rw [List.cons_append, HeadIn]
    revert hr
    cases r.kind <;> decide

theorem Args.complete {ws' : List Span} {rs' : List Redirect} (hargs : Args ts ws' rs') (ws : List Span)
    (rs : List Redirect) (h : At l s (ts ++ rest)) (hrest : Follow afterExec rest) (hle : (ws ++ ws').length ≤ 9)
    (hn : (ts ++ rest).length < n) :
    ∃ s', parseargs l n ((Cmd.exec ws).redirects rs) ws.length s =
      .ok ((Cmd.exec (ws ++ ws')).redirects (rs ++ rs'), s') ∧ At l s' rest := by
  induction hargs generalizing s n ws rs with
  | nil =>
    obtain ⟨n, rfl⟩ := Nat.exists_eq_add_one_of_ne_zero (Nat.ne_zero_of_lt hn)
    rw [List.nil_append] at h
    obtain ⟨-, s₁, h₁, heq⟩ | ⟨w, ts, rfl, hw, -⟩ | ⟨hhead, -⟩ := parseargs_step h
    · exact ⟨s₁, by rw [heq, List.append_nil, List.append_nil], h₁⟩
    · exact absurd (List.mem_singleton.2 hw) (@Follow.not_headIn _ _ [.word] hrest (by decide))
    · exact absurd hhead (hrest.not_headIn (by decide))
  | @cons w ts₁ ts₂ ws' rs₁ rs₂ hw hrs hargs ih =>
    obtain ⟨n, rfl⟩ := Nat.exists_eq_add_one_of_ne_zero (Nat.ne_zero_of_lt hn)
    simp only [List.cons_append, List.append_assoc, List.length_cons] at h hn ⊢
    obtain ⟨hstop, -⟩ | ⟨w', ts, hts, -, s₁, h₁, heq⟩ | ⟨hhead, -⟩ := parseargs_step h
    · obtain hnil | hhead := hstop
      · cases hnil
      · rw [HeadIn, hw] at hhead
        exact absurd hhead (by decide)
    · obtain ⟨rfl, rfl⟩ := List.cons.inj hts
      rw [List.length_append, List.length_cons] at hle
      have hlen : (ws ++ [w.span]).length = ws.length + 1 := List.length_append
      rw [heq, if_neg (by unfold MAXARGS; omega), addArg_redirects, Cmd.addArg]
      obtain ⟨s₂, hredirs, h₂⟩ := hrs.complete (c := (Cmd.exec (ws ++ [w.span])).redirects rs) h₁ (hargs.not_redir hrest).1 (Nat.lt_of_succ_lt_succ hn)
      rw [hredirs]
      rw [List.length_append] at hn
      obtain ⟨s₃, hargs', h₃⟩ := ih (ws ++ [w.span]) (rs ++ rs₁) h₂
        (by simp only [List.length_append, List.length_cons, List.length_nil]; omega) (n := n) (by omega)
      refine ⟨s₃, ?_, h₃⟩
      dsimp only [bind, Except.bind]
      rw [← redirects_append, ← hlen, hargs']
      simp only [List.append_assoc, List.singleton_append]
    · rw [HeadIn, hw] at hhead
      exact absurd hhead (by decide)

theorem backs_complete {as : List Tok} (has : ∀ a ∈ as, a.kind = .amp) (h : At l s (as ++ rest))
    (hrest : ¬ HeadIn [.amp] rest) (hn : (as ++ rest).length < n) :
    ∃ s', parseback l n c s = .ok (c.backs as, s') ∧ At l s' rest := by
  induction as generalizing s n c with
  | nil =>
    obtain ⟨n, rfl⟩ := Nat.exists_eq_add_one_of_ne_zero (Nat.ne_zero_of_lt hn)
    obtain ⟨-, s₁, h₁, heq⟩ | ⟨a, ts, hts, ha, -⟩ := parseback_step h
    · exact ⟨s₁, heq _ _, h₁⟩
    · rw [List.nil_append] at hts
      exact absurd (hts ▸ List.mem_singleton.2 ha : HeadIn [.amp] rest) hrest
  | cons a as ih =>
    obtain ⟨n, rfl⟩ := Nat.exists_eq_add_one_of_ne_zero (Nat.ne_zero_of_lt hn)
    obtain ⟨hno, -⟩ | ⟨a', ts, hts, -, s₁, h₁, heq⟩ := parseback_step h
    · exact absurd (List.mem_singleton.2 (has a (List.mem_cons_self ..))) hno
    · obtain ⟨rfl, rfl⟩ := List.cons.inj hts
      rw [heq]
      exact ih (fun b hb => has b (List.mem_cons_of_mem _ hb)) h₁ (by simp only [List.cons_append, List.length_cons] at hn; omega)

mutual

theorem line_complete {ts rest : List Tok} {c : Cmd} {s n : Nat} (hd : IsLine ts c) (h : At l s (ts ++ rest)) (hrest : Follow afterLine rest)
    (hn : 4 * (ts ++ rest).length + 4 ≤ n) : ∃ s', parseline l n s = .ok (c, s') ∧ At l s' rest := by
  obtain ⟨n, rfl⟩ := Nat.exists_eq_add_one_of_ne_zero (Nat.ne_zero_of_lt hn)
  cases hd with
  | @one ts as c hpipe has =>
    rw [List.append_assoc] at h hn
    have hfollow : Follow afterPipe (as ++ rest) := by
      cases as with
      | nil => exact hrest.mono (by decide)
      | cons a as => exact .inr (by rw [List.cons_append, HeadIn, has a (List.mem_cons_self ..)]; decide)
    obtain ⟨s₁, hrun, h₁⟩ := pipe_complete hpipe h hfollow (n := n) (by omega)
    rw [List.length_append] at hn
    obtain ⟨s₂, hback, h₂⟩ := backs_complete (c := c) has h₁ (hrest.not_headIn (by decide)) (n := n) (by omega)
    obtain ⟨s₃, (hpeek : peek l s₂ [chr ';'] = _), h₃⟩ := h₂.peeks_one (k := .semi) (by decide)
    rw [decide_eq_false (hrest.not_headIn (by decide))] at hpeek
    refine ⟨s₃, ?_, h₃⟩
    rw [parseline, hrun]
    dsimp only [bind, Except.bind]
    rw [hback]
    dsimp only
    rw [hpeek]
  | @more ts as ts' semi c c' hpipe has hsemi hline =>
    simp only [List.append_assoc, List.cons_append] at h hn
    have hfollow : Follow afterPipe (as ++ semi :: (ts' ++ rest)) := by
      cases as with
      | nil => exact .inr (by rw [List.nil_append, HeadIn, hsemi]; decide)
      | cons a as => exact .inr (by rw [List.cons_append, HeadIn, has a (List.mem_cons_self ..)]; decide)
    obtain ⟨s₁, hrun, h₁⟩ := pipe_complete hpipe h hfollow (n := n) (by omega)
    rw [List.length_append] at hn
    have hno : ¬ HeadIn [.amp] (semi :: (ts' ++ rest)) := by
      rw [HeadIn, hsemi]
      decide
    obtain ⟨s₂, hback, h₂⟩ := backs_complete (c := c) has h₁ hno (n := n) (by omega)
    obtain ⟨s₃, (hpeek : peek l s₂ [chr ';'] = _), h₃⟩ := h₂.peeks_one (k := .semi) (by decide)
    rw [decide_eq_true (show HeadIn [.semi] (semi :: (ts' ++ rest)) from List.mem_singleton.2 hsemi)] at hpeek
    rw [List.length_append, List.length_cons] at hn
    obtain ⟨s₄, hrun', h₄⟩ := line_complete hline h₃.gettoken_cons.2 hrest (n := n) (by omega)
    refine ⟨s₄, ?_, h₄⟩
    rw [parseline, hrun]
    dsimp only [bind, Except.bind]
    rw [hback]
    dsimp only
    rw [hpeek]
    dsimp only
    rw [hrun']

theorem pipe_complete {ts rest : List Tok} {c : Cmd} {s n : Nat} (hd : IsPipe ts c) (h : At l s (ts ++ rest)) (hrest : Follow afterPipe rest)
    (hn : 4 * (ts ++ rest).length + 3 ≤ n) : ∃ s', parsepipe l n s = .ok (c, s') ∧ At l s' rest := by
  obtain ⟨n, rfl⟩ := Nat.exists_eq_add_one_of_ne_zero (Nat.ne_zero_of_lt hn)
  cases hd with
  | one hexec =>
    obtain ⟨s₁, hrun, h₁⟩ := exec_complete hexec h (hrest.mono (by decide)) (n := n) (by omega)
    obtain ⟨s₂, (hpeek : peek l s₁ [chr '|'] = _), h₂⟩ := h₁.peeks_one (k := .bar) (by decide)
    rw [decide_eq_false (hrest.not_headIn (by decide))] at hpeek
    refine ⟨s₂, ?_, h₂⟩
    rw [parsepipe, hrun]
    dsimp only [bind, Except.bind]
    rw [hpeek]
  | @more ts ts' bar c c' hexec hbar hpipe =>
    rw [List.append_assoc, List.cons_append] at h
    have hbar' : HeadIn [.bar] (bar :: (ts' ++ rest)) := List.mem_singleton.2 hbar
    have hfollow : Follow afterExec (bar :: (ts' ++ rest)) := .inr (by rw [HeadIn, hbar]; decide)
    rw [List.append_assoc, List.cons_append, List.length_append, List.length_cons] at hn
    obtain ⟨s₁, hrun, h₁⟩ := exec_complete hexec h hfollow (n := n) (by rw [List.length_append, List.length_cons]; omega)
    obtain ⟨s₂, (hpeek : peek l s₁ [chr '|'] = _), h₂⟩ := h₁.peeks_one (k := .bar) (by decide)
    rw [decide_eq_true hbar'] at hpeek
    obtain ⟨s₃, hrun', h₃⟩ := pipe_complete hpipe h₂.gettoken_cons.2 hrest (n := n) (by rw [List.length_append] at *; omega)
    refine ⟨s₃, ?_, h₃⟩
    rw [parsepipe, hrun]
    dsimp only [bind, Except.bind]
    rw [hpeek]
    dsimp only
    rw [hrun']

theorem exec_complete {ts rest : List Tok} {c : Cmd} {s n : Nat} (hd : IsExec ts c) (h : At l s (ts ++ rest)) (hrest : Follow afterExec rest)
    (hn : 4 * (ts ++ rest).length + 2 ≤ n) : ∃ s', parseexec l n s = .ok (c, s') ∧ At l s' rest := by
  obtain ⟨n, rfl⟩ := Nat.exists_eq_add_one_of_ne_zero (Nat.ne_zero_of_lt hn)
  obtain ⟨s₁, (hpeek : peek l s [chr '('] = _), h₁⟩ := h.peeks_one (k := .lpar) (by decide)
  cases hd with
  | @block lpar rpar ts ts' c rs hlpar hline hrpar hrs =>
    simp only [List.append_assoc, List.cons_append] at h₁ hn
    have hhead : HeadIn [.lpar] (lpar :: (ts ++ rpar :: (ts' ++ rest))) := List.mem_singleton.2 hlpar
    simp only [List.append_assoc, List.cons_append, decide_eq_true hhead] at hpeek
    obtain ⟨s₂, (hpeek₂ : peek l s₁ [chr '('] = _), h₂⟩ := h₁.peeks_one (k := .lpar) (by decide)
    rw [decide_eq_true hhead] at hpeek₂
    rw [List.length_cons] at hn
    obtain ⟨n, rfl⟩ := Nat.exists_eq_add_one_of_ne_zero (show n ≠ 0 by omega)
    have hfollow : Follow afterLine (rpar :: (ts' ++ rest)) := .inr (by rw [HeadIn, hrpar]; decide)
    obtain ⟨s₃, hrun, h₃⟩ := line_complete hline h₂.gettoken_cons.2 hfollow (n := n) (by omega)
    obtain ⟨s₄, (hpeek₄ : peek l s₃ [chr ')'] = _), h₄⟩ := h₃.peeks_one (k := .rpar) (by decide)
    rw [decide_eq_true (show HeadIn [.rpar] (rpar :: (ts' ++ rest)) from List.mem_singleton.2 hrpar)] at hpeek₄
    rw [List.length_append, List.length_cons] at hn
    obtain ⟨s₅, hredirs, h₅⟩ := hrs.complete (c := c) h₄.gettoken_cons.2 (hrest.not_headIn (by decide)) (n := n) (by omega)
    refine ⟨s₅, ?_, h₅⟩
    rw [parseexec, hpeek]
    dsimp only
    rw [parseblock, hpeek₂]
    dsimp only [bind, Except.bind]
    rw [hrun]
    dsimp only
    rw [hpeek₄]
    exact hredirs
  | @simple ts ts' ws rs rs' hrs hargs hle =>
    rw [List.append_assoc] at h₁ hn
    obtain ⟨hredir, hlpar⟩ := hargs.not_redir hrest
    rw [List.append_assoc, decide_eq_false (hrs.not_lpar hlpar)] at hpeek
    obtain ⟨s₂, hredirs, h₂⟩ := hrs.complete (c := .exec []) h₁ hredir (n := n) (by omega)
    rw [List.length_append] at hn
    obtain ⟨s₃, hrun, h₃⟩ := hargs.complete [] rs h₂ hrest hle (n := n) (by omega)
    refine ⟨s₃, ?_, h₃⟩
    rw [parseexec, hpeek]
    dsimp only [bind, Except.bind]
    rw [hredirs]
    exact hrun

end

end Xv6.Sh
