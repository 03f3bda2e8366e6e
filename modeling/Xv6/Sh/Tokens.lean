import Mathlib.Data.List.TakeDrop
import Xv6.Sh.Code
/-!
# The tokens of a line

`lex` says what the tokens of a line are: symbols, and words that are maximal
runs of other bytes that are not white space. `gettoken` takes the first token
of the rest of the line and `peek` looks at it, so that the parser can be read
as one over lists of tokens.
-/

namespace Xv6.Sh

inductive Kind where
  | word | less | greater | append | bar | amp | semi | lpar | rpar
  deriving DecidableEq

/-- What `gettoken` returns for it. -/
def Kind.ret : Kind → BitVec 8
  | .word => chr 'a'
  | .less => chr '<'
  | .greater => chr '>'
  | .append => chr '+'
  | .bar => chr '|'
  | .amp => chr '&'
  | .semi => chr ';'
  | .lpar => chr '('
  | .rpar => chr ')'

structure Tok where
  kind : Kind
  span : Span
  deriving DecidableEq

/-- The symbols of one byte, apart from `>`. -/
def symbol (b : BitVec 8) : Option Kind := [Kind.less, .bar, .amp, .semi, .lpar, .rpar].find? (·.ret = b)

/-- The tokens of the bytes from position `o` on. -/
def lex (o : Nat) : List (BitVec 8) → List Tok
  | [] => []
  | b :: bs =>
    if isSpace b then lex (o + 1) bs
    else if b = chr '>' then
      if bs.head? = some (chr '>') then ⟨.append, o, o + 2⟩ :: lex (o + 2) bs.tail
      else ⟨.greater, o, o + 1⟩ :: lex (o + 1) bs
    else match symbol b with
      | some k => ⟨k, o, o + 1⟩ :: lex (o + 1) bs
      | none =>
        ⟨.word, o, o + (1 + (bs.takeWhile isWord).length)⟩ ::
          lex (o + (1 + (bs.takeWhile isWord).length)) (bs.dropWhile isWord)
termination_by bs => bs.length
decreasing_by
  all_goals simp only [List.length_cons, List.length_tail]
  · omega
  · omega
  · omega
  · omega
  · exact Nat.lt_succ_of_le (List.dropWhile_suffix _).length_le

/-- The tokens of the line from a position on. -/
def Line.toks (l : Line) (s : Nat) : List Tok := lex s (l.bytes.drop s)

/-! ## White space -/

theorem lex_scan (o : Nat) (bs : List (BitVec 8)) :
    lex (o + (bs.takeWhile isSpace).length) (bs.drop (bs.takeWhile isSpace).length) = lex o bs := by
  induction bs generalizing o with
  | nil => rfl
  | cons b bs ih =>
    by_cases hb : isSpace b
    · rw [List.takeWhile_cons_of_pos hb, List.length_cons, List.drop_succ_cons, Nat.add_comm _ 1, ← Nat.add_assoc, ih]
      conv_rhs => rw [lex, if_pos hb]
    · rw [List.takeWhile_cons_of_neg hb]
      rfl

variable {l : Line} {s : Nat}

theorem drop_takeWhile (p : BitVec 8 → Bool) (bs : List (BitVec 8)) :
    bs.drop (bs.takeWhile p).length = bs.dropWhile p := by
  induction bs with
  | nil => rfl
  | cons b bs ih =>
    by_cases hb : p b
    · rw [List.takeWhile_cons_of_pos hb, List.dropWhile_cons_of_pos hb, List.length_cons, List.drop_succ_cons, ih]
    · rw [List.takeWhile_cons_of_neg hb, List.dropWhile_cons_of_neg hb]
      rfl

theorem drop_scan (l : Line) (p : BitVec 8 → Bool) (s : Nat) :
    l.bytes.drop (l.scan p s) = (l.bytes.drop s).dropWhile p := by
  rw [Line.scan, ← List.drop_drop, drop_takeWhile]

@[simp] theorem toks_scan (l : Line) (s : Nat) : l.toks (l.scan isSpace s) = l.toks s := by
  rw [Line.toks, Line.scan, ← List.drop_drop]
  exact lex_scan ..

theorem byte_eq (l : Line) (s : Nat) : l.byte s = (l.bytes.drop s).headD 0 := by
  rw [Line.byte, List.getD_eq_getElem?_getD, List.headD_eq_head?_getD, List.head?_drop]

/-! ## The first token -/

/-- The byte that a symbol starts with. -/
def Kind.first : Kind → Option (BitVec 8)
  | .word => none
  | .append => some (chr '>')
  | k => some k.ret

theorem symbol_some {b : BitVec 8} {k : Kind} (h : symbol b = some k) :
    k.ret = b ∧ k.first = some b ∧ [chr '|', chr '(', chr ')', chr ';', chr '&', chr '<'].contains b := by
  have hret : k.ret = b := by simpa using List.find?_some h
  have hall : ∀ k ∈ [Kind.less, .bar, .amp, .semi, .lpar, .rpar], k.first = some k.ret ∧
      [chr '|', chr '(', chr ')', chr ';', chr '&', chr '<'].contains k.ret := by decide
  obtain ⟨hfirst, hin⟩ := hall k (List.mem_of_find?_eq_some h)
  exact ⟨hret, hret ▸ hfirst, hret ▸ hin⟩

theorem symbol_none {b : BitVec 8} (h : symbol b = none) (hb : b ≠ chr '>') : ¬ symbols.contains b := by
  have hall : ∀ c ∈ symbols, c = chr '>' ∨ ∃ k ∈ [Kind.less, .bar, .amp, .semi, .lpar, .rpar], k.ret = c := by decide
  intro hin
  obtain rfl | ⟨k, hk, hret⟩ := hall b (by simpa using hin)
  · exact hb rfl
  · exact List.find?_eq_none.1 h k hk (by simpa using hret)

/-- The token `t` at position `s`, as `gettoken` finds it there. -/
structure Starts (l : Line) (s : Nat) (t : Tok) : Prop where
  start : t.span.start = s
  rest : l.toks s = t :: l.toks t.span.stop
  found : tokenAt l s = (t.kind.ret, t.span.stop)
  nonzero : l.byte s ≠ 0
  first : ∀ c, symbols.contains c → (l.byte s = c ↔ t.kind.first = some c)

/-- At a position without white space there is the end of the line, or a token. -/
theorem starts (hs : (l.bytes.drop s).head?.all fun b => !isSpace b) :
    (l.toks s = [] ∧ l.byte s = 0) ∨ ∃ t, Starts l s t := by
  cases hbs : l.bytes.drop s with
  | nil =>
    refine .inl ⟨?_, ?_⟩
    · rw [Line.toks, hbs, lex]
    · rw [byte_eq, hbs]
      rfl
  | cons b bs =>
    right
    have hbyte : l.byte s = b := by
      rw [byte_eq, hbs]
      rfl
    have hnonzero : b ≠ 0 := l.nonzero b (List.mem_of_mem_drop (by rw [hbs]; exact List.mem_cons_self ..))
    have hspace : ¬ isSpace b := by simpa [hbs] using hs
    have hdrop : ∀ n, l.bytes.drop (s + (n + 1)) = bs.drop n := by
      intro n
      rw [← List.drop_drop, hbs, List.drop_succ_cons]
    have hlex : l.toks s = lex s (b :: bs) := by rw [Line.toks, hbs]
    rw [lex, if_neg hspace] at hlex
    split at hlex
    · rename_i hgt
      subst hgt
      have hnext : l.byte (s + 1) = bs.headD 0 := by rw [byte_eq, hdrop 0, List.drop_zero]
      have hfirst : ∀ c, symbols.contains c → (l.byte s = c ↔ some (chr '>') = some c) := by
        intro c _
        rw [hbyte, Option.some_inj]
      split at hlex
      · rename_i hhead
        refine ⟨⟨.append, s, s + 2⟩, rfl, ?_, ?_, by rwa [hbyte], hfirst⟩
        · rw [hlex, Line.toks, hdrop 1, List.drop_one]
        · have hgt : l.byte (s + 1) = chr '>' := by rw [hnext, List.headD_eq_head?_getD, hhead]; rfl
          rw [tokenAt, hbyte, hgt]
          rfl
      · rename_i hhead
        refine ⟨⟨.greater, s, s + 1⟩, rfl, ?_, ?_, by rwa [hbyte], hfirst⟩
        · rw [hlex, Line.toks, hdrop 0, List.drop_zero]
        · have hgt : l.byte (s + 1) ≠ chr '>' := by
            rw [hnext]
            cases bs with
            | nil => decide
            | cons c bs => simpa using hhead
          rw [tokenAt, hbyte]
          dsimp only
          rw [if_neg hgt]
          rfl
    · rename_i hgt
      split at hlex
      · rename_i k hk
        obtain ⟨hret, hkfirst, hin⟩ := symbol_some hk
        refine ⟨⟨k, s, s + 1⟩, rfl, ?_, ?_, by rwa [hbyte], ?_⟩
        · rw [hlex, Line.toks, hdrop 0, List.drop_zero]
        · rw [tokenAt, hbyte]
          dsimp only
          rw [if_neg hnonzero, if_pos hin, hret]
        · intro c _
          rw [hbyte, hkfirst, Option.some_inj]
      · rename_i hk
        have hsym := symbol_none hk hgt
        have hword : isWord b := by simp_all [isWord, isSpace]
        refine ⟨⟨.word, s, s + (1 + (bs.takeWhile isWord).length)⟩, rfl, ?_, ?_, by rwa [hbyte], ?_⟩
        · rw [hlex, Line.toks, Nat.add_comm 1, hdrop, drop_takeWhile]
        · have hnot : ¬ [chr '|', chr '(', chr ')', chr ';', chr '&', chr '<'].contains b := by
            intro hin
            have hall : ∀ c ∈ [chr '|', chr '(', chr ')', chr ';', chr '&', chr '<'], symbols.contains c := by decide
            exact hsym (hall b (by simpa using hin))
          rw [tokenAt, hbyte]
          dsimp only
          rw [if_neg hnonzero, if_neg hnot, if_neg hgt, Line.scan, hbs, List.takeWhile_cons_of_pos hword, List.length_cons,
            Nat.add_comm 1]
          rfl
        · intro c hc
          rw [hbyte]
          exact ⟨fun h => absurd (h ▸ hc) hsym, nofun⟩

theorem starts_scan (l : Line) (s : Nat) :
    (l.toks s = [] ∧ l.byte (l.scan isSpace s) = 0) ∨ ∃ t, Starts l (l.scan isSpace s) t := by
  have hhead : (l.bytes.drop (l.scan isSpace s)).head?.all fun b => !isSpace b := by
    rw [drop_scan]
    have hnot := List.head?_dropWhile_not isSpace (l.bytes.drop s)
    cases h : ((l.bytes.drop s).dropWhile isSpace).head? with
    | none => rfl
    | some b =>
      rw [h] at hnot
      simpa using hnot
  have := starts hhead
  rwa [toks_scan] at this

/-! ## gettoken and peek -/

theorem scan_le (p : BitVec 8 → Bool) (hs : s ≤ l.es) : l.scan p s ≤ l.es := by
  have hpre := List.takeWhile_prefix p (l := l.bytes.drop s)
  have hlen := hpre.length_le
  rw [List.length_drop] at hlen
  unfold Line.scan
  unfold Line.es at *
  omega

theorem lt_es (h : l.byte s ≠ 0) : s < l.es := by
  by_contra hge
  refine h ?_
  rw [byte_eq, List.drop_eq_nil_of_le (Nat.le_of_not_lt hge)]
  rfl

theorem tokenAt_le (hs : s ≤ l.es) : (tokenAt l s).2 ≤ l.es := by
  unfold tokenAt
  dsimp only
  split
  · exact hs
  · rename_i hzero
    have hlt := lt_es hzero
    split
    · exact hlt
    · split
      · split
        · rename_i hnext
          exact lt_es (by rw [hnext]; decide)
        · exact hlt
      · exact scan_le _ hs

/-- The tokens `ts` are left at position `s`. -/
structure At (l : Line) (s : Nat) (ts : List Tok) : Prop where
  le : s ≤ l.es
  toks : l.toks s = ts

variable {t : Tok} {ts : List Tok}

theorem At.scan (h : At l s ts) : At l (l.scan isSpace s) ts := ⟨scan_le _ h.le, by rw [toks_scan, h.toks]⟩

theorem At.gettoken_le (h : At l s ts) : (gettoken l s).2 ≤ l.es := scan_le _ (tokenAt_le (scan_le _ h.le))

theorem At.gettoken_nil (h : At l s []) : (gettoken l s).1.ret = 0 ∧ At l (gettoken l s).2 [] := by
  have hat : tokenAt l (l.scan isSpace s) = (0, l.scan isSpace s) := by
    obtain ⟨-, hzero⟩ | ⟨t, ht⟩ := starts_scan l s
    · unfold tokenAt
      rw [hzero]
      rfl
    · have hrest := ht.rest
      rw [toks_scan, h.toks] at hrest
      cases hrest
  have hle := h.gettoken_le
  unfold gettoken at hle ⊢
  dsimp only at hle ⊢
  rw [hat] at hle ⊢
  exact ⟨rfl, hle, by rw [toks_scan, toks_scan, h.toks]⟩

theorem At.gettoken_cons (h : At l s (t :: ts)) :
    (gettoken l s).1 = ⟨t.kind.ret, t.span.start, t.span.stop⟩ ∧ At l (gettoken l s).2 ts := by
  obtain ⟨hnil, -⟩ | ⟨t', ht⟩ := starts_scan l s
  · rw [h.toks] at hnil
    cases hnil
  · have hrest := ht.rest
    rw [toks_scan, h.toks] at hrest
    obtain ⟨rfl, rfl⟩ := List.cons.inj hrest
    have hle := h.gettoken_le
    unfold gettoken at hle ⊢
    dsimp only at hle ⊢
    rw [ht.found] at hle ⊢
    exact ⟨by rw [ht.start], hle, toks_scan ..⟩

/-- The first token is of one of these kinds. -/
def HeadIn (ks : List Kind) : List Tok → Prop
  | [] => False
  | t :: _ => t.kind ∈ ks

instance (ks : List Kind) (ts : List Tok) : Decidable (HeadIn ks ts) :=
  match ts with
  | [] => inferInstanceAs (Decidable False)
  | t :: _ => inferInstanceAs (Decidable (t.kind ∈ ks))

/-- `peek` for bytes that are those of the kinds `ks`. -/
theorem At.peeks (h : At l s ts) {cs : List (BitVec 8)} {ks : List Kind} (hcs : ∀ c ∈ cs, symbols.contains c)
    (hks : ∀ k : Kind, k.first.any cs.contains = ks.contains k) :
    ∃ s', peek l s cs = (decide (HeadIn ks ts), s') ∧ At l s' ts := by
  refine ⟨_, Prod.ext ?_ rfl, h.scan⟩
  change (decide (l.byte (l.scan isSpace s) ≠ 0) && cs.contains (l.byte (l.scan isSpace s))) = decide (HeadIn ks ts)
  rw [Bool.eq_iff_iff, Bool.and_eq_true, decide_eq_true_eq, decide_eq_true_eq, List.contains_iff_mem]
  obtain ⟨hnil, hzero⟩ | ⟨t, ht⟩ := starts_scan l s
  · rw [hzero, ← h.toks, hnil]
    exact ⟨fun hne => absurd rfl hne.1, False.elim⟩
  · have hrest := ht.rest
    rw [toks_scan, h.toks] at hrest
    have hkind : t.kind ∈ ks ↔ t.kind.first.any cs.contains = true := by rw [hks, List.contains_iff_mem]
    rw [hrest, HeadIn, hkind, Option.any_eq_true]
    constructor
    · rintro ⟨-, hin⟩
      exact ⟨_, (ht.first _ (hcs _ hin)).1 rfl, List.contains_iff_mem.2 hin⟩
    · rintro ⟨c, hc, hin⟩
      have hin := List.contains_iff_mem.1 hin
      have hbyte := (ht.first c (hcs c hin)).2 hc
      exact ⟨ht.nonzero, by rwa [hbyte]⟩

/-- The end of the line is where no tokens are left. -/
theorem At.end_iff (h : At l s ts) : (peek l s []).2 = l.es ↔ ts = [] := by
  change l.scan isSpace s = l.es ↔ ts = []
  constructor
  · intro heq
    rw [← h.scan.toks, heq, Line.toks, Line.es, List.drop_length, lex]
  · rintro rfl
    obtain ⟨-, hzero⟩ | ⟨t, ht⟩ := starts_scan l s
    · refine Nat.le_antisymm h.scan.le (Nat.le_of_not_lt fun hlt => ?_)
      rw [Line.byte, List.getD_eq_getElem?_getD, List.getElem?_eq_getElem hlt] at hzero
      exact l.nonzero _ (List.getElem_mem hlt) hzero
    · have hrest := ht.rest
      rw [h.scan.toks] at hrest
      cases hrest

end Xv6.Sh
