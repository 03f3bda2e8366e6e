import Mathlib.Data.List.GetD
import Mathlib.Data.List.TakeWhile
import Xv6.Sh.Grammar
/-!
# The strings of a command

`nulterminate` writes a NUL behind every word and file name of a command. These
are words of the line, so each of the NULs falls on a byte that is not of a
word, and every string reads as its own token.
-/

namespace Xv6.Sh

open Outcome

/-! ## Words are maximal runs -/

/-- The word at `w` in the bytes from position `o` on, and what is around it. -/
def WordAt (o : Nat) (bs : List (BitVec 8)) (w : Span) : Prop :=
  ∃ pre text post, bs = pre ++ (text ++ post) ∧ w = ⟨o + pre.length, o + pre.length + text.length⟩ ∧
    (∀ b ∈ text, isWord b) ∧ post.head?.all fun b => !isWord b

theorem WordAt.after {o : Nat} {bs : List (BitVec 8)} {w : Span} (bs' : List (BitVec 8)) (h : WordAt (o + bs'.length) bs w) :
    WordAt o (bs' ++ bs) w := by
  obtain ⟨pre, text, post, rfl, rfl, htext, hpost⟩ := h
  refine ⟨bs' ++ pre, text, post, by rw [List.append_assoc], ?_, htext, hpost⟩
  rw [List.length_append, Nat.add_assoc]

theorem lex_wordAt {o : Nat} {bs : List (BitVec 8)} {t : Tok} (ht : t ∈ lex o bs) (hk : t.kind = .word) : WordAt o bs t.span := by
  fun_induction lex o bs with
  | case1 => cases ht
  | case2 o b bs hspace ih => exact (ih ht).after [b]
  | case3 o bs hhead hspace ih =>
    obtain rfl | ht := List.mem_cons.1 ht
    · cases hk
    · cases bs with
      | nil => cases hhead
      | cons c bs => exact (ih ht).after [_, c]
  | case4 o bs hspace hhead ih =>
    obtain rfl | ht := List.mem_cons.1 ht
    · cases hk
    · exact (ih ht).after [_]
  | case5 o b bs hspace hgt k hsym ih =>
    obtain rfl | ht := List.mem_cons.1 ht
    · have hnot := (symbol_some hsym).2.1
      rw [show k = .word from hk] at hnot
      cases hnot
    · exact (ih ht).after [b]
  | case6 o b bs hspace hgt hsym ih =>
    have hword : isWord b := by
      have hnot := symbol_none hsym hgt
      simp_all [isWord, isSpace]
    have hsplit : b :: bs = (b :: bs.takeWhile isWord) ++ bs.dropWhile isWord := by
      rw [List.cons_append, List.takeWhile_append_dropWhile]
    obtain rfl | ht := List.mem_cons.1 ht
    · refine ⟨[], b :: bs.takeWhile isWord, bs.dropWhile isWord, hsplit, ?_, ?_, ?_⟩
      · rw [List.length_cons, List.length_nil, Nat.add_zero, Nat.add_comm 1]
      · intro c hc
        obtain rfl | hc := List.mem_cons.1 hc
        · exact hword
        · exact List.mem_takeWhile_imp hc
      · have hnot := List.head?_dropWhile_not isWord bs
        cases h : (bs.dropWhile isWord).head? with
        | none => rfl
        | some c =>
          rw [h] at hnot
          simpa using hnot
    · rw [hsplit]
      refine WordAt.after _ ?_
      rw [List.length_cons, Nat.add_comm _ 1]
      exact ih ht

/-! ## The strings of a command are words of its tokens -/

def Cmd.spans : Cmd → List Span
  | .exec argv => argv
  | .redir cmd file _ _ => cmd.spans ++ [file]
  | .pipe left right => left.spans ++ right.spans
  | .list left right => left.spans ++ right.spans
  | .back cmd => cmd.spans

/-- The spans of the words among the tokens. -/
def words (ts : List Tok) : List Span := (ts.filter (·.kind = .word)).map Tok.span

theorem words_append (ts ts' : List Tok) : words (ts ++ ts') = words ts ++ words ts' := by
  simp [words]

theorem words_cons {t : Tok} (ts : List Tok) : words (t :: ts) = if t.kind = .word then t.span :: words ts else words ts := by
  by_cases h : t.kind = .word <;> simp [words, h]

variable {l : Line} {c : Cmd} {ts : List Tok}

theorem spans_redirects (c : Cmd) (rs : List Redirect) :
    (c.redirects rs).spans = c.spans ++ rs.map Redirect.file := by
  induction rs generalizing c with
  | nil => exact (List.append_nil _).symm
  | cons r rs ih =>
    have hone : (c.redirect r).spans = c.spans ++ [r.file] := by
      unfold Cmd.redirect
      split <;> rfl
    rw [redirects_cons, ih, hone, List.append_assoc]
    rfl

theorem spans_backs (c : Cmd) (as : List Tok) : (c.backs as).spans = c.spans := by
  induction as generalizing c with
  | nil => rfl
  | cons a as ih => exact ih (.back c)

theorem Redirs.words {rs : List Redirect} (h : Redirs ts rs) : rs.map Redirect.file = words ts := by
  induction h with
  | nil => rfl
  | @cons r w ts rs hr hw _ ih =>
    have hne : r.kind ≠ .word := by
      rintro heq
      rw [heq] at hr
      exact absurd hr (by decide)
    rw [words_cons, if_neg hne, words_cons, if_pos hw, List.map_cons, ih]

theorem Args.words {ws : List Span} {rs : List Redirect} (h : Args ts ws rs) : ws ++ rs.map Redirect.file ⊆ words ts := by
  induction h with
  | nil => exact List.nil_subset _
  | @cons w ts ts' ws rs rs' hw hrs _ ih =>
    obtain ⟨hws, hrs'⟩ := List.append_subset.1 ih
    rw [words_cons, if_pos hw, words_append, List.map_append, hrs.words]
    intro x hx
    simp only [List.cons_append, List.mem_cons, List.mem_append] at hx ⊢
    obtain rfl | hx | hx | hx := hx
    · exact .inl rfl
    · exact .inr (.inr (hws hx))
    · exact .inr (.inl hx)
    · exact .inr (.inr (hrs' hx))

theorem line_words (h : IsLine ts c) : c.spans ⊆ words ts := by
  refine @IsLine.rec (fun ts c _ => c.spans ⊆ words ts) (fun ts c _ => c.spans ⊆ words ts)
    (fun ts c _ => c.spans ⊆ words ts) ?one ?more ?pipeOne ?pipeMore ?block ?simple ts c h
  case one =>
    intro ts as c _ _ hpipe
    rw [spans_backs, words_append]
    exact List.subset_append_of_subset_left _ hpipe
  case more =>
    intro ts as ts' semi c c' _ _ hsemi _ hpipe hline
    rw [Cmd.spans, spans_backs, words_append, words_append, words_cons, if_neg (by rw [hsemi]; decide)]
    refine List.append_subset.2 ⟨List.subset_append_of_subset_left _ hpipe, ?_⟩
    exact List.subset_append_of_subset_right _ (List.subset_append_of_subset_right _ hline)
  case pipeOne => exact fun _ hexec => hexec
  case pipeMore =>
    intro ts ts' bar c c' _ hbar _ hexec hpipe
    rw [Cmd.spans, words_append, words_cons, if_neg (by rw [hbar]; decide)]
    exact List.append_subset.2 ⟨List.subset_append_of_subset_left _ hexec, List.subset_append_of_subset_right _ hpipe⟩
  case block =>
    intro lpar rpar ts ts' c rs hlpar _ hrpar hrs hline
    rw [spans_redirects, words_cons, if_neg (by rw [hlpar]; decide), words_append, words_cons, if_neg (by rw [hrpar]; decide),
      hrs.words]
    exact List.append_subset.2 ⟨List.subset_append_of_subset_left _ hline, List.subset_append_right ..⟩
  case simple =>
    intro ts ts' ws rs rs' hrs hargs _
    obtain ⟨hws, hrs'⟩ := List.append_subset.1 hargs.words
    rw [spans_redirects, words_append, List.map_append, hrs.words]
    exact List.append_subset.2 ⟨List.subset_append_of_subset_right _ hws,
      List.append_subset.2 ⟨List.subset_append_left .., List.subset_append_of_subset_right _ hrs'⟩⟩

/-! ## What nulterminate writes -/

theorem nulterminate_eq (c : Cmd) (b : Buffer) : nulterminate c b = c.spans.foldl Buffer.cut b := by
  induction c generalizing b with
  | exec argv => rfl
  | redir cmd file mode fd ih =>
    rw [nulterminate, ih, Cmd.spans, List.foldl_append]
    rfl
  | pipe left right ihl ihr => rw [nulterminate, ihl, ihr, Cmd.spans, List.foldl_append]
  | list left right ihl ihr => rw [nulterminate, ihl, ihr, Cmd.spans, List.foldl_append]
  | back cmd ih => rw [nulterminate, ih, Cmd.spans]

theorem foldl_cut (ws : List Span) (b : Buffer) (i : Nat) :
    ws.foldl Buffer.cut b i = if i ∈ ws.map Span.stop then 0 else b i := by
  induction ws generalizing b with
  | nil => rfl
  | cons w ws ih =>
    rw [List.foldl_cons, ih, List.map_cons, Buffer.cut]
    by_cases hi : i = w.stop
    · subst hi
      rw [Function.update_self, if_pos (List.mem_cons_self ..), ite_self]
    · rw [Function.update_of_ne hi]
      simp only [List.mem_cons, hi, false_or]

/-- The bytes at `q` are this string, with its NUL. -/
structure ReadsAs (b : Buffer) (q : Nat) (text : List (BitVec 8)) : Prop where
  bytes : ∀ i (h : i < text.length), b (q + i) = text[i]
  nonzero : ∀ x ∈ text, x ≠ 0
  stop : b (q + text.length) = 0

/-- The bytes of a token. -/
def Line.text (l : Line) (w : Span) : List (BitVec 8) := (l.bytes.drop w.start).take (w.stop - w.start)

theorem WordAt.bytes {w : Span} (h : WordAt 0 l.bytes w) :
    w.start + (l.text w).length = w.stop ∧ (∀ b ∈ l.text w, isWord b) ∧
      (∀ i (hi : i < (l.text w).length), l.byte (w.start + i) = (l.text w)[i]) ∧
      (w.stop < l.es → ¬ isWord (l.byte w.stop)) ∧ w.stop ≤ l.es := by
  obtain ⟨pre, text, post, hbytes, rfl, htext, hpost⟩ := h
  have heq : l.text ⟨0 + pre.length, 0 + pre.length + text.length⟩ = text := by
    simp [Line.text, hbytes]
  have hbyte : ∀ i, l.byte (pre.length + i) = (text ++ post).getD i 0 := by
    intro i
    rw [Line.byte, hbytes, List.getD_append_right _ _ _ _ (Nat.le_add_right ..), Nat.add_sub_cancel_left]
  rw [heq, Nat.zero_add]
  refine ⟨rfl, htext, fun i hi => ?_, fun hlt => ?_, ?_⟩
  · rw [hbyte, List.getD_append _ _ _ _ hi, List.getD_eq_getElem _ _ hi]
  · rw [hbyte, List.getD_append_right _ _ _ _ le_rfl, Nat.sub_self]
    cases post with
    | nil => simp [Line.es, hbytes] at hlt
    | cons b post => simpa using hpost
  · simp only [Line.es, hbytes, List.length_append]
    omega

/-- Every string of the command reads as its token. -/
theorem readsAs_of_words (hc : c.spans ⊆ words (l.toks 0)) {w : Span} (hw : w ∈ c.spans) :
    ReadsAs (nulterminate c l.buffer) w.start (l.text w) := by
  have hword : ∀ w ∈ c.spans, WordAt 0 l.bytes w := by
    intro w hw
    obtain ⟨t, ht, rfl⟩ := List.mem_map.1 (hc hw)
    obtain ⟨ht, hk⟩ := List.mem_filter.1 ht
    exact lex_wordAt ht (by simpa using hk)
  obtain ⟨hlen, htext, hbytes, -, hle⟩ := (hword w hw).bytes
  refine ⟨fun i hi => ?_, fun x hx => ?_, ?_⟩
  · rw [nulterminate_eq, foldl_cut, if_neg, Line.buffer, hbytes i hi]
    intro hstop
    obtain ⟨w', hw', hstop⟩ := List.mem_map.1 hstop
    obtain ⟨-, -, -, hnot, -⟩ := (hword w' hw').bytes
    rw [hstop] at hnot
    refine hnot (by omega) ?_
    rw [hbytes i hi]
    exact htext _ (List.getElem_mem hi)
  · exact l.nonzero x (List.mem_of_mem_drop (List.mem_of_mem_take hx))
  · rw [nulterminate_eq, foldl_cut, if_pos]
    rw [hlen]
    exact List.mem_map_of_mem hw

/-! ## The whole parser -/

theorem at_zero (l : Line) : At l 0 (l.toks 0) := ⟨Nat.zero_le _, rfl⟩

theorem parsecmd_ends {n : Nat} (hn : 4 * (l.toks 0).length + 4 ≤ n) :
    Ends (· ≠ .fuel) (parsecmd l n) fun r => IsLine (l.toks 0) r.1 ∧ r.2 = nulterminate r.1 l.buffer := by
  unfold parsecmd
  refine ((parse_ends n).1 0 _ (at_zero l) hn).bind fun ⟨c, s⟩ hr => ?_
  obtain ⟨ts₁, ts₂, hts, hline, h⟩ := hr
  dsimp only
  split
  · exact nofun
  · rename_i hend
    obtain rfl := h.end_iff.1 (not_not.1 hend)
    rw [List.append_nil] at hts
    exact ⟨hts ▸ hline, rfl⟩

theorem parsecmd_complete {n : Nat} (hn : 4 * (l.toks 0).length + 4 ≤ n) (hline : IsLine (l.toks 0) c) :
    parsecmd l n = .ok (c, nulterminate c l.buffer) := by
  have hat : At l 0 (l.toks 0 ++ []) := ⟨Nat.zero_le _, (List.append_nil _).symm⟩
  obtain ⟨s, hrun, h⟩ := line_complete hline hat (.inl rfl) (n := n) (by rwa [List.append_nil])
  unfold parsecmd
  rw [hrun]
  dsimp only [bind, Except.bind]
  rw [if_neg (not_not.2 (h.end_iff.2 rfl))]

/-- The parser with enough fuel: it ends, it returns exactly for the lines of the grammar, with
the command of the only derivation, and every string in the command reads as its token. -/
theorem parsecmd_grammar (l : Line) : ∃ n₀, ∀ n ≥ n₀, parsecmd l n ≠ .error .fuel ∧
    ((∃ r, parsecmd l n = .ok r) ↔ ∃ c, IsLine (l.toks 0) c) ∧
    ∀ c b, parsecmd l n = .ok (c, b) → IsLine (l.toks 0) c ∧ (∀ c', IsLine (l.toks 0) c' → c' = c) ∧
      ∀ w ∈ c.spans, w ∈ words (l.toks 0) ∧ ReadsAs b w.start (l.text w) := by
  refine ⟨4 * (l.toks 0).length + 4, fun n hn => ?_⟩
  have hends := parsecmd_ends hn
  refine ⟨fun herr => ?_, ⟨?_, ?_⟩, fun c b hok => ?_⟩
  · rw [herr] at hends
    exact hends rfl
  · rintro ⟨r, hok⟩
    rw [hok] at hends
    exact ⟨r.1, hends.1⟩
  · rintro ⟨c, hline⟩
    exact ⟨_, parsecmd_complete hn hline⟩
  · rw [hok] at hends
    obtain ⟨hline, hbuf⟩ := hends
    obtain rfl : b = nulterminate c l.buffer := hbuf
    refine ⟨hline, fun c' hline' => ?_, fun w hw => ⟨line_words hline hw, readsAs_of_words (line_words hline) hw⟩⟩
    have heq := parsecmd_complete hn hline'
    rw [hok] at heq
    exact (Prod.mk.inj (Except.ok.inj heq)).1.symm

end Xv6.Sh
