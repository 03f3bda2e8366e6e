import Xv6.Grep.Match
/-!
# grep on a stream (grep.c)

`read` returns the stream piece by piece. The buffer keeps what is left of a
line from one piece to the next, but only if there was a newline before it: a
piece without one is dropped, together with what was kept.
-/

namespace Xv6.Grep

open Sh (chr)

def nl : Byte := chr '\n'

def BUFSIZE : Nat := 1024

/-- `strchr`, as the distance from `s`. -/
def strchr (c : Byte) : List Byte → Option Nat
  | [] => none
  | b :: s => if b = 0 then none else if b = c then some 0 else (strchr c s).map (· + 1)

theorem strchr_lt {c : Byte} {s : List Byte} {k : Nat} (h : strchr c s = some k) : k < s.length := by
  induction s generalizing k with
  | nil => cases h
  | cons b s ih =>
    unfold strchr at h
    split at h
    · cases h
    · split at h
      · cases h
        exact Nat.zero_lt_succ _
      · obtain ⟨j, hj, rfl⟩ := Option.map_eq_some_iff.1 h
        exact Nat.succ_lt_succ (ih hj)

/-- The inner loop, from `p` on: the buffer, the end of the last line, and what is written. -/
def lineLoop (pattern buf : List Byte) (p : Nat) (out : List Byte) : List Byte × Nat × List Byte :=
  match h : strchr nl (buf.drop p) with
  | none => (buf, p, out)
  | some k =>
    let q := p + k
    let cut := buf.set q 0
    if matchRe pattern (cut.drop p) then
      let buf := cut.set q nl
      lineLoop pattern buf (q + 1) (out ++ (buf.drop p).take (q + 1 - p))
    else lineLoop pattern cut (q + 1) out
termination_by buf.length - p
decreasing_by
  all_goals
    have hlt := strchr_lt h
    rw [List.length_drop] at hlt
    simp only [List.length_set]
    omega

/-- `memmove(buf, buf + p, n)` -/
def memmove (buf : List Byte) (p n : Nat) : List Byte := (buf.drop p).take n ++ buf.drop n

/-- The loop over what `read` returns; none where that is more than was asked for. -/
def grepLoop (pattern : List Byte) : List (List Byte) → List Byte → Nat → List Byte → Option (List Byte)
  | [], _, _, out => some out
  | piece :: pieces, buf, m, out =>
    if BUFSIZE - m - 1 < piece.length then none
    else if piece = [] then some out
    else
      let buf := buf.take m ++ piece ++ buf.drop (m + piece.length)
      let m := m + piece.length
      let (buf, p, out) := lineLoop pattern (buf.set m 0) 0 out
      let m := if p = 0 then 0 else m
      if 0 < m then grepLoop pattern pieces (memmove buf p (m - p)) (m - p) out
      else grepLoop pattern pieces buf m out

/-- What `grep` writes, where the buffer holds anything in the beginning. -/
def grep (pattern buf : List Byte) (pieces : List (List Byte)) : Option (List Byte) := grepLoop pattern pieces buf 0 []

/-! ## Lines -/

def unlines (lines : List (List Byte)) : List Byte := lines.flatMap (· ++ [nl])

/-- The lines on which `match` succeeds. -/
def selected (pattern : List Byte) (lines : List (List Byte)) : List Byte := unlines (lines.filter (matchRe pattern))

/-- A line, or the beginning of one. -/
def Plain (l : List Byte) : Prop := 0 ∉ l ∧ nl ∉ l

instance : DecidablePred Plain := fun l => inferInstanceAs (Decidable (0 ∉ l ∧ nl ∉ l))

@[simp] theorem unlines_nil : unlines [] = [] := rfl

@[simp] theorem unlines_cons (l : List Byte) (lines : List (List Byte)) :
    unlines (l :: lines) = l ++ nl :: unlines lines := by
  simp [unlines]

theorem unlines_append (ls ls' : List (List Byte)) : unlines (ls ++ ls') = unlines ls ++ unlines ls' :=
  List.flatMap_append

theorem selected_cons (pattern l : List Byte) (lines : List (List Byte)) :
    selected pattern (l :: lines) = (if matchRe pattern l then l ++ [nl] else []) ++ selected pattern lines := by
  unfold selected
  rw [List.filter_cons]
  split <;> simp

theorem selected_append (pattern : List Byte) (ls ls' : List (List Byte)) :
    selected pattern (ls ++ ls') = selected pattern ls ++ selected pattern ls' := by
  rw [selected, List.filter_append, unlines_append]
  rfl

/-- Bytes without NUL are lines and the beginning of one. -/
theorem exists_lines (text : List Byte) (h : 0 ∉ text) :
    ∃ lines part, text = unlines lines ++ part ∧ (∀ l ∈ lines, Plain l) ∧ Plain part ∧ (lines = [] ↔ nl ∉ text) := by
  induction text with
  | nil => exact ⟨[], [], rfl, nofun, ⟨List.not_mem_nil, List.not_mem_nil⟩, by simp⟩
  | cons b text ih =>
    obtain ⟨hb, htext⟩ := not_or.1 (List.mem_cons.not.1 h)
    obtain ⟨lines, part, rfl, hlines, hpart, hnil⟩ := ih htext
    by_cases hnl : b = nl
    · refine ⟨[] :: lines, part, by simp [hnl], ?_, hpart, by simp [hnl]⟩
      exact List.forall_mem_cons.2 ⟨⟨List.not_mem_nil, List.not_mem_nil⟩, hlines⟩
    · have hcons {l : List Byte} (hl : Plain l) : Plain (b :: l) :=
        ⟨fun hm => (List.mem_cons.1 hm).elim hb hl.1, fun hm => (List.mem_cons.1 hm).elim (fun h => hnl h.symm) hl.2⟩
      cases lines with
      | nil => exact ⟨[], b :: part, by simp, nofun, hcons hpart, by simpa [Ne.symm hnl] using hpart.2⟩
      | cons l lines =>
        obtain ⟨hl, hlines⟩ := List.forall_mem_cons.1 hlines
        exact ⟨(b :: l) :: lines, part, by simp, List.forall_mem_cons.2 ⟨hcons hl, hlines⟩, hpart, by simp⟩

/-- A line ends at its newline. -/
theorem line_inj {l l' rest rest' : List Byte} (hl : nl ∉ l) (hl' : nl ∉ l') (h : l ++ nl :: rest = l' ++ nl :: rest') :
    l = l' ∧ rest = rest' := by
  induction l generalizing l' with
  | nil =>
    cases l' with
    | nil => exact ⟨rfl, (List.cons.inj h).2⟩
    | cons a l' => exact absurd ((List.cons.inj h).1 ▸ List.mem_cons_self) hl'
  | cons b l ih =>
    cases l' with
    | nil => exact absurd ((List.cons.inj h).1 ▸ List.mem_cons_self) hl
    | cons a l' =>
      obtain ⟨rfl, htail⟩ := List.cons.inj h
      obtain ⟨rfl, hrest⟩ :=
        ih (fun hm => hl (List.mem_cons_of_mem _ hm)) (fun hm => hl' (List.mem_cons_of_mem _ hm)) htail
      exact ⟨rfl, hrest⟩

theorem unlines_split {lines ls : List (List Byte)} {rest : List Byte} (hlines : ∀ l ∈ lines, Plain l)
    (hls : ∀ l ∈ ls, Plain l) (h : unlines lines = unlines ls ++ rest) :
    ∃ lines', lines = ls ++ lines' ∧ unlines lines' = rest := by
  induction ls generalizing lines with
  | nil => exact ⟨lines, rfl, h⟩
  | cons l ls ih =>
    cases lines with
    | nil => simp at h
    | cons l' lines =>
      rw [unlines_cons, unlines_cons, List.append_assoc, List.cons_append] at h
      obtain ⟨hl', hlines'⟩ := List.forall_mem_cons.1 hlines
      obtain ⟨hl, hls'⟩ := List.forall_mem_cons.1 hls
      obtain ⟨rfl, htail⟩ := line_inj hl'.2 hl.2 h
      obtain ⟨more, rfl, hrest⟩ := ih hlines' hls' htail
      exact ⟨more, rfl, hrest⟩

theorem zero_notMem_unlines {lines : List (List Byte)} (hlines : ∀ l ∈ lines, Plain l) : 0 ∉ unlines lines := by
  intro h0
  obtain ⟨l, hl, hmem⟩ := List.mem_flatMap.1 h0
  obtain hmem | hmem := List.mem_append.1 hmem
  · exact (hlines l hl).1 hmem
  · exact absurd (List.mem_singleton.1 hmem) (by decide)

/-! ## One piece -/

theorem matchRe_congr {re text text' : List Byte} (h : cstr text = cstr text') : matchRe re text = matchRe re text' := by
  rw [Bool.eq_iff_iff]
  unfold matchRe
  split
  · rw [matchhere_iff, matchhere_iff, h]
  · rw [matchLoop_iff, matchLoop_iff, h]

theorem cstr_append {l rest : List Byte} (h : 0 ∉ l) : cstr (l ++ 0 :: rest) = cstr l := by
  have hall : ∀ b ∈ l, decide (b ≠ 0) = true := fun b hb => decide_eq_true fun h0 => h (h0 ▸ hb)
  have hself : (l ++ []).takeWhile (fun b => decide (b ≠ 0)) = l := by
    rw [List.takeWhile_append_of_pos hall, List.takeWhile_nil, List.append_nil]
  rw [List.append_nil] at hself
  rw [cstr, cstr, List.takeWhile_append_of_pos hall, List.takeWhile_cons_of_neg (by decide), List.append_nil, hself]

theorem strchr_line {l rest : List Byte} (h : Plain l) : strchr nl (l ++ nl :: rest) = some l.length := by
  induction l with
  | nil => exact (if_neg (by decide)).trans (if_pos rfl)
  | cons b l ih =>
    obtain ⟨h0, h1⟩ := h
    rw [List.mem_cons, not_or] at h0 h1
    rw [List.cons_append, strchr, if_neg (Ne.symm h0.1), if_neg (Ne.symm h1.1), ih ⟨h0.2, h1.2⟩]
    rfl

theorem strchr_part {part rest : List Byte} (h : Plain part) : strchr nl (part ++ 0 :: rest) = none := by
  induction part with
  | nil => exact if_pos rfl
  | cons b part ih =>
    obtain ⟨h0, h1⟩ := h
    rw [List.mem_cons, not_or] at h0 h1
    rw [List.cons_append, strchr, if_neg (Ne.symm h0.1), if_neg (Ne.symm h1.1), ih ⟨h0.2, h1.2⟩]
    rfl

theorem drop_set {buf l rest : List Byte} {b c : Byte} {p : Nat} (h : buf.drop p = l ++ b :: rest) :
    (buf.set (p + l.length) c).drop p = l ++ c :: rest := by
  rw [List.drop_set, if_neg (by omega), Nat.add_sub_cancel_left, h, List.set_append_right _ _ (Nat.le_refl _), Nat.sub_self,
    List.set_cons_zero]

/-- The lines from `p` on are gone through, and the rest stays at its place. -/
theorem lineLoop_lines {lines : List (List Byte)} {part rest : List Byte} (pattern : List Byte)
    (hlines : ∀ l ∈ lines, Plain l) (hpart : Plain part) {buf : List Byte} {p : Nat} (out : List Byte)
    (hbuf : buf.drop p = unlines lines ++ (part ++ 0 :: rest)) :
    ∃ buf', lineLoop pattern buf p out = (buf', p + (unlines lines).length, out ++ selected pattern lines) ∧
      buf'.length = buf.length ∧ buf'.drop (p + (unlines lines).length) = part ++ 0 :: rest := by
  induction lines generalizing buf p out with
  | nil =>
    refine ⟨buf, ?_, rfl, hbuf⟩
    have hnone : strchr nl (buf.drop p) = none := by
      rw [hbuf]
      exact strchr_part hpart
    unfold lineLoop
    split
    · exact congrArg (fun o => (buf, p, o)) (List.append_nil out).symm
    · rename_i hsome
      rw [hnone] at hsome
      cases hsome
  | cons l lines ih =>
    obtain ⟨hl, hrest⟩ := List.forall_mem_cons.1 hlines
    rw [unlines_cons, List.append_assoc, List.cons_append] at hbuf
    have hsome : strchr nl (buf.drop p) = some l.length := by
      rw [hbuf]
      exact strchr_line hl
    have hcut := drop_set (c := 0) hbuf
    have hmatch : matchRe pattern ((buf.set (p + l.length) 0).drop p) = matchRe pattern l := by
      rw [hcut]
      exact matchRe_congr (cstr_append hl.1)
    have hback := drop_set (c := nl) hcut
    -- what is behind the line, whether or not its newline is put back
    have hnext {b : List Byte} {c : Byte} (hb : b.drop p = l ++ c :: (unlines lines ++ (part ++ 0 :: rest))) :
        b.drop (p + l.length + 1) = unlines lines ++ (part ++ 0 :: rest) := by
      rw [Nat.add_assoc, ← List.drop_drop, hb, List.drop_append, List.drop_eq_nil_of_le (Nat.le_succ _)]
      simp
    have hlen : p + (unlines (l :: lines)).length = p + l.length + 1 + (unlines lines).length := by
      rw [unlines_cons, List.length_append, List.length_cons]
      omega
    rw [hlen, selected_cons]
    unfold lineLoop
    split
    · rename_i hnone
      rw [hsome] at hnone
      cases hnone
    · rename_i k hk
      obtain rfl : l.length = k := Option.some.inj (hsome.symm.trans hk)
      dsimp only
      rw [hmatch]
      split
      · obtain ⟨buf', heq, hlen', hdrop⟩ := ih hrest (out ++ (l ++ [nl])) (hnext hback)
        refine ⟨buf', ?_, by rw [hlen', List.length_set, List.length_set], hdrop⟩
        have hwrite : ((((buf.set (p + l.length) 0).set (p + l.length) nl).drop p).take (p + l.length + 1 - p)) = l ++ [nl] := by
          rw [hback, Nat.add_assoc, Nat.add_sub_cancel_left, List.take_length_add_append]
          rfl
        rw [hwrite, heq, List.append_assoc]
      · obtain ⟨buf', heq, hlen', hdrop⟩ := ih hrest out (hnext hcut)
        exact ⟨buf', heq, by rw [hlen', List.length_set], hdrop⟩

/-! ## The stream -/

/-- The buffer between two reads: it begins with what is left of a line. -/
structure Holds (buf : List Byte) (m : Nat) (carry : List Byte) : Prop where
  length : buf.length = BUFSIZE
  size : m = carry.length
  bytes : buf.take m = carry
  plain : Plain carry

/-- One round: the lines are written, and the beginning of one is kept if there were any. -/
theorem grepLoop_piece {buf carry piece part : List Byte} {m : Nat} {ls : List (List Byte)} (hbuf : Holds buf m carry)
    (hne : piece ≠ []) (hfit : piece.length ≤ BUFSIZE - m - 1) (htext : carry ++ piece = unlines ls ++ part)
    (hls : ∀ l ∈ ls, Plain l) (hpart : Plain part) (pattern : List Byte) (pieces : List (List Byte)) (out : List Byte) :
    ∃ buf', Holds buf' (if ls = [] then 0 else part.length) (if ls = [] then [] else part) ∧
      grepLoop pattern (piece :: pieces) buf m out =
        grepLoop pattern pieces buf' (if ls = [] then 0 else part.length) (out ++ selected pattern ls) := by
  have hpos : 0 < piece.length := List.length_pos_iff.2 hne
  have hlen := congrArg List.length htext
  rw [List.length_append, List.length_append, ← hbuf.size] at hlen
  -- the text in the buffer, with the NUL behind it
  set full := buf.take m ++ piece ++ buf.drop (m + piece.length) with hfull
  have hroom : m + piece.length < buf.length := by
    rw [hbuf.length]
    omega
  obtain ⟨b, tail, htail⟩ := List.exists_cons_of_length_pos (l := buf.drop (m + piece.length)) (by
    rw [List.length_drop]
    omega)
  have hdrop : (full.set (m + piece.length) 0).drop 0 = unlines ls ++ (part ++ 0 :: tail) := by
    have hsplit : full.drop 0 = (carry ++ piece) ++ b :: tail := by rw [List.drop_zero, hfull, htail, hbuf.bytes]
    have hset := drop_set (c := 0) hsplit
    rw [Nat.zero_add, List.length_append, ← hbuf.size] at hset
    rw [hset, htext, List.append_assoc]
  obtain ⟨buf', hloop, hlen', hrest⟩ := lineLoop_lines pattern hls hpart out hdrop
  rw [Nat.zero_add] at hloop hrest
  have hsize : buf'.length = BUFSIZE := by
    rw [hlen', List.length_set, hfull, List.length_append, List.length_append, List.length_take, List.length_drop, ← hbuf.length]
    omega
  rw [grepLoop, if_neg (show ¬ BUFSIZE - m - 1 < piece.length by omega), if_neg hne]
  dsimp only
  rw [← hfull, hloop]
  dsimp only
  by_cases hnil : ls = []
  · subst hnil
    simp only [unlines_nil, List.length_nil, if_true, Nat.lt_irrefl, if_false]
    exact ⟨buf', ⟨hsize, rfl, rfl, List.not_mem_nil, List.not_mem_nil⟩, rfl⟩
  · have hlines : (unlines ls).length ≠ 0 := by
      obtain ⟨l, ls', rfl⟩ := List.exists_cons_of_ne_nil hnil
      simp
    rw [if_neg hnil, if_neg hnil, if_neg hlines, if_pos (by omega)]
    have hm : m + piece.length - (unlines ls).length = part.length := by omega
    rw [hm]
    refine ⟨_, ⟨?_, rfl, ?_, hpart⟩, rfl⟩
    · have hbehind := congrArg List.length hrest
      rw [List.length_drop, List.length_append] at hbehind
      rw [memmove, List.length_append, List.length_take, List.length_drop, List.length_drop]
      omega
    · rw [memmove, hrest, List.take_left, List.take_left]

/-- With a newline in every piece nothing is dropped. -/
theorem grepLoop_selected {pieces lines : List (List Byte)} {buf carry : List Byte} {m : Nat} (hbuf : Holds buf m carry)
    (hjoin : carry ++ pieces.flatten = unlines lines) (hlines : ∀ l ∈ lines, Plain l)
    (hnl : ∀ piece ∈ pieces, nl ∈ piece) (pattern out : List Byte) (hfit : (grepLoop pattern pieces buf m out).isSome) :
    grepLoop pattern pieces buf m out = some (out ++ selected pattern lines) := by
  induction pieces generalizing buf m carry lines out with
  | nil =>
    cases lines with
    | nil => exact congrArg some (List.append_nil out).symm
    | cons l lines =>
      rw [List.flatten_nil, List.append_nil, unlines_cons] at hjoin
      exact absurd (hjoin ▸ by simp) hbuf.plain.2
  | cons piece pieces ih =>
    obtain ⟨hnl1, hnls⟩ := List.forall_mem_cons.1 hnl
    have hne : piece ≠ [] := List.ne_nil_of_mem hnl1
    have hle : piece.length ≤ BUFSIZE - m - 1 := by
      by_contra hgt
      rw [grepLoop, if_pos (by omega)] at hfit
      cases hfit
    have hzero : 0 ∉ carry ++ piece := by
      intro h0
      refine zero_notMem_unlines hlines ?_
      rw [← hjoin, List.flatten_cons, ← List.append_assoc]
      exact List.mem_append_left _ h0
    obtain ⟨ls, part, htext, hls, hpart, hnil⟩ := exists_lines _ hzero
    have hsome : ls ≠ [] := fun h => hnil.1 h (List.mem_append_right _ hnl1)
    obtain ⟨buf', hbuf', heq⟩ := grepLoop_piece hbuf hne hle htext hls hpart pattern pieces out
    rw [if_neg hsome] at hbuf' heq
    rw [if_neg hsome] at hbuf'
    rw [List.flatten_cons, ← List.append_assoc, htext, List.append_assoc] at hjoin
    obtain ⟨more, rfl, hmore⟩ := unlines_split hlines hls hjoin.symm
    rw [heq] at hfit
    rw [heq, ih hbuf' hmore.symm (fun l hl => hlines l (List.mem_append_right _ hl)) hnls _ hfit, selected_append,
      List.append_assoc]

theorem selected_length (pattern : List Byte) (ls : List (List Byte)) :
    (selected pattern ls).length ≤ (unlines ls).length := by
  induction ls with
  | nil => exact Nat.le_refl _
  | cons l ls ih =>
    rw [selected_cons, unlines_cons, List.length_append, List.length_append, List.length_cons]
    split
    · rw [List.length_append, List.length_singleton]
      omega
    · rw [List.length_nil]
      omega

/-- No more is written than is read, and less if a piece has no newline. -/
theorem grepLoop_length {pieces : List (List Byte)} {buf carry : List Byte} {m : Nat} (hbuf : Holds buf m carry)
    (hzero : 0 ∉ pieces.flatten) (hne : ∀ piece ∈ pieces, piece ≠ []) {pattern out o : List Byte}
    (h : grepLoop pattern pieces buf m out = some o) :
    o.length ≤ out.length + carry.length + pieces.flatten.length ∧
      ((∃ piece ∈ pieces, nl ∉ piece) → o.length < out.length + carry.length + pieces.flatten.length) := by
  induction pieces generalizing buf m carry out with
  | nil =>
    obtain rfl : out = o := Option.some.inj h
    exact ⟨by simp, nofun⟩
  | cons piece pieces ih =>
    obtain ⟨hne1, hnes⟩ := List.forall_mem_cons.1 hne
    rw [List.flatten_cons, List.mem_append, not_or] at hzero
    have hle : piece.length ≤ BUFSIZE - m - 1 := by
      by_contra hgt
      rw [grepLoop, if_pos (by omega)] at h
      cases h
    have htextz : 0 ∉ carry ++ piece := fun h0 => (List.mem_append.1 h0).elim hbuf.plain.1 hzero.1
    obtain ⟨ls, part, htext, hls, hpart, hnil⟩ := exists_lines _ htextz
    obtain ⟨buf', hbuf', heq⟩ := grepLoop_piece hbuf hne1 hle htext hls hpart pattern pieces out
    rw [heq] at h
    obtain ⟨hall, hsome⟩ := ih hbuf' hzero.2 hnes h
    have hpos : 0 < piece.length := List.length_pos_iff.2 hne1
    have hsel := selected_length pattern ls
    have hlen := congrArg List.length htext
    rw [List.length_append, List.length_append] at hlen
    rw [List.flatten_cons, List.length_append]
    rw [List.length_append] at hall hsome
    by_cases hls0 : ls = []
    · subst hls0
      rw [if_pos rfl, List.length_nil] at hall
      rw [unlines_nil, List.length_nil] at hsel
      exact ⟨by omega, fun _ => by omega⟩
    · rw [if_neg hls0] at hall hsome
      have hnl1 : nl ∈ piece := by
        by_contra hno
        exact hls0 (hnil.2 fun hm => (List.mem_append.1 hm).elim hbuf.plain.2 hno)
      refine ⟨by omega, ?_⟩
      rintro ⟨q, hq, hnlq⟩
      obtain rfl | hq := List.mem_cons.1 hq
      · exact absurd hnl1 hnlq
      · have := hsome ⟨q, hq, hnlq⟩
        omega

/-- The empty pattern matches every line. -/
theorem selected_nil (lines : List (List Byte)) : selected [] lines = unlines lines := by
  have hmatch : ∀ text : List Byte, matchRe [] text = true := by
    intro text
    have hhere : ∀ t : List Byte, matchhere [] t = true := fun t => by rw [matchhere, if_pos (show deref [] = 0 from rfl)]
    rw [matchRe, if_neg (by decide)]
    cases text with
    | nil => exact hhere []
    | cons b text => rw [matchLoop, if_pos (hhere _)]
  rw [selected, List.filter_eq_self.2 fun l _ => hmatch l]

/-- `grep` writes the lines that match, whatever the pattern is, just if `read` returns a
newline each time. -/
theorem grep_selects_iff {buf : List Byte} (hbuf : buf.length = BUFSIZE) {lines pieces : List (List Byte)}
    (hlines : ∀ l ∈ lines, Plain l) (hjoin : pieces.flatten = unlines lines) (hne : ∀ piece ∈ pieces, piece ≠ [])
    (hfit : ∀ pattern, (grep pattern buf pieces).isSome) :
    (∀ pattern, grep pattern buf pieces = some (selected pattern lines)) ↔ ∀ piece ∈ pieces, nl ∈ piece := by
  have hholds : Holds buf 0 [] := ⟨hbuf, rfl, rfl, List.not_mem_nil, List.not_mem_nil⟩
  constructor
  · intro hall
    by_contra hno
    push Not at hno
    have hlen := (grepLoop_length hholds (hjoin ▸ zero_notMem_unlines hlines) hne (hall [])).2 hno
    rw [selected_nil, hjoin] at hlen
    simp at hlen
  · intro hnl pattern
    exact grepLoop_selected hholds hjoin hlines hnl pattern [] (hfit pattern)

theorem grep_one_piece : grep [chr 'b'] (List.replicate BUFSIZE 0) [[chr 'a', chr 'b', nl]] =
    some (selected [chr 'b'] [[chr 'a', chr 'b']]) := by
  have hplain : ∀ l ∈ [[chr 'a', chr 'b']], Plain l := by decide
  have hjoin : [[chr 'a', chr 'b', nl]].flatten = unlines [[chr 'a', chr 'b']] := rfl
  refine (grep_selects_iff (List.length_replicate ..) hplain hjoin (by decide) fun pattern => ?_).2 (by decide) _
  rw [grep, grepLoop, if_neg (by decide), if_neg (by decide)]
  dsimp only
  split <;> rfl

/-- The line `ab` arrives in two pieces, and its `a` is lost. -/
theorem grep_two_pieces : grep [] (List.replicate BUFSIZE 0) [[chr 'a'], [chr 'b', nl]] = some [chr 'b', nl] := by
  have hholds : Holds (List.replicate BUFSIZE 0) 0 [] :=
    ⟨List.length_replicate .., rfl, rfl, List.not_mem_nil, List.not_mem_nil⟩
  have hnone : ∀ l ∈ ([] : List (List Byte)), Plain l := nofun
  have hplain : ∀ l ∈ [[chr 'b']], Plain l := by decide
  have ha : [] ++ [chr 'a'] = unlines [] ++ [chr 'a'] := rfl
  have hb : [] ++ [chr 'b', nl] = unlines [[chr 'b']] ++ [] := rfl
  obtain ⟨buf₁, h₁, heq₁⟩ := grepLoop_piece hholds (by decide) (by decide) ha hnone (by decide) [] [[chr 'b', nl]] []
  obtain ⟨buf₂, h₂, heq₂⟩ := grepLoop_piece h₁ (by decide) (by decide) hb hplain (by decide) [] [] ([] ++ selected [] [])
  rw [grep, heq₁, heq₂, selected_nil, selected_nil]
  rfl

end Xv6.Grep
