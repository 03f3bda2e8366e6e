import Mathlib.Computability.Language
import Xv6.Sh.Code
/-!
# The regular expressions of grep (grep.c)

A pointer to a string is the list of the bytes from there on; the string ends
at the first NUL, and what is behind the list reads as NUL. `Matches` says what
a regular expression means, by the languages of its items.
-/

namespace Xv6.Grep

open Sh (chr)

abbrev Byte := BitVec 8

/-- `*s` -/
def deref (s : List Byte) : Byte := s.headD 0

mutual

/-- `matchhere`: search for `re` at the beginning of `text`. -/
def matchhere (re text : List Byte) : Bool :=
  if deref re = 0 then true
  else if deref re.tail = chr '*' then matchstar (deref re) (re.drop 2) text
  else if deref re = chr '$' ∧ deref re.tail = 0 then deref text = 0
  else if deref text ≠ 0 ∧ (deref re = chr '.' ∨ deref re = deref text) then matchhere re.tail text.tail
  else false
termination_by (re.length, text.length, 0)
decreasing_by
  all_goals
    cases re with
    | nil => contradiction
    | cons c re => simp; omega

/-- `matchstar`: search for `c*re` at the beginning of `text`. -/
def matchstar (c : Byte) (re text : List Byte) : Bool :=
  if matchhere re text then true
  else if deref text ≠ 0 ∧ (deref text = c ∨ c = chr '.') then matchstar c re text.tail
  else false
termination_by (re.length, text.length, 1)
decreasing_by
  · simp [Prod.lex_def]
  · cases text with
    | nil => simp_all [deref]
    | cons b text => simp [Prod.lex_def]

end

/-- The loop of `match`, from `text` on. -/
def matchLoop (re : List Byte) : List Byte → Bool
  | [] => matchhere re []
  | b :: text => if matchhere re (b :: text) then true else if b ≠ 0 then matchLoop re text else false

/-- `match` -/
def matchRe (re text : List Byte) : Bool :=
  if deref re = chr '^' then matchhere re.tail text else matchLoop re text

/-! ## What a regular expression means -/

inductive Item where
  | char (c : Byte)
  | star (c : Byte)

/-- A `.` stands for any character, every other character for itself. -/
def single (c : Byte) : Language Byte := { w | ∃ a, (c = chr '.' ∨ a = c) ∧ w = [a] }

open Computability in
def Item.lang : Item → Language Byte
  | .char c => single c
  | .star c => (single c)∗

/-- The items of a regular expression behind its `^`, and whether a `$` ends it. -/
def items : List Byte → List Item × Bool
  | [] => ([], false)
  | [c] => if c = chr '$' then ([], true) else ([.char c], false)
  | c :: d :: re =>
    if d = chr '*' then (.star c :: (items re).1, (items re).2)
    else (.char c :: (items (d :: re)).1, (items (d :: re)).2)

/-- The items match the beginning of the text, or all of it if `ends`. -/
def Here (r : List Item × Bool) (text : List Byte) : Prop :=
  ∃ mid post, text = mid ++ post ∧ mid ∈ (r.1.map Item.lang).prod ∧ (r.2 = true → post = [])

/-- A substring of the text is in the language of the items, at the beginning of the text
after a `^` and at its end before a `$`. -/
def Matches (re text : List Byte) : Prop :=
  let body := if re.head? = some (chr '^') then re.tail else re
  ∃ pre mid post, text = pre ++ mid ++ post ∧ mid ∈ ((items body).1.map Item.lang).prod ∧
    (re.head? = some (chr '^') → pre = []) ∧ ((items body).2 = true → post = [])

/-- The string at a pointer. -/
def cstr (s : List Byte) : List Byte := s.takeWhile (· ≠ 0)

/-! ## Items -/

section

variable {c : Byte} {is : List Item} {e : Bool} {text : List Byte}

theorem here_nil : Here ([], false) text := ⟨[], text, rfl, Language.mem_one _ |>.2 rfl, nofun⟩

theorem here_end : Here ([], true) text ↔ text = [] := by
  constructor
  · rintro ⟨mid, post, rfl, hmid, hpost⟩
    rw [hpost rfl, (Language.mem_one _).1 hmid]
    rfl
  · rintro rfl
    exact ⟨[], [], rfl, (Language.mem_one _).2 rfl, fun _ => rfl⟩

/-- A first item that takes one character, and then items `r'`. -/
theorem here_single (r' : List Item × Bool) {L : Language Byte} (hL : L = single c * (r'.1.map Item.lang).prod) :
    (∃ mid post, text = mid ++ post ∧ mid ∈ L ∧ (r'.2 = true → post = [])) ↔
      ∃ a rest, text = a :: rest ∧ (c = chr '.' ∨ a = c) ∧ Here r' rest := by
  subst hL
  constructor
  · rintro ⟨mid, post, rfl, hmid, hpost⟩
    obtain ⟨_, ⟨a, ha, rfl⟩, mid', hmid', rfl⟩ := Language.mem_mul.1 hmid
    exact ⟨a, mid' ++ post, rfl, ha, mid', post, rfl, hmid', hpost⟩
  · rintro ⟨a, rest, rfl, ha, mid, post, rfl, hmid, hpost⟩
    exact ⟨a :: mid, post, rfl, Language.mem_mul.2 ⟨[a], ⟨a, ha, rfl⟩, mid, hmid, rfl⟩, hpost⟩

theorem here_char : Here (.char c :: is, e) text ↔
    ∃ a rest, text = a :: rest ∧ (c = chr '.' ∨ a = c) ∧ Here (is, e) rest :=
  here_single (is, e) rfl

/-- No repetition, or one and then more. -/
theorem here_star : Here (.star c :: is, e) text ↔
    Here (is, e) text ∨ ∃ a rest, text = a :: rest ∧ (c = chr '.' ∨ a = c) ∧ Here (.star c :: is, e) rest := by
  have hunfold : ((Item.star c :: is).map Item.lang).prod =
      (is.map Item.lang).prod + single c * ((Item.star c :: is).map Item.lang).prod := by
    rw [List.map_cons, List.prod_cons, Item.lang, ← mul_assoc]
    nth_rewrite 1 [← Language.one_add_self_mul_kstar_eq_kstar]
    rw [add_mul, one_mul]
  rw [← here_single (.star c :: is, e) rfl]
  constructor
  · rintro ⟨mid, post, rfl, hmid, hpost⟩
    dsimp only at hmid
    rw [hunfold] at hmid
    obtain hmid | hmid := hmid
    · exact .inl ⟨mid, post, rfl, hmid, hpost⟩
    · exact .inr ⟨mid, post, rfl, hmid, hpost⟩
  · rintro (⟨mid, post, rfl, hmid, hpost⟩ | ⟨mid, post, rfl, hmid, hpost⟩)
    · exact ⟨mid, post, rfl, by dsimp only; rw [hunfold]; exact .inl hmid, hpost⟩
    · exact ⟨mid, post, rfl, by dsimp only; rw [hunfold]; exact .inr hmid, hpost⟩

end

/-! ## Strings -/

theorem cstr_of_deref {s : List Byte} (h : deref s = 0) : cstr s = [] := by
  cases s with
  | nil => rfl
  | cons b s => exact List.takeWhile_cons_of_neg (by simpa [deref] using h)

theorem cstr_cons {s : List Byte} (h : deref s ≠ 0) : cstr s = deref s :: cstr s.tail := by
  cases s with
  | nil => exact absurd rfl h
  | cons b s => exact List.takeWhile_cons_of_pos (by simpa [deref] using h)

theorem cstr_eq_nil {s : List Byte} : cstr s = [] ↔ deref s = 0 := by
  refine ⟨fun hs => ?_, cstr_of_deref⟩
  by_contra h
  rw [cstr_cons h] at hs
  cases hs

/-! ## The matcher -/

/-- `matchstar` tries all repetitions, if `matchhere` is right about the rest. -/
theorem matchstar_iff {c : Byte} {re : List Byte}
    (hre : ∀ text, matchhere re text = true ↔ Here (items (cstr re)) (cstr text)) (text : List Byte) :
    matchstar c re text = true ↔ Here (.star c :: (items (cstr re)).1, (items (cstr re)).2) (cstr text) := by
  induction text with
  | nil =>
    rw [matchstar, here_star, ← hre]
    simp [deref, cstr]
  | cons b text ih =>
    rw [matchstar, here_star, ← hre]
    by_cases hhere : matchhere re (b :: text) = true
    · simp [hhere]
    · rw [if_neg hhere]
      by_cases hb : b = 0
      · have hnil : cstr (b :: text) = [] := cstr_of_deref hb
        rw [if_neg (fun h => h.1 hb), hnil]
        simp [hhere]
      · have hcons : cstr (b :: text) = b :: cstr text := cstr_cons (s := b :: text) hb
        rw [hcons, List.tail_cons, or_iff_right hhere]
        have hderef : deref (b :: text) = b := rfl
        rw [hderef]
        constructor
        · intro h
          split at h
          · rename_i hgo
            exact ⟨b, _, rfl, hgo.2.symm, ih.1 h⟩
          · cases h
        · rintro ⟨a, rest, heq, ha, h⟩
          obtain ⟨rfl, rfl⟩ := List.cons.inj heq
          rw [if_pos ⟨hb, ha.symm⟩]
          exact ih.2 h

/-- One character and then the rest, where no `*` or final `$` is read. -/
theorem matchhere_char {re text : List Byte} (h0 : deref re ≠ 0) (hstar : deref re.tail ≠ chr '*')
    (hend : ¬(deref re = chr '$' ∧ deref re.tail = 0))
    (hre : ∀ text, matchhere re.tail text = true ↔ Here (items (cstr re.tail)) (cstr text)) :
    matchhere re text = true ↔
      Here (.char (deref re) :: (items (cstr re.tail)).1, (items (cstr re.tail)).2) (cstr text) := by
  rw [matchhere, if_neg h0, if_neg hstar, if_neg hend, here_char]
  by_cases ht : deref text = 0
  · rw [if_neg (fun h => h.1 ht), cstr_of_deref ht]
    simp
  · rw [cstr_cons ht]
    constructor
    · intro h
      split at h
      · rename_i hgo
        exact ⟨_, _, rfl, hgo.2.imp_right Eq.symm, (hre _).1 h⟩
      · cases h
    · rintro ⟨a, rest, heq, ha, h⟩
      obtain ⟨rfl, rfl⟩ := List.cons.inj heq
      rw [if_pos ⟨ht, ha.imp_right Eq.symm⟩]
      exact (hre _).2 h

theorem matchhere_iff (re text : List Byte) : matchhere re text = true ↔ Here (items (cstr re)) (cstr text) := by
  -- `matchhere` goes on with one or with two characters less of `re`
  induction hn : re.length using Nat.strong_induction_on generalizing re text with
  | _ n ih =>
    by_cases h0 : deref re = 0
    · rw [matchhere, if_pos h0, cstr_of_deref h0]
      exact iff_of_true rfl here_nil
    · have hlt : ∀ k, 0 < k → (re.drop k).length < n := by
        intro k hk
        have hpos : re.length ≠ 0 := fun h => h0 (by rw [List.length_eq_zero_iff.1 h]; rfl)
        rw [List.length_drop]
        omega
      have htail : re.tail = re.drop 1 := List.drop_one.symm
      by_cases hstar : deref re.tail = chr '*'
      · have hrec := fun text => ih _ (hlt 2 (by decide)) (re.drop 2) text rfl
        have hcons : cstr re = deref re :: chr '*' :: cstr (re.drop 2) := by
          rw [cstr_cons h0, cstr_cons (by rw [hstar]; decide), hstar, ← List.drop_one, htail, List.drop_drop]
        rw [matchhere, if_neg h0, if_pos hstar, matchstar_iff hrec, hcons, items, if_pos rfl]
      · by_cases hend : deref re = chr '$' ∧ deref re.tail = 0
        · rw [matchhere, if_neg h0, if_neg hstar, if_pos hend, cstr_cons h0, cstr_of_deref hend.2, items, if_pos hend.1,
            here_end, cstr_eq_nil, decide_eq_true_iff]
        · have hrec := fun text => ih _ (hlt 1 (by decide)) re.tail text (by rw [htail])
          rw [matchhere_char h0 hstar hend hrec, cstr_cons h0]
          by_cases h1 : deref re.tail = 0
          · rw [cstr_of_deref h1, items.eq_2, if_neg fun h => hend ⟨h, h1⟩]
            rfl
          · rw [cstr_cons h1, items.eq_3, if_neg hstar]

/-- The loop of `match` tries every place in the text, its end too. -/
theorem matchLoop_iff (re text : List Byte) :
    matchLoop re text = true ↔ ∃ pre rest, cstr text = pre ++ rest ∧ Here (items (cstr re)) rest := by
  induction text with
  | nil =>
    rw [matchLoop, matchhere_iff]
    constructor
    · exact fun h => ⟨[], [], rfl, h⟩
    · rintro ⟨pre, rest, heq, h⟩
      obtain ⟨-, rfl⟩ := List.append_eq_nil_iff.1 heq.symm
      exact h
  | cons b text ih =>
    have hsplit : (∃ pre rest, cstr (b :: text) = pre ++ rest ∧ Here (items (cstr re)) rest) ↔
        Here (items (cstr re)) (cstr (b :: text)) ∨
          b ≠ 0 ∧ ∃ pre rest, cstr text = pre ++ rest ∧ Here (items (cstr re)) rest := by
      constructor
      · rintro ⟨pre, rest, heq, h⟩
        cases pre with
        | nil => exact .inl (heq ▸ h)
        | cons a pre =>
          have hb : b ≠ 0 := fun hb => by rw [cstr_of_deref (s := b :: text) hb] at heq; cases heq
          rw [cstr_cons (s := b :: text) hb] at heq
          exact .inr ⟨hb, pre, rest, (List.cons.inj heq).2, h⟩
      · rintro (h | ⟨hb, pre, rest, heq, h⟩)
        · exact ⟨[], _, rfl, h⟩
        · refine ⟨b :: pre, rest, ?_, h⟩
          rw [cstr_cons (s := b :: text) hb, List.tail_cons, heq]
          rfl
    rw [hsplit, ← matchhere_iff, ← ih, matchLoop]
    by_cases hhere : matchhere re (b :: text) = true
    · simp [hhere]
    · by_cases hb : b = 0 <;> simp [hhere, hb]

/-- `match` finds what the regular expression means. -/
theorem match_iff_matches (re text : List Byte) : matchRe re text = true ↔ Matches (cstr re) (cstr text) := by
  have hhead : (cstr re).head? = some (chr '^') ↔ deref re = chr '^' := by
    by_cases h0 : deref re = 0
    · rw [cstr_of_deref h0, h0]
      decide
    · rw [cstr_cons h0]
      simp
  unfold matchRe Matches
  dsimp only
  by_cases hcaret : deref re = chr '^'
  · have htail : (cstr re).tail = cstr re.tail := by rw [cstr_cons (by rw [hcaret]; decide), List.tail_cons]
    rw [if_pos hcaret, if_pos (hhead.2 hcaret), htail, matchhere_iff]
    constructor
    · rintro ⟨mid, post, heq, hmid, hpost⟩
      exact ⟨[], mid, post, heq, hmid, fun _ => rfl, hpost⟩
    · rintro ⟨pre, mid, post, heq, hmid, hpre, hpost⟩
      rw [hpre (hhead.2 hcaret)] at heq
      exact ⟨mid, post, heq, hmid, hpost⟩
  · have hno : ¬ (cstr re).head? = some (chr '^') := fun h => hcaret (hhead.1 h)
    rw [if_neg hcaret, if_neg hno, matchLoop_iff]
    constructor
    · rintro ⟨pre, rest, heq, mid, post, rfl, hmid, hpost⟩
      exact ⟨pre, mid, post, by rw [heq, List.append_assoc], hmid, fun h => absurd h hno, hpost⟩
    · rintro ⟨pre, mid, post, heq, hmid, -, hpost⟩
      exact ⟨pre, mid ++ post, by rw [heq, List.append_assoc], mid, post, rfl, hmid, hpost⟩

end Xv6.Grep
