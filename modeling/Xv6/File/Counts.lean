import Mathlib.Algebra.BigOperators.Fin
import Xv6.Lib.Outcome
import Xv6.Lib.Sums
import Xv6.File.Code
/-!
# References to files

`Inv t n` for a file table where `n` counts the references to each file: `ref`
counts them, a file without references is not open, and a pipe has an end
open just while a file is open as that end. The functions of file.c and
pipe.c keep it. What a close releases is what the table no longer refers to,
the page of a pipe or an inode.
-/

namespace Xv6

open Outcome

/-! ## Descriptors -/

theorem fdalloc_some {o : Ofile} {fd : Fd} (h : fdalloc o = some fd) : o fd = none := by
  simpa using List.find?_some h

theorem fdalloc_none {o : Ofile} : fdalloc o = none ↔ ∀ fd, o fd ≠ none := by
  simp [fdalloc]

namespace Ofile

variable {o : Ofile} {f : FileId} {fd : Fd}

theorem count_slots (o : Ofile) (f : FileId) : o.slots.count f = ∑ fd, if o fd = some f then 1 else 0 := by
  have hlist (l : List Fd) : (l.filterMap o).count f = (l.map fun fd => if o fd = some f then 1 else 0).sum := by
    induction l with
    | nil => rfl
    | cons fd l ih =>
      rw [List.map_cons, List.sum_cons, ← ih]
      cases hfd : o fd with
      | none => simp [hfd]
      | some g => simp [hfd, List.count_cons, add_comm]
  rw [Fin.sum_univ_def]
  exact hlist _

/-- What pointing a descriptor elsewhere does to the count. -/
theorem count_update (o : Ofile) (fd : Fd) (x : Option FileId) (f : FileId) :
    (slots (Function.update o fd x)).count f + (if o fd = some f then 1 else 0) =
      o.slots.count f + if x = some f then 1 else 0 := by
  have hsum := Sums.sum_move (f := fun c => if o c = some f then 1 else 0)
    (g := fun c => if Function.update o fd x c = some f then 1 else 0) fd
    (fun c hc => by rw [Function.update_of_ne hc])
  rw [Function.update_self] at hsum
  rw [count_slots, count_slots]
  exact hsum

theorem mem_slots (h : o fd = some f) : f ∈ o.slots := List.mem_filterMap.2 ⟨fd, List.mem_finRange fd, h⟩

end Ofile

/-! ## What a table refers to -/

section

variable {I : Type}

def FdType.page : FdType I → Option Page
  | .pipe p => some p
  | _ => Option.none

def Released.pages : Released I → Multiset Page
  | .page p => {p}
  | _ => 0

variable [DecidableEq I]

def FdType.holds : FdType I → I → Nat
  | .inode j, ip => if j = ip then 1 else 0
  | _, _ => 0

def Released.holds : Released I → I → Nat
  | .inode j, ip => if j = ip then 1 else 0
  | _, _ => 0

end

def PipeEnds.isOpen (e : PipeEnds) (writable : Bool) : Bool := if writable then e.writeopen else e.readopen

namespace Ftable

variable {I K : Type} {t t' : Ftable I} {f g : FileId} {x : File I} {p q : Page} {w : Bool}

/-- File `f` is open as an end of the pipe in page `p`. -/
def IsEnd (t : Ftable I) (p : Page) (w : Bool) (f : FileId) : Prop :=
  (t.file f).type = .pipe p ∧ (t.file f).writable = w

/-- The pages of the pipes that files are open for. -/
def livePipes (t : Ftable I) : Finset Page := (Finset.univ.image fun f => (t.file f).type.page).eraseNone

/-- How many files are open for an inode. -/
@[irreducible] def users [DecidableEq I] (t : Ftable I) (ip : I) : Nat := ∑ f, (t.file f).type.holds ip

theorem mem_livePipes : p ∈ t.livePipes ↔ ∃ w f, t.IsEnd p w f := by
  rw [livePipes, Finset.mem_eraseNone, Finset.mem_image]
  constructor
  · rintro ⟨f, -, hf⟩
    cases hx : (t.file f).type with
    | pipe q =>
      rw [hx] at hf
      obtain rfl : q = p := Option.some.inj hf
      exact ⟨_, f, hx, rfl⟩
    | none => rw [hx] at hf; cases hf
    | inode ip => rw [hx] at hf; cases hf
  · rintro ⟨w, f, hf, -⟩
    exact ⟨f, Finset.mem_univ f, by rw [hf]; rfl⟩

@[simp] theorem set_self : (t.set f x).file f = x := Function.update_self ..

theorem set_of_ne (h : g ≠ f) : (t.set f x).file g = t.file g := Function.update_of_ne h ..

theorem set_set {y : File I} : (t.set f x).set f y = t.set f y := by
  unfold set
  rw [Function.update_idem]

theorem set_comm {y : File I} (h : f ≠ g) : (t.set f x).set g y = (t.set g y).set f x := by
  unfold set
  rw [Function.update_comm h]

@[simp] theorem setPipe_self {e : Option PipeEnds} : (t.setPipe p e).pipe p = e := Function.update_self ..

theorem setPipe_of_ne {e : Option PipeEnds} (h : q ≠ p) : (t.setPipe p e).pipe q = t.pipe q := Function.update_of_ne h ..

theorem users_set [DecidableEq I] (ip : I) :
    (t.set f x).users ip + (t.file f).type.holds ip = t.users ip + x.type.holds ip := by
  have hsum := Sums.sum_move (f := fun g => (t.file g).type.holds ip)
    (g := fun g => ((t.set f x).file g).type.holds ip) f (fun g hg => by rw [set_of_ne hg])
  rw [set_self] at hsum
  unfold users
  exact hsum

theorem isEnd_set : (t.set f x).IsEnd p w g ↔ if g = f then x.type = .pipe p ∧ x.writable = w else t.IsEnd p w g := by
  unfold IsEnd
  by_cases hg : g = f
  · rw [if_pos hg, hg, set_self]
  · rw [if_neg hg, set_of_ne hg]

/-! ## The invariant -/

structure Inv (t : Ftable I) (n : FileId → Nat) : Prop where
  ref : ∀ f, (t.file f).ref = n f
  closed : ∀ f, (t.file f).ref = 0 → (t.file f).type = .none
  one : ∀ p w f g, t.IsEnd p w f → t.IsEnd p w g → f = g
  ends : ∀ p w, (∃ e, t.pipe p = some e ∧ e.isOpen w = true) ↔ ∃ f, t.IsEnd p w f
  used : ∀ p e, t.pipe p = some e → ∃ w, e.isOpen w = true

variable {n n' : FileId → Nat}

theorem Inv.pipe_none (h : Inv t n) : t.pipe p = none ↔ p ∉ t.livePipes := by
  rw [mem_livePipes]
  constructor
  · rintro hp ⟨w, f, hf⟩
    obtain ⟨e, he, -⟩ := (h.ends p w).2 ⟨f, hf⟩
    rw [hp] at he
    cases he
  · intro hp
    by_contra hne
    obtain ⟨e, he⟩ := Option.ne_none_iff_exists'.1 hne
    obtain ⟨w, hw⟩ := h.used p e he
    exact hp ⟨w, (h.ends p w).1 ⟨e, he, hw⟩⟩

/-- The same files are ends of pipes, with other numbers of references. -/
theorem Inv.recount (h : Inv t n) (hend : ∀ p w g, (t.set f x).IsEnd p w g ↔ t.IsEnd p w g)
    (hx : x.ref = 0 → x.type = .none) (hself : x.ref = n' f) (hother : ∀ g, g ≠ f → n' g = n g) :
    Inv (t.set f x) n' := by
  constructor
  · intro g
    by_cases hg : g = f
    · rw [hg, set_self, hself]
    · rw [set_of_ne hg, hother g hg, h.ref]
  · intro g
    by_cases hg : g = f
    · rw [hg, set_self]
      exact hx
    · rw [set_of_ne hg]
      exact h.closed g
  · intro p w g₁ g₂ h₁ h₂
    exact h.one p w g₁ g₂ ((hend ..).1 h₁) ((hend ..).1 h₂)
  · intro p w
    simp only [hend]
    exact h.ends p w
  · exact h.used

theorem isEnd_same (hx : x.type = (t.file f).type) (hw : x.writable = (t.file f).writable) :
    (t.set f x).IsEnd p w g ↔ t.IsEnd p w g := by
  rw [isEnd_set]
  by_cases hg : g = f
  · rw [if_pos hg, hg, hx, hw]
    rfl
  · rw [if_neg hg]

/-- No end of a pipe is made or lost. -/
theorem isEnd_plain (hx : x.type.page = none) (hf : (t.file f).type.page = none) :
    (t.set f x).IsEnd p w g ↔ t.IsEnd p w g := by
  have hno {y : File I} (hy : y.type.page = none) : y.type ≠ .pipe p := by
    intro hp
    rw [hp] at hy
    cases hy
  rw [isEnd_set]
  by_cases hg : g = f
  · rw [if_pos hg, hg]
    exact ⟨fun h => absurd h.1 (hno hx), fun h => absurd h.1 (hno hf)⟩
  · rw [if_neg hg]

theorem livePipes_congr (h : ∀ p w g, t'.IsEnd p w g ↔ t.IsEnd p w g) : t'.livePipes = t.livePipes := by
  ext p
  simp only [mem_livePipes, h]

/-! ## Opening and closing -/

/-- Files are open for what they were open for. -/
structure Kept (t t' : Ftable I) : Prop where
  type : ∀ g, (t'.file g).type = (t.file g).type
  writable : ∀ g, (t'.file g).writable = (t.file g).writable
  pipe : t'.pipe = t.pipe

namespace Kept

theorem refl (t : Ftable I) : Kept t t := ⟨fun _ => rfl, fun _ => rfl, rfl⟩

theorem trans {u : Ftable I} (h : Kept t t') (h' : Kept t' u) : Kept t u :=
  ⟨fun g => (h'.type g).trans (h.type g), fun g => (h'.writable g).trans (h.writable g), h'.pipe.trans h.pipe⟩

theorem set_ref (t : Ftable I) (f : FileId) (r : Nat) : Kept t (t.set f { t.file f with ref := r }) := by
  refine ⟨fun g => ?_, fun g => ?_, rfl⟩ <;>
  · by_cases hg : g = f
    · rw [hg, set_self]
    · rw [set_of_ne hg]

theorem livePipes (h : Kept t t') : t'.livePipes = t.livePipes := by
  refine livePipes_congr fun p w g => ?_
  rw [IsEnd, IsEnd, h.type, h.writable]

theorem users [DecidableEq I] (h : Kept t t') (ip : I) : t'.users ip = t.users ip := by
  unfold Ftable.users
  simp only [h.type]

end Kept

theorem Inv.set_ref (h : Inv t n) {r : Nat} (hr : r = 0 → (t.file f).type = .none) :
    Inv (t.set f { t.file f with ref := r }) (Function.update n f r) :=
  h.recount (fun _ _ _ => isEnd_same rfl rfl) hr (by rw [Function.update_self]) fun _ hg =>
    Function.update_of_ne hg ..

theorem filealloc_some (ha : t.filealloc = some (f, t')) :
    (t.file f).ref = 0 ∧ t' = t.set f { t.file f with ref := 1 } := by
  obtain ⟨g, hg, heq⟩ := Option.map_eq_some_iff.1 ha
  obtain ⟨rfl, rfl⟩ := Prod.mk.inj heq
  exact ⟨by simpa using List.find?_some hg, rfl⟩

theorem filealloc_none : t.filealloc = none ↔ ∀ f, (t.file f).ref ≠ 0 := by
  simp [Ftable.filealloc]

theorem Inv.filealloc (h : Inv t n) (ha : t.filealloc = some (f, t')) :
    n f = 0 ∧ (t.file f).type = .none ∧ Kept t t' ∧ Inv t' (Function.update n f 1) := by
  obtain ⟨href, rfl⟩ := filealloc_some ha
  refine ⟨by rw [← h.ref, href], h.closed f href, .set_ref t f 1, h.set_ref nofun⟩

theorem Inv.filedup (h : Inv t n) (hf : 0 < n f) :
    Ends (fun _ => False) (t.filedup f) fun t' => Kept t t' ∧ Inv t' (Function.update n f (n f + 1)) := by
  unfold Ftable.filedup
  rw [h.ref, if_neg (by omega)]
  exact ⟨.set_ref t f _, h.set_ref nofun⟩

/-- A reference more to each file of a list. -/
theorem Inv.dupAll (l : List FileId) (h : Inv t n) (hpos : ∀ f ∈ l, 0 < n f) :
    Ends (fun _ => False) (l.foldlM Ftable.filedup t) fun t' => Kept t t' ∧ Inv t' fun f => n f + l.count f := by
  induction l generalizing t n with
  | nil => exact ⟨.refl t, h⟩
  | cons f l ih =>
    rw [List.foldlM_cons]
    refine (h.filedup (hpos f (List.mem_cons_self ..))).bind fun t₁ ht₁ => ?_
    refine (ih ht₁.2 fun g hg => ?_).mono fun t₂ ht₂ => ⟨ht₁.1.trans ht₂.1, ?_⟩
    · have := hpos g (List.mem_cons_of_mem _ hg)
      by_cases hgf : g = f
      · rw [hgf, Function.update_self]
        omega
      · rwa [Function.update_of_ne hgf]
    · have hn : (fun g => n g + (f :: l).count g) = fun g => Function.update n f (n f + 1) g + l.count g := by
        funext g
        by_cases hgf : g = f
        · rw [hgf, Function.update_self, List.count_cons_self]
          omega
        · rw [Function.update_of_ne hgf, List.count_cons_of_ne (Ne.symm hgf)]
      rw [hn]
      exact ht₂.2

/-- What a close does: it releases what the table no longer refers to. -/
structure Closed (t : Ftable I) (f : FileId) (r : Released I × Ftable I) : Prop where
  pages : r.1.pages + r.2.livePipes.val = t.livePipes.val
  type : ∀ g, (r.2.file g).type = (t.file g).type ∨ (r.2.file g).type = .none
  writable : ∀ g, (r.2.file g).writable = (t.file g).writable

theorem Closed.of_kept (h : Kept t t') : Closed t f (.nothing, t') :=
  ⟨by rw [h.livePipes]; exact zero_add _, fun g => .inl (h.type g), h.writable⟩

/-- The file `f`, an end of the pipe in page `p`, closed. -/
def shut (t : Ftable I) (f : FileId) : Ftable I := t.set f { t.file f with ref := 0, type := .none }

theorem shut_type (g : FileId) : ((t.shut f).file g).type = (t.file g).type ∨ ((t.shut f).file g).type = .none := by
  by_cases hg : g = f
  · rw [hg, shut, set_self]
    exact .inr rfl
  · rw [shut, set_of_ne hg]
    exact .inl rfl

theorem shut_writable (g : FileId) : ((t.shut f).file g).writable = (t.file g).writable := by
  by_cases hg : g = f
  · rw [hg, shut, set_self]
  · rw [shut, set_of_ne hg]

theorem Inv.isEnd_shut (h : Inv t n) (hf : t.IsEnd p w f) {v : Bool} :
    (t.shut f).IsEnd q v g ↔ t.IsEnd q v g ∧ ¬(q = p ∧ v = w) := by
  rw [shut, isEnd_set]
  by_cases hg : g = f
  · rw [if_pos hg, hg]
    refine ⟨fun hend => absurd hend.1 nofun, fun ⟨hend, hne⟩ => absurd ⟨?_, hend.2.symm.trans hf.2⟩ hne⟩
    exact FdType.pipe.inj (hend.1.symm.trans hf.1)
  · rw [if_neg hg]
    refine ⟨fun hend => ⟨hend, ?_⟩, And.left⟩
    rintro ⟨rfl, rfl⟩
    exact hg (h.one _ _ _ _ hend hf)

/-- The pipe is told that its end is closed. -/
theorem Inv.shut_pipe (h : Inv t n) (hf : t.IsEnd p w f) {e : PipeEnds} (he : t.pipe p = some e) {x : Option PipeEnds}
    (hx : ∀ v, (∃ e', x = some e' ∧ e'.isOpen v = true) ↔ e.isOpen v = true ∧ v ≠ w)
    (hused : ∀ e', x = some e' → ∃ v, e'.isOpen v = true) :
    Inv ((t.shut f).setPipe p x) (Function.update n f 0) := by
  have hend : ∀ q v g, ((t.shut f).setPipe p x).IsEnd q v g ↔ t.IsEnd q v g ∧ ¬(q = p ∧ v = w) :=
    fun q v g => h.isEnd_shut hf
  constructor
  · intro g
    change ((t.shut f).file g).ref = _
    by_cases hg : g = f
    · rw [hg, shut, set_self, Function.update_self]
    · rw [shut, set_of_ne hg, Function.update_of_ne hg, h.ref]
  · intro g
    change ((t.shut f).file g).ref = 0 → ((t.shut f).file g).type = .none
    by_cases hg : g = f
    · rw [hg, shut, set_self]
      exact fun _ => rfl
    · rw [shut, set_of_ne hg]
      exact h.closed g
  · intro q v g₁ g₂ h₁ h₂
    exact h.one q v g₁ g₂ ((hend ..).1 h₁).1 ((hend ..).1 h₂).1
  · intro q v
    simp only [hend]
    by_cases hq : q = p
    · subst hq
      rw [setPipe_self, hx v, exists_and_right, ← h.ends q v, he]
      simp
    · have hpipe : (t.shut f).pipe q = t.pipe q := rfl
      rw [setPipe_of_ne hq, hpipe, h.ends q v]
      simp [hq]
  · intro q e' hq
    by_cases hqp : q = p
    · subst hqp
      rw [setPipe_self] at hq
      exact hused e' hq
    · rw [setPipe_of_ne hqp] at hq
      exact h.used q e' hq

theorem Inv.pipeclose (h : Inv t n) (hf : t.IsEnd p w f) :
    Ends (fun _ => False) ((t.shut f).pipeclose p w) fun r => Inv r.2 (Function.update n f 0) ∧ Closed t f r := by
  obtain ⟨e, he, hopen⟩ := (h.ends p w).2 ⟨f, hf⟩
  have hpipe : (t.shut f).pipe p = some e := he
  unfold Ftable.pipeclose
  rw [hpipe]
  dsimp only
  set e' : PipeEnds := if w then { e with writeopen := false } else { e with readopen := false } with he'
  have hclosed : ∀ v, e'.isOpen v = true ↔ e.isOpen v = true ∧ v ≠ w := by
    intro v
    rw [he']
    cases v <;> cases w <;> simp [PipeEnds.isOpen]
  split
  · -- the other end was closed before: the page is released
    rename_i hboth
    have hno : ∀ v, e'.isOpen v = false := by
      intro v
      cases v
      · exact hboth.1
      · exact hboth.2
    have hinv := h.shut_pipe hf he (x := none) (fun v => by simp [← hclosed, hno]) nofun
    refine ⟨hinv, ?_, shut_type, shut_writable⟩
    have hgone : p ∉ ((t.shut f).setPipe p none).livePipes := hinv.pipe_none.1 setPipe_self
    have hins : t.livePipes = insert p ((t.shut f).setPipe p none).livePipes := by
      ext q
      rw [Finset.mem_insert]
      by_cases hq : q = p
      · subst hq
        simpa using mem_livePipes.2 ⟨w, f, hf⟩
      · rw [← not_iff_not, not_or, ← h.pipe_none, ← hinv.pipe_none, setPipe_of_ne hq]
        exact ⟨fun hn => ⟨hq, hn⟩, And.right⟩
    rw [hins, Finset.insert_val_of_notMem hgone]
    rfl
  · rename_i hboth
    have hinv := h.shut_pipe hf he (x := some e') (fun v => by simp [hclosed]) (by
      rintro _ ⟨⟩
      rw [not_and_or] at hboth
      obtain hr | hw := hboth
      · exact ⟨false, by simpa [PipeEnds.isOpen] using hr⟩
      · exact ⟨true, by simpa [PipeEnds.isOpen] using hw⟩)
    refine ⟨hinv, ?_, shut_type, shut_writable⟩
    have hsame : ((t.shut f).setPipe p (some e')).livePipes = t.livePipes := by
      ext q
      rw [← not_iff_not, ← h.pipe_none, ← hinv.pipe_none]
      by_cases hq : q = p
      · subst hq
        simp [he]
      · rw [setPipe_of_ne hq]
        rfl
    rw [hsame]
    exact zero_add _

theorem Inv.fileclose (h : Inv t n) (hf : 0 < n f) :
    Ends (fun _ => False) (t.fileclose f) fun r => Inv r.2 (Function.update n f (n f - 1)) ∧ Closed t f r := by
  unfold Ftable.fileclose
  dsimp only
  rw [h.ref, if_neg (by omega)]
  split
  · have hset := h.set_ref (f := f) (r := n f - 1) (fun hz => by omega)
    exact ⟨hset, .of_kept (.set_ref t f _)⟩
  · rename_i hlast
    have hn : n f - 1 = 0 := by omega
    rw [hn]
    -- a file that is no end of a pipe
    have hplain (hno : (t.file f).type.page = none) : Inv (t.shut f) (Function.update n f 0) ∧
        (t.shut f).livePipes = t.livePipes := by
      have hend : ∀ p w g, (t.shut f).IsEnd p w g ↔ t.IsEnd p w g := fun _ _ _ => isEnd_plain rfl hno
      exact ⟨h.recount hend (fun _ => rfl) (by rw [Function.update_self]) fun _ hg => Function.update_of_ne hg ..,
        livePipes_congr hend⟩
    cases htype : (t.file f).type with
    | none =>
      obtain ⟨hinv, hlive⟩ := hplain (by rw [htype]; rfl)
      exact ⟨hinv, (zero_add _).trans (congrArg Finset.val hlive), shut_type, shut_writable⟩
    | pipe p => exact h.pipeclose ⟨htype, rfl⟩
    | inode ip =>
      obtain ⟨hinv, hlive⟩ := hplain (by rw [htype]; rfl)
      exact ⟨hinv, (zero_add _).trans (congrArg Finset.val hlive), shut_type, shut_writable⟩

/-- The inode that is released is the one that has a file less. -/
theorem users_fileclose [DecidableEq I] (ip : I) :
    Ends (fun _ => True) (t.fileclose f) fun r => r.1.holds ip + r.2.users ip = t.users ip := by
  unfold Ftable.fileclose
  dsimp only
  split
  · trivial
  · split
    · exact (zero_add _).trans ((Kept.set_ref t f _).users ip)
    · have hset := users_set (t := t) (f := f) (x := { t.file f with ref := 0, type := .none }) ip
      cases htype : (t.file f).type with
      | none =>
        rw [htype] at hset
        exact (zero_add _).trans (by simpa [FdType.holds] using hset)
      | pipe p =>
        rw [htype] at hset
        have hpipe : Ends (fun _ => True) ((t.shut f).pipeclose p (t.file f).writable) fun r =>
            r.1.holds ip = 0 ∧ r.2.file = (t.shut f).file := by
          unfold Ftable.pipeclose
          split
          · trivial
          · rename_i e _
            dsimp only
            generalize (if (t.file f).writable = true then { e with writeopen := false } else
              { e with readopen := false } : PipeEnds) = e'
            split
            · exact ⟨rfl, rfl⟩
            · exact ⟨rfl, rfl⟩
        refine hpipe.mono fun r hr => ?_
        have husers : r.2.users ip = (t.shut f).users ip := by
          unfold users
          rw [hr.2]
        rw [hr.1, husers]
        simpa [FdType.holds, shut] using hset
      | inode j =>
        rw [htype] at hset
        simp only [FdType.holds, add_zero] at hset
        rw [← hset, add_comm]
        rfl

/-! ## Pipes -/

/-- Closing a file that is not open for anything yet. -/
theorem fileclose_none (href : (t.file f).ref = 1) (htype : (t.file f).type = .none) :
    t.fileclose f = .ok (.nothing, t.set f { t.file f with ref := 0 }) := by
  unfold Ftable.fileclose
  simp only [href, htype]
  rw [if_neg (by decide), if_neg (by decide), ← htype]

theorem set_file (t : Ftable I) (f : FileId) : t.set f (t.file f) = t := by
  unfold set
  rw [Function.update_eq_self]

/-- A pipe in page `p`, with the files `f0` and `f1` for its ends. -/
structure Opened (t : Ftable I) (f0 f1 : FileId) (p : Page) (t' : Ftable I) : Prop where
  ne : f0 ≠ f1
  fresh : (t.file f0).ref = 0 ∧ (t.file f1).ref = 0
  file : ∀ g, g ≠ f0 → g ≠ f1 → t'.file g = t.file g
  ref : (t'.file f0).ref = 1 ∧ (t'.file f1).ref = 1
  read : t'.IsEnd p false f0
  write : t'.IsEnd p true f1
  pipe : t'.pipe = Function.update t.pipe p (some ⟨true, true⟩)

namespace Opened

variable {f0 f1 : FileId}

theorem isEnd (h : Opened t f0 f1 p t') (ht : Inv t n) {v : Bool} :
    t'.IsEnd q v g ↔ (q = p ∧ g = if v then f1 else f0) ∨ t.IsEnd q v g := by
  have hnew {f : FileId} {w : Bool} (hf : t'.IsEnd p w f) (href : (t.file f).ref = 0) :
      t'.IsEnd q v f ↔ (q = p ∧ v = w) ∨ t.IsEnd q v f := by
    have hclosed : ¬ t.IsEnd q v f := by
      intro hend
      rw [IsEnd, ht.closed f href] at hend
      exact nomatch hend.1
    constructor
    · intro hend
      exact .inl ⟨FdType.pipe.inj (hend.1.symm.trans hf.1), hend.2.symm.trans hf.2⟩
    · rintro (⟨rfl, rfl⟩ | hend)
      · exact hf
      · exact absurd hend hclosed
  by_cases h0 : g = f0
  · subst h0
    rw [hnew h.read h.fresh.1]
    cases v <;> simp [h.ne]
  · by_cases h1 : g = f1
    · subst h1
      rw [hnew h.write h.fresh.2]
      cases v <;> simp [Ne.symm h.ne]
    · rw [IsEnd, h.file g h0 h1]
      cases v <;> simp [h0, h1, IsEnd]

theorem inv (h : Opened t f0 f1 p t') (ht : Inv t n) (hp : t.pipe p = none) :
    Inv t' (Function.update (Function.update n f0 1) f1 1) := by
  have hno : ∀ v g, ¬ t.IsEnd p v g := by
    intro v g hend
    exact ht.pipe_none.1 hp (mem_livePipes.2 ⟨v, g, hend⟩)
  constructor
  · intro g
    by_cases h1 : g = f1
    · rw [h1, Function.update_self, h.ref.2]
    · rw [Function.update_of_ne h1]
      by_cases h0 : g = f0
      · rw [h0, Function.update_self, h.ref.1]
      · rw [Function.update_of_ne h0, h.file g h0 h1, ht.ref]
  · intro g
    by_cases h0 : g = f0
    · rw [h0, h.ref.1]
      exact nofun
    · by_cases h1 : g = f1
      · rw [h1, h.ref.2]
        exact nofun
      · rw [h.file g h0 h1]
        exact ht.closed g
  · intro q v g₁ g₂ h₁ h₂
    obtain ⟨rfl, rfl⟩ | h₁ := (h.isEnd ht).1 h₁
    · obtain ⟨-, rfl⟩ | h₂ := (h.isEnd ht).1 h₂
      · rfl
      · exact absurd h₂ (hno _ _)
    · obtain ⟨rfl, rfl⟩ | h₂ := (h.isEnd ht).1 h₂
      · exact absurd h₁ (hno _ _)
      · exact ht.one q v _ _ h₁ h₂
  · intro q v
    rw [h.pipe]
    simp only [h.isEnd ht]
    by_cases hq : q = p
    · subst hq
      rw [Function.update_self]
      refine ⟨fun _ => ⟨_, .inl ⟨rfl, rfl⟩⟩, fun _ => ⟨_, rfl, ?_⟩⟩
      cases v <;> rfl
    · rw [Function.update_of_ne hq, ht.ends q v]
      simp [hq]
  · intro q e hq
    rw [h.pipe] at hq
    by_cases hqp : q = p
    · subst hqp
      rw [Function.update_self] at hq
      cases hq
      exact ⟨true, rfl⟩
    · rw [Function.update_of_ne hqp] at hq
      exact ht.used q e hq

theorem pages (h : Opened t f0 f1 p t') (ht : Inv t n) (hp : t.pipe p = none) :
    t'.livePipes.val = p ::ₘ t.livePipes.val := by
  have hins : t'.livePipes = insert p t.livePipes := by
    ext q
    simp only [Finset.mem_insert, mem_livePipes, h.isEnd ht]
    constructor
    · rintro ⟨w, f, ⟨rfl, -⟩ | hf⟩
      · exact .inl rfl
      · exact .inr ⟨w, f, hf⟩
    · rintro (rfl | ⟨w, f, hf⟩)
      · exact ⟨true, f1, .inl ⟨rfl, rfl⟩⟩
      · exact ⟨w, f, .inr hf⟩
  rw [hins, Finset.insert_val_of_notMem (ht.pipe_none.1 hp)]

theorem users [DecidableEq I] (h : Opened t f0 f1 p t') (ht : Inv t n) (ip : I) : t'.users ip = t.users ip := by
  have hnew {f : FileId} {w : Bool} (hf : t'.IsEnd p w f) (href : (t.file f).ref = 0) :
      (t'.file f).type.holds ip = (t.file f).type.holds ip := by
    rw [hf.1, ht.closed f href]
    rfl
  unfold Ftable.users
  refine Finset.sum_congr rfl fun g _ => ?_
  by_cases h0 : g = f0
  · rw [h0, hnew h.read h.fresh.1]
  · by_cases h1 : g = f1
    · rw [h1, hnew h.write h.fresh.2]
    · rw [h.file g h0 h1]

end Opened

/-! ## Closing a pipe that was just made -/

/-- The same files are open; one that is not open may differ in what nobody reads. -/
structure Alike (t t' : Ftable I) : Prop where
  ref : ∀ g, (t'.file g).ref = (t.file g).ref
  type : ∀ g, (t'.file g).type = (t.file g).type
  live : ∀ g, (t.file g).ref ≠ 0 → t'.file g = t.file g
  pipe : t'.pipe = t.pipe

theorem Alike.refl (t : Ftable I) : Alike t t := ⟨fun _ => rfl, fun _ => rfl, fun _ _ => rfl, rfl⟩

theorem Alike.users [DecidableEq I] (h : Alike t t') (ip : I) : t'.users ip = t.users ip := by
  unfold Ftable.users
  simp only [h.type]

theorem Inv.alike (h : Inv t n) (ha : Alike t t') : Inv t' n := by
  have hend : ∀ p w g, t'.IsEnd p w g ↔ t.IsEnd p w g := by
    intro p w g
    by_cases hg : (t.file g).ref = 0
    · rw [IsEnd, IsEnd, ha.type, h.closed g hg]
      exact ⟨fun hend => (nomatch hend.1), fun hend => (nomatch hend.1)⟩
    · rw [IsEnd, IsEnd, ha.live g hg]
  refine ⟨fun g => (ha.ref g).trans (h.ref g), fun g hg => (ha.type g).trans (h.closed g ((ha.ref g).symm.trans hg)),
    fun p w f g hf hg => h.one p w f g ((hend ..).1 hf) ((hend ..).1 hg), fun p w => ?_, by rw [ha.pipe]; exact h.used⟩
  rw [ha.pipe]
  simp only [hend]
  exact h.ends p w

theorem fileclose_pipe (href : (t.file f).ref = 1) (hend : t.IsEnd p w f) : t.fileclose f = (t.shut f).pipeclose p w := by
  unfold Ftable.fileclose
  dsimp only
  rw [href, if_neg (by decide), if_neg (by decide), hend.1, ← hend.2]
  rfl

/-- Both ends closed again. -/
theorem Opened.close {f0 f1 : FileId} (h : Opened t f0 f1 p t') (ht : Inv t n) (hp : t.pipe p = none) :
    ∃ t₁ t₂, t'.fileclose f0 = .ok (.nothing, t₁) ∧ t₁.fileclose f1 = .ok (.page p, t₂) ∧ Alike t t₂ := by
  have hpipe : (t'.shut f0).pipe p = some ⟨true, true⟩ := by
    change t'.pipe p = _
    rw [h.pipe, Function.update_self]
  have hfile : ((t'.shut f0).setPipe p (some ⟨false, true⟩)).file f1 = t'.file f1 := set_of_ne h.ne.symm
  have hend : ((t'.shut f0).setPipe p (some ⟨false, true⟩)).IsEnd p true f1 := by
    unfold IsEnd
    rw [hfile]
    exact h.write
  refine ⟨(t'.shut f0).setPipe p (some ⟨false, true⟩),
    (((t'.shut f0).setPipe p (some ⟨false, true⟩)).shut f1).setPipe p none, ?_, ?_, ?_⟩
  · rw [fileclose_pipe h.ref.1 h.read, Ftable.pipeclose, hpipe]
    rfl
  · have hpipe₁ : (((t'.shut f0).setPipe p (some ⟨false, true⟩)).shut f1).pipe p = some ⟨false, true⟩ := setPipe_self
    rw [fileclose_pipe (by rw [hfile, h.ref.2]) hend, Ftable.pipeclose, hpipe₁]
    rfl
  · have hself : ∀ g, g = f0 ∨ g = f1 → (t.file g).ref = 0 := by
      rintro g (rfl | rfl)
      · exact h.fresh.1
      · exact h.fresh.2
    have hshut (g : FileId) : ((((t'.shut f0).setPipe p (some ⟨false, true⟩)).shut f1).setPipe p none).file g =
        if g = f0 ∨ g = f1 then { t'.file g with ref := 0, type := .none } else t.file g := by
      change (((t'.shut f0).setPipe p (some ⟨false, true⟩)).shut f1).file g = _
      by_cases h1 : g = f1
      · rw [if_pos (.inr h1), h1, shut, set_self, hfile]
      · rw [shut, set_of_ne h1]
        change (t'.shut f0).file g = _
        by_cases h0 : g = f0
        · rw [if_pos (.inl h0), h0, shut, set_self]
        · rw [if_neg (by simp [h0, h1]), shut, set_of_ne h0, h.file g h0 h1]
    refine ⟨fun g => ?_, fun g => ?_, fun g hg => ?_, ?_⟩
    · rw [hshut]
      split
      · exact (hself g ‹_›).symm
      · rfl
    · rw [hshut]
      split
      · exact (ht.closed g (hself g ‹_›)).symm
      · rfl
    · rw [hshut, if_neg fun hnew => hg (hself g hnew)]
    · have hsame : Function.update (Function.update (Function.update t.pipe p (some ⟨true, true⟩)) p (some ⟨false, true⟩))
          p none = t.pipe := by
        rw [Function.update_idem, Function.update_idem, ← hp, Function.update_eq_self]
      rw [← hsame, ← h.pipe]
      rfl

/-- A file allocated and closed again is as it was, with anything done to another file. -/
theorem fileclose_fresh (href : (t.file f).ref = 0) (htype : (t.file f).type = .none) (h : (t'.file f) = { t.file f with ref := 1 }) :
    t'.fileclose f = .ok (.nothing, t'.set f (t.file f)) := by
  rw [fileclose_none (by rw [h]) (by rw [h, htype]), h, ← href]

theorem Inv.pipealloc (h : Inv t n) (kalloc : K → Option Page × K) (k : K) :
    Ends (fun _ => False) (t.pipealloc kalloc k) fun r =>
      match r.1 with
      | none => r.2.1 = t ∧ (r.2.2 = k ∨ kalloc k = (none, r.2.2))
      | some (f0, f1) => ∃ p, kalloc k = (some p, r.2.2) ∧ Opened t f0 f1 p r.2.1 := by
  unfold Ftable.pipealloc
  split
  · exact ⟨rfl, .inl rfl⟩
  · rename_i f0 t₀ h0
    obtain ⟨href0, rfl⟩ := filealloc_some h0
    have htype0 := h.closed f0 href0
    split
    · rw [fileclose_fresh href0 htype0 set_self, set_set, set_file]
      exact ⟨rfl, .inl rfl⟩
    · rename_i f1 t₁ h1
      obtain ⟨href1, rfl⟩ := filealloc_some h1
      have hne : f0 ≠ f1 := by
        rintro rfl
        rw [set_self] at href1
        cases href1
      rw [set_of_ne hne.symm] at href1 ⊢
      have htype1 := h.closed f1 href1
      split
      · rename_i k' hk
        rw [fileclose_fresh href0 htype0 (by rw [set_of_ne hne, set_self])]
        dsimp only [Bind.bind, Except.bind]
        rw [set_comm hne, set_set, set_comm hne.symm, set_file, fileclose_fresh href1 htype1 set_self, set_set, set_file]
        exact ⟨rfl, .inr hk⟩
      · rename_i p k' hk
        refine ⟨p, hk, hne, ⟨href0, href1⟩, fun g h0 h1 => ?_, ?_, ?_, ?_, rfl⟩
        · rw [set_of_ne h1, set_of_ne h0]
          change (((t.set f0 _).set f1 _).file g) = _
          rw [set_of_ne h1, set_of_ne h0]
        · rw [set_of_ne hne, set_self, set_self, set_of_ne hne.symm]
          change (((t.set f0 _).set f1 _).file f0).ref = 1 ∧ (((t.set f0 _).set f1 _).file f1).ref = 1
          rw [set_of_ne hne, set_self, set_self]
          exact ⟨rfl, rfl⟩
        · rw [IsEnd, set_of_ne hne, set_self]
          exact ⟨rfl, rfl⟩
        · rw [IsEnd, set_self]
          exact ⟨rfl, rfl⟩

end Ftable

end Xv6
