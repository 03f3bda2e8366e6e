import Mathlib.Data.List.GetD
import Xv6.Lib.Sums
import Xv6.Fs.Code
/-!
# Directory entries and link counts

What the inodes on the disk satisfy: every directory starts with its `.` and
`..`, the other entries name allocated inodes, a directory has at most one of
them, in the directory that its `..` names, and `nlink` is at least the number
of entries for an inode and of the directories in it. In the middle of a call
an inode can have links that are promised, and counted, before there is an entry
or after it is gone.

A directory without an entry is one that was removed while somebody was in it.
`a` stands for a run that makes no directory in such a one and does not remove
its parent: then every `..` names a directory. `g` stands for a run that makes no
entry in it at all: then `nlink` is exact.
-/

namespace Xv6

abbrev Inodes := Inum → Inode

namespace Inode

/-- The inode that `..` names. -/
def up (x : Inode) : Inum := (x.ents.getD 1 .empty).inum

/-- The entries behind `.` and `..`. -/
def rest (x : Inode) : List Dirent := x.ents.drop 2

/-- How many of these name an inode of a kind. -/
def counts (x : Inode) (q : Inum → Bool) : Nat := if x.type = .dir then x.rest.countP fun e => q e.inum else 0

end Inode

namespace Inodes

variable {a g : Prop} {t : Inodes} {pr pr' : List Inum} {d i j : Inum} {x y : Inode} {e : Dirent}

/-- How many entries name `i`, `.` and `..` left out. -/
@[irreducible] def names (t : Inodes) (i : Inum) : Nat := ∑ d, (t d).counts (· = i)

/-- How many directories a directory has. -/
def subs (t : Inodes) (i : Inum) : Nat := (t i).counts fun j => (t j).type = .dir

/-- The root directory has a link that is no entry. -/
def own (i : Inum) : Nat := if i = ROOTINO then 1 else 0

/-- The links of an inode but for those that the directories in it have by `..`. -/
def bonds (t : Inodes) (pr : List Inum) (i : Inum) : Nat := names t i + pr.count i + own i

theorem names_update (t : Inodes) (d : Inum) (x : Inode) (i : Inum) :
    names (Function.update t d x) i + (t d).counts (· = i) = names t i + x.counts (· = i) := by
  have h := Sums.sum_move (f := fun c => (t c).counts (· = i)) (g := fun c => (Function.update t d x c).counts (· = i)) d
    (fun c hc => by rw [Function.update_of_ne hc])
  rw [Function.update_self] at h
  unfold names
  exact h

theorem names_pos (hd : (t d).type = .dir) (he : e ∈ (t d).rest) (hi : e.inum = i) : 1 ≤ names t i := by
  have hle := Finset.single_le_sum_of_canonicallyOrdered (f := fun c => (t c).counts (· = i)) (Finset.mem_univ d)
  have h1 : (t d).counts (· = i) = (t d).rest.countP fun e => e.inum = i := if_pos hd
  have hpos : 0 < (t d).rest.countP fun e => e.inum = i := List.countP_pos_iff.2 ⟨e, he, by simpa using hi⟩
  unfold names
  omega

theorem exists_of_names (h : 1 ≤ names t i) : ∃ d e, (t d).type = .dir ∧ e ∈ (t d).rest ∧ e.inum = i := by
  unfold names at h
  obtain ⟨d, -, hd⟩ := Finset.exists_ne_zero_of_sum_ne_zero (Nat.ne_of_gt h)
  unfold Inode.counts at hd
  split at hd
  · obtain ⟨e, he, hi⟩ := List.countP_pos_iff.1 (Nat.pos_of_ne_zero hd)
    exact ⟨d, e, ‹_›, he, by simpa using hi⟩
  · exact absurd rfl hd

structure Links (a g : Prop) (t : Inodes) (pr : List Inum) : Prop where
  zero : (t noInum).type = .free
  root : (t ROOTINO).type = .dir
  rootUp : (t ROOTINO).up = ROOTINO
  dots : ∀ d, (t d).type = .dir → (t d).ents = ⟨dot, d⟩ :: ⟨dotdot, (t d).up⟩ :: (t d).rest
  up : ∀ d, (t d).type = .dir → (t d).up ≠ noInum
  named : ∀ d e, (t d).type = .dir → e ∈ (t d).rest → e.inum ≠ noInum → (t e.inum).type ≠ .free
  parent : ∀ d e, (t d).type = .dir → e ∈ (t d).rest → (t e.inum).type = .dir → (t e.inum).up = d
  once : ∀ i, (t i).type = .dir → bonds t pr i ≤ 1
  count : ∀ i, (t i).type ≠ .free → ((bonds t pr i + subs t i : Nat) : Int) ≤ (t i).nlink
  tight : ∀ i, (t i).type ≠ .free → g ∨ (a ∧ (t i).type = .dir) → (t i).nlink ≤ (bonds t pr i + subs t i : Nat)
  above : a → ∀ d, (t d).type = .dir → (t (t d).up).type = .dir ∧ 1 ≤ bonds t pr (t d).up
  empty : g → ∀ d e, (t d).type = .dir → e ∈ (t d).rest → e.inum ≠ noInum → 1 ≤ bonds t pr d

namespace Links

theorem ne_zero (h : Links a g t pr) (hi : (t i).type ≠ .free) : i ≠ noInum := by
  rintro rfl
  exact hi h.zero

theorem ne_zero_of_dir (h : Links a g t pr) (hi : (t i).type = .dir) : i ≠ noInum :=
  h.ne_zero (by rw [hi]; exact nofun)

/-- No entry names a free inode. -/
theorem unnamed (h : Links a g t pr) (hi : (t i).type = .free) (hz : i ≠ noInum) : names t i = 0 := by
  by_contra hne
  obtain ⟨d, e, hd, he, rfl⟩ := exists_of_names (Nat.pos_of_ne_zero hne)
  exact h.named d e hd he hz hi

theorem root_linked (h : Links a g t pr) : 1 ≤ (t ROOTINO).nlink := by
  have hcount := h.count ROOTINO (by rw [h.root]; exact nofun)
  have hown : own ROOTINO = 1 := if_pos rfl
  unfold bonds at hcount
  omega

/-- Whatever an entry of a directory names, `.` and `..` included, is allocated. -/
theorem entry (h : Links a g t pr) (ha : a) (hd : (t d).type = .dir) (he : e ∈ (t d).ents) (hz : e.inum ≠ noInum) :
    (t e.inum).type ≠ .free := by
  rw [h.dots d hd, List.mem_cons, List.mem_cons] at he
  obtain rfl | rfl | he := he
  · rw [hd]
    exact nofun
  · rw [(h.above ha d hd).1]
    exact nofun
  · exact h.named d e hd he hz

/-- A directory with a link has an entry, and not just directories of its own. -/
theorem bond (h : Links a g t pr) (hag : g ∨ a) (hd : (t d).type = .dir) (hn : 1 ≤ (t d).nlink) : 1 ≤ bonds t pr d := by
  by_contra hno
  have hle := h.tight d (by rw [hd]; exact nofun) (hag.imp_right fun ha => ⟨ha, hd⟩)
  have hsub : 0 < subs t d := by omega
  rw [subs, Inode.counts, if_pos hd] at hsub
  obtain ⟨e, he, hdir⟩ := List.countP_pos_iff.1 hsub
  replace hdir : (t e.inum).type = .dir := by simpa using hdir
  obtain hg | ha := hag
  · exact hno (h.empty hg d e hd he (h.ne_zero_of_dir hdir))
  · have hup := (h.above ha e.inum hdir).2
    rw [h.parent d e hd he hdir] at hup
    exact hno hup

end Links

end Inodes

/-! ## Writing one entry -/

/-- `y` is the directory `x` with one entry behind `.` and `..` written over, `old` by
`new`, where an entry that is not there counts as an empty one. -/
structure Inode.Edit (x y : Inode) (old new : Dirent) : Prop where
  type : y.type = x.type
  dots : ∀ a b, x.ents = a :: b :: x.rest → y.ents = a :: b :: y.rest
  up : y.up = x.up
  mem : ∀ e ∈ y.rest, e = new ∨ e ∈ x.rest
  counts : ∀ q, q noInum = false →
    y.counts q + (if q old.inum then 1 else 0) = x.counts q + if q new.inum then 1 else 0

namespace Inode

variable {x y : Inode} {a b old : Dirent} {off : Nat}

theorem put_edit (new : Dirent) (hx : x.type = .dir) (hdots : x.ents = a :: b :: x.rest) (hoff : 2 ≤ off) (n : Int) :
    Edit x { x.put off new with nlink := n } (x.ents.getD off .empty) new := by
  obtain ⟨k, rfl⟩ := Nat.exists_eq_add_of_le' hoff
  obtain ⟨ty, ma, mi, nl, ents, data⟩ := x
  obtain ⟨rest, rfl⟩ : ∃ rest, ents = a :: b :: rest := ⟨_, hdots⟩
  subst hx
  by_cases hk : k < rest.length
  · have hput : put ⟨.dir, ma, mi, nl, a :: b :: rest, data⟩ (k + 2) new =
        ⟨.dir, ma, mi, nl, a :: b :: rest.set k new, data⟩ := by
      simp [put, hk]
    rw [hput]
    refine ⟨rfl, fun _ _ h => ?_, rfl, fun e he => ?_, fun q _ => ?_⟩
    · injection h with h1 h2
      injection h2 with h2
      simp [Inode.rest, h1, h2]
    · exact (List.mem_or_eq_of_mem_set he).symm
    · have hold : rest.getD k .empty = rest[k] := by simp [hk]
      have hpos : (if q (rest[k]).inum then 1 else 0) ≤ rest.countP fun e => q e.inum := by
        split
        · exact List.countP_pos_iff.2 ⟨rest[k], List.getElem_mem hk, by simpa⟩
        · exact Nat.zero_le _
      simp only [counts, Inode.rest, List.drop_succ_cons, List.drop_zero, if_pos, List.countP_set hk,
        List.getD_cons_succ, hold]
      omega
  · have hput : put ⟨.dir, ma, mi, nl, a :: b :: rest, data⟩ (k + 2) new =
        ⟨.dir, ma, mi, nl, a :: b :: (rest ++ [new]), data⟩ := by
      simp [put, hk]
    rw [hput]
    refine ⟨rfl, fun _ _ h => ?_, rfl, fun e he => ?_, fun q hq => ?_⟩
    · injection h with h1 h2
      injection h2 with h2
      simp [Inode.rest, h1, h2]
    · simpa [Inode.rest, or_comm] using he
    · have hold : q (rest.getD k .empty).inum = false := by simpa [hk, Dirent.empty] using hq
      simp only [counts, Inode.rest, List.drop_succ_cons, List.drop_zero, if_pos, List.countP_append,
        List.countP_singleton, List.getD_cons_succ, hold, Bool.false_eq_true, if_false]
      omega

/-- A name other than `.` and `..` is found behind them. -/
theorem offsetOf_rest {name : Name} (hdots : x.ents = a :: b :: x.rest) (ha : a.name ≠ name) (hb : b.name ≠ name)
    (h : x.offsetOf name = some off) : 2 ≤ off ∧ x.ents.getD off .empty ∈ x.rest := by
  unfold offsetOf at h
  rw [hdots, List.findIdx?_cons, if_neg (by simp [ha]), List.findIdx?_cons, if_neg (by simp [hb]), Option.map_map] at h
  obtain ⟨k, hk, rfl⟩ := Option.map_eq_some_iff.1 h
  obtain ⟨hlt, -⟩ := List.findIdx?_eq_some_iff_getElem.1 hk
  refine ⟨Nat.le_add_left 2 k, ?_⟩
  rw [hdots]
  change x.rest.getD k .empty ∈ x.rest
  rw [List.getD_eq_getElem _ _ hlt]
  exact List.getElem_mem hlt

/-- The first free slot is behind `.` and `..`, and no entry is there. -/
theorem freeSlot_free (hdots : x.ents = a :: b :: x.rest) (ha : a.inum ≠ noInum) (hb : b.inum ≠ noInum) :
    2 ≤ x.freeSlot ∧ (x.ents.getD x.freeSlot .empty).inum = noInum := by
  unfold freeSlot
  constructor
  · rw [hdots, List.findIdx_cons, List.findIdx_cons]
    simp [ha, hb]
  · by_cases hlt : x.ents.findIdx (fun e => e.inum = noInum) < x.ents.length
    · have hfree := List.findIdx_getElem (w := hlt)
      rw [List.getD_eq_getElem _ _ hlt]
      simpa using hfree
    · rw [List.getD_eq_default _ _ (by omega)]
      rfl

/-- No entry is written: only the links or the bytes change. -/
theorem edit_same (htype : y.type = x.type) (hents : y.ents = x.ents) : Edit x y .empty .empty := by
  have hrest : y.rest = x.rest := by rw [rest, rest, hents]
  refine ⟨htype, fun a b hab => ?_, ?_, fun e he => .inr (hrest ▸ he), fun q _ => ?_⟩
  · rw [hents, hrest, hab]
  · rw [up, up, hents]
  · rw [counts, counts, htype, hrest]

end Inode

/-! ## What the calls do to the inodes -/

namespace Inodes

variable {a g : Prop} {t : Inodes} {pr pr' : List Inum} {d i j : Inum} {x y : Inode} {e old new : Dirent}

/-- A directory with nothing in it, as far as `g` goes, that no `..` names, as far as `a` goes. -/
def Childless (a g : Prop) (t : Inodes) (i : Inum) : Prop :=
  (a → ∀ c, (t c).type = .dir → (t c).up ≠ i) ∧ (g → ∀ e ∈ (t i).rest, e.inum = noInum)

/-- 1 for a directory. -/
def dirAt (t : Inodes) (i : Inum) : Nat := if (t i).type = .dir then 1 else 0

theorem Links.dirAt_zero (h : Links a g t pr) : dirAt t noInum = 0 := if_neg (by rw [h.zero]; exact nofun)

theorem count_promised : (i :: pr).count j = pr.count j + if i = j then 1 else 0 := by
  rw [List.count_cons]
  simp only [beq_iff_eq]

section Edit

variable (hx : (t d).Edit x old new)

include hx

theorem names_edit (hj : j ≠ noInum) :
    names (Function.update t d x) j + (if old.inum = j then 1 else 0) = names t j + if new.inum = j then 1 else 0 := by
  have h := names_update t d x j
  have hc := hx.counts (· = j) (by simpa using Ne.symm hj)
  simp only [decide_eq_true_eq] at hc
  omega

theorem edit_type (c : Inum) : (Function.update t d x c).type = (t c).type := by
  by_cases hc : c = d
  · rw [hc, Function.update_self, hx.type]
  · rw [Function.update_of_ne hc]

theorem edit_up (c : Inum) : (Function.update t d x c).up = (t c).up := by
  by_cases hc : c = d
  · rw [hc, Function.update_self, hx.up]
  · rw [Function.update_of_ne hc]

theorem edit_mem {c : Inum} (he : e ∈ (Function.update t d x c).rest) : (c = d ∧ e = new) ∨ e ∈ (t c).rest := by
  by_cases hc : c = d
  · subst hc
    rw [Function.update_self] at he
    exact (hx.mem e he).imp_left fun h => ⟨rfl, h⟩
  · rw [Function.update_of_ne hc] at he
    exact .inr he

theorem subs_edit (hz : (t noInum).type = .free) (c : Inum) :
    subs (Function.update t d x) c + (if c = d then dirAt t old.inum else 0) =
      subs t c + if c = d then dirAt t new.inum else 0 := by
  have htype : (fun j => decide ((Function.update t d x j).type = .dir)) = fun j => decide ((t j).type = .dir) := by
    funext j
    rw [edit_type hx]
  unfold subs
  rw [htype]
  by_cases hc : c = d
  · subst hc
    have hcounts := hx.counts (fun j => (t j).type = .dir) (by simp [hz])
    simp only [decide_eq_true_eq] at hcounts
    rw [Function.update_self, if_pos rfl, if_pos rfl, dirAt, dirAt]
    exact hcounts
  · rw [Function.update_of_ne hc, if_neg hc, if_neg hc]

theorem bonds_edit (pr pr' : List Inum) (hj : j ≠ noInum) :
    bonds (Function.update t d x) pr' j + pr.count j + (if old.inum = j then 1 else 0) =
      bonds t pr j + pr'.count j + if new.inum = j then 1 else 0 := by
  have hnames := names_edit hx hj
  unfold bonds
  omega

/-- One entry of a directory is written, with its link count. What an inode has more in
entries it has less in promised links, or more in `nlink`. -/
theorem Links.edit (h : Links a g t pr)
    (hnew : new.inum ≠ noInum → (t new.inum).type ≠ .free ∧ ((t new.inum).type = .dir → (t new.inum).up = d))
    (hroom : g → new.inum ≠ noInum → 1 ≤ bonds (Function.update t d x) pr' d)
    (hbonds : ∀ j, (t j).type = .dir → bonds (Function.update t d x) pr' j ≤ bonds t pr j ∧
      (1 ≤ bonds t pr j → 1 ≤ bonds (Function.update t d x) pr' j ∨ t.Childless a g j))
    (hlink : ∀ j, (t j).type ≠ .free → (Function.update t d x j).nlink + (pr.count j : Nat) +
        (if old.inum = j then 1 else 0 : Nat) + (if j = d then dirAt t old.inum else 0 : Nat) =
      (t j).nlink + (pr'.count j : Nat) + (if new.inum = j then 1 else 0 : Nat) +
        (if j = d then dirAt t new.inum else 0 : Nat)) :
    Links a g (Function.update t d x) pr' := by
  have htype := edit_type hx
  have hup := edit_up hx
  constructor
  · rw [htype]
    exact h.zero
  · rw [htype]
    exact h.root
  · rw [hup]
    exact h.rootUp
  · intro c hc
    rw [htype] at hc
    rw [hup]
    by_cases hcd : c = d
    · subst hcd
      rw [Function.update_self]
      exact hx.dots _ _ (h.dots c hc)
    · rw [Function.update_of_ne hcd]
      exact h.dots c hc
  · intro c hc
    rw [htype] at hc
    rw [hup]
    exact h.up c hc
  · intro c e hc he hz
    rw [htype] at hc ⊢
    obtain ⟨-, rfl⟩ | he := edit_mem hx he
    · exact (hnew hz).1
    · exact h.named c e hc he hz
  · intro c e hc he hce
    rw [htype] at hc hce
    rw [hup]
    obtain ⟨rfl, rfl⟩ | he := edit_mem hx he
    · exact (hnew (h.ne_zero_of_dir hce)).2 hce
    · exact h.parent c e hc he hce
  · intro j hj
    rw [htype] at hj
    exact (hbonds j hj).1.trans (h.once j hj)
  · intro j hj
    rw [htype] at hj
    have hb := bonds_edit hx pr pr' (h.ne_zero hj)
    have hsubs := subs_edit hx h.zero j
    have hl := hlink j hj
    have := h.count j hj
    omega
  · intro j hj hag
    rw [htype] at hj hag
    have hb := bonds_edit hx pr pr' (h.ne_zero hj)
    have hsubs := subs_edit hx h.zero j
    have hl := hlink j hj
    have := h.tight j hj hag
    omega
  · intro ha c hc
    rw [htype] at hc
    rw [hup, htype]
    obtain ⟨hdir, hone⟩ := h.above ha c hc
    exact ⟨hdir, ((hbonds _ hdir).2 hone).resolve_right fun hno => hno.1 ha c hc rfl⟩
  · intro hg c e hc he hz
    rw [htype] at hc
    obtain ⟨rfl, rfl⟩ | he := edit_mem hx he
    · exact hroom hg hz
    · refine ((hbonds c hc).2 (h.empty hg c e hc he hz)).resolve_right fun hno => hz (hno.2 hg e he)

/-- A promised link becomes an entry. -/
theorem Links.link (h : Links a g t (i :: pr)) (hold : old.inum = noInum) (hnew : new.inum = i)
    (halloc : (t i).type ≠ .free) (hup : (t i).type = .dir → (t i).up = d) (hd : (t d).type = .dir)
    (hroom : g → 1 ≤ bonds t (i :: pr) d) (hn : x.nlink = (t d).nlink + (dirAt t i : Nat)) :
    Links a g (Function.update t d x) pr := by
  have hbonds : ∀ j, (t j).type = .dir → bonds (Function.update t d x) pr j = bonds t (i :: pr) j := by
    intro j hj
    have hb := bonds_edit hx (i :: pr) pr (h.ne_zero_of_dir hj)
    rw [hold, hnew, count_promised, if_neg (Ne.symm (h.ne_zero_of_dir hj))] at hb
    omega
  refine h.edit hx (fun _ => hnew ▸ ⟨halloc, hup⟩) (fun hg _ => ?_) (fun j hj => ?_) fun j hj => ?_
  · rw [hbonds d hd]
    exact hroom hg
  · rw [hbonds j hj]
    exact ⟨Nat.le_refl _, .inl⟩
  · rw [hold, hnew, count_promised, if_neg (Ne.symm (h.ne_zero hj)), h.dirAt_zero]
    by_cases hjd : j = d
    · subst hjd
      rw [Function.update_self, if_pos rfl, if_pos rfl, hn]
      omega
    · rw [Function.update_of_ne hjd, if_neg hjd, if_neg hjd]
      omega

/-- An entry is cleared, and its link is still counted. -/
theorem Links.unlink (h : Links a g t pr) (hold : old.inum = i) (hnew : new.inum = noInum)
    (hn : (t d).nlink = x.nlink + (dirAt t i : Nat)) : Links a g (Function.update t d x) (i :: pr) := by
  refine h.edit hx (fun hne => absurd hnew hne) (fun _ hne => absurd hnew hne) (fun j hj => ?_) fun j hj => ?_
  · have hb := bonds_edit hx pr (i :: pr) (h.ne_zero_of_dir hj)
    rw [hold, hnew, count_promised, if_neg (Ne.symm (h.ne_zero_of_dir hj))] at hb
    have heq : bonds (Function.update t d x) (i :: pr) j = bonds t pr j := by omega
    rw [heq]
    exact ⟨Nat.le_refl _, .inl⟩
  · rw [hold, hnew, count_promised, if_neg (Ne.symm (h.ne_zero hj)), h.dirAt_zero]
    by_cases hjd : j = d
    · subst hjd
      rw [Function.update_self, if_pos rfl, if_pos rfl, hn]
      omega
    · rw [Function.update_of_ne hjd, if_neg hjd, if_neg hjd]
      omega

end Edit

/-- `nlink` and the promised links of one inode change together. For a directory that only
happens when its entry is gone, and it is still in use. -/
theorem Links.relink (h : Links a g t pr) (htype : y.type = (t i).type) (hents : y.ents = (t i).ents)
    (hn : y.nlink + (pr.count i : Nat) = (t i).nlink + (pr'.count i : Nat)) (hpr : ∀ j, j ≠ i → pr'.count j = pr.count j)
    (hdir : (t i).type = .dir → pr'.count i ≤ pr.count i ∧ t.Childless a g i) : Links a g (Function.update t i y) pr' := by
  have hsame := Inode.edit_same htype hents
  refine h.edit hsame (fun hne => absurd rfl hne) (fun _ hne => absurd rfl hne) (fun j hj => ?_) fun j hj => ?_
  · have hb := bonds_edit hsame pr pr' (h.ne_zero_of_dir hj)
    by_cases hji : j = i
    · subst hji
      obtain ⟨hle, hchild⟩ := hdir hj
      exact ⟨by omega, fun _ => .inr hchild⟩
    · rw [hpr j hji] at hb
      have heq : bonds (Function.update t i y) pr' j = bonds t pr j := by omega
      rw [heq]
      exact ⟨Nat.le_refl _, .inl⟩
  · by_cases hji : j = i
    · subst hji
      rw [Function.update_self]
      omega
    · rw [Function.update_of_ne hji, hpr j hji]

/-! ## Allocating and freeing -/

/-- An inode without entries behind `.` and `..`. -/
theorem counts_of_rest (hy : y.type = .dir → y.rest = []) (q : Inum → Bool) : y.counts q = 0 := by
  unfold Inode.counts
  split
  · rename_i hd
    rw [hy hd]
    rfl
  · rfl

/-- An entry is not for an inode that no entry names. -/
theorem ne_of_unnamed (hi : names t i = 0) {c : Inum} {e : Dirent} (hc : (t c).type = .dir) (he : e ∈ (t c).rest) : e.inum ≠ i := by
  intro hei
  have := names_pos hc he hei
  omega

/-- The directories in `c` do not change if none of them is `i`. -/
theorem subs_update (hi : names t i = 0) (hy : y.counts (fun j => (Function.update t i y j).type = .dir) = subs t i)
    (c : Inum) : subs (Function.update t i y) c = subs t c := by
  by_cases hci : c = i
  · subst hci
    rw [subs, Function.update_self]
    exact hy
  · rw [subs, subs, Function.update_of_ne hci, Inode.counts, Inode.counts]
    split
    · rename_i hc
      refine List.countP_congr fun e he => ?_
      rw [Function.update_of_ne (ne_of_unnamed hi hc he)]
    · rfl

/-- A free inode becomes a file or an empty directory, with the link that it is to get. -/
theorem Links.alloc (h : Links a g t pr) (hz : i ≠ noInum) (hi : (t i).type = .free) (hpr : i ∉ pr)
    (hdots : y.type = .dir → y.ents = [⟨dot, i⟩, ⟨dotdot, y.up⟩] ∧ y.up ≠ noInum)
    (habove : a → y.type = .dir → (t y.up).type = .dir ∧ 1 ≤ bonds t pr y.up) (hn : y.nlink = 1) :
    Links a g (Function.update t i y) (i :: pr) := by
  have hrest : y.type = .dir → y.rest = [] := fun hd => by rw [Inode.rest, (hdots hd).1]; rfl
  have hir : i ≠ ROOTINO := by
    rintro rfl
    rw [h.root] at hi
    cases hi
  have hunnamed := h.unnamed hi hz
  have hcounts : ∀ q, (t i).counts q = 0 := counts_of_rest fun hd => by rw [hi] at hd; cases hd
  have hnames : ∀ j, names (Function.update t i y) j = names t j := by
    intro j
    have := names_update t i y j
    rw [hcounts, counts_of_rest hrest] at this
    exact this
  have hsubs : ∀ c, subs (Function.update t i y) c = subs t c :=
    subs_update hunnamed (by rw [counts_of_rest hrest, subs, hcounts])
  have hother : ∀ c, c ≠ i → Function.update t i y c = t c := fun c hc => Function.update_of_ne hc ..
  have hbond : bonds t pr i = 0 := by
    rw [bonds, hunnamed, List.count_eq_zero_of_not_mem hpr, own, if_neg hir]
  have hbonds : ∀ j, bonds (Function.update t i y) (i :: pr) j = bonds t pr j + if i = j then 1 else 0 := by
    intro j
    rw [bonds, bonds, hnames, count_promised]
    omega
  -- an entry of a directory is one of before, and not for `i`
  have hmem : ∀ c e, (Function.update t i y c).type = .dir → e ∈ (Function.update t i y c).rest →
      (t c).type = .dir ∧ e ∈ (t c).rest ∧ e.inum ≠ i := by
    intro c e hc he
    by_cases hci : c = i
    · rw [hci, Function.update_self] at hc he
      rw [hrest hc] at he
      cases he
    · rw [hother c hci] at hc he
      exact ⟨hc, he, ne_of_unnamed hunnamed hc he⟩
  constructor
  · rw [hother _ (Ne.symm hz)]
    exact h.zero
  · rw [hother _ (Ne.symm hir)]
    exact h.root
  · rw [hother _ (Ne.symm hir)]
    exact h.rootUp
  · intro c hc
    by_cases hci : c = i
    · rw [hci, Function.update_self] at hc ⊢
      rw [hrest hc]
      exact (hdots hc).1
    · rw [hother c hci] at hc ⊢
      exact h.dots c hc
  · intro c hc
    by_cases hci : c = i
    · rw [hci, Function.update_self] at hc ⊢
      exact (hdots hc).2
    · rw [hother c hci] at hc ⊢
      exact h.up c hc
  · intro c e hc he hez
    obtain ⟨hc, he, hei⟩ := hmem c e hc he
    rw [hother _ hei]
    exact h.named c e hc he hez
  · intro c e hc he hce
    obtain ⟨hc, he, hei⟩ := hmem c e hc he
    rw [hother _ hei] at hce ⊢
    exact h.parent c e hc he hce
  · intro j hj
    rw [hbonds]
    by_cases hji : j = i
    · rw [hji, hbond, if_pos rfl]
    · rw [hother j hji] at hj
      rw [if_neg (Ne.symm hji)]
      exact h.once j hj
  · intro j hj
    rw [hbonds, hsubs]
    by_cases hji : j = i
    · rw [hji, Function.update_self, hbond, if_pos rfl, hn, subs, hcounts]
      decide
    · rw [hother j hji] at hj ⊢
      rw [if_neg (Ne.symm hji)]
      exact h.count j hj
  · intro j hj hag
    rw [hbonds, hsubs]
    by_cases hji : j = i
    · rw [hji, Function.update_self, hbond, if_pos rfl, hn, subs, hcounts]
      decide
    · rw [hother j hji] at hj hag ⊢
      rw [if_neg (Ne.symm hji)]
      exact h.tight j hj hag
  · intro ha c hc
    have habove : (t (Function.update t i y c).up).type = .dir ∧ 1 ≤ bonds t pr (Function.update t i y c).up := by
      by_cases hci : c = i
      · rw [hci, Function.update_self] at hc ⊢
        exact habove ha hc
      · rw [hother c hci] at hc ⊢
        exact h.above ha c hc
    refine ⟨?_, (habove.2.trans (Nat.le_add_right _ _)).trans_eq (hbonds _).symm⟩
    rw [hother _ fun heq => ?_]
    · exact habove.1
    · rw [heq, hi] at habove
      exact nomatch habove.1
  · intro hg c e hc he hz
    obtain ⟨hc, he, -⟩ := hmem c e hc he
    exact ((h.empty hg c e hc he hz).trans (Nat.le_add_right _ _)).trans_eq (hbonds c).symm

/-- A free inode gets its fields and an entry in the directory `d`. -/
theorem Links.create (name : Name) (h : Links a g t pr) (hz : i ≠ noInum) (hi : (t i).type = .free) (hpr : i ∉ pr)
    (hd : (t d).type = .dir) (hroom : g ∨ (a ∧ y.type = .dir) → 1 ≤ (t d).nlink) (hy : y.type ≠ .free)
    (hdots : y.type = .dir → y.ents = [⟨dot, i⟩, ⟨dotdot, d⟩]) (hn : y.nlink = 1) {n : Int} (hnlink : n = (t d).nlink + if y.type = .dir then 1 else 0) :
    Links a g (Function.update (Function.update t i y) d { (t d).put (t d).freeSlot ⟨name, i⟩ with nlink := n }) pr := by
  have hne : d ≠ i := by
    rintro rfl
    rw [hd] at hi
    cases hi
  have hup : y.type = .dir → y.up = d := fun hdir => by rw [Inode.up, hdots hdir]; rfl
  have halloc := h.alloc hz hi hpr (y := y)
    (fun hdir => by rw [hup hdir]; exact ⟨hdots hdir, h.ne_zero_of_dir hd⟩)
    (fun ha hdir => by rw [hup hdir]; exact ⟨hd, h.bond (.inr ha) hd (hroom (.inr ⟨ha, hdir⟩))⟩) hn
  have hslot := Inode.freeSlot_free (h.dots d hd) (h.ne_zero_of_dir hd) (h.up d hd)
  have hedit := Inode.put_edit ⟨name, i⟩ hd (h.dots d hd) hslot.1 n
  have hsame : Function.update t i y d = t d := Function.update_of_ne hne ..
  rw [← hsame] at hedit
  rw [← hsame]
  refine halloc.link hedit (by rw [hsame]; exact hslot.2) rfl ?_ ?_ (by rw [hsame, hd]) (fun hg => ?_) ?_
  · rw [Function.update_self]
    exact hy
  · rw [Function.update_self]
    exact hup
  · have hb := h.bond (.inl hg) hd (hroom (.inl hg))
    have hnames := names_update t i y d
    have hold : (t i).counts (· = d) = 0 := counts_of_rest (fun hdir => by rw [hi] at hdir; cases hdir) _
    unfold bonds at hb ⊢
    rw [count_promised]
    omega
  · rw [hsame, dirAt, Function.update_self, hnlink]
    split <;> rfl

/-- An inode without names is freed. -/
theorem Links.free (h : Links a g t pr) (hz : i ≠ noInum) (hir : i ≠ ROOTINO) (hunnamed : names t i = 0)
    (hsub : subs t i = 0) (hchild : (t i).type = .dir → t.Childless a g i)
    (hpr : ∀ j, j ≠ i → pr'.count j = pr.count j) (hy : y.type = .free) : Links a g (Function.update t i y) pr' := by
  have hcounts : ∀ q, y.counts q = 0 := counts_of_rest fun hd => by rw [hy] at hd; cases hd
  have hnames : ∀ j, names (Function.update t i y) j + (t i).counts (· = j) = names t j := fun j => by
    rw [names_update, hcounts, Nat.add_zero]
  -- an entry that goes with the inode is not counted
  have hgone : ∀ j, j ≠ noInum → g ∨ (a ∧ (t j).type = .dir) → (t i).counts (· = j) = 0 := by
    intro j hj hag
    unfold Inode.counts
    split
    · rename_i hd
      rw [List.countP_eq_zero]
      intro e he hej
      replace hej : e.inum = j := by simpa using hej
      obtain hg | ⟨ha, hdir⟩ := hag
      · exact hj (hej.symm.trans ((hchild hd).2 hg e he))
      · exact (hchild hd).1 ha j hdir (hej ▸ h.parent i e hd he (hej ▸ hdir))
    · rfl
  have hbonds : ∀ j, j ≠ i → bonds (Function.update t i y) pr' j ≤ bonds t pr j := fun j hji => by
    have := hnames j
    rw [bonds, bonds, hpr j hji]
    omega
  have hsame : ∀ j, j ≠ i → j ≠ noInum → g ∨ (a ∧ (t j).type = .dir) → bonds (Function.update t i y) pr' j = bonds t pr j := by
    intro j hji hj hag
    have := hnames j
    rw [hgone j hj hag] at this
    rw [bonds, bonds, hpr j hji]
    omega
  have hsubs : ∀ c, subs (Function.update t i y) c = subs t c := subs_update hunnamed (by rw [hcounts, hsub])
  have hother : ∀ c, c ≠ i → Function.update t i y c = t c := fun c hc => Function.update_of_ne hc ..
  have hne : ∀ c, (Function.update t i y c).type ≠ .free → c ≠ i := by
    rintro c hc rfl
    rw [Function.update_self] at hc
    exact hc hy
  have hdir : ∀ c, (Function.update t i y c).type = .dir → c ≠ i := fun c hc => hne c (by rw [hc]; exact nofun)
  constructor
  · rw [hother _ (Ne.symm hz)]
    exact h.zero
  · rw [hother _ (Ne.symm hir)]
    exact h.root
  · rw [hother _ (Ne.symm hir)]
    exact h.rootUp
  · intro c hc
    have hci := hdir c hc
    rw [hother c hci] at hc ⊢
    exact h.dots c hc
  · intro c hc
    have hci := hdir c hc
    rw [hother c hci] at hc ⊢
    exact h.up c hc
  · intro c e hc he hez
    have hci := hdir c hc
    rw [hother c hci] at hc he
    rw [hother _ (ne_of_unnamed hunnamed hc he)]
    exact h.named c e hc he hez
  · intro c e hc he hce
    have hci := hdir c hc
    have hei := hdir _ hce
    rw [hother c hci] at hc he
    rw [hother _ hei] at hce ⊢
    exact h.parent c e hc he hce
  · intro j hj
    have hji := hdir j hj
    rw [hother j hji] at hj
    exact (hbonds j hji).trans (h.once j hj)
  · intro j hj
    have hji := hne j hj
    rw [hother j hji] at hj ⊢
    have hb := hbonds j hji
    have hc := h.count j hj
    rw [hsubs]
    omega
  · intro j hj hag
    have hji := hne j hj
    rw [hother j hji] at hj hag ⊢
    rw [hsame j hji (h.ne_zero hj) hag, hsubs]
    exact h.tight j hj hag
  · intro ha c hc
    have hci := hdir c hc
    rw [hother c hci] at hc ⊢
    obtain ⟨hup, hone⟩ := h.above ha c hc
    have hui : (t c).up ≠ i := by
      intro heq
      exact (hchild (heq ▸ hup)).1 ha c hc heq
    rw [hother _ hui, hsame _ hui (h.ne_zero_of_dir hup) (.inr ⟨ha, hup⟩)]
    exact ⟨hup, hone⟩
  · intro hg c e hc he hez
    have hci := hdir c hc
    rw [hother c hci] at hc he
    rw [hsame c hci (h.ne_zero_of_dir hc) (.inl hg)]
    exact h.empty hg c e hc he hez

theorem Links.subs_empty (h : Links a g t pr) (hempty : (t i).type = .dir → ∀ e ∈ (t i).rest, e.inum = noInum) :
    subs t i = 0 := by
  unfold subs Inode.counts
  split
  · rename_i hd
    rw [List.countP_eq_zero]
    intro e he
    rw [hempty hd e he]
    simp [h.zero]
  · rfl

/-- A directory that has no link. -/
theorem Links.childless (h : Links a g t pr) (hb : bonds t pr i = 0) (hi : (t i).type = .dir) : t.Childless a g i := by
  refine ⟨fun ha c hc heq => ?_, fun hg e he => ?_⟩
  · have hone := (h.above ha c hc).2
    rw [heq, hb] at hone
    cases hone
  · by_contra hz
    have hone := h.empty hg i e hi he hz
    omega

/-- An inode without links is freed. -/
theorem Links.freed (h : Links a g t pr) (hi : (t i).type ≠ .free) (hn : (t i).nlink ≤ 0) (hy : y.type = .free) :
    Links a g (Function.update t i y) pr := by
  have hcount := h.count i hi
  have hb : bonds t pr i = 0 := by omega
  have hparts := hb
  unfold bonds at hparts
  refine h.free (h.ne_zero hi) ?_ (by omega) (by omega) (h.childless hb) (fun _ _ => rfl) hy
  rintro rfl
  rw [own, if_pos rfl] at hparts
  omega

end Inodes

end Xv6
