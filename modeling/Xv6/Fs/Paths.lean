import Xv6.Fs.Cache
import Xv6.Fs.Links
/-!
# Looking up names and paths

`resolve` is the inode that a path leads to, read off the directories. `namex`
finds it, and leaves everything as it was but for the one reference that it
returns: no `iput` on the way can free an inode, since one without links is in
use by somebody (`Good`).
-/

namespace Xv6

open Outcome Inodes

/-! ## Where a path leads -/

/-- The inode that an entry of a directory names. -/
def Inode.lookup (x : Inode) (name : Name) : Option Inum :=
  (x.offsetOf name).map fun off => (x.ents.getD off .empty).inum

/-- From the inode `i` along the names, or up to the last of them. -/
def Inodes.walk (t : Inodes) (parent : Bool) : List Name → Inum → Option (Inum × Name)
  | [], i => if parent then none else some (i, [])
  | name :: rest, i =>
    if (t i).type ≠ .dir then none
    else if parent ∧ rest = [] then some (i, name)
    else
      match (t i).lookup name with
      | none => none
      | some j => walk t parent rest j

def Fs.resolve {P : Type} (s : Fs P) (cwd : Ip) (parent : Bool) (path : List Char) : Option (Inum × Name) :=
  Inodes.walk s.inode parent (elems path.length path) (if path.head? = some '/' then ROOTINO else s.inum cwd)

/-- One step along a path: to the inode that a directory has under the name. -/
def Inodes.next (t : Inodes) (i : Inum) (name : Name) : Option Inum :=
  if (t i).type = .dir then (t i).lookup name else none

/-- All the way along the names, for `namei`, is a walk. -/
theorem Inodes.walk_names (t : Inodes) (names : List Name) (i : Inum) :
    walk t false names i = (names.foldlM t.next i).map fun j => (j, []) := by
  induction names generalizing i with
  | nil => rfl
  | cons name rest ih =>
    unfold walk
    rw [List.foldlM_cons, next]
    by_cases hdir : (t i).type = .dir
    · rw [if_neg (not_not.2 hdir), if_neg (fun h => Bool.false_ne_true h.1), if_pos hdir]
      cases (t i).lookup name with
      | none => rfl
      | some j => exact ih j
    · rw [if_pos hdir, if_neg hdir]
      rfl

/-- For `nameiparent` it stops at the directory before the last name. -/
theorem Inodes.walk_parent (t : Inodes) (names : List Name) (last : Name) (i : Inum) :
    walk t true (names ++ [last]) i =
      ((names.foldlM t.next i).filter fun d => (t d).type = .dir).map fun d => (d, last) := by
  induction names generalizing i with
  | nil =>
    rw [List.nil_append, walk, List.foldlM_nil]
    by_cases hdir : (t i).type = .dir
    · rw [if_neg (not_not.2 hdir), if_pos ⟨rfl, rfl⟩]
      simp [hdir]
    · rw [if_pos hdir]
      simp [hdir]
  | cons name rest ih =>
    rw [List.cons_append, walk, List.foldlM_cons, next]
    by_cases hdir : (t i).type = .dir
    · rw [if_neg (not_not.2 hdir), if_neg (fun h => List.append_ne_nil_of_right_ne_nil _ (List.cons_ne_nil _ _) h.2),
        if_pos hdir]
      cases (t i).lookup name with
      | none => rfl
      | some j => exact ih j
    · rw [if_pos hdir, if_neg hdir]
      rfl

theorem Inode.offsetOf_some {x : Inode} {name : Name} {off : Nat} (h : x.offsetOf name = some off) :
    x.ents.getD off .empty ∈ x.ents ∧ (x.ents.getD off .empty).inum ≠ noInum ∧ (x.ents.getD off .empty).name = name := by
  obtain ⟨hlt, he, -⟩ := List.findIdx?_eq_some_iff_getElem.1 h
  have hget : x.ents.getD off .empty = x.ents[off] := by simp [hlt]
  rw [hget]
  exact ⟨List.getElem_mem hlt, by simpa using he⟩

theorem Inodes.walk_dir {t : Inodes} {names : List Name} {i j : Inum} {name : Name}
    (h : walk t true names i = some (j, name)) : (t j).type = .dir := by
  induction names generalizing i with
  | nil => cases h
  | cons a rest ih =>
    unfold walk at h
    split at h
    · cases h
    · split at h
      · obtain ⟨rfl, -⟩ := Prod.mk.inj (Option.some.inj h)
        exact not_not.1 ‹_›
      · split at h
        · cases h
        · exact ih h

theorem Inodes.Links.walk {a g : Prop} {t : Inodes} {pr : List Inum} (hl : Inodes.Links a g t pr) (ha : a)
    {parent : Bool} {names : List Name} {i j : Inum} {name : Name} (hi : (t i).type ≠ .free) (h : Inodes.walk t parent names i = some (j, name)) : (t j).type ≠ .free := by
  induction names generalizing i with
  | nil =>
    unfold Inodes.walk at h
    split at h
    · cases h
    · obtain ⟨rfl, -⟩ := Prod.mk.inj (Option.some.inj h)
      exact hi
  | cons a rest ih =>
    unfold Inodes.walk at h
    split at h
    · cases h
    · have hdir : (t i).type = .dir := not_not.1 ‹_›
      split at h
      · obtain ⟨rfl, -⟩ := Prod.mk.inj (Option.some.inj h)
        exact hi
      · split at h
        · cases h
        · rename_i hlook
          obtain ⟨off, hoff, rfl⟩ := Option.map_eq_some_iff.1 hlook
          obtain ⟨hmem, hz, -⟩ := Inode.offsetOf_some hoff
          exact ih (hl.entry ha hdir hmem hz) h

/-- A walk looks at the types and the entries only. -/
theorem Inodes.walk_congr {t t' : Inodes} (htype : ∀ i, (t' i).type = (t i).type) (hents : ∀ i, (t' i).ents = (t i).ents)
    (parent : Bool) (names : List Name) (i : Inum) : walk t' parent names i = walk t parent names i := by
  induction names generalizing i with
  | nil => rfl
  | cons name rest ih =>
    have hlook : (t' i).lookup name = (t i).lookup name := by
      unfold Inode.lookup Inode.offsetOf
      rw [hents]
    unfold walk
    rw [htype, hlook]
    simp only [ih]

/-- Every entry of a directory names an inode that is allocated. -/
def Inodes.Entries (t : Inodes) : Prop :=
  ∀ d, (t d).type = .dir → ∀ e ∈ (t d).ents, e.inum ≠ noInum → (t e.inum).type ≠ .free

/-! ## The elements of a path -/

/-- The runs of characters between the slashes that are not empty, cut to `DIRSIZ`. -/
def pathNames (path : List Char) : List Name :=
  ((path.splitOnP (· = '/')).filter (· ≠ [])).map (·.take DIRSIZ)

theorem pathNames_slash (path : List Char) : pathNames ('/' :: path) = pathNames path := by
  have hsplit : List.splitOnP (fun c : Char => decide (c = '/')) ([] ++ '/' :: path) = _ :=
    List.splitOnP_append_cons_of_forall_mem (fun _ h => absurd h List.not_mem_nil) '/' (by decide) path
  unfold pathNames
  rw [← List.nil_append ('/' :: path), hsplit]
  rfl

theorem pathNames_dropWhile (path : List Char) : pathNames (path.dropWhile (· = '/')) = pathNames path := by
  induction path with
  | nil => rfl
  | cons c path ih =>
    rw [List.dropWhile_cons]
    split
    · rename_i hc
      rw [ih, of_decide_eq_true hc, pathNames_slash]
    · rfl

/-- A path that begins with an element. -/
theorem pathNames_elem {c : Char} {path : List Char} (hc : c ≠ '/') :
    pathNames (c :: path) = ((c :: path).takeWhile (· ≠ '/')).take DIRSIZ :: pathNames (path.dropWhile (· ≠ '/')) := by
  have happ := path.takeWhile_append_dropWhile (p := fun c => decide (c ≠ '/'))
  have hmem : ∀ x ∈ c :: path.takeWhile (· ≠ '/'), decide (x = '/') = false := by
    refine List.forall_mem_cons.2 ⟨decide_eq_false hc, fun x hx => ?_⟩
    simpa using List.all_eq_true.1 (List.all_takeWhile (l := path)) x hx
  rw [List.takeWhile_cons_of_pos (p := fun c => decide (c ≠ '/')) (decide_eq_true hc)]
  generalize path.takeWhile (· ≠ '/') = w at *
  cases hrest : path.dropWhile (· ≠ '/') with
  | nil =>
    rw [hrest, List.append_nil] at happ
    unfold pathNames
    rw [← happ, List.splitOnP_eq_singleton hmem]
    rfl
  | cons x rest =>
    have hx : x = '/' := by
      have := List.head?_dropWhile_not (fun c : Char => decide (c ≠ '/')) path
      rw [hrest] at this
      simpa using this
    rw [hrest, hx] at happ
    rw [hx, pathNames_slash]
    unfold pathNames
    rw [← happ, ← List.cons_append, List.splitOnP_append_cons_of_forall_mem hmem '/' (by decide)]
    rfl

/-- What `skipelem` gives one after another. -/
theorem elems_eq {n : Nat} {path : List Char} (hn : path.length ≤ n) : Fs.elems n path = pathNames path := by
  induction n generalizing path with
  | zero =>
    rw [List.eq_nil_of_length_eq_zero (Nat.le_zero.1 hn)]
    rfl
  | succ n ih =>
    have hlen := (List.dropWhile_sublist (fun c : Char => decide (c = '/')) (l := path)).length_le
    unfold Fs.elems Fs.skipelem
    rw [← pathNames_dropWhile path]
    cases hp : path.dropWhile (· = '/') with
    | nil => rfl
    | cons c p =>
      have hc : c ≠ '/' := by
        have := List.head?_dropWhile_not (fun c : Char => decide (c = '/')) path
        rw [hp] at this
        simpa using this
      have hrest := (List.dropWhile_sublist (fun c : Char => decide (c = '/'))
        (l := p.dropWhile (fun c => decide (c ≠ '/')))).length_le
      have hskip := (List.dropWhile_sublist (fun c : Char => decide (c ≠ '/')) (l := p)).length_le
      rw [hp, List.length_cons] at hlen
      rw [pathNames_elem hc, ← pathNames_dropWhile (p.dropWhile _), ← ih (by omega)]
      dsimp only
      rw [List.dropWhile_cons_of_pos (p := fun c => decide (c ≠ '/')) (decide_eq_true hc)]

namespace Fs

variable {P : Type} [Fintype P] {a g : Prop} {E : FsPanic → Prop} {s t : Fs P} {h h' : List (Ip × Inum)} {l l' : List Ip}
  {k : List FileId} {ip dp cwd : Ip} {i d : Inum} {pr : List Inum} {name : Name}

/-! ## What holds of the disk -/

/-- An inode without links is in use. -/
def Kept (s : Fs P) : Prop :=
  ∀ i, (s.inode i).type ≠ .free → (s.inode i).nlink ≤ 0 → ∃ ip, s.inum ip = i ∧ 0 < s.users ip

/-- The disk between the steps of a call: its links and blocks are counted, and an inode
without links is in use. -/
structure Good (a g : Prop) (s : Fs P) (pr : List Inum) : Prop where
  links : Inodes.Links a g s.inode pr
  space : s.free + total s.inode = SPACE
  kept : Kept s

theorem Kept.still (hk : Kept s) (hst : Still s t) : Kept t := by
  intro i hi hn
  rw [hst.inode] at hi hn
  obtain ⟨ip, hip, hu⟩ := hk i hi hn
  exact ⟨ip, by rw [hst.inum ip hu, hip], by rwa [hst.users]⟩

theorem Good.still (hg : Good a g s pr) (hst : Still s t) : Good a g t pr :=
  ⟨hst.inode ▸ hg.links, by rw [hst.free, hst.inode, hg.space], hg.kept.still hst⟩

/-- All entries of the inode cache but one are in use, by somebody or by the references `h`. -/
def Crowded (s : Fs P) (h : List (Ip × Inum)) : Prop :=
  ∃ ip, ∀ jp, jp ≠ ip → 0 < s.users jp + (h.map Prod.fst).count jp

theorem Crowded.still (hc : Crowded t h) (hst : Still s t) : Crowded s h := by
  unfold Crowded at *
  rwa [← hst.users]

namespace Refs

theorem crowded (hs : Refs s h l k) (hh : h.Perm ((ip, i) :: h')) (hfull : ∀ ip, 0 < (s.cache ip).ref) : Crowded s h' := by
  refine ⟨ip, fun jp hne => ?_⟩
  have href := (hs.perm hh (.refl l)).ref jp
  rw [count_held, if_neg hne, Nat.add_zero] at href
  exact href ▸ hfull jp

theorem node_held (hs : Refs s h l k) (hip : (ip, i) ∈ h) : s.node ip = s.inode i := by
  rw [node, hs.inum (ip, i) hip]

/-- `iput` frees nothing that is not without links. -/
theorem iput_quiet (hs : Refs s h l k) (hk : Kept s) (hh : h.Perm ((ip, i) :: h')) (hself : ip ∈ l → E .deadlock) :
    Ends E (s.iput ip) fun t => Still s t ∧ Refs t h' l k := by
  have hip : (ip, i) ∈ h := hh.mem_iff.2 List.mem_cons_self
  refine hs.iput hh hself fun htype hn => ?_
  obtain ⟨jp, hjp, hu⟩ := hk i htype (by omega)
  have heq := hs.unique jp ip (hs.ref_pos hu) (hs.ref_held hip) (hjp.trans (hs.inum _ hip).symm)
  rwa [← heq]

theorem iunlockput_quiet (hs : Refs s h l k) (hk : Kept s) (hh : h.Perm ((ip, i) :: h')) (hl : l.Perm (ip :: l')) :
    Ends E (s.iunlockput ip) fun t => Still s t ∧ Refs t h' l' k := by
  unfold Fs.iunlockput
  have hfree : ip ∉ l' := (List.nodup_cons.1 (hl.nodup_iff.1 hs.lock.1)).1
  refine (hs.iunlock hl).bind fun t ht => ?_
  refine (ht.2.1.iput_quiet (hk.still ht.1) hh fun hmem => absurd hmem hfree).mono fun u hu => ?_
  exact ⟨ht.1.trans hu.1, hu.2⟩

/-! ## Paths -/

theorem dirlookup (name : Name) (hs : Refs s h l k) (hdir : (s.node dp).type = .dir)
    (hfull : (∀ ip, 0 < (s.cache ip).ref) → E .iget) :
    Ends E (s.dirlookup dp name) fun r => Still s r.2 ∧
      match (s.node dp).offsetOf name with
      | none => r.1 = none ∧ r.2 = s
      | some off => ∃ ip, r.1 = some (ip, off) ∧ Refs r.2 ((ip, ((s.node dp).ents.getD off .empty).inum) :: h) l k := by
  unfold Fs.dirlookup
  rw [if_neg (not_not.2 hdir)]
  cases (s.node dp).offsetOf name with
  | none => exact ⟨.refl s, rfl, rfl⟩
  | some off =>
    refine (hs.iget _ hfull).bind fun r hr => ?_
    exact ⟨hr.1, r.1, rfl, hr.2⟩

/-- What `namex` does with the reference `ip` it has, for the inode `i`. -/
def Resolved (s : Fs P) (h : List (Ip × Inum)) (k : List FileId) (w : Option (Inum × Name))
    (r : Option (Ip × Name) × Fs P) : Prop :=
  Still s r.2 ∧
    match w with
    | none => r.1 = none ∧ Refs r.2 h [] k
    | some (i, name) => ∃ ip, r.1 = some (ip, name) ∧ Refs r.2 ((ip, i) :: h) [] k

theorem namexLoop (names : List Name) (parent : Bool) (hs : Refs s ((ip, i) :: h) [] k) (hk : Kept s)
    (hfull : Crowded s h → E .iget) (hents : Entries s.inode ∨ E .noType) (hi : (s.inode i).type = .free → E .noType) :
    Ends E (namexLoop parent names ip s) (Resolved s h k (walk s.inode parent names i)) := by
  induction names generalizing s ip i with
  | nil =>
    unfold Fs.namexLoop walk
    cases parent with
    | true =>
      refine (hs.iput_quiet hk (.refl _) fun hl => absurd hl List.not_mem_nil).bind fun t ht => ?_
      exact ⟨ht.1, rfl, ht.2⟩
    | false => exact ⟨.refl s, ip, rfl, hs⟩
  | cons name rest ih =>
    unfold Fs.namexLoop
    have hnode := hs.node_held List.mem_cons_self
    refine (hs.ilock (hs.ref_held List.mem_cons_self) (fun hl => absurd hl List.not_mem_nil) (by rwa [hnode])).bind
      fun s₁ hs₁ => ?_
    obtain ⟨hst₁, hs₁⟩ := hs₁
    have hk₁ := hk.still hst₁
    have hnode₁ : s₁.node ip = s.inode i := by rw [hs₁.node_held List.mem_cons_self, hst₁.inode]
    rw [hnode₁]
    by_cases hdir : (s.inode i).type ≠ .dir
    · rw [if_pos hdir, walk, if_pos hdir]
      refine (hs₁.iunlockput_quiet hk₁ (.refl _) (.refl _)).bind fun t ht => ?_
      exact ⟨hst₁.trans ht.1, rfl, ht.2⟩
    · rw [if_neg hdir, walk, if_neg hdir]
      by_cases hlast : parent ∧ rest = []
      · rw [if_pos hlast, if_pos hlast]
        refine (hs₁.iunlock (.refl _)).bind fun t ht => ?_
        exact ⟨hst₁.trans ht.1, ip, rfl, ht.2.1⟩
      · rw [if_neg hlast, if_neg hlast]
        rw [not_not] at hdir
        refine (hs₁.dirlookup _ (by rw [hnode₁, hdir]) fun hall => hfull ((hs₁.crowded (.refl _) hall).still hst₁)).bind
          fun r hr => ?_
        obtain ⟨hst₂, hr⟩ := hr
        rw [hnode₁] at hr
        unfold Inode.lookup
        cases hoff : (s.inode i).offsetOf name with
        | none =>
          rw [hoff] at hr
          obtain ⟨r1, s₂⟩ := r
          obtain ⟨rfl, rfl⟩ := hr
          refine (hs₁.iunlockput_quiet hk₁ (.refl _) (.refl _)).bind fun t ht => ?_
          exact ⟨hst₁.trans ht.1, rfl, ht.2⟩
        | some off =>
          rw [hoff] at hr
          obtain ⟨r1, s₂⟩ := r
          obtain ⟨jp, rfl, hs₂⟩ := hr
          have hst := hst₁.trans hst₂
          refine (hs₂.iunlockput_quiet (hk.still hst) (.swap ..) (.refl _)).bind fun s₃ hs₃ => ?_
          obtain ⟨hst₃, hs₃⟩ := hs₃
          have hst := hst.trans hst₃
          refine (ih hs₃ (hk.still hst) (fun hc => hfull (hc.still hst)) (by rwa [hst.inode]) ?_).mono fun r hr => ?_
          · intro hfree
            obtain ⟨hmem, hz, -⟩ := Inode.offsetOf_some hoff
            rw [hst.inode] at hfree
            exact hents.resolve_left fun hents => hents i hdir _ hmem hz hfree
          · rw [hst.inode] at hr
            exact ⟨hst.trans hr.1, hr.2⟩

theorem namex (parent : Bool) (path : List Char) (hs : Refs s h [] k) (hk : Kept s) (hfull : Crowded s h → E .iget)
    (hents : Entries s.inode ∨ E .noType) (hroot : (s.inode ROOTINO).type ≠ .free) (hcwd : 0 < s.users cwd) :
    Ends E (s.namex cwd parent path) (Resolved s h k (s.resolve cwd parent path)) := by
  unfold Fs.namex resolve
  split
  · refine (hs.iget ROOTINO fun hall => hfull ⟨cwd, fun jp _ => hs.ref jp ▸ hall jp⟩).bind fun r hr => ?_
    refine (hr.2.namexLoop _ parent (hk.still hr.1) (fun hc => hfull (hc.still hr.1)) (by rwa [hr.1.inode])
      fun hfree => ?_).mono fun r' hr' => ?_
    · rw [hr.1.inode] at hfree
      exact absurd hfree hroot
    · rw [hr.1.inode] at hr'
      exact ⟨hr.1.trans hr'.1, hr'.2⟩
  · obtain ⟨hst, hs'⟩ := hs.take (hs.ref_pos hcwd)
    refine (hs'.namexLoop _ parent (hk.still hst) (fun hc => hfull (hc.still hst)) (by rwa [hst.inode])
      fun hfree => ?_).mono fun r' hr' => ?_
    · rw [hst.inode] at hfree
      exact absurd hfree (hs.used cwd hcwd).1
    · rw [hst.inode] at hr'
      exact ⟨hst.trans hr'.1, hr'.2⟩

end Refs

/-- While `a` holds no entry leads to a free inode. -/
theorem Good.entries (hgood : Good a g s pr) (ha : a) : Entries s.inode :=
  fun _ hd _ he hz => hgood.links.entry ha hd he hz

theorem Refs.path (parent : Bool) (path : List Char) (hs : Refs s h [] k) (hgood : Good a g s pr)
    (hcwd : 0 < s.users cwd) : Ends (Err a) (s.namex cwd parent path) (Refs.Resolved s h k (s.resolve cwd parent path)) := by
  refine hs.namex parent path hgood.kept (fun _ => trivial) ?_ (by rw [hgood.links.root]; exact nofun) hcwd
  by_cases ha : a
  · exact .inl (hgood.entries ha)
  · exact .inr ha

/-- `nameiparent`, and then `ilock` of the directory it finds. -/
theorem Refs.nameiparent (hs : Refs s h [] k) (hgood : Good a g s pr) (hcwd : 0 < s.users cwd) (path : List Char) :
    Ends (Err a) (s.namex cwd true path) fun r =>
      match s.resolve cwd true path with
      | none => r.1 = none ∧ Still s r.2 ∧ Refs r.2 h [] k
      | some (d, name) => (s.inode d).type = .dir ∧ ∃ dp, r.1 = some (dp, name) ∧
          Ends (Err a) (r.2.ilock dp) fun t => Still s t ∧ Refs t ((dp, d) :: h) [dp] k ∧ t.node dp = s.inode d := by
  refine (hs.path true path hgood hcwd).mono fun r hr => ?_
  obtain ⟨hst, hr⟩ := hr
  cases hw : s.resolve cwd true path with
  | none =>
    rw [hw] at hr
    exact ⟨hr.1, hst, hr.2⟩
  | some w =>
    obtain ⟨d, name⟩ := w
    rw [hw] at hr
    obtain ⟨dp, hdp, ht⟩ := hr
    have hdir : (s.inode d).type = .dir := walk_dir hw
    have hnode : (r.2.node dp).type = .dir := by rw [ht.node_held List.mem_cons_self, hst.inode, hdir]
    refine ⟨hdir, dp, hdp, (ht.ilock (ht.ref_held List.mem_cons_self) (fun _ => trivial) ?_).mono fun u hu => ?_⟩
    · rw [hnode]
      exact nofun
    · refine ⟨hst.trans hu.1, hu.2, ?_⟩
      rw [hu.2.node_held List.mem_cons_self, (hst.trans hu.1).inode]

/-- While `a` holds a path leads to an inode that is allocated. -/
theorem Good.resolve (hgood : Good a g s pr) (hs : Refs s h l k) (hcwd : 0 < s.users cwd) (ha : a) {parent : Bool} {path : List Char}
    (hw : s.resolve cwd parent path = some (i, name)) : (s.inode i).type ≠ .free := by
  refine hgood.links.walk ha ?_ hw
  split
  · rw [hgood.links.root]
    exact nofun
  · exact (hs.used cwd hcwd).1

/-! ## `namei` and `nameiparent` -/

/-- Where a path begins. -/
def start (s : Fs P) (cwd : Ip) (path : List Char) : Inum :=
  if path.head? = some '/' then ROOTINO else s.inum cwd

/-- The effect of a lookup that is to find the inode `i`, or nothing: one more reference
to what it returns, no lock that was not held, and no change to the disk. -/
structure Found (s : Fs P) (i : Option Inum) (r : Option Ip) (t : Fs P) : Prop where
  result : r.map t.inum = i
  refs : ∀ jp, (t.cache jp).ref = (s.cache jp).ref + if r = some jp then 1 else 0
  unlocked : ∀ jp, (t.cache jp).locked = false
  inode : t.inode = s.inode

theorem Refs.Resolved.found {w : Option (Inum × Name)} {r : Option (Ip × Name) × Fs P} (hs : Refs s h [] k)
    (hr : Refs.Resolved s h k w r) : Found s (w.map Prod.fst) (r.1.map Prod.fst) r.2 ∧ r.1.map Prod.snd = w.map Prod.snd := by
  obtain ⟨hst, hr⟩ := hr
  have hunlocked {h' : List (Ip × Inum)} (ht : Refs r.2 h' [] k) (jp : Ip) : (r.2.cache jp).locked = false :=
    Bool.eq_false_iff.2 fun hl => absurd ((ht.locked jp).1 hl) List.not_mem_nil
  cases w with
  | none =>
    obtain ⟨hnone, ht⟩ := hr
    rw [hnone]
    refine ⟨⟨rfl, fun jp => ?_, hunlocked ht, hst.inode⟩, rfl⟩
    rw [ht.ref, hst.users, hs.ref]
    rfl
  | some w =>
    obtain ⟨ip, hsome, ht⟩ := hr
    rw [hsome]
    refine ⟨⟨congrArg some (ht.inum _ List.mem_cons_self), fun jp => ?_, hunlocked ht, hst.inode⟩, rfl⟩
    rw [ht.ref, hst.users, hs.ref, count_held, ← Nat.add_assoc]
    exact congrArg _ (if_congr ⟨fun h => congrArg some h.symm, fun h => (Option.some.inj h).symm⟩ rfl rfl)

/-- The elements of a path are its runs between slashes. `namei` follows them from the root
or the current directory, and `nameiparent` all but the last, which it returns. Neither
panics unless the inode cache is full but for one entry. -/
theorem paths_resolve (hs : Refs s h [] k) (hk : Kept s) (hents : Entries s.inode)
    (hroot : (s.inode ROOTINO).type = .dir) (hcwd : 0 < s.users cwd) (path : List Char) :
    elems path.length path = pathNames path ∧
      Ends (fun e => e = .iget ∧ Crowded s h) (s.namex cwd false path) (fun r =>
        Found s ((pathNames path).foldlM (Inodes.next s.inode) (s.start cwd path)) (r.1.map Prod.fst) r.2) ∧
      Ends (fun e => e = .iget ∧ Crowded s h) (s.namex cwd true path) (fun r =>
        Found s ((pathNames path).getLast?.bind fun _ =>
            ((pathNames path).dropLast.foldlM (Inodes.next s.inode) (s.start cwd path)).filter
              fun d => (s.inode d).type = .dir) (r.1.map Prod.fst) r.2 ∧
          ∀ name ∈ r.1.map Prod.snd, (pathNames path).getLast? = some name) := by
  have hlook (parent : Bool) := hs.namex (E := fun e => e = .iget ∧ Crowded s h) parent path hk (fun hc => ⟨rfl, hc⟩)
    (.inl hents) (by rw [hroot]; exact nofun) hcwd
  refine ⟨elems_eq le_rfl, (hlook false).mono fun r hr => ?_, (hlook true).mono fun r hr => ?_⟩
  · obtain ⟨hfound, -⟩ := hr.found hs
    unfold resolve at hfound
    rw [elems_eq le_rfl, walk_names, Option.map_map] at hfound
    exact (Option.map_id' .. ▸ hfound :)
  · obtain ⟨hfound, hname⟩ := hr.found hs
    unfold resolve at hfound hname
    rw [elems_eq le_rfl] at hfound hname
    change Found s (Option.map _ (walk s.inode true _ (s.start cwd path))) _ _ at hfound
    change _ = Option.map _ (walk s.inode true _ (s.start cwd path)) at hname
    obtain hnil | ⟨names, last, heq⟩ := List.eq_nil_or_concat (pathNames path)
    · rw [hnil] at hfound hname ⊢
      exact ⟨hfound, fun name hmem => nomatch hname.symm.trans hmem⟩
    · rw [List.concat_eq_append] at heq
      rw [heq, walk_parent, Option.map_map] at hfound hname
      rw [heq, List.getLast?_concat, List.dropLast_concat]
      refine ⟨(Option.map_id' .. ▸ hfound :), fun name hmem => ?_⟩
      obtain ⟨d, -, hlast⟩ := Option.map_eq_some_iff.1 (hname.symm.trans hmem)
      exact congrArg some hlast

section

variable [DecidableEq P] (files : List (Name × List (BitVec 8))) (p : P)

theorem kept_mkfs : Kept (mkfs files p) := by
  intro i hi hn
  change (image files i).type ≠ .free at hi
  change (image files i).nlink ≤ 0 at hn
  unfold image at hi hn
  split at hn
  · exact absurd hn (show ¬ (1 : Int) ≤ 0 by decide)
  · split at hn
    · exact absurd hn (show ¬ (1 : Int) ≤ 0 by decide)
    · rw [if_neg ‹_›, dif_neg ‹_›] at hi
      exact absurd rfl hi

omit [Fintype P] in
theorem entries_mkfs : Entries (mkfs files p).inode := by
  intro d hd e he hz
  have hroot : d = ROOTINO := by
    by_contra hne
    change (image files d).type = .dir at hd
    rw [image, if_neg hne] at hd
    split at hd <;> cases hd
  subst hroot
  change e ∈ rootEnts files at he
  change (image files e.inum).type ≠ .free
  rw [rootEnts, List.mem_append, List.mem_cons, List.mem_cons] at he
  obtain (rfl | rfl | he) | he := he
  · exact nofun
  · exact nofun
  · obtain ⟨j, hj, rfl⟩ := List.mem_mapIdx.1 he
    dsimp only at hz ⊢
    split at hz
    · rename_i hlt
      rw [dif_pos hlt, image, if_neg (fun h => by simpa [ROOTINO] using congrArg Fin.val h), dif_pos ⟨by simp, by simpa using hj⟩]
      exact nofun
    · exact absurd rfl hz
  · rw [List.eq_of_mem_replicate he] at hz
    exact absurd rfl hz

end

theorem readme_resolves :
    ∃ r : Option (Ip × Name) × Fs Unit,
      (mkfs [("README".toList, [])] ()).namex ⟨0, by decide⟩ false "//README/".toList = .ok r ∧
        (r.1.map Prod.fst).map r.2.inum = some ⟨2, by decide⟩ := by
  have hcwd : 0 < (mkfs [("README".toList, [])] ()).users ⟨0, by decide⟩ := by
    rw [users_mkfs]
    decide
  have hfind := (paths_resolve (refs_mkfs [("README".toList, [])] ()) (kept_mkfs _ ()) (entries_mkfs _ ()) rfl hcwd
    "//README/".toList).2.1
  cases h : (mkfs [("README".toList, [])] ()).namex ⟨0, by decide⟩ false "//README/".toList with
  | ok r =>
    rw [h] at hfind
    exact ⟨r, rfl, hfind.result.trans (by decide +kernel)⟩
  | error e =>
    -- two entries of the cache are free
    rw [h] at hfind
    obtain ⟨-, ip, hip⟩ := hfind
    simp only [users_mkfs] at hip
    exact absurd hip (by revert ip; decide)

end Fs

end Xv6
