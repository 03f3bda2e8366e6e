import Xv6.Blocks.Contents
import Xv6.Lib.Runs
/-!
# The inode cache (fs.c)

The entries of the cache, with what is left to do for whoever holds the lock of
one: the functions that work on a locked inode are cut into the accesses they
make to it, and between any two of them others may run. A system call makes calls
of these functions in some order while it has the lock; here it may make any.
The disk is the inodes on it as the buffer cache shows them. The blocks that
`balloc` gives are inputs of the steps.
-/

namespace Xv6.Icache

open Runs

/-- The entry of `addrs` that `bmap` looks at for block `bn`. -/
def field (bn : Nat) : Fin (NDIRECT + 1) :=
  if h : bn < NDIRECT then ⟨bn, Nat.lt_succ_of_lt h⟩ else indirect

/-- What `bmap` does to the inode, if it gets block `b` for an entry that is 0. -/
def bmapField (ip : Dinode) (bn b : Nat) : Dinode :=
  if ip.addrs (field bn) = 0 then ip.setAddr (field bn) b else ip

/-! ## The code -/

inductive Act where
  | load                                -- ilock, after acquiresleep
  | readi (off n : BitVec 32)
  | readLoop (off n : Nat)
  | writei (off n : BitVec 32)
  | writeLoop (off n : Nat)
  | grow (n off : Nat)                  -- if(n > 0 && off > ip->size)
  | iupdate
  | nlink (d : Int)                     -- ip->nlink++ or ip->nlink--
  | init (major minor : Int)            -- the fields that create sets
  | iput                                -- iput, after acquiresleep
  | trunc (k : Fin (NDIRECT + 1))       -- if(ip->addrs[k]){ ... ip->addrs[k] = 0; }
  | size0
  | type0
  | invalid                             -- ip->valid = 0

/-- What `iput` does with an inode that nobody needs: `itrunc`, and `ip->type = 0; iupdate(ip); ip->valid = 0`. -/
def putBody : List Act :=
  (List.finRange (NDIRECT + 1)).map .trunc ++ [.size0, .iupdate, .type0, .iupdate, .invalid]

/-- The next access: `valid`, the inode and its copy on the disk `d` before and after, and what has to be done instead
of it. There is none after a panic. -/
def Act.run (b ref : Nat) (valid : Bool) (ip d : Dinode) : Act → Option (Bool × Dinode × Dinode × List Act)
  | .load =>
    if valid then some (true, ip, d, [])
    else if d.type = .free then none
    else some (true, d, d, [])
  | .readi off n =>
    if ip.type = .dev ∨ ip.size < off.toNat ∨ off + n < off then some (valid, ip, d, [])
    else
      some (valid, ip, d, [.readLoop off.toNat (if ip.size < (off + n).toNat then ip.size - off.toNat else n.toNat)])
  | .readLoop off n =>
    if 0 < n then
      let m := min n (BSIZE - off % BSIZE)
      some (valid, bmapField ip (off / BSIZE) b, d, [.readLoop (off + m) (n - m)])
    else some (valid, ip, d, [])
  | .writei off n =>
    if ip.type = .dev ∨ ip.size < off.toNat ∨ off + n < off ∨ MAXFILE * BSIZE < (off + n).toNat then
      some (valid, ip, d, [])
    else some (valid, ip, d, [.writeLoop off.toNat n.toNat, .grow n.toNat (off.toNat + n.toNat)])
  | .writeLoop off n =>
    if 0 < n then
      let m := min n (BSIZE - off % BSIZE)
      some (valid, bmapField ip (off / BSIZE) b, d, [.writeLoop (off + m) (n - m)])
    else some (valid, ip, d, [])
  | .grow n off =>
    if 0 < n ∧ ip.size < off then some (valid, { ip with size := off }, d, [.iupdate]) else some (valid, ip, d, [])
  | .iupdate => some (valid, ip, ip, [])
  | .nlink k => some (valid, { ip with nlink := ip.nlink + k }, d, [])
  | .init major minor => some (valid, { ip with major, minor, nlink := 1 }, d, [])
  | .iput => if valid ∧ ip.nlink = 0 ∧ ref = 1 then some (valid, ip, d, putBody) else some (valid, ip, d, [])
  | .trunc k => some (valid, ip.setAddr k 0, d, [])
  | .size0 => some (valid, { ip with size := 0 }, d, [])
  | .type0 => some (valid, { ip with type := .free }, d, [])
  | .invalid => some (false, ip, d, [])

/-- The calls on a locked inode. -/
inductive Body where
  | readi (off n : BitVec 32)
  | writei (off n : BitVec 32)
  | nlink (d : Int)
  | init (major minor : Int)

def Body.acts : Body → List Act
  | .readi off n => [.readi off n]
  | .writei off n => [.writei off n]
  | .nlink d => [.nlink d, .iupdate]
  | .init major minor => [.init major minor, .iupdate]

structure Entry where
  inum : Nat
  ref : Nat
  valid : Bool
  ip : Dinode
  work : Option (List Act)      -- none if it is not locked

structure State where
  ninodes : Nat
  disk : Nat → Dinode
  entry : Fin NINODE → Entry

inductive Lbl where
  | ialloc (type : FileType)
  | iget (inum : Nat)
  | idup (c : Fin NINODE)
  | ilock (c : Fin NINODE)
  | call (c : Fin NINODE) (body : Body)
  | run (c : Fin NINODE) (b : Nat)      -- with the block that balloc gives if it is called
  | iunlock (c : Fin NINODE)
  | iput (c : Fin NINODE)
  | drop (c : Fin NINODE)               -- the end of iput

namespace State

variable (t : State)

def set (c : Fin NINODE) (e : Entry) : State := { t with entry := Function.update t.entry c e }

def iget (inum : Nat) : Option State :=
  match (List.finRange NINODE).find? fun c => 0 < (t.entry c).ref ∧ (t.entry c).inum = inum with
  | some c => some (t.set c { t.entry c with ref := (t.entry c).ref + 1 })
  | none =>
    match (List.finRange NINODE).find? fun c => (t.entry c).ref = 0 with
    | some c => some (t.set c { t.entry c with inum, ref := 1, valid := false })
    | none => none

/-- The part of `ialloc` before `iget`. -/
def ialloc (type : FileType) : Option State :=
  match (List.range t.ninodes).find? fun i => i ≠ 0 ∧ (t.disk i).type = .free with
  | some i => some { t with disk := Function.update t.disk i ⟨type, 0, 0, 0, 0, fun _ => 0⟩ }
  | none => none

/-- The lock of an entry is taken, by someone with a reference to it. -/
def lock (c : Fin NINODE) (acts : List Act) : Option State :=
  if 0 < (t.entry c).ref ∧ (t.entry c).work = none then some (t.set c { t.entry c with work := some acts }) else none

def step : Lbl → Option State
  | .ialloc type => t.ialloc type
  | .iget inum => t.iget inum
  | .idup c => if 0 < (t.entry c).ref then some (t.set c { t.entry c with ref := (t.entry c).ref + 1 }) else none
  | .ilock c => t.lock c [.load]
  | .iput c => t.lock c [.iput]
  | .call c body =>
    match (t.entry c).work with
    | some [] => if (t.entry c).valid then some (t.set c { t.entry c with work := some body.acts }) else none
    | _ => none
  | .run c b =>
    match (t.entry c).work with
    | some (a :: rest) =>
      if b = 0 then none
      else (a.run b (t.entry c).ref (t.entry c).valid (t.entry c).ip (t.disk (t.entry c).inum)).map fun (valid, ip, d, acts) =>
        { t.set c { t.entry c with valid, ip, work := some (acts ++ rest) } with
          disk := Function.update t.disk (t.entry c).inum d }
    | _ => none
  | .iunlock c =>
    match (t.entry c).work with
    | some [] => some (t.set c { t.entry c with work := none })
    | _ => none
  | .drop c =>
    -- whoever has the lock keeps a reference
    if (t.entry c).work.isSome.toNat < (t.entry c).ref then some (t.set c { t.entry c with ref := (t.entry c).ref - 1 })
    else none

end State

/-! ## Inodes without holes -/

/-- Every block that starts before byte `m` has its entry of `addrs`. -/
def BackedTo (ip : Dinode) (m : Nat) : Prop := ∀ bn, bn * BSIZE < m → ip.addrs (field bn) ≠ 0

structure Whole (ip : Dinode) : Prop where
  backed : BackedTo ip ip.size
  size : ip.size ≤ MAXFILE * BSIZE

theorem bmapField_of_ne {ip : Dinode} {bn b : Nat} (h : ip.addrs (field bn) ≠ 0) : bmapField ip bn b = ip := if_neg h

theorem bmapField_eq (ip : Dinode) (bn b : Nat) : bmapField ip bn b = { ip with addrs := (bmapField ip bn b).addrs } := by
  unfold bmapField
  split <;> rfl

theorem bmapField_self {ip : Dinode} {bn b : Nat} (hb : b ≠ 0) : (bmapField ip bn b).addrs (field bn) ≠ 0 := by
  unfold bmapField
  split
  · rw [show (ip.setAddr (field bn) b).addrs (field bn) = b from Function.update_self ..]
    exact hb
  · assumption

theorem bmapField_keeps {ip : Dinode} {bn b : Nat} (hb : b ≠ 0) {k : Fin (NDIRECT + 1)} (hk : ip.addrs k ≠ 0) :
    (bmapField ip bn b).addrs k ≠ 0 := by
  by_cases h : k = field bn
  · rw [h]
    exact bmapField_self hb
  · unfold bmapField
    split
    · rw [show (ip.setAddr (field bn) b).addrs k = ip.addrs k from Function.update_of_ne h ..]
      exact hk
    · exact hk

/-! ## What the lock protects -/

/-- An entry that is valid has what is on the disk. -/
def Same (valid : Bool) (ip d : Dinode) : Prop := valid = true → ip = d ∧ d.type ≠ .free

/-- The loop of `writei` has come to byte `off`. It changes an inode only if that is going to grow. -/
structure Writing (ip d : Dinode) (off e : Nat) : Prop where
  fields : ip = { d with addrs := ip.addrs }
  type : d.type ≠ .free
  backed : BackedTo ip (max d.size off)
  le : off ≤ e
  bound : e ≤ MAXFILE * BSIZE
  grows : ip.addrs ≠ d.addrs → d.size < e

/-- Where the holder of the lock is, with the inode and the disk it then has. -/
inductive Stage : Bool → Dinode → Dinode → List Act → Prop
  | idle {valid : Bool} {ip d : Dinode} (h : Same valid ip d) : Stage valid ip d []
  | load {valid : Bool} {ip d : Dinode} (h : Same valid ip d) : Stage valid ip d [.load]
  | iput {valid : Bool} {ip d : Dinode} (h : Same valid ip d) : Stage valid ip d [.iput]
  | readi {d : Dinode} {off n : BitVec 32} (h : d.type ≠ .free) : Stage true d d [.readi off n]
  | readLoop {d : Dinode} {off n : Nat} (h : d.type ≠ .free) (hend : off + n ≤ d.size) :
    Stage true d d [.readLoop off n]
  | writei {d : Dinode} {off n : BitVec 32} (h : d.type ≠ .free) : Stage true d d [.writei off n]
  | writeLoop {ip d : Dinode} {off n m e : Nat} (h : Writing ip d off e) (he : off + n = e) (hpos : d.size < e → 0 < m) :
    Stage true ip d [.writeLoop off n, .grow m e]
  | grow {ip d : Dinode} {n e : Nat} (h : Writing ip d e e) (hpos : d.size < e → 0 < n) : Stage true ip d [.grow n e]
  | iupdate {ip d : Dinode} (h : Whole ip) (htype : ip.type ≠ .free) (hd : d.type ≠ .free) : Stage true ip d [.iupdate]
  | nlink {d : Dinode} {k : Int} (h : d.type ≠ .free) : Stage true d d [.nlink k, .iupdate]
  | init {d : Dinode} {major minor : Int} (h : d.type ≠ .free) : Stage true d d [.init major minor, .iupdate]
  | trunc {ip d : Dinode} (ks : List (Fin (NDIRECT + 1))) (htype : ip.type ≠ .free) (hd : d.type ≠ .free) :
    Stage true ip d (ks.map .trunc ++ [.size0, .iupdate, .type0, .iupdate, .invalid])
  | emptied {ip d : Dinode} (h : ip.size = 0) (htype : ip.type ≠ .free) (hd : d.type ≠ .free) :
    Stage true ip d [.iupdate, .type0, .iupdate, .invalid]
  | type0 {ip d : Dinode} (h : ip.size = 0) (hd : d.type ≠ .free) : Stage true ip d [.type0, .iupdate, .invalid]
  | freed {ip d : Dinode} (h : ip.type = .free) (hd : d.type ≠ .free) : Stage true ip d [.iupdate, .invalid]
  | invalid {valid : Bool} {ip d : Dinode} : Stage valid ip d [.invalid]

variable {valid : Bool} {ip d : Dinode} {off n e : Nat}

/-- Nobody relies on an inode that is free on the disk. -/
theorem Stage.free {d' : Dinode} {acts : List Act} (h : Stage valid ip d acts) (hd : d.type = .free) :
    Stage valid ip d' acts := by
  have hsame : Same valid ip d → Same valid ip d' := fun h hv => absurd hd (h hv).2
  cases h with
  | idle h => exact .idle (hsame h)
  | load h => exact .load (hsame h)
  | iput h => exact .iput (hsame h)
  | readi h => exact absurd hd h
  | readLoop h => exact absurd hd h
  | writei h => exact absurd hd h
  | writeLoop h => exact absurd hd h.type
  | grow h => exact absurd hd h.type
  | iupdate _ _ h => exact absurd hd h
  | nlink h => exact absurd hd h
  | init h => exact absurd hd h
  | trunc _ _ h => exact absurd hd h
  | emptied _ _ h => exact absurd hd h
  | type0 _ h => exact absurd hd h
  | freed _ h => exact absurd hd h
  | invalid => exact .invalid

/-- With nothing left to do the entry has what is on the disk. -/
theorem Stage.same (h : Stage valid ip d []) : Same valid ip d := by
  generalize hnil : ([] : List Act) = acts at h
  cases h with
  | idle h => exact h
  | trunc ks => cases ks <;> cases hnil
  | _ => cases hnil

/-- The round of the loop that has come to `off`. -/
theorem Writing.round {b m : Nat} (h : Writing ip d off e) (hb : b ≠ 0) (hm : 0 < m) (hblk : off % BSIZE + m ≤ BSIZE)
    (hle : off + m ≤ e) : Writing (bmapField ip (off / BSIZE) b) d (off + m) e := by
  have hsize : ip.size = d.size := by rw [h.fields]
  refine ⟨?_, h.type, fun bn hbn => ?_, hle, h.bound, fun hne => ?_⟩
  · rw [bmapField_eq, h.fields]
  · by_cases hold : bn * BSIZE < max d.size off
    · exact bmapField_keeps hb (h.backed bn hold)
    · -- a block that was not needed before is the one of this round
      have hbn' : bn = off / BSIZE := by
        unfold BSIZE at *
        omega
      rw [hbn']
      exact bmapField_self hb
  · by_cases h0 : ip.addrs (field (off / BSIZE)) = 0
    · have hnot := mt (h.backed (off / BSIZE)) (not_not_intro h0)
      unfold BSIZE at *
      omega
    · rw [bmapField_of_ne h0] at hne
      exact h.grows hne

theorem same_self (h : d.type ≠ .free) : Same true d d := fun _ => ⟨rfl, h⟩

theorem Whole.congr (h : Whole d) (hsize : ip.size = d.size) (haddrs : ip.addrs = d.addrs) : Whole ip := by
  refine ⟨fun bn hbn => ?_, hsize ▸ h.size⟩
  rw [haddrs]
  exact h.backed bn (hsize ▸ hbn)

theorem whole_of_empty (h : ip.size = 0) : Whole ip :=
  ⟨fun bn hbn => absurd hbn (by rw [h]; exact Nat.not_lt_zero _), by rw [h]; exact Nat.zero_le _⟩

section Run

variable {b ref : Nat} {valid' : Bool} {ip' d' : Dinode} {rest acts : List Act}

/-- What an access leaves behind. -/
def Leaves (valid : Bool) (ip d : Dinode) (acts : List Act) : Prop := Stage valid ip d acts ∧ (d.type ≠ .free → Whole d)

theorem run_load (h : Same valid ip d) (hd : d.type ≠ .free → Whole d)
    (hrun : Act.load.run b ref valid ip d = some (valid', ip', d', acts)) : Leaves valid' ip' d' (acts ++ []) := by
  simp only [Act.run] at hrun
  split at hrun
  · rename_i hv
    cases hrun
    exact ⟨.idle fun _ => h hv, hd⟩
  · split at hrun
    · cases hrun
    · rename_i hfree
      cases hrun
      exact ⟨.idle (same_self hfree), hd⟩

theorem run_iput (h : Same valid ip d) (hd : d.type ≠ .free → Whole d)
    (hrun : Act.iput.run b ref valid ip d = some (valid', ip', d', acts)) : Leaves valid' ip' d' (acts ++ []) := by
  simp only [Act.run] at hrun
  split at hrun
  · rename_i hput
    cases hrun
    obtain ⟨rfl, hfree⟩ := h hput.1
    rw [hput.1, List.append_nil]
    exact ⟨.trunc _ hfree hfree, hd⟩
  · cases hrun
    exact ⟨.idle h, hd⟩

theorem run_readi {off n : BitVec 32} (h : d.type ≠ .free) (hd : Whole d)
    (hrun : (Act.readi off n).run b ref true d d = some (valid', ip', d', acts)) : Leaves valid' ip' d' (acts ++ []) := by
  simp only [Act.run] at hrun
  split at hrun
  · cases hrun
    exact ⟨.idle (same_self h), fun _ => hd⟩
  · rename_i hok
    cases hrun
    refine ⟨.readLoop h ?_, fun _ => hd⟩
    rw [Volume.wraps_iff] at hok
    rw [Volume.toNat_add_of_not_wraps (by omega)]
    split <;> omega

theorem run_readLoop (h : d.type ≠ .free) (hd : Whole d) (hend : off + n ≤ d.size)
    (hrun : (Act.readLoop off n).run b ref true d d = some (valid', ip', d', acts)) :
    Leaves valid' ip' d' (acts ++ []) := by
  simp only [Act.run] at hrun
  split at hrun
  · -- the block is there, so the inode is not changed
    have hthere : d.addrs (field (off / BSIZE)) ≠ 0 :=
      hd.backed _ ((Nat.div_mul_le_self ..).trans_lt (by omega))
    rw [bmapField_of_ne hthere] at hrun
    cases hrun
    exact ⟨.readLoop h (by omega), fun _ => hd⟩
  · cases hrun
    exact ⟨.idle (same_self h), fun _ => hd⟩

theorem run_writei {off n : BitVec 32} (h : d.type ≠ .free) (hd : Whole d)
    (hrun : (Act.writei off n).run b ref true d d = some (valid', ip', d', acts)) : Leaves valid' ip' d' (acts ++ []) := by
  simp only [Act.run] at hrun
  split at hrun
  · cases hrun
    exact ⟨.idle (same_self h), fun _ => hd⟩
  · rename_i hok
    cases hrun
    rw [Volume.wraps_iff] at hok
    rw [Volume.toNat_add_of_not_wraps (by omega)] at hok
    refine ⟨.writeLoop ⟨rfl, h, ?_, by omega, by omega, fun hne => absurd rfl hne⟩ rfl fun hlt => by omega, fun _ => hd⟩
    rw [Nat.max_eq_left (by omega)]
    exact hd.backed

theorem run_writeLoop {m : Nat} (h : Writing ip d off e) (he : off + n = e) (hpos : d.size < e → 0 < m)
    (hd : d.type ≠ .free → Whole d) (hb : b ≠ 0)
    (hrun : (Act.writeLoop off n).run b ref true ip d = some (valid', ip', d', acts)) :
    Leaves valid' ip' d' (acts ++ [.grow m e]) := by
  simp only [Act.run] at hrun
  have hBS : off % BSIZE < BSIZE := Nat.mod_lt _ (by decide)
  split at hrun
  · cases hrun
    exact ⟨.writeLoop (h.round hb (by omega) (by omega) (by omega)) (by omega) hpos, hd⟩
  · cases hrun
    obtain rfl : off = e := by omega
    exact ⟨.grow h hpos, hd⟩

/-- The inode is the one on the disk unless it grows, and then it is updated. -/
theorem run_grow (h : Writing ip d e e) (hpos : d.size < e → 0 < n) (hd : d.type ≠ .free → Whole d)
    (hrun : (Act.grow n e).run b ref true ip d = some (valid', ip', d', acts)) : Leaves valid' ip' d' (acts ++ []) := by
  simp only [Act.run] at hrun
  have hsize : ip.size = d.size := by rw [h.fields]
  have htype : ip.type = d.type := by rw [h.fields]
  split at hrun
  · rename_i hgrow
    cases hrun
    have hbacked := h.backed
    rw [Nat.max_eq_right (by omega)] at hbacked
    exact ⟨.iupdate ⟨hbacked, h.bound⟩ (htype ▸ h.type) h.type, hd⟩
  · rename_i hgrow
    cases hrun
    have haddrs : ip.addrs = d.addrs := by
      by_contra hne
      have := h.grows hne
      exact hgrow ⟨hpos this, by omega⟩
    have hip : ip = d := by rw [h.fields, haddrs]
    rw [hip]
    exact ⟨.idle (same_self h.type), hd⟩

end Run

/-- An access by the holder of the lock. -/
theorem Stage.run {a : Act} {rest acts : List Act} {b ref : Nat} {valid' : Bool} {ip' d' : Dinode}
    (h : Stage valid ip d (a :: rest)) (hd : d.type ≠ .free → Whole d) (hb : b ≠ 0)
    (hrun : a.run b ref valid ip d = some (valid', ip', d', acts)) : Leaves valid' ip' d' (acts ++ rest) := by
  generalize hall : a :: rest = all at h
  cases h with
  | idle h => cases hall
  | load h =>
    cases hall
    exact run_load h hd hrun
  | iput h =>
    cases hall
    exact run_iput h hd hrun
  | readi h =>
    cases hall
    exact run_readi h (hd h) hrun
  | readLoop h hend =>
    cases hall
    exact run_readLoop h (hd h) hend hrun
  | writei h =>
    cases hall
    exact run_writei h (hd h) hrun
  | writeLoop h he hpos =>
    cases hall
    exact run_writeLoop h he hpos hd hb hrun
  | grow h hpos =>
    cases hall
    exact run_grow h hpos hd hrun
  | iupdate h htype hd' =>
    cases hall
    cases hrun
    exact ⟨.idle (same_self htype), fun _ => h⟩
  | nlink h =>
    cases hall
    cases hrun
    exact ⟨.iupdate ((hd h).congr rfl rfl) h h, hd⟩
  | init h =>
    cases hall
    cases hrun
    exact ⟨.iupdate ((hd h).congr rfl rfl) h h, hd⟩
  | trunc ks htype hd' =>
    cases ks with
    | nil =>
      cases hall
      cases hrun
      exact ⟨.emptied rfl htype hd', hd⟩
    | cons k ks =>
      cases hall
      cases hrun
      exact ⟨.trunc ks htype hd', hd⟩
  | emptied h htype hd' =>
    cases hall
    cases hrun
    exact ⟨.type0 h htype, fun _ => whole_of_empty h⟩
  | type0 h hd' =>
    cases hall
    cases hrun
    exact ⟨.freed rfl hd', hd⟩
  | freed h hd' =>
    cases hall
    cases hrun
    exact ⟨.invalid, fun hne => absurd h hne⟩
  | invalid =>
    cases hall
    cases hrun
    exact ⟨.idle nofun, hd⟩

/-! ## Every state -/

structure Inv (t : State) : Prop where
  disk : ∀ i, (t.disk i).type ≠ .free → Whole (t.disk i)
  uniq : ∀ c c', 0 < (t.entry c).ref → 0 < (t.entry c').ref → (t.entry c).inum = (t.entry c').inum → c = c'
  locked : ∀ c, (t.entry c).work ≠ none → 0 < (t.entry c).ref
  stage : ∀ c, 0 < (t.entry c).ref →
    Stage (t.entry c).valid (t.entry c).ip (t.disk (t.entry c).inum) ((t.entry c).work.getD [])

variable {t t' : State} {c : Fin NINODE}

/-- An entry is changed, and the disk for its inode. -/
theorem Inv.set_both {e : Entry} {d : Dinode} (h : Inv t)
    (huniq : 0 < e.ref → ∀ c', c' ≠ c → 0 < (t.entry c').ref → (t.entry c').inum ≠ e.inum)
    (hlocked : e.work ≠ none → 0 < e.ref) (hd : d.type ≠ .free → Whole d) (hkeep : e.ref = 0 → d = t.disk e.inum)
    (hstage : 0 < e.ref → Stage e.valid e.ip d (e.work.getD [])) :
    Inv { t.set c e with disk := Function.update t.disk e.inum d } := by
  have hself : (t.set c e).entry c = e := Function.update_self ..
  have hother : ∀ c', c' ≠ c → (t.set c e).entry c' = t.entry c' := fun c' hc' => Function.update_of_ne hc' ..
  refine ⟨fun i hi => ?_, fun c₁ c₂ h₁ h₂ heq => ?_, fun c' hc' => ?_, fun c' hc' => ?_⟩ <;> dsimp only at *
  · by_cases heq : i = e.inum
    · rw [heq, Function.update_self] at hi ⊢
      exact hd hi
    · rw [Function.update_of_ne heq] at hi ⊢
      exact h.disk i hi
  · by_cases hc₁ : c₁ = c <;> by_cases hc₂ : c₂ = c
    · rw [hc₁, hc₂]
    · rw [hc₁, hself] at heq h₁
      rw [hother c₂ hc₂] at heq h₂
      exact absurd heq.symm (huniq h₁ c₂ hc₂ h₂)
    · rw [hc₂, hself] at heq h₂
      rw [hother c₁ hc₁] at heq h₁
      exact absurd heq (huniq h₂ c₁ hc₁ h₁)
    · rw [hother c₁ hc₁] at heq h₁
      rw [hother c₂ hc₂] at heq h₂
      exact h.uniq c₁ c₂ h₁ h₂ heq
  · by_cases hcc : c' = c
    · subst hcc
      rw [hself] at hc' ⊢
      exact hlocked hc'
    · rw [hother c' hcc] at hc' ⊢
      exact h.locked c' hc'
  · by_cases hcc : c' = c
    · subst hcc
      rw [hself] at hc' ⊢
      rw [Function.update_self]
      exact hstage hc'
    · rw [hother c' hcc] at hc' ⊢
      have hst := h.stage c' hc'
      by_cases heq : (t.entry c').inum = e.inum
      · -- then the entry that was changed has no references
        have h0 : e.ref = 0 := by
          by_contra hne
          exact huniq (Nat.pos_of_ne_zero hne) c' hcc hc' heq
        rw [heq] at hst ⊢
        rw [Function.update_self, hkeep h0]
        exact hst
      · rw [Function.update_of_ne heq]
        exact hst

theorem Inv.set {e : Entry} (h : Inv t)
    (huniq : 0 < e.ref → ∀ c', c' ≠ c → 0 < (t.entry c').ref → (t.entry c').inum ≠ e.inum)
    (hlocked : e.work ≠ none → 0 < e.ref) (hstage : 0 < e.ref → Stage e.valid e.ip (t.disk e.inum) (e.work.getD [])) :
    Inv (t.set c e) := by
  have hboth := h.set_both (c := c) huniq hlocked (h.disk e.inum) (fun _ => rfl) hstage
  rw [Function.update_eq_self] at hboth
  exact hboth

/-- An entry keeps its inode number and its references. -/
theorem Inv.set_same {e : Entry} (h : Inv t) (hinum : e.inum = (t.entry c).inum) (href : 0 < (t.entry c).ref)
    (hpos : 0 < e.ref) (hstage : Stage e.valid e.ip (t.disk e.inum) (e.work.getD [])) : Inv (t.set c e) :=
  h.set (fun _ c' hc' h' heq => hc' (h.uniq c' c h' href (heq.trans hinum))) (fun _ => hpos) fun _ => hstage

theorem Inv.ialloc {type : FileType} (h : Inv t) (ht : t.ialloc type = some t') : Inv t' := by
  unfold State.ialloc at ht
  split at ht
  · rename_i i hfind
    have hfree : (t.disk i).type = .free := by
      have := List.find?_some hfind
      simp only [decide_eq_true_eq] at this
      exact this.2
    obtain rfl := Option.some.inj ht
    refine ⟨fun i' hi' => ?_, h.uniq, h.locked, fun c hc => ?_⟩ <;> dsimp only at *
    · by_cases heq : i' = i
      · rw [heq, Function.update_self]
        exact whole_of_empty rfl
      · rw [Function.update_of_ne heq] at hi' ⊢
        exact h.disk i' hi'
    · by_cases heq : (t.entry c).inum = i
      · exact (h.stage c hc).free (heq ▸ hfree)
      · rw [Function.update_of_ne heq]
        exact h.stage c hc
  · cases ht

theorem Inv.iget {inum : Nat} (h : Inv t) (ht : t.iget inum = some t') : Inv t' := by
  unfold State.iget at ht
  split at ht
  · rename_i c hfind
    have hc := List.find?_some hfind
    simp only [decide_eq_true_eq] at hc
    obtain rfl := Option.some.inj ht
    exact h.set_same rfl hc.1 (Nat.succ_pos _) (h.stage c hc.1)
  · rename_i hnone
    split at ht
    · rename_i c hfind
      have hc := List.find?_some hfind
      simp only [decide_eq_true_eq] at hc
      have hwork : (t.entry c).work = none := by
        by_contra hne
        exact absurd (h.locked c hne) (by omega)
      obtain rfl := Option.some.inj ht
      refine h.set (fun _ c' _ h' heq => ?_) (fun _ => Nat.one_pos) fun _ => ?_
      · have := List.find?_eq_none.1 hnone c' (List.mem_finRange c')
        simp only [decide_eq_true_eq] at this
        exact this ⟨h', heq⟩
      · dsimp only
        rw [hwork]
        exact .idle nofun
    · cases ht

theorem Inv.lock {acts : List Act} (h : Inv t) (hacts : ∀ {valid ip d}, Same valid ip d → Stage valid ip d acts)
    (ht : t.lock c acts = some t') : Inv t' := by
  unfold State.lock at ht
  split at ht
  · rename_i hc
    obtain rfl := Option.some.inj ht
    have hstage := h.stage c hc.1
    rw [hc.2] at hstage
    exact h.set_same rfl hc.1 hc.1 (hacts hstage.same)
  · cases ht

/-- A call by the holder of the lock, who has loaded the inode. -/
theorem Inv.call {body : Body} (h : Inv t) (ht : t.step (.call c body) = some t') : Inv t' := by
  simp only [State.step] at ht
  split at ht
  · rename_i hwork
    split at ht
    · rename_i hvalid
      obtain rfl := Option.some.inj ht
      have href := h.locked c (by rw [hwork]; exact nofun)
      have hstage := h.stage c href
      rw [hwork] at hstage
      obtain ⟨hip, hfree⟩ := hstage.same hvalid
      refine h.set_same rfl href href ?_
      dsimp only
      rw [hvalid, hip]
      cases body with
      | readi off n => exact .readi hfree
      | writei off n => exact .writei hfree
      | nlink d => exact .nlink hfree
      | init major minor => exact .init hfree
    · cases ht
  · cases ht

theorem Inv.run {b : Nat} (h : Inv t) (ht : t.step (.run c b) = some t') : Inv t' := by
  simp only [State.step] at ht
  split at ht
  · rename_i a rest hwork
    split at ht
    · cases ht
    · rename_i hb
      obtain ⟨⟨valid', ip', d', acts⟩, hrun, rfl⟩ := Option.map_eq_some_iff.1 ht
      have href := h.locked c (by rw [hwork]; exact nofun)
      have hstage := h.stage c href
      rw [hwork] at hstage
      obtain ⟨hstage', hd'⟩ := Stage.run hstage (h.disk _) hb hrun
      exact h.set_both (fun _ c' hc' h' heq => hc' (h.uniq c' c h' href heq)) (fun _ => href) hd'
        (fun h0 => absurd href (by rw [show (t.entry c).ref = 0 from h0]; decide)) fun _ => hstage'
  · cases ht

theorem Inv.step {l : Lbl} (h : Inv t) (ht : t.step l = some t') : Inv t' := by
  cases l with
  | ialloc type => exact h.ialloc ht
  | iget inum => exact h.iget ht
  | idup c =>
    simp only [State.step] at ht
    split at ht
    · rename_i href
      obtain rfl := Option.some.inj ht
      exact h.set_same rfl href (Nat.succ_pos _) (h.stage c href)
    · cases ht
  | ilock c => exact h.lock .load ht
  | call c body => exact h.call ht
  | run c b => exact h.run ht
  | iunlock c =>
    simp only [State.step] at ht
    split at ht
    · rename_i hwork
      obtain rfl := Option.some.inj ht
      have href := h.locked c (by rw [hwork]; exact nofun)
      have hstage := h.stage c href
      rw [hwork] at hstage
      exact h.set_same rfl href href (.idle hstage.same)
    · cases ht
  | iput c => exact h.lock .iput ht
  | drop c =>
    simp only [State.step] at ht
    split at ht
    · rename_i href
      obtain rfl := Option.some.inj ht
      have href' : 0 < (t.entry c).ref := by omega
      refine h.set (fun _ c' hc' h' heq => hc' (h.uniq c' c h' href' heq)) (fun hwork => ?_) fun _ => h.stage c href'
      have hsome : (t.entry c).work.isSome = true := Option.isSome_iff_ne_none.2 hwork
      rw [hsome] at href
      exact Nat.sub_pos_of_lt href
    · cases ht

/-- After boot: the cache is empty, and no inode on the disk has a hole. -/
structure Start (t : State) : Prop where
  ref : ∀ c, (t.entry c).ref = 0
  work : ∀ c, (t.entry c).work = none
  disk : ∀ i, (t.disk i).type ≠ .free → Whole (t.disk i)

/-- In every state an entry that is valid, referenced and not locked has exactly what is on the disk. -/
theorem inode_cache_write_through {t₀ : State} (h₀ : Start t₀) (hrun : Run State.step (fun _ _ => True) t₀ t)
    (hvalid : (t.entry c).valid = true) (href : 0 < (t.entry c).ref) (hwork : (t.entry c).work = none) :
    (t.entry c).ip = t.disk (t.entry c).inum := by
  have hstart : Inv t₀ := by
    refine ⟨h₀.disk, fun c c' hc => ?_, fun c hc => absurd (h₀.work c) hc, fun c hc => ?_⟩
    · rw [h₀.ref] at hc
      exact absurd hc (Nat.lt_irrefl 0)
    · rw [h₀.ref] at hc
      exact absurd hc (Nat.lt_irrefl 0)
  have hinv : Inv t := hrun.inv Inv (fun _ _ _ h _ ht => h.step ht) hstart
  have hstage := hinv.stage c href
  rw [hwork] at hstage
  exact (hstage.same hvalid).1

/-- A disk with one empty file. -/
def oneFile : State where
  ninodes := 2
  disk := fun i => ⟨if i = 1 then .file else .free, 0, 0, 1, 0, fun _ => 0⟩
  entry := fun _ => ⟨0, 0, false, ⟨.free, 0, 0, 0, 0, fun _ => 0⟩, none⟩

theorem NINODE_pos : 0 < NINODE := by decide

def first : Fin NINODE := ⟨0, NINODE_pos⟩

/-- A write to it: the inode is loaded, gets a block, grows and is updated. -/
def writeFile : List Lbl :=
  [.iget 1, .ilock first, .run first 1, .call first (.writei 0 5), .run first 1, .run first 30, .run first 1, .run first 1, .run first 1, .iunlock first]

theorem oneFile_written : ∃ t, Run State.step (fun _ _ => True) oneFile t ∧ (t.entry first).ip.size = 5 ∧
    (t.entry first).ip = t.disk (t.entry first).inum := by
  have hstart : Start oneFile := ⟨fun _ => rfl, fun _ => rfl, fun _ _ => whole_of_empty rfl⟩
  have hexec : (exec (checked State.step fun _ _ => true) oneFile writeFile).map
      (fun t => ((t.entry first).valid, (t.entry first).ref, (t.entry first).work.isNone, (t.entry first).ip.size)) =
      some (true, 1, true, 5) := by decide
  obtain ⟨t, ht, heq⟩ := Option.map_eq_some_iff.1 hexec
  simp only [Prod.mk.injEq] at heq
  have hrun : Run State.step (fun _ _ => True) oneFile t := run_of_checked (fun _ _ _ => trivial) ht
  refine ⟨t, hrun, heq.2.2.2, inode_cache_write_through hstart hrun heq.1 ?_ (Option.isNone_iff_eq_none.1 heq.2.2.1)⟩
  rw [heq.2.1]
  exact Nat.one_pos

end Xv6.Icache
