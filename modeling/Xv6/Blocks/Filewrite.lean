import Xv6.Bio.Code
import Xv6.Blocks.ByteArray
import Xv6.Lib.Runs
import Xv6.Lib.Sums
import Xv6.Lib.Tiles
/-!
# filewrite (file.c)

`filewrite` cuts what it writes into chunks. One chunk is one transaction, so
the blocks it changes must fit what `begin_op` reserves for it. Several calls on
the same `struct file` share its offset: the inode is locked for a chunk, and
between two chunks of one call other calls may write theirs.
-/

namespace Xv6

open Bytes Runs

/-- `((MAXOPBLOCKS-1-1-2) / 2) * 512` -/
def maxChunk : Nat := (MAXOPBLOCKS - 1 - 1 - 2) / 2 * 512

namespace Volume

variable {s : Volume} {T : Nat → Dinode} {i off n : Nat}

/-! ## The log space of a chunk -/

theorem sum_logged_le (bns : Finset Nat) (ip : Dinode) : ∑ bn ∈ bns, (1 + s.missing ip bn) ≤ 2 * bns.card := by
  refine (Finset.sum_le_sum fun bn _ => Nat.add_le_add_left (missing_le ip bn) 1).trans ?_
  rw [Finset.sum_const_nat fun _ _ => rfl, Nat.mul_comm]

/-- A chunk at the start of a block has three blocks. Any other has four, but then the first one is there. -/
theorem chunk_logged_le (hf : File s T i) (hoff : off ≤ (T i).size) (hn : n ≤ maxChunk) :
    ∑ bn ∈ touched off n, (1 + s.missing (T i) bn) ≤ 7 := by
  have hn' : n ≤ 1536 := hn
  by_cases halign : off % BSIZE = 0
  · have hsub : touched off n ⊆ Finset.Ico (off / BSIZE) (off / BSIZE + 3) := fun bn hbn => by
      obtain ⟨k, hk, rfl⟩ := mem_touched.1 hbn
      rw [Finset.mem_Ico]
      unfold BSIZE at *
      omega
    have hcard := Finset.card_le_card hsub
    rw [Nat.card_Ico, Nat.add_sub_cancel_left] at hcard
    have := sum_logged_le (s := s) (touched off n) (T i)
    omega
  · have hsub : touched off n ⊆ insert (off / BSIZE) (Finset.Ico (off / BSIZE + 1) (off / BSIZE + 1 + 3)) :=
      fun bn hbn => by
        obtain ⟨k, hk, rfl⟩ := mem_touched.1 hbn
        rw [Finset.mem_insert, Finset.mem_Ico]
        unfold BSIZE at *
        omega
    have hthere : s.missing (T i) (off / BSIZE) = 0 := if_neg (hf.backed _ (by unfold BSIZE at *; omega))
    have hrest := sum_logged_le (s := s) (Finset.Ico (off / BSIZE + 1) (off / BSIZE + 1 + 3)) (T i)
    rw [Nat.card_Ico, Nat.add_sub_cancel_left] at hrest
    calc ∑ bn ∈ touched off n, (1 + s.missing (T i) bn)
        ≤ ∑ bn ∈ insert (off / BSIZE) (Finset.Ico (off / BSIZE + 1) (off / BSIZE + 1 + 3)),
            (1 + s.missing (T i) bn) := Finset.sum_le_sum_of_subset hsub
      _ = (1 + 0) + ∑ bn ∈ Finset.Ico (off / BSIZE + 1) (off / BSIZE + 1 + 3), (1 + s.missing (T i) bn) := by
          rw [Finset.sum_insert (by simp), hthere]
      _ ≤ 7 := by omega

/-- The blocks that `writei` passes to `log_write` for a chunk are at most what is reserved for a transaction. -/
theorem chunk_fits_log {src : Nat → BitVec 8} {off n : BitVec 32} {ok : Bool} {ip' : Dinode} {s' : Volume}
    (hf : File s T i) (hlog : s.logged = ∅) (hn : n.toNat ≤ maxChunk)
    (hw : s.writei i (T i) src off n = .ok (ok, ip', s')) : s'.logged.card ≤ MAXOPBLOCKS := by
  by_cases hok : off.toNat ≤ (T i).size ∧ off.toNat + n.toNat < 2 ^ 32 ∧ off.toNat + n.toNat ≤ MAXFILE * BSIZE
  · have hends := (writei_ends src off n hf).1 hok
    rw [hw] at hends
    have hcard := hends.2.logged
    rw [hlog, Finset.card_empty] at hcard
    have hsum := chunk_logged_le hf hok.1 hn
    unfold MAXOPBLOCKS
    dsimp only at hcard
    omega
  · rw [(writei_ends src off n hf).2 hok] at hw
    cases hw
    rw [hlog]
    exact Nat.zero_le _

theorem blank_chunk_fits : ∃ ip' s', (blank .file).writei 1 ((blank .file).dinode 1) (fun _ => 1) 0 1536 = .ok (true, ip', s') ∧
    s'.logged.card ≤ MAXOPBLOCKS := by
  have hfile := blank_file (t := .file) (by decide) (by decide)
  have hends := (writei_ends (fun _ => 1) 0 1536 hfile).1 (by decide)
  have hsum := sum_missing_le (s := blank .file) ((blank .file).dinode 1) (0 : BitVec 32).toNat (1536 : BitVec 32).toNat
  have hfree : (blank .file).free.card = 13 := by decide
  have hlack : ((blank .file).dinode 1).lack = 1 := by decide
  have hbound : 1 + ((1536 : BitVec 32).toNat / BSIZE + 2) ≤ 13 := by decide
  rw [hfree, hlack] at hends
  obtain ⟨⟨ok, ip', s'⟩, hw, rfl, -⟩ := (hends.weaken (E := fun _ => False) fun e he => by omega).ok
  exact ⟨ip', s', hw, chunk_fits_log hfile rfl (by decide) hw⟩

end Volume

/-! ## Writers that share an offset -/

variable {ι : Type} [DecidableEq ι]

/-- Calls of `filewrite` on one `struct file`, which is open for writing on an inode. `argptr` has refused negative
lengths. -/
structure Writers (ι : Type) where
  inum : Nat
  others : Nat → Dinode         -- the inodes other than that
  n : ι → Nat
  src : ι → Nat → BitVec 8

/-- Bytes that a call has written: from `start` in its data, at `pos` in the file. -/
structure Chunk (ι : Type) where
  writer : ι
  start : Nat
  pos : Nat
  len : Nat

structure Sharing (ι : Type) where
  vol : Volume
  ip : Dinode
  off : BitVec 32               -- f->off
  done : ι → Nat                -- the variable i of a call
  ret : ι → Option Int
  panicked : Bool
  chunks : List (Chunk ι)       -- all chunks so far, the latest first

namespace Writers

variable (g : Writers ι) (t : Sharing ι) (w : ι)

def n1 : Nat := if maxChunk < g.n w - t.done w then maxChunk else g.n w - t.done w

/-- The body of the loop: `writei` returns what it was given, so it is never a short write. -/
def chunk : Sharing ι :=
  match t.vol.writei g.inum t.ip (fun k => g.src w (t.done w + k)) t.off (BitVec.ofNat 32 (g.n1 t w)) with
  | .error _ => { t with panicked := true }
  | .ok (false, ip, vol) =>
    { t with vol, ip, ret := Function.update t.ret w (some (if t.done w = g.n w then g.n w else -1)) }
  | .ok (true, ip, vol) =>
    { t with
      vol, ip
      off := t.off + BitVec.ofNat 32 (g.n1 t w)
      done := Function.update t.done w (t.done w + g.n1 t w)
      chunks := ⟨w, t.done w, t.off.toNat, g.n1 t w⟩ :: t.chunks }

/-- The next step of a call: a chunk, or the return. -/
def step : Option (Sharing ι) :=
  if t.panicked ∨ (t.ret w).isSome then none
  else if t.done w < g.n w then some (g.chunk t w)
  else some { t with ret := Function.update t.ret w (some (if t.done w = g.n w then g.n w else -1)) }

end Writers

namespace Sharing

/-- The pieces of the file, and those of the data of a call. -/
def pieces (t : Sharing ι) : List (Nat × Nat) := t.chunks.map fun c => (c.pos, c.len)

def own (t : Sharing ι) (w : ι) : List (Nat × Nat) :=
  (t.chunks.filter fun c => c.writer = w).map fun c => (c.start, c.len)

end Sharing

/-- No call has begun, and everything fits. -/
structure Fits [Fintype ι] (g : Writers ι) (t : Sharing ι) : Prop where
  file : Volume.File t.vol (Function.update g.others g.inum t.ip) g.inum
  off : t.off.toNat ≤ t.ip.size
  total : t.off.toNat + ∑ w, g.n w < MAXFILE * BSIZE
  done : ∀ w, t.done w = 0
  ret : ∀ w, t.ret w = none
  panicked : t.panicked = false
  chunks : t.chunks = []

/-- What holds after the steps `ls`. -/
structure Shared [Fintype ι] (g : Writers ι) (t₀ : Sharing ι) (ls : List ι) (t : Sharing ι) : Prop where
  file : Volume.File t.vol (Function.update g.others g.inum t.ip) g.inum
  le : t.off.toNat ≤ t.ip.size
  off : t.off.toNat = t₀.off.toNat + ∑ w, t.done w
  done : ∀ w, t.done w ≤ g.n w
  ret : ∀ w r, t.ret w = some r → r = g.n w ∧ t.done w = g.n w
  tiles : Tiles t₀.off.toNat t.pieces t.off.toNat
  own : ∀ w, Tiles 0 (t.own w) (t.done w)
  len : ∀ c ∈ t.chunks, 0 < c.len ∧ c.len ≤ 1536
  landed : ∀ c ∈ t.chunks, ∀ k, k < c.len → t.vol.content t.ip (c.pos + k) = g.src c.writer (c.start + k)
  count : ∀ w, ls.count w ≤ t.done w + (t.ret w).isSome.toNat + t.panicked.toNat
  room : t.panicked = true → t.vol.free.card < 6

theorem Fits.shared [Fintype ι] {g : Writers ι} {t : Sharing ι} (h : Fits g t) : Shared g t [] t := by
  have hsum : ∑ w, t.done w = 0 := Finset.sum_eq_zero fun w _ => h.done w
  refine ⟨h.file, h.off, by rw [hsum, Nat.add_zero], fun w => by rw [h.done]; exact Nat.zero_le _, fun w r hr => ?_, ?_,
    fun w => ?_, ?_, ?_, fun w => Nat.zero_le _, fun hp => ?_⟩
  · rw [h.ret] at hr
    cases hr
  · rw [Sharing.pieces, h.chunks]
    rfl
  · rw [Sharing.own, h.chunks, h.done]
    rfl
  · rw [h.chunks]
    exact nofun
  · rw [h.chunks]
    exact nofun
  · rw [h.panicked] at hp
    cases hp

section Step

variable [Fintype ι] {g : Writers ι} {t₀ t : Sharing ι} {ls : List ι} {w : ι}

omit [DecidableEq ι] [Fintype ι] in
theorem Writers.n1_le (g : Writers ι) (t : Sharing ι) (w : ι) : g.n1 t w ≤ 1536 ∧ g.n1 t w ≤ g.n w - t.done w := by
  have hmax : maxChunk = 1536 := rfl
  unfold n1
  split <;> omega

/-- The offset after a chunk is within what was planned. -/
theorem Shared.off_add_le (h : Shared g t₀ ls t) (hw : t.done w < g.n w) :
    t.off.toNat + g.n1 t w ≤ t₀.off.toNat + ∑ w, g.n w := by
  have hmove := Sums.sum_move (f := t.done) (g := Function.update t.done w (t.done w + g.n1 t w)) w
    fun u hu => Function.update_of_ne hu ..
  rw [Function.update_self] at hmove
  have hle : ∑ u, Function.update t.done w (t.done w + g.n1 t w) u ≤ ∑ u, g.n u := by
    refine Finset.sum_le_sum fun u _ => ?_
    by_cases hu : u = w
    · subst hu
      rw [Function.update_self]
      have := (g.n1_le t u).2
      omega
    · rw [Function.update_of_ne hu]
      exact h.done u
  have := h.off
  omega

/-- A chunk is written, or there are not enough blocks for it. -/
theorem Shared.chunk_cases (h : Shared g t₀ ls t) (htotal : t₀.off.toNat + ∑ w, g.n w < MAXFILE * BSIZE)
    (hw : t.done w < g.n w) :
    (∃ ip vol, Volume.Written t.vol (Function.update g.others g.inum t.ip) g.inum (fun k => g.src w (t.done w + k))
        t.off.toNat (g.n1 t w) ip vol ∧
      g.chunk t w = { t with
        vol, ip
        off := t.off + BitVec.ofNat 32 (g.n1 t w)
        done := Function.update t.done w (t.done w + g.n1 t w)
        chunks := ⟨w, t.done w, t.off.toNat, g.n1 t w⟩ :: t.chunks }) ∨
    t.vol.free.card < 6 ∧ g.chunk t w = { t with panicked := true } := by
  have hle := h.off_add_le hw
  have hmax : MAXFILE * BSIZE = 71680 := rfl
  have hn1 : (BitVec.ofNat 32 (g.n1 t w)).toNat = g.n1 t w := by
    have := (g.n1_le t w).1
    rw [BitVec.toNat_ofNat, Nat.mod_eq_of_lt (by omega)]
  have hends := (Volume.writei_ends (fun k => g.src w (t.done w + k)) t.off (BitVec.ofNat 32 (g.n1 t w)) h.file).1
  rw [Function.update_self, hn1] at hends
  have hends := hends ⟨h.le, by omega, by omega⟩
  unfold Writers.chunk
  cases hr : t.vol.writei g.inum t.ip (fun k => g.src w (t.done w + k)) t.off (BitVec.ofNat 32 (g.n1 t w)) with
  | error e =>
    rw [hr] at hends
    have hlack := Volume.lack_le t.ip
    have hsum := Volume.sum_missing_le (s := t.vol) t.ip t.off.toNat (g.n1 t w)
    have hdiv : g.n1 t w / BSIZE ≤ 3 := (Nat.div_le_div_right (g.n1_le t w).1).trans (by decide)
    exact .inr ⟨by have := hends.2.2; omega, rfl⟩
  | ok r =>
    rw [hr] at hends
    obtain ⟨ok, ip, vol⟩ := r
    obtain ⟨rfl, hwritten⟩ := hends
    exact .inl ⟨ip, vol, hwritten, rfl⟩

omit [Fintype ι] in
theorem count_snoc (ls : List ι) (w u : ι) : (ls ++ [w]).count u = ls.count u + if u = w then 1 else 0 := by
  rw [List.count_append, List.count_singleton]
  simp only [beq_iff_eq, eq_comm (a := w)]

theorem Shared.chunk {ip : Dinode} {vol : Volume} (h : Shared g t₀ ls t)
    (htotal : t₀.off.toNat + ∑ w, g.n w < MAXFILE * BSIZE) (hgo : t.panicked = false)
    (hw : t.done w < g.n w)
    (hwr : Volume.Written t.vol (Function.update g.others g.inum t.ip) g.inum (fun k => g.src w (t.done w + k))
      t.off.toNat (g.n1 t w) ip vol) :
    Shared g t₀ (ls ++ [w]) { t with
      vol, ip
      off := t.off + BitVec.ofNat 32 (g.n1 t w)
      done := Function.update t.done w (t.done w + g.n1 t w)
      chunks := ⟨w, t.done w, t.off.toNat, g.n1 t w⟩ :: t.chunks } := by
  have hle := h.off_add_le hw
  have hmax : MAXFILE * BSIZE = 71680 := rfl
  obtain ⟨hlen, hn⟩ := g.n1_le t w
  have hpos : 0 < g.n1 t w := by
    have hmax : maxChunk = 1536 := rfl
    unfold Writers.n1
    split <;> omega
  have hoff : (t.off + BitVec.ofNat 32 (g.n1 t w)).toNat = t.off.toNat + g.n1 t w := toNat_add_ofNat (by omega)
  have hsize := hwr.size
  have hin := hwr.inside
  have hout := hwr.outside
  rw [Function.update_self] at hsize hout
  refine
    { file := ?_
      le := ?_
      off := ?_
      done := fun u => ?_
      ret := fun u r hr => ?_
      tiles := ?_
      own := fun u => ?_
      len := fun c hc => ?_
      landed := fun c hc k hk => ?_
      count := fun u => ?_
      room := fun hp => absurd hp (by rw [hgo]; decide) }
  · have := hwr.file
    rwa [Function.update_idem] at this
  · dsimp only
    omega
  · have hmove := Sums.sum_move (f := t.done) (g := Function.update t.done w (t.done w + g.n1 t w)) w
      fun u hu => Function.update_of_ne hu ..
    rw [Function.update_self] at hmove
    have := h.off
    dsimp only
    omega
  · dsimp only
    by_cases hu : u = w
    · subst hu
      rw [Function.update_self]
      omega
    · rw [Function.update_of_ne hu]
      exact h.done u
  · -- a call that writes has not returned
    have hret := h.ret u r hr
    by_cases hu : u = w
    · subst hu
      omega
    · exact ⟨hret.1, (Function.update_of_ne hu ..).trans hret.2⟩
  · dsimp only
    rw [hoff]
    exact h.tiles.push _
  · unfold Sharing.own
    dsimp only
    by_cases hu : u = w
    · subst hu
      rw [List.filter_cons_of_pos (by simp), List.map_cons, Function.update_self]
      exact (h.own u).push _
    · rw [List.filter_cons_of_neg (by simpa using Ne.symm hu), Function.update_of_ne hu]
      exact h.own u
  · rcases List.mem_cons.1 hc with rfl | hc
    · exact ⟨hpos, hlen⟩
    · exact h.len c hc
  · rcases List.mem_cons.1 hc with rfl | hc
    · exact hin k hk
    · -- the earlier chunks lie before the offset
      have hbounds := h.tiles.bounds (List.mem_map_of_mem hc)
      have hlt : c.pos + k < t.off.toNat := Nat.lt_of_lt_of_le (Nat.add_lt_add_left hk _) hbounds.2
      dsimp only
      rw [hout _ (hlt.trans_le h.le) (.inl hlt)]
      exact h.landed c hc k hk
  · have hcount := h.count u
    rw [count_snoc]
    dsimp only
    by_cases hu : u = w
    · subst hu
      rw [if_pos rfl, Function.update_self]
      omega
    · rw [if_neg hu, Function.update_of_ne hu]
      exact hcount

theorem Shared.step {t' : Sharing ι} (h : Shared g t₀ ls t) (htotal : t₀.off.toNat + ∑ w, g.n w < MAXFILE * BSIZE)
    (hstep : g.step t w = some t') : Shared g t₀ (ls ++ [w]) t' := by
  unfold Writers.step at hstep
  split at hstep
  · cases hstep
  · rename_i hgo
    rw [not_or, Bool.not_eq_true, Bool.not_eq_true, Option.isSome_eq_false_iff, Option.isNone_iff_eq_none] at hgo
    split at hstep
    · rename_i hw
      obtain rfl := Option.some.inj hstep
      rcases h.chunk_cases htotal hw with ⟨ip, vol, hwr, heq⟩ | ⟨hroom, heq⟩
      · rw [heq]
        exact h.chunk htotal hgo.1 hw hwr
      · rw [heq]
        refine { h with count := fun u => ?_, room := fun _ => hroom }
        have hcount := h.count u
        rw [hgo.1, Bool.toNat_false] at hcount
        rw [count_snoc]
        dsimp only [Bool.toNat_true]
        split <;> omega
    · rename_i hw
      obtain rfl := Option.some.inj hstep
      have heq : t.done w = g.n w := Nat.le_antisymm (h.done w) (Nat.not_lt.1 hw)
      refine { h with ret := fun u r hr => ?_, count := fun u => ?_ }
      · dsimp only at hr
        by_cases hu : u = w
        · subst hu
          rw [Function.update_self, if_pos heq] at hr
          exact ⟨(Option.some.inj hr).symm, heq⟩
        · rw [Function.update_of_ne hu] at hr
          exact h.ret u r hr
      · have hcount := h.count u
        rw [count_snoc]
        dsimp only
        by_cases hu : u = w
        · subst hu
          rw [hgo.2, Option.isSome_none, Bool.toNat_false] at hcount
          rw [if_pos rfl, Function.update_self, Option.isSome_some, Bool.toNat_true]
          omega
        · rw [if_neg hu, Function.update_of_ne hu]
          exact hcount

theorem Shared.run {ls' : List ι} {t' : Sharing ι} (h : Shared g t₀ ls t)
    (htotal : t₀.off.toNat + ∑ w, g.n w < MAXFILE * BSIZE) (hrun : exec g.step t ls' = some t') :
    Shared g t₀ (ls ++ ls') t' := by
  induction ls' generalizing ls t with
  | nil =>
    cases hrun
    rwa [List.append_nil]
  | cons w ls' ih =>
    obtain ⟨u, hu, hrun⟩ := Option.bind_eq_some_iff.1 hrun
    have := ih (h.step htotal hu) hrun
    rwa [List.append_assoc] at this

/-- Whatever the order of the chunks: they lie one behind the other, no byte of them is overwritten, the offset has
moved by what was written, and a call returns its `n`, unless the disk runs full. -/
theorem shared_offset_writes (h : Fits g t₀) (hrun : exec g.step t₀ ls = some t) :
    (∀ c ∈ t.chunks, 0 < c.len ∧ c.len ≤ 1536 ∧
      ∀ k, k < c.len → t.vol.content t.ip (c.pos + k) = g.src c.writer (c.start + k)) ∧
    t.chunks.Pairwise (fun c d => d.pos + d.len ≤ c.pos) ∧
    (∀ w, Tiles 0 (t.own w) (t.done w)) ∧
    t.off.toNat = t₀.off.toNat + ∑ w, t.done w ∧
    (∀ w r, t.ret w = some r → r = g.n w ∧ t.done w = g.n w) ∧
    (∀ w, g.n w < ls.count w → t.panicked = false → t.ret w = some (g.n w : Int)) ∧
    (t.panicked = true → t.vol.free.card < 6) := by
  have hs := h.shared.run h.total hrun
  refine ⟨fun c hc => ⟨(hs.len c hc).1, (hs.len c hc).2, hs.landed c hc⟩, List.pairwise_map.1 hs.tiles.pairwise, hs.own,
    hs.off, hs.ret, fun w hw hgo => ?_, hs.room⟩
  have hcount := hs.count w
  have hdone := hs.done w
  rw [List.nil_append, hgo] at hcount
  cases hr : t.ret w with
  | none =>
    rw [hr, Option.isSome_none, Bool.toNat_false] at hcount
    omega
  | some r => rw [(hs.ret w r hr).1]

end Step

/-- Two calls on an empty file, of two bytes and one byte. -/
def twoWriters : Writers Bool where
  inum := 1
  others := (Volume.blank .file).dinode
  n := fun w => if w then 2 else 1
  src := fun w k => if w then BitVec.ofNat 8 (65 + k) else 97

def twoStart : Sharing Bool :=
  ⟨Volume.blank .file, (Volume.blank .file).dinode 1, 0, fun _ => 0, fun _ => none, false, []⟩

theorem twoWriters_share : ∃ t, exec twoWriters.step twoStart [true, false, false, true] = some t ∧
    t.off = 3 ∧ t.ret true = some 2 ∧ t.ret false = some 1 ∧
    t.chunks.Pairwise (fun c d => d.pos + d.len ≤ c.pos) := by
  have hfile : Volume.File (Volume.blank .file) (Function.update (Volume.blank .file).dinode 1 ((Volume.blank .file).dinode 1)) 1 := by
    rw [Function.update_eq_self]
    exact Volume.blank_file (by decide) (by decide)
  have hfits : Fits twoWriters twoStart :=
    ⟨hfile, Nat.zero_le _, by decide, fun _ => rfl, fun _ => rfl, rfl, rfl⟩
  have hrun : (exec twoWriters.step twoStart [true, false, false, true]).map
      (fun t => (t.off, t.ret true, t.ret false)) = some (3, some 2, some 1) := by decide
  obtain ⟨t, ht, heq⟩ := Option.map_eq_some_iff.1 hrun
  obtain ⟨hoff, hrets⟩ := Prod.mk.inj heq
  obtain ⟨htrue, hfalse⟩ := Prod.mk.inj hrets
  exact ⟨t, ht, hoff, htrue, hfalse, (shared_offset_writes hfits ht).2.1⟩

end Xv6
