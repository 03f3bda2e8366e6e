import Mathlib.Algebra.Order.BigOperators.Ring.Finset
import Mathlib.Order.Interval.Finset.Nat
import Xv6.Blocks.Contents
/-!
# A file is an array of bytes

What `readi` and `writei` do to an inode without holes is what reads and writes
do to a list of bytes, whatever the blocks are.
-/

namespace Xv6

open Bytes Outcome

namespace Volume

variable {s s' : Volume} {T : Nat → Dinode} {i bn off n : Nat} {ip' : Dinode}

/-! ## readi -/

/-- `bmap` only looks a block up that is there. -/
theorem bmap_old (hf : File s T i) (hbn : bn < MAXFILE) (hne : (T i).ptr s.block (.data bn) ≠ 0) :
    s.bmap (T i) bn = .ok ((T i).ptr s.block (.data bn), T i, s) := by
  have hends := bmap_ends hf.own hf.live hbn
  cases hr : s.bmap (T i) bn with
  | error e =>
    rw [hr] at hends
    exact absurd hends.2.1 hne
  | ok r =>
    rw [hr] at hends
    obtain ⟨a, ip', s'⟩ := r
    have hold := hends.old hne
    have haddr := hends.addr
    dsimp only at hold haddr
    rw [← haddr, hold.1, hold.2]

theorem readLoop_eq (fuel : Nat) (hf : File s T i) (hn : n ≤ fuel) (hend : off + n ≤ (T i).size) :
    readLoop fuel s (T i) off n = .ok ((List.range n).map fun k => s.content (T i) (off + k), T i, s) := by
  induction fuel generalizing off n with
  | zero =>
    obtain rfl : n = 0 := Nat.le_zero.1 hn
    rfl
  | succ fuel ih =>
    unfold readLoop
    split
    · rename_i hpos
      have hBS : off % BSIZE < BSIZE := Nat.mod_lt _ (by decide)
      have hne := hf.backed (off / BSIZE) ((Nat.div_mul_le_self ..).trans_lt (by omega))
      have hlt : off / BSIZE < MAXFILE := by
        have := hf.size
        unfold BSIZE at *
        omega
      rw [bmap_old hf hlt hne]
      obtain ⟨m, hm⟩ : ∃ m, m = min n (BSIZE - off % BSIZE) := ⟨_, rfl⟩
      obtain ⟨k, rfl⟩ : ∃ k, n = m + k := ⟨n - m, by omega⟩
      dsimp only [bind, Except.bind]
      rw [← hm, Nat.add_sub_cancel_left, ih (by omega) (by omega)]
      dsimp only
      rw [List.range_add, List.map_append, List.map_map]
      refine congrArg (fun l => Except.ok (l, T i, s)) (congrArg₂ (· ++ ·) (List.map_congr_left fun q hq => ?_)
        (List.map_congr_left fun q _ => ?_))
      · have hqm := List.mem_range.1 hq
        have hdiv : (off + q) / BSIZE = off / BSIZE := by
          unfold BSIZE at *
          omega
        have hmod : (off + q) % BSIZE = off % BSIZE + q := by
          unfold BSIZE at *
          omega
        unfold content
        rw [hdiv, hmod, if_neg hne, BitVec.ofNat_add]
      · rw [Function.comp_apply, Nat.add_assoc]
    · obtain rfl : n = 0 := by omega
      rfl

/-- The bytes of an inode. -/
def bytes (s : Volume) (ip : Dinode) : List (BitVec 8) := (List.range ip.size).map (s.content ip)

@[simp] theorem length_bytes (ip : Dinode) : (s.bytes ip).length = ip.size := by
  rw [bytes, List.length_map, List.length_range]

/-- `readi` in all cases. -/
theorem readi_eq (off n : BitVec 32) (hf : File s T i) :
    s.readi (T i) off n = .ok (if off.toNat ≤ (T i).size ∧ off.toNat + n.toNat < 2 ^ 32 then
      some (((s.bytes (T i)).drop off.toNat).take n.toNat) else none, T i, s) := by
  unfold readi
  by_cases hbad : (T i).size < off.toNat ∨ off + n < off
  · rw [if_pos hbad, if_neg]
    rw [wraps_iff] at hbad
    omega
  · rw [if_neg hbad]
    rw [wraps_iff] at hbad
    have hok : off.toNat ≤ (T i).size ∧ off.toNat + n.toNat < 2 ^ 32 := by omega
    rw [toNat_add_of_not_wraps hok.2, if_pos hok]
    obtain ⟨m, hm⟩ : ∃ m, m = if (T i).size < off.toNat + n.toNat then (T i).size - off.toNat else n.toNat := ⟨_, rfl⟩
    have hloop : readLoop m s (T i) off.toNat m = _ := readLoop_eq m hf le_rfl (by split at hm <;> omega)
    rw [← hm]
    dsimp only
    rw [hloop]
    refine congrArg (fun l => Except.ok (some l, T i, s)) (List.ext_getElem ?_ fun q hq _ => ?_)
    · rw [List.length_map, List.length_range, List.length_take, List.length_drop, length_bytes]
      split at hm <;> omega
    · simp [bytes]

/-- The bytes after `writei`. -/
theorem Written.bytes_eq {src : Nat → BitVec 8} (h : Written s T i src off n ip' s') (hoff : off ≤ (T i).size) :
    s'.bytes ip' =
      (s.bytes (T i)).take off ++ (List.range n).map src ++ (s.bytes (T i)).drop (off + n) := by
  refine List.ext_getElem ?_ fun p hp _ => ?_
  · simp only [length_bytes, List.length_append, List.length_take, List.length_drop, List.length_map,
      List.length_range, h.size]
    omega
  · rw [length_bytes, h.size] at hp
    have hlen : ((s.bytes (T i)).take off ++ (List.range n).map src).length = off + n := by
      simp only [length_bytes, List.length_append, List.length_take, List.length_map, List.length_range]
      omega
    have hlen' : ((s.bytes (T i)).take off).length = off := by
      rw [List.length_take, length_bytes]
      omega
    simp only [List.getElem_append, hlen, hlen']
    split
    · split
      · rename_i hlt
        simp [bytes, h.outside p (by omega) (.inl hlt)]
      · rename_i hge
        have := h.inside (p - off) (by omega)
        rw [Nat.add_sub_cancel' (by omega)] at this
        simp [bytes, this]
    · rename_i hge
      have := h.outside p (by omega) (.inr (by omega))
      simp [bytes, this, Nat.add_sub_cancel' (Nat.not_lt.1 hge)]

/-! ## Sequences of calls -/

/-- Calls of `writei` and `readi`, with what they return. -/
inductive Call where
  | write (src : Nat → BitVec 8) (off n : BitVec 32)
  | read (off n : BitVec 32)

inductive Ret where
  | failed                      -- -1
  | wrote
  | got (data : List (BitVec 8))
  deriving DecidableEq

def Call.run (i : Nat) : Call → Dinode → Volume → Except BlockPanic (Ret × Dinode × Volume)
  | .write src off n, ip, s => do
    let (ok, ip, s) ← s.writei i ip src off n
    .ok (if ok then .wrote else .failed, ip, s)
  | .read off n, ip, s => do
    let (data, ip, s) ← s.readi ip off n
    .ok (data.elim .failed .got, ip, s)

def runCalls (i : Nat) : List Call → Dinode → Volume → Except BlockPanic (List Ret × Dinode × Volume)
  | [], ip, s => .ok ([], ip, s)
  | c :: cs, ip, s => do
    let (r, ip, s) ← c.run i ip s
    let (rs, ip, s) ← runCalls i cs ip s
    .ok (r :: rs, ip, s)

/-- The same calls on an array of bytes. -/
def Call.onBytes : Call → List (BitVec 8) → Ret × List (BitVec 8)
  | .write src off n, bs =>
    if off.toNat ≤ bs.length ∧ off.toNat + n.toNat < 2 ^ 32 ∧ off.toNat + n.toNat ≤ MAXFILE * BSIZE then
      (.wrote, bs.take off.toNat ++ (List.range n.toNat).map src ++ bs.drop (off.toNat + n.toNat))
    else (.failed, bs)
  | .read off n, bs =>
    if off.toNat ≤ bs.length ∧ off.toNat + n.toNat < 2 ^ 32 then (.got ((bs.drop off.toNat).take n.toNat), bs)
    else (.failed, bs)

def onBytes : List Call → List (BitVec 8) → List Ret × List (BitVec 8)
  | [], bs => ([], bs)
  | c :: cs, bs => ((c.onBytes bs).1 :: (onBytes cs (c.onBytes bs).2).1, (onBytes cs (c.onBytes bs).2).2)

/-- As many blocks as a call can need, but for an indirect block. -/
def Call.blocks : Call → Nat
  | .write _ _ n => n.toNat / BSIZE + 2
  | .read .. => 0

theorem card_touched_le (off n : Nat) : (touched off n).card ≤ n / BSIZE + 2 := by
  have hsub : touched off n ⊆ Finset.Ico (off / BSIZE) (off / BSIZE + (n / BSIZE + 2)) := fun bn hbn => by
    obtain ⟨k, hk, rfl⟩ := mem_touched.1 hbn
    rw [Finset.mem_Ico]
    unfold BSIZE
    omega
  have := Finset.card_le_card hsub
  rwa [Nat.card_Ico, Nat.add_sub_cancel_left] at this

theorem missing_le (ip : Dinode) (bn : Nat) : s.missing ip bn ≤ 1 := by
  unfold missing
  split <;> omega

theorem sum_missing_le (ip : Dinode) (off n : Nat) : ∑ bn ∈ touched off n, s.missing ip bn ≤ n / BSIZE + 2 := by
  refine (Finset.sum_le_sum fun bn _ => missing_le ip bn).trans ?_
  rw [← Finset.card_eq_sum_ones]
  exact card_touched_le off n

/-- The inodes other than `i` are as before. -/
structure Others (s : Volume) (T : Nat → Dinode) (i : Nat) (s' : Volume) : Prop where
  live : ∀ j, j ≠ i → s.Live T j → s'.Live T j
  content : ∀ j, j ≠ i → s.Live T j → s'.content (T j) = s.content (T j)
  dinode : ∀ j, j ≠ i → s'.dinode j = s.dinode j

theorem Others.refl : Others s T i s := ⟨fun _ _ h => h, fun _ _ _ => rfl, fun _ _ => rfl⟩

theorem Others.trans {s₁ : Volume} {ip₁ : Dinode} (h₁ : Others s T i s₁)
    (h₂ : Others s₁ (Function.update T i ip₁) i s') : Others s T i s' := by
  have hT : ∀ j, j ≠ i → Function.update T i ip₁ j = T j := fun j hj => Function.update_of_ne hj ..
  have hlive : ∀ j, j ≠ i → s₁.Live T j → s₁.Live (Function.update T i ip₁) j := fun j hj hlj => by
    unfold Live
    rw [hT j hj]
    exact hlj
  refine ⟨fun j hj hlj => ?_, fun j hj hlj => ?_, fun j hj => ?_⟩
  · have := h₂.live j hj (hlive j hj (h₁.live j hj hlj))
    unfold Live at this
    rwa [hT j hj] at this
  · have := h₂.content j hj (hlive j hj (h₁.live j hj hlj))
    rw [hT j hj] at this
    exact this.trans (h₁.content j hj hlj)
  · exact (h₂.dinode j hj).trans (h₁.dinode j hj)

/-- A call has done to the inode what it does to its bytes. -/
structure Called (s : Volume) (T : Nat → Dinode) (i : Nat) (c : Call) (r : Ret) (ip' : Dinode) (s' : Volume) : Prop where
  bytes : (r, s'.bytes ip') = c.onBytes (s.bytes (T i))
  file : File s' (Function.update T i ip') i
  others : Others s T i s'
  room : s.free.card + ip'.lack ≤ s'.free.card + (T i).lack + c.blocks

theorem Called.refl {c : Call} {r : Ret} (hf : File s T i) (h : (r, s.bytes (T i)) = c.onBytes (s.bytes (T i))) :
    Called s T i c r (T i) s :=
  ⟨h, by rwa [Function.update_eq_self], Others.refl, Nat.le_add_right ..⟩

theorem Call.run_ends (c : Call) (hf : File s T i) :
    Ends (fun e => e = .balloc ∧ s.free.card < (T i).lack + c.blocks) (c.run i (T i) s) fun r =>
      Called s T i c r.1 r.2.1 r.2.2 := by
  cases c with
  | write src off n =>
    have hsum : _ ≤ (Call.write src off n).blocks := sum_missing_le (s := s) (T i) off.toNat n.toNat
    by_cases hok : off.toNat ≤ (T i).size ∧ off.toNat + n.toNat < 2 ^ 32 ∧ off.toNat + n.toNat ≤ MAXFILE * BSIZE
    · have hends := ((writei_ends src off n hf).1 hok).weaken (E := fun e => e = .balloc ∧
        s.free.card < (T i).lack + (Call.write src off n).blocks) fun e he =>
          ⟨he.1, he.2.2.trans_le (Nat.add_le_add_left hsum _)⟩
      refine hends.bind fun r hr => ?_
      obtain ⟨ok, ip', s'⟩ := r
      obtain ⟨rfl, hw⟩ := hr
      refine ⟨?_, hw.file, ⟨fun j _ hlj => (live_congr hw.sb).2 hlj, hw.other, hw.dinode⟩, ?_⟩
      · rw [Call.onBytes, length_bytes, if_pos hok, hw.bytes_eq hok.1]
        rfl
      · exact hw.room.trans (Nat.add_le_add_left hsum _)
    · simp only [Call.run]
      rw [(writei_ends src off n hf).2 hok]
      refine Called.refl hf ?_
      rw [Call.onBytes, length_bytes, if_neg hok]
      rfl
  | read off n =>
    simp only [Call.run]
    rw [readi_eq off n hf]
    refine Called.refl hf ?_
    rw [Call.onBytes, length_bytes]
    split <;> rfl

theorem lack_le (ip : Dinode) : ip.lack ≤ 1 := by
  unfold Dinode.lack
  split <;> omega

theorem runCalls_ends (cs : List Call) (hf : File s T i) :
    Ends (fun e => e = .balloc ∧ s.free.card < (T i).lack + (cs.map Call.blocks).sum) (runCalls i cs (T i) s) fun r =>
      (r.1, r.2.2.bytes r.2.1) = onBytes cs (s.bytes (T i)) ∧ File r.2.2 (Function.update T i r.2.1) i ∧
      Others s T i r.2.2 := by
  induction cs generalizing s T with
  | nil => exact ⟨rfl, by rwa [Function.update_eq_self], Others.refl⟩
  | cons c cs ih =>
    rw [List.map_cons, List.sum_cons]
    have hfirst := (c.run_ends hf).weaken (E := fun e => e = .balloc ∧
      s.free.card < (T i).lack + (c.blocks + (cs.map Call.blocks).sum)) fun e he => ⟨he.1, by
        have := he.2
        omega⟩
    refine hfirst.bind fun r₁ h₁ => ?_
    obtain ⟨r, ip₁, s₁⟩ := r₁
    dsimp only at h₁ ⊢
    have hrest := ih h₁.file
    rw [Function.update_self] at hrest
    have hrest' := hrest.weaken (E := fun e => e = .balloc ∧
      s.free.card < (T i).lack + (c.blocks + (cs.map Call.blocks).sum)) fun e he => ⟨he.1, by
        have := he.2
        have := h₁.room
        omega⟩
    refine hrest'.bind fun r₂ h₂ => ?_
    obtain ⟨rs, ip₂, s₂⟩ := r₂
    obtain ⟨hbytes, hfile, hothers⟩ := h₂
    have hone := h₁.bytes
    refine ⟨?_, ?_, h₁.others.trans hothers⟩
    · rw [onBytes, ← hone, ← hbytes]
    · rwa [Function.update_idem] at hfile

/-- What a sequence of calls does to an inode without holes is what it does to an array of bytes, as long as there
are enough blocks. The other inodes keep their contents. Reads change nothing, and writes that are refused do not. -/
theorem contents_refine_bytes (hf : File s T i) (cs : List Call) :
    Ends (fun e => e = .balloc ∧ s.free.card < 1 + (cs.map Call.blocks).sum) (runCalls i cs (T i) s) (fun r =>
      (r.1, r.2.2.bytes r.2.1) = onBytes cs (s.bytes (T i)) ∧ File r.2.2 (Function.update T i r.2.1) i ∧
      Others s T i r.2.2) ∧
    (∀ off n : BitVec 32, ∃ data, s.readi (T i) off n = .ok (data, T i, s)) ∧
    (∀ src (off n : BitVec 32), (Call.write src off n).onBytes (s.bytes (T i)) = (.failed, s.bytes (T i)) →
      s.writei i (T i) src off n = .ok (false, T i, s)) := by
  refine ⟨?_, fun off n => ⟨_, readi_eq off n hf⟩, fun src off n hfail => ?_⟩
  · refine ((runCalls_ends cs hf).weaken fun e he => ⟨he.1, he.2.trans_le ?_⟩).mono fun r hr => hr
    exact Nat.add_le_add_right (lack_le (T i)) _
  · refine (writei_ends src off n hf).2 fun hok => ?_
    rw [Call.onBytes, length_bytes, if_pos hok] at hfail
    cases hfail

theorem blank_contents : ∃ ip s', runCalls 1 [.write (fun k => BitVec.ofNat 8 (65 + k)) 0 3, .read 1 7, .read 4 1]
    ((blank .file).dinode 1) (blank .file) = .ok ([.wrote, .got [66, 67], .failed], ip, s') := by
  have hends := (contents_refine_bytes (blank_file (t := .file) (by decide) (by decide))
    [.write (fun k => BitVec.ofNat 8 (65 + k)) 0 3, .read 1 7, .read 4 1]).1
  have hfree : (blank .file).free.card = 13 := by decide
  obtain ⟨⟨rs, ip, s'⟩, hrun, heq, -⟩ := (hends.weaken (E := fun _ => False) fun e he => by
    have := he.2
    rw [hfree] at this
    exact absurd this (by decide)).ok
  refine ⟨ip, s', hrun.trans ?_⟩
  have hrs : rs = [.wrote, .got [66, 67], .failed] := (Prod.mk.inj heq).1
  rw [hrs]

end Volume

end Xv6
