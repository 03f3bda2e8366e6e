import Xv6.Trap.Code
/-!
# What is in the trap frame

The frame is above user memory, so what the kernel and the user write below
`KERNBASE` leaves it alone, and a store to one of its words leaves the others.
-/

namespace Xv6

open Bytes

theorem Reg.offset_add_le (r : Reg) : r.offset + 4 ≤ frameSize := by cases r <;> decide

theorem Reg.ofIndex_index (r : Reg) : Reg.ofIndex r.index = r := by cases r <;> rfl

theorem Reg.index_inj {r r' : Reg} (h : r.index = r'.index) : r = r' := by
  rw [← ofIndex_index r, h, ofIndex_index]

theorem Frame.byte_offset (f : Frame) (r : Reg) {k : Nat} (hk : k < 4) : f.byte (r.offset + k) = byteOf (f r) k := by
  have h1 : (r.offset + k) / 4 = r.index := by unfold Reg.offset; omega
  have h2 : (r.offset + k) % 4 = k := by unfold Reg.offset; omega
  rw [Frame.byte, h1, h2, Reg.ofIndex_index]

theorem FrameAddr.toNat_add (a : FrameAddr) {k : Nat} (hk : k < frameSize) :
    (a.addr + BitVec.ofNat 32 k).toNat = a.addr.toNat + k :=
  toNat_add_ofNat (by have := a.high; omega)

/-- A block that ends before any trap frame. There is most of a kernel stack
between user memory and a frame. -/
def UserBlock (a : BitVec 32) (n : Nat) : Prop := a.toNat + n + frameSize ≤ KERNBASE + KSTACKSIZE

theorem userBlock_of_le {a : BitVec 32} {n : Nat} (h : a.toNat + n ≤ KERNBASE) : UserBlock a n := by
  unfold UserBlock KSTACKSIZE frameSize
  omega

/-- What is written below `KERNBASE` is not seen in the frame. -/
theorem FrameAddr.write_user (tf : FrameAddr) {m : Mem 32} {a : BitVec 32} {n k : Nat} {f : Nat → BitVec 8}
    (h : UserBlock a n) (hk : k < frameSize) :
    write m a n f (tf.addr + BitVec.ofNat 32 k) = m (tf.addr + BitVec.ofNat 32 k) := by
  have := tf.low
  have := tf.high
  unfold UserBlock at h
  refine write_outside (outside_of_toNat (by omega) (.inr ?_))
  rw [tf.toNat_add hk]
  omega

/-- Memories that agree on a frame have the same words there. -/
theorem FrameAddr.load_congr (tf : FrameAddr) {m m' : Mem 32} (r : Reg)
    (h : ∀ k, k < frameSize → m (tf.addr + BitVec.ofNat 32 k) = m' (tf.addr + BitVec.ofNat 32 k)) :
    load m (tf.addr + BitVec.ofNat 32 r.offset) = load m' (tf.addr + BitVec.ofNat 32 r.offset) :=
  Bytes.load_congr fun k hk => by
    rw [BitVec.add_assoc, ← BitVec.ofNat_add, h _ (by have := r.offset_add_le; omega)]

theorem FrameAddr.load_write_user (tf : FrameAddr) {m : Mem 32} {a : BitVec 32} {n : Nat} {f : Nat → BitVec 8}
    (h : UserBlock a n) (r : Reg) :
    load (write m a n f) (tf.addr + BitVec.ofNat 32 r.offset) = load m (tf.addr + BitVec.ofNat 32 r.offset) :=
  tf.load_congr r fun _ hk => tf.write_user h hk

/-- The words of a frame that was pushed. -/
theorem load_frame (m : Mem 32) (a : BitVec 32) (f : Frame) (r : Reg) :
    load (write m a frameSize f.byte) (a + BitVec.ofNat 32 r.offset) = f r :=
  load_of_bytes fun k hk => by
    have hlt : r.offset + k < frameSize := by have := r.offset_add_le; omega
    rw [BitVec.add_assoc, ← BitVec.ofNat_add, write_at hlt (hlt.trans (by decide)), f.byte_offset r hk]

/-- A store to one word of a frame at `a` leaves the others. -/
theorem load_store_reg {m : Mem 32} {a : BitVec 32} (ha : a.toNat + frameSize < 2 ^ 32) (r r' : Reg)
    (v : BitVec 32) : load (store m (a + BitVec.ofNat 32 r.offset) v) (a + BitVec.ofNat 32 r'.offset) =
      if r' = r then v else load m (a + BitVec.ofNat 32 r'.offset) := by
  have h1 := r.offset_add_le
  have h2 := r'.offset_add_le
  split
  · rename_i h
    subst h
    exact load_store (by omega)
  · rename_i h
    have hne : r'.index ≠ r.index := fun he => h (Reg.index_inj he)
    have hto : (a + BitVec.ofNat 32 r.offset).toNat = a.toNat + r.offset := toNat_add_ofNat (by omega)
    refine load_write_outside fun k hk => outside_of_toNat (by omega) ?_
    rw [BitVec.add_assoc, ← BitVec.ofNat_add, toNat_add_ofNat (by omega), hto]
    unfold Reg.offset at *
    omega

namespace Task

variable {t : Task}

theorem get_set (t : Task) (r r' : Reg) (v : BitVec 32) : (t.set r v).get r' = if r' = r then v else t.get r' :=
  load_store_reg t.tf.high r r' v

/-- What is stored in the frame is not seen below `KERNBASE`. -/
theorem set_mem_user (t : Task) (r : Reg) (v : BitVec 32) {x : BitVec 32} (hx : x.toNat < KERNBASE) :
    (t.set r v).mem x = t.mem x := by
  have h1 := r.offset_add_le
  have h2 := t.tf.high
  have h3 := t.tf.low
  refine write_outside (outside_of_toNat ?_ (.inl ?_)) <;> rw [t.tf.toNat_add (by omega)]
  · omega
  · unfold KSTACKSIZE frameSize at *
    omega

/-! ## The call of a handler -/

theorem toNat_sub_ofNat {e : BitVec 32} {k : Nat} (hk : k ≤ e.toNat) : (e - BitVec.ofNat 32 k).toNat = e.toNat - k := by
  have := e.isLt
  have hto : (BitVec.ofNat 32 k).toNat = k := by rw [BitVec.toNat_ofNat, Nat.mod_eq_of_lt (by omega)]
  rw [BitVec.toNat_sub_of_le (BitVec.le_def.2 (by omega)), hto]

theorem userBlock_sub {e : BitVec 32} {n : Nat} (hn : n ≤ e.toNat) (he : e.toNat ≤ KERNBASE) :
    UserBlock (e - BitVec.ofNat 32 n) n :=
  userBlock_of_le (by rw [toNat_sub_ofNat hn]; omega)

/-- What is written just below `e` is not seen from `e` on. -/
theorem write_sub_above {m : Mem 32} {e x : BitVec 32} {n j : Nat} {f : Nat → BitVec 8} (hn : n ≤ e.toNat)
    (hj : j ≤ n) (hx : e.toNat ≤ x.toNat) : write m (e - BitVec.ofNat 32 n) j f x = m x := by
  have := e.isLt
  refine write_outside (outside_of_toNat ?_ (.inr ?_)) <;> rw [toNat_sub_ofNat hn] <;> omega

section

variable (he : (t.get .esp).toNat ≤ KERNBASE)

theorem saveFrame_mem (t : Task) : t.saveFrame.mem =
    store (memmove (t.set .esp (t.get .esp - BitVec.ofNat 32 frameSize)).mem (t.get .esp - BitVec.ofNat 32 frameSize)
      t.tf.addr frameSize)
      (t.get .esp - BitVec.ofNat 32 frameSize + BitVec.ofNat 32 Reg.esp.offset) (t.get .esp) := by
  simp only [saveFrame, get_set, if_true]
  rfl

theorem injectSigret_mem (t : Task) : t.injectSigret.mem =
    write (t.set .esp (t.get .esp - BitVec.ofNat 32 sigretCode.length)).mem
      (t.get .esp - BitVec.ofNat 32 sigretCode.length) sigretCode.length fun k => sigretCode.getD k 0 := by
  simp only [injectSigret, get_set, if_true]

theorem injectSigret_code {k : Nat} (hk : k < sigretCode.length) :
    t.injectSigret.mem (t.get .esp - BitVec.ofNat 32 sigretCode.length + BitVec.ofNat 32 k) = sigretCode.getD k 0 := by
  rw [injectSigret_mem]
  exact write_at hk (hk.trans (by decide))

theorem injectSigret_above (hn : sigretCode.length ≤ (t.get .esp).toNat) {x : BitVec 32}
    (hx : (t.get .esp).toNat ≤ x.toNat) (hx' : x.toNat < KERNBASE) : t.injectSigret.mem x = t.mem x := by
  rw [injectSigret_mem, write_sub_above hn le_rfl hx, set_mem_user _ _ _ hx']

include he

theorem injectSigret_get (hn : sigretCode.length ≤ (t.get .esp).toNat) (r : Reg) :
    t.injectSigret.get r = if r = .esp then t.get .esp - BitVec.ofNat 32 sigretCode.length else t.get r := by
  rw [← t.get_set, get, injectSigret_mem]
  exact t.tf.load_write_user (userBlock_sub hn he) r

/-- The frame is copied below `e`; its copy still has the lowered stack pointer. -/
theorem saveFrame_copy (hn : frameSize ≤ (t.get .esp).toNat) :
    t.saveFrame.mem = store (copy (t.set .esp (t.get .esp - BitVec.ofNat 32 frameSize)).mem
      (t.get .esp - BitVec.ofNat 32 frameSize) t.tf.addr frameSize)
      (t.get .esp - BitVec.ofNat 32 frameSize + BitVec.ofNat 32 Reg.esp.offset) (t.get .esp) := by
  have := t.tf.high
  rw [saveFrame_mem, memmove_eq_copy ?_ (.inl this.le)]
  rw [toNat_sub_ofNat hn]
  unfold KERNBASE frameSize at *
  omega

theorem saveFrame_above (hn : frameSize ≤ (t.get .esp).toNat) {x : BitVec 32} (hx : (t.get .esp).toNat ≤ x.toNat)
    (hx' : x.toNat < KERNBASE) : t.saveFrame.mem x = t.mem x := by
  have hesp := Reg.esp.offset_add_le
  have hto := toNat_sub_ofNat hn
  have hmem := write_sub_above (m := (t.set .esp (t.get .esp - BitVec.ofNat 32 frameSize)).mem)
    (f := fun k => (t.set .esp (t.get .esp - BitVec.ofNat 32 frameSize)).mem (t.tf.addr + BitVec.ofNat 32 k))
    hn le_rfl hx
  have hoff := toNat_add_ofNat (a := t.get .esp - BitVec.ofNat 32 frameSize) (k := Reg.esp.offset)
    (by unfold KERNBASE at he; omega)
  rw [saveFrame_copy he hn, store, write_outside (outside_of_toNat (by omega) (by omega)), copy, hmem,
    set_mem_user _ _ _ hx']

theorem saveFrame_get (hn : frameSize ≤ (t.get .esp).toNat) (r : Reg) :
    t.saveFrame.get r = if r = .esp then t.get .esp - BitVec.ofNat 32 frameSize else t.get r := by
  have hbu : UserBlock (t.get .esp - BitVec.ofNat 32 frameSize + BitVec.ofNat 32 Reg.esp.offset) 4 := by
    have := Reg.esp.offset_add_le
    have hto := toNat_sub_ofNat hn
    refine userBlock_of_le ?_
    unfold KERNBASE at *
    rw [toNat_add_ofNat (by omega), hto]
    omega
  rw [← t.get_set, get, saveFrame_copy he hn, store]
  exact (t.tf.load_write_user hbu r).trans (t.tf.load_write_user (userBlock_sub hn he) r)

/-- The saved frame is the frame before. -/
theorem saveFrame_saved (hn : frameSize ≤ (t.get .esp).toNat) (r : Reg) :
    load t.saveFrame.mem (t.get .esp - BitVec.ofNat 32 frameSize + BitVec.ofNat 32 r.offset) = t.get r := by
  have hto := toNat_sub_ofNat hn
  rw [saveFrame_copy he hn, load_store_reg (by unfold KERNBASE at he; omega)]
  split
  · rename_i hr; rw [hr]
  · rename_i hr
    rw [load_copy r.offset_add_le (by decide)]
    exact (t.get_set .esp r _).trans (if_neg hr)

omit he in
theorem get_poke (t : Task) {a : BitVec 32} (v : BitVec 32) (h : UserBlock a 4) (r : Reg) :
    (t.poke a v).get r = t.get r :=
  t.tf.load_write_user h r

theorem pushArgs_get (i : Sig) (hn : 8 ≤ (t.get .esp).toNat) (r : Reg) :
    (t.pushArgs i).get r = if r = .esp then t.get .esp - BitVec.ofNat 32 8 else t.get r := by
  have h4 : UserBlock (t.get .esp - 4) 4 := userBlock_sub (n := 4) (by omega) he
  have h8 : UserBlock (t.get .esp - 8) 4 := by
    have hto := toNat_sub_ofNat hn
    exact userBlock_of_le (by rw [show (8 : BitVec 32) = BitVec.ofNat 32 8 from rfl, hto]; omega)
  simp only [pushArgs, get_set, get_poke _ _ h4, get_poke _ _ h8]
  rfl

omit he in
theorem pushArgs_above (i : Sig) (hn : 8 ≤ (t.get .esp).toNat) {x : BitVec 32} (hx : (t.get .esp).toNat ≤ x.toNat)
    (hx' : x.toNat < KERNBASE) : (t.pushArgs i).mem x = t.mem x := by
  have h4 : UserBlock (t.get .esp - 4) 4 := userBlock_sub (n := 4) (by omega) (by omega)
  simp only [pushArgs, set_mem_user _ _ _ hx', get_poke _ _ h4]
  exact (write_sub_above (n := 8) hn (by omega) hx).trans (write_sub_above (n := 4) (by omega) le_rfl hx)

/-- The handler returns to the injected code. -/
theorem pushArgs_ret (i : Sig) (hn : 8 ≤ (t.get .esp).toNat) :
    load (t.pushArgs i).mem (t.get .esp - BitVec.ofNat 32 8) = t.get .esp := by
  have h4 : UserBlock (t.get .esp - 4) 4 := userBlock_sub (n := 4) (by omega) he
  have hto := toNat_sub_ofNat hn
  have hset (t' : Task) (v : BitVec 32) : load (t'.set .esp v).mem (t.get .esp - BitVec.ofNat 32 8) =
      load t'.mem (t.get .esp - BitVec.ofNat 32 8) := by
    refine load_congr fun k hk => set_mem_user _ _ _ ?_
    unfold KERNBASE at *
    rw [toNat_add_ofNat (by omega)]
    omega
  simp only [pushArgs, hset, get_poke _ _ h4]
  exact load_store (by omega)

end

theorem callHandler_uTrapFrameBU (t : Task) (i : Sig) :
    (t.callHandler i).uTrapFrameBU = t.get .esp - BitVec.ofNat 32 frameSize :=
  (t.get_set .esp .esp _).trans (if_pos rfl)

/-- There is room in user memory for the call of a handler. -/
structure Room (t : Task) : Prop where
  low : handlerRoom ≤ (t.get .esp).toNat
  high : (t.get .esp).toNat ≤ KERNBASE

instance (t : Task) : Decidable t.Room :=
  decidable_of_iff (handlerRoom ≤ (t.get .esp).toNat ∧ (t.get .esp).toNat ≤ KERNBASE)
    ⟨fun ⟨h1, h2⟩ => ⟨h1, h2⟩, fun ⟨h1, h2⟩ => ⟨h1, h2⟩⟩

theorem sub_sub_ofNat (e : BitVec 32) (j k : Nat) :
    e - BitVec.ofNat 32 j - BitVec.ofNat 32 k = e - BitVec.ofNat 32 (j + k) := by
  rw [BitVec.ofNat_add]
  ring

namespace Room

variable (h : t.Room) (i : Sig)
include h

theorem le_esp : frameSize + sigretCode.length + 8 ≤ (t.get .esp).toNat := h.low

theorem esp_saveFrame : t.saveFrame.get .esp = t.get .esp - BitVec.ofNat 32 frameSize := by
  rw [saveFrame_get h.high (by have := h.le_esp; omega), if_pos rfl]

theorem toNat_saveFrame : (t.saveFrame.get .esp).toNat = (t.get .esp).toNat - frameSize := by
  rw [h.esp_saveFrame, toNat_sub_ofNat (by have := h.le_esp; omega)]

theorem esp_injectSigret :
    t.saveFrame.injectSigret.get .esp = t.get .esp - BitVec.ofNat 32 (frameSize + sigretCode.length) := by
  have := h.le_esp
  have := h.high
  have hto := h.toNat_saveFrame
  rw [injectSigret_get (by omega) (by omega), if_pos rfl, h.esp_saveFrame, sub_sub_ofNat]

theorem toNat_injectSigret : (t.saveFrame.injectSigret.get .esp).toNat =
    (t.get .esp).toNat - (frameSize + sigretCode.length) := by
  rw [h.esp_injectSigret, toNat_sub_ofNat (by have := h.le_esp; omega)]

theorem callHandler_get (r : Reg) : (t.callHandler i).get r =
    if r = .eip then t.sig.signalHandler i
    else if r = .esp then t.get .esp - BitVec.ofNat 32 handlerRoom else t.get r := by
  have := h.le_esp
  have := h.high
  have h1 := h.toNat_saveFrame
  have h2 := h.toNat_injectSigret
  rw [callHandler, get_set]
  split
  · rfl
  · rw [pushArgs_get (by omega) i (by omega)]
    split
    · rw [h.esp_injectSigret, sub_sub_ofNat]
      rfl
    · rename_i hr
      rw [injectSigret_get (by omega) (by omega), if_neg hr, saveFrame_get h.high (by omega), if_neg hr]

theorem callHandler_get_ne {r : Reg} (hi : r ≠ .eip) (he : r ≠ .esp) : (t.callHandler i).get r = t.get r := by
  rw [h.callHandler_get, if_neg hi, if_neg he]

/-- What is on the stack above the injected code is what `saveFrame` put there. -/
theorem callHandler_above {x : BitVec 32} (hx : (t.get .esp).toNat ≤ x.toNat + frameSize) (hx' : x.toNat < KERNBASE) :
    (t.callHandler i).mem x = t.saveFrame.mem x := by
  have := h.le_esp
  have h1 := h.toNat_saveFrame
  have h2 := h.toNat_injectSigret
  rw [callHandler, set_mem_user _ _ _ hx', pushArgs_above i (by omega) (by omega) hx',
    injectSigret_above (by omega) (by omega) hx']

/-- Above the stack pointer nothing is written. -/
theorem callHandler_above_esp {x : BitVec 32} (hx : (t.get .esp).toNat ≤ x.toNat) (hx' : x.toNat < KERNBASE) :
    (t.callHandler i).mem x = t.mem x := by
  have := h.le_esp
  rw [h.callHandler_above i (by omega) hx', saveFrame_above h.high (by omega) hx hx']

theorem callHandler_saved (r : Reg) : load (t.callHandler i).mem
    (t.get .esp - BitVec.ofNat 32 frameSize + BitVec.ofNat 32 r.offset) = t.get r := by
  have hle := h.le_esp
  have hhigh := h.high
  rw [← saveFrame_saved h.high (by omega) r]
  refine load_congr fun k hk => ?_
  have hr := r.offset_add_le
  have hto : (t.get .esp - BitVec.ofNat 32 frameSize + BitVec.ofNat 32 (r.offset + k)).toNat =
      (t.get .esp).toNat - frameSize + (r.offset + k) := by
    rw [toNat_add_ofNat] <;> rw [toNat_sub_ofNat (by omega)]
    unfold KERNBASE at hhigh
    omega
  rw [BitVec.add_assoc, ← BitVec.ofNat_add]
  exact h.callHandler_above i (by omega) (by omega)

theorem callHandler_code {k : Nat} (hk : k < sigretCode.length) : (t.callHandler i).mem
    (t.get .esp - BitVec.ofNat 32 (frameSize + sigretCode.length) + BitVec.ofNat 32 k) = sigretCode.getD k 0 := by
  have hle := h.le_esp
  have hhigh := h.high
  have h2 := h.toNat_injectSigret
  have hto : (t.get .esp - BitVec.ofNat 32 (frameSize + sigretCode.length) + BitVec.ofNat 32 k).toNat =
      (t.get .esp).toNat - (frameSize + sigretCode.length) + k := by
    rw [toNat_add_ofNat] <;> rw [toNat_sub_ofNat (by omega)]
    unfold KERNBASE at hhigh
    omega
  rw [callHandler, set_mem_user _ _ _ (by omega), pushArgs_above i (by omega) (by omega) (by omega),
    ← injectSigret_code (t := t.saveFrame) hk, h.esp_saveFrame, sub_sub_ofNat]

theorem callHandler_ret : load (t.callHandler i).mem (t.get .esp - BitVec.ofNat 32 handlerRoom) =
    t.get .esp - BitVec.ofNat 32 (frameSize + sigretCode.length) := by
  have hle := h.le_esp
  have hhigh := h.high
  have h2 := h.toNat_injectSigret
  rw [← h.esp_injectSigret, ← pushArgs_ret (t := t.saveFrame.injectSigret) (by omega) i (by omega),
    h.esp_injectSigret, sub_sub_ofNat]
  refine load_congr fun k hk => set_mem_user _ _ _ ?_
  rw [toNat_add_ofNat] <;> rw [toNat_sub_ofNat h.low]
  · unfold handlerRoom; omega
  · unfold handlerRoom KERNBASE at *; omega

end Room

/-! ## Entry, `sigret`, and the other system calls -/

theorem get_enter (t : Task) (n e : BitVec 32) (r : Reg) (h1 : r ≠ .trapno) (h2 : r ≠ .err) (h3 : r ≠ .oesp) :
    (t.enter n e).get r = t.regs r := by
  refine (load_frame t.mem t.tf.addr _ r).trans ?_
  cases r <;> first | rfl | contradiction

theorem enter_mem_user (t : Task) (n e : BitVec 32) {x : BitVec 32} (hx : x.toNat < KERNBASE) :
    (t.enter n e).mem x = t.mem x := by
  have h1 := t.tf.low
  have h2 := t.tf.high
  refine write_outside (outside_of_toNat (by omega) (.inl ?_))
  unfold KSTACKSIZE frameSize at *
  omega

/-- The frame that `sigret` copies. -/
def savedFrame (t : Task) : Frame := fun r => load t.mem (t.uTrapFrameBU + BitVec.ofNat 32 r.offset)

theorem access_cases (t t' : Task) (a : BitVec 32) (n : Nat) : t.access a n t' = t' ∨ t.access a n t' = t.halt := by
  unfold access
  split
  exacts [.inl rfl, .inr rfl]

/-- What `sigret` leaves in the frame: a copy of the saved one, except for `eax`. -/
theorem get_sigret (t : Task) (r : Reg) : t.restored.get r = if r = .eax then 0 else t.savedFrame r := by
  rw [restored, get_set]
  split
  · rfl
  · have h1 := t.tf.low
    change load (memmove t.mem t.tf.addr t.uTrapFrameBU frameSize) (t.tf.addr + _) = _
    rw [memmove_eq_copy t.tf.high.le (.inr (by unfold KERNBASE KSTACKSIZE frameSize at *; omega)),
      load_copy r.offset_add_le (by decide)]
    rfl

theorem restored_mem_user (t : Task) {x : BitVec 32} (hx : x.toNat < KERNBASE) : t.restored.mem x = t.mem x := by
  have h1 := t.tf.low
  have h2 := t.tf.high
  rw [restored, set_mem_user _ _ _ hx]
  change memmove t.mem t.tf.addr t.uTrapFrameBU frameSize x = _
  rw [memmove_eq_copy t.tf.high.le (.inr (by unfold KERNBASE KSTACKSIZE frameSize at *; omega))]
  refine write_outside (outside_of_toNat (by omega) (.inl ?_))
  unfold KSTACKSIZE frameSize at *
  omega

end Task

end Xv6
