import Xv6.Trap.Frames
import Xv6.Vm.Argv
import Xv6.Vm.Blind
/-!
# exec replaces a process or leaves it

`exec` builds the new address space from free pages and touches the process at
its end only. So a run that fails leaves the process as it was, and one that
succeeds gives it the image of the file, the arguments on the stack and the
handlers of a new program; but a string that takes the stack pointer to the
gap lets the process choose which page `copyout` writes to, and that may be the
page with its own trap frame.
-/

namespace Xv6.Exec

open Outcome Bytes

variable {L : Layout} {k k' k₁ : Kmem} {p : Proc} {d : Pgdir} {sz : Nat} {file : List (BitVec 8)} {args : List Arg}
  {path : List (BitVec 8)}

/-! ## The trap frame -/

theorem tfOffset_lt (r : Reg) : tfOffset r + 3 < PGSIZE := by
  have := r.offset_add_le
  unfold tfOffset KSTACKSIZE PGSIZE frameSize at *
  omega

theorem tf_congr (h : k'.content p.kstack = k.content p.kstack) : p.tf k' = p.tf k := by
  unfold Proc.tf
  rw [h]

/-- A byte of the kernel stack after a store in the trap frame. -/
theorem setTf_content {r : Reg} {v : BitVec 32} {o : Nat} (ho : o < PGSIZE) :
    (p.setTf r v k).content p.kstack (Fin.ofNat PGSIZE o) =
      if tfOffset r ≤ o ∧ o < tfOffset r + 4 then byteOf v (o - tfOffset r) else k.content p.kstack (Fin.ofNat PGSIZE o) := by
  unfold Proc.setTf Kmem.store
  dsimp only
  rw [Function.update_self, Fin.val_ofNat, Nat.mod_eq_of_lt ho]

theorem tf_setTf (r r' : Reg) (v : BitVec 32) : p.tf (p.setTf r v k) r' = if r' = r then v else p.tf k r' := by
  have hlt := tfOffset_lt r'
  unfold Proc.tf
  dsimp only
  rw [setTf_content (by omega), setTf_content (by omega), setTf_content (by omega), setTf_content (by omega)]
  by_cases hr : r' = r
  · subst hr
    rw [if_pos rfl, if_pos (by omega), if_pos (by omega), if_pos (by omega), if_pos (by omega), Nat.add_sub_cancel_left,
      Nat.add_sub_cancel_left, Nat.add_sub_cancel_left, Nat.sub_self, byteOf_append]
  · have hne : r'.index ≠ r.index := fun he => hr (Reg.index_inj he)
    have hout : ∀ b, b < 4 → ¬(tfOffset r ≤ tfOffset r' + b ∧ tfOffset r' + b < tfOffset r + 4) := by
      intro b hb
      unfold tfOffset Reg.offset
      omega
    have hzero := hout 0 (by omega)
    rw [Nat.add_zero] at hzero
    rw [if_neg hr, if_neg (hout 3 (by omega)), if_neg (hout 2 (by omega)), if_neg (hout 1 (by omega)), if_neg hzero]

theorem setTf_sameList (r : Reg) (v : BitVec 32) : SameList k (p.setTf r v k) := by
  refine ⟨if_neg ?_, rfl⟩
  unfold tfOffset KSTACKSIZE frameSize
  omega

theorem setTf_other {q : Page} (r : Reg) (v : BitVec 32) (hq : q ≠ p.kstack) :
    (p.setTf r v k).content q = k.content q :=
  Function.update_of_ne hq ..

/-! ## The two ends -/

theorem bad_ends (hs : Sound L k d.owned) :
    Ends (fun _ => False) (bad L p d k) fun r => r.1 = -1 ∧ r.2.1 = p ∧ Confined k d.owned r.2.2 := by
  unfold bad
  refine ((freevm_ends hs).and freevm_confined).bind fun k' hk' => ?_
  exact ⟨rfl, rfl, hk'.2⟩

theorem bad_fails : Ends (fun _ => True) (bad L p d k) fun r => r.1 = -1 ∧ r.2.1 = p :=
  Ends.trivial.bind fun _ _ => ⟨rfl, rfl⟩

theorem commit_ends (path : List (BitVec 8)) (sz : Nat) (entry sp : BitVec 32) (hs : Sound L k (d.owned + (p.space.pgdir.owned + {p.kstack}))) :
    Ends (fun _ => False) (commit L p path d sz entry sp k) fun r => r.1 = 0 ∧
      r.2.1 = { p with
        space := ⟨d, BitVec.ofNat 32 sz⟩
        name := safestrcpy p.name (lastElem path path) 16
        sig := p.sig.exec } ∧
      p.tf r.2.2 .eip = entry ∧ p.tf r.2.2 .esp = sp ∧ ∀ q ∈ d.owned, r.2.2.content q = k.content q := by
  have hsame : SameList k (p.setTf .esp sp (p.setTf .eip entry k)) := (setTf_sameList .eip entry).trans (setTf_sameList .esp sp)
  have hs₁ := hsame.sound hs
  have hnd := Multiset.nodup_add.1 (Multiset.nodup_add.1 hs₁.nodup).2.1
  have hnd' := Multiset.nodup_add.1 hnd.2.1
  have hold : Sound L (p.setTf .esp sp (p.setTf .eip entry k)) p.space.pgdir.owned :=
    hs₁.mono ((Multiset.le_add_right ..).trans (Multiset.le_add_left ..))
  have hkstack : p.kstack ∈ p.space.pgdir.owned + {p.kstack} := Multiset.mem_add.2 (.inr (Multiset.mem_singleton_self _))
  unfold commit
  refine ((freevm_ends hold).and freevm_confined).bind fun k' hk' => ?_
  obtain ⟨-, hconf⟩ := hk'
  have htf : k'.content p.kstack = (p.setTf .esp sp (p.setTf .eip entry k)).content p.kstack := by
    refine hconf _ fun hin => ?_
    obtain hin | hin := Multiset.mem_add.1 hin
    · exact hs₁.not_free (Multiset.mem_add.2 (.inr hkstack)) hin
    · exact Multiset.disjoint_left.1 hnd'.2.2 hin (Multiset.mem_singleton_self _)
  refine ⟨rfl, rfl, ?_, ?_, fun q hq => ?_⟩
  · rw [tf_congr htf, tf_setTf, if_neg (by decide), tf_setTf, if_pos rfl]
  · rw [tf_congr htf, tf_setTf, if_pos rfl]
  · have hne : q ≠ p.kstack := by
      rintro rfl
      exact Multiset.disjoint_left.1 hnd.2.2 hq hkstack
    refine (hconf q fun hin => ?_).trans ((setTf_other .esp sp hne).trans (setTf_other .eip entry hne))
    obtain hin | hin := Multiset.mem_add.1 hin
    · exact hs₁.not_free (Multiset.mem_add.2 (.inl hq)) hin
    · exact Multiset.disjoint_left.1 hnd.2.2 hq (Multiset.mem_add.2 (.inl hin))

/-! ## What exec does -/

/-- No string goes to the gap, whatever image the file gives. -/
def Clear (L : Layout) (k : Kmem) (file : List (BitVec 8)) (args : List Arg) : Prop :=
  ∀ sz d k', Reaches L k file sz d k' → NoStray (sz - PGSIZE) sz (args.take MAXARG)

/-- The process as the new program finds it. -/
structure Ran (L : Layout) (p : Proc) (file : List (BitVec 8)) (args : List Arg) (p' : Proc) (k' : Kmem) : Prop where
  kstack : p'.kstack = p.kstack
  sig : p'.sig = p.sig.exec
  size : p'.space.sz.toNat < KERNBASE
  built : Built L p'.space.pgdir p'.space.sz.toNat
  stacked : ∃ elf, elfhdr file = some elf ∧ p'.tf k' .eip = elf.entry ∧
    Stacked p'.space.pgdir p'.space.sz.toNat (fileImage file elf) args (p'.tf k' .esp) k'

/-- `exec` has failed and the process is as it was, or it is replaced. -/
def Outcome (L : Layout) (k : Kmem) (p : Proc) (file : List (BitVec 8)) (args : List Arg) (r : Int × Proc × Kmem) : Prop :=
  (r.1 = -1 ∧ r.2.1 = p ∧ (Clear L k file args → Confined k 0 r.2.2)) ∨ (r.1 = 0 ∧ Ran L p file args r.2.1 r.2.2)

theorem exec_outcome (path file : List (BitVec 8)) (hs : Sound L k (p.space.pgdir.owned + {p.kstack})) (hargs : ∀ a ∈ args, a.len < KERNBASE) :
    Ends (fun _ => ¬ Clear L k file args) (exec L k p path (some file) args) (Outcome L k p file args) := by
  have hsame : Outcome L k p file args (-1, p, k) := .inl ⟨rfl, rfl, fun _ _ _ => rfl⟩
  unfold exec
  dsimp only
  split
  · exact hsame
  · rename_i elf helf
    split
    · exact hsame
    · rename_i hmagic
      cases hset : setupkvm L k with
      | error e =>
        have hends := setupkvm_ends (hs.mono (Multiset.zero_le _))
        rw [hset] at hends
        exact hends.elim
      | ok r =>
        obtain ⟨x, k₁⟩ := r
        have hends := (setupkvm_ends (hs.mono (Multiset.zero_le _))).and setupkvm_confined
        rw [hset] at hends
        obtain ⟨⟨hpages, hfresh, -⟩, hconf⟩ := hends
        cases x with
        | none => exact .inl ⟨rfl, rfl, fun _ => hconf⟩
        | some d =>
          have hpages₁ : k₁.free + d.owned = k.free + 0 := by rw [add_zero]; exact hpages
          have hs₁ : Sound L k₁ d.owned := (hs.mono (Multiset.zero_le _)).of_eq hpages₁
          have hload := loadImage_ends file elf (hfresh d rfl) hs₁
          dsimp only [bind, Except.bind]
          cases himage : loadImage L (segments file elf) k₁ d with
          | error e =>
            rw [himage] at hload
            exact hload.elim
          | ok r =>
            rw [himage] at hload
            obtain ⟨x, d₂, k₂⟩ := r
            obtain ⟨hwork, hbuilt⟩ := hload
            dsimp only at hwork hbuilt ⊢
            have hpages₂ : k₂.free + d₂.owned = k.free + 0 := hwork.pages.trans hpages₁
            have hconf₂ : Confined k 0 k₂ := Confined.trans hconf hpages₁ hwork.content
            have hs₂ : Sound L k₂ d₂.owned := hwork.sound hs₁
            cases x with
            | none =>
              refine ((bad_ends hs₂).weaken fun _ h => h.elim).mono fun r hr => .inl ⟨hr.1, hr.2.1, fun _ => ?_⟩
              exact hconf₂.trans hpages₂ hr.2.2
            | some sz =>
              obtain ⟨hb, hshows⟩ := hbuilt sz rfl
              have hreach : Reaches L k file sz d₂ k₂ := ⟨elf, d, k₁, helf, not_not.1 hmagic, hset, himage⟩
              have hpush := pushArgv_stacked hb p.space.pgdir args hs₂ hargs hshows
              refine (hpush.weaken fun _ hno hclear => hno (hclear _ _ _ hreach)).bind fun ⟨x, k₃⟩ hr => ?_
              obtain ⟨hspoilt, hstack⟩ := hr
              dsimp only at hspoilt hstack ⊢
              cases x with
              | none =>
                by_cases hstray : NoStray (sz - PGSIZE) sz (args.take MAXARG)
                · have hsp := hspoilt hstray
                  have hpages₃ : k₃.free + d₂.owned = k.free + 0 := by rw [hsp.1.free, hpages₂]
                  have hconf₃ : Confined k 0 k₃ := hconf₂.trans hpages₂ hsp.2
                  refine ((bad_ends (hsp.1.sound hs₂)).weaken fun _ h => h.elim).mono fun r hr =>
                    .inl ⟨hr.1, hr.2.1, fun _ => ?_⟩
                  exact hconf₃.trans hpages₃ hr.2.2
                · refine (bad_fails.weaken fun _ _ hclear => hstray (hclear _ _ _ hreach)).mono fun r hr =>
                    .inl ⟨hr.1, hr.2, fun hclear => absurd (hclear _ _ _ hreach) hstray⟩
              | some sp =>
                obtain ⟨hsp, hst⟩ := hstack sp rfl
                have hs₃ : Sound L k₃ (d₂.owned + (p.space.pgdir.owned + {p.kstack})) := by
                  refine hs.of_eq ?_
                  rw [hsp.1.free, ← add_assoc, hpages₂, add_zero]
                refine ((commit_ends path sz elf.entry sp hs₃).weaken fun _ h => h.elim).mono fun ⟨v, p', k'⟩ hr => .inr ?_
                obtain ⟨hv, hp', heip, hesp, hkeep⟩ := hr
                dsimp only at hv hp' heip hesp hkeep ⊢
                subst hp'
                have hto := toNat_size hb.image.size
                refine ⟨hv, rfl, rfl, ?_, ?_, elf, helf, heip, ?_⟩ <;> dsimp only <;> rw [hto]
                · exact hb.image.size
                · exact hb
                · have hesp' : Proc.tf { p with
                      space := ⟨d₂, BitVec.ofNat 32 sz⟩
                      name := safestrcpy p.name (lastElem path path) 16
                      sig := p.sig.exec } k' .esp = sp := hesp
                  rw [hesp']
                  refine hst.congr fun u e hu he => hkeep _ (Pgdir.mem_owned he ?_)
                  exact hu.trans_le (pagesUp_le hb.image.size.le)

/-- `exec` from where the image is built. -/
theorem exec_reaches (p : Proc) (path : List (BitVec 8)) (args : List Arg) (h : Reaches L k file sz d k') :
    ∃ elf, elfhdr file = some elf ∧ exec L k p path (some file) args = (do
      match ← pushArgv p.space.pgdir d args (BitVec.ofNat 32 sz) k' with
      | (none, k) => bad L p d k
      | (some sp, k) => commit L p path d sz elf.entry sp k) := by
  obtain ⟨elf, d₀, k₀, helf, hmagic, hset, hload⟩ := h
  refine ⟨elf, helf, ?_⟩
  unfold exec
  dsimp only
  rw [helf]
  dsimp only
  rw [if_neg (not_not.2 hmagic), hset]
  dsimp only [bind, Except.bind]
  rewrite [hload]
  rfl

/-! ## The same as on what readi gives -/

/-- A process with one page of memory. -/
def someProc : Proc := ⟨onePage, 1003, List.replicate 16 0, .zero⟩

theorem someProc_sound : Sound someLayout manyFree (someProc.space.pgdir.owned + {someProc.kstack}) := by
  change Sound someLayout manyFree (onePage.pgdir.owned + {1003})
  rw [onePage_owned]
  exact manyFree_sound (by decide) (by decide)

end Xv6.Exec
