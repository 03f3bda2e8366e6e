import Xv6.Lib.Chain
import Xv6.Lib.Runs
/-!
# The disk driver (ide.c)

Any number of processes call `iderw` on buffers whose sleep-lock they hold;
the device works on one request at a time and raises an interrupt when it has
completed it or met an error. A step is one section of code under `idelock`,
one event of the device, or what a process does to a buffer outside `iderw`. A
panic stops the kernel, so there is no step. Beside the driver's own state
there are the requests in the order they were made, those taken off the queue,
and whether the device reported an error for the last request of a buffer.
-/

namespace Xv6

open Runs

/-- `struct buf`, with `flags` as its two bits. -/
structure IdeBuf (D : Type) where
  dev : Nat
  blockno : Nat
  valid : Bool
  dirty : Bool
  data : D

/-- What the device works on: a block, and what to write there if it is to be written. When it
is done, whether it reports an error, and the data to be read from it. -/
inductive Device (D : Type) where
  | idle
  | busy (block : Nat × Nat) (write : Option D)
  | done (err : Bool) (data : D)

namespace IdeBuf

variable {D : Type}

/-- The disk and the block on it. -/
def block (b : IdeBuf D) : Nat × Nat := (b.dev % 2, b.blockno)

/-- `(b->flags & (B_VALID|B_DIRTY)) == B_VALID` -/
def synced (b : IdeBuf D) : Bool := b.valid && !b.dirty

/-- What `idestart` tells the device. -/
def request (b : IdeBuf D) : Device D := .busy b.block (if b.dirty then some b.data else none)

end IdeBuf

/-- The driver: `link none` is `idequeue`, `link (some b)` is `b->qnext`; `pc p` is the buffer
for which `p` is in `iderw`. -/
structure Ide (P B D : Type) where
  link : Option B → Option B
  buf : B → IdeBuf D
  holder : B → Option P
  pc : P → Option B
  device : Device D
  disk : Nat × Nat → D
  arrived : List B
  finished : List B
  failed : B → Bool

inductive IdeAct (P B D : Type) where
  | acquire (p : P) (b : B)
  | release (p : P) (b : B)
  | edit (p : P) (b : B) (valid dirty : Bool) (data : D)
  | assign (b : B) (dev blockno : Nat)
  | iderw (p : P) (b : B)
  | complete
  | fail (data : D)
  | ideintr
  | ret (p : P)

namespace Ide

def FSSIZE : Nat := 1000

variable {P B D : Type}

section
variable [DecidableEq P] [DecidableEq B]

def setBuf (s : Ide P B D) (b : B) (x : IdeBuf D) : Ide P B D := { s with buf := Function.update s.buf b x }

/-- `idestart`, once the device is not busy. -/
def idestart (s : Ide P B D) (b : B) : Option (Ide P B D) :=
  if FSSIZE ≤ (s.buf b).blockno then none
  else
    match s.device with
    | .busy _ _ => none
    | _ => some { s with device := (s.buf b).request }

/-- `iderw` up to where it sleeps. -/
def iderw [Fintype B] (havedisk1 : Bool) (s : Ide P B D) (p : P) (b : B) : Option (Ide P B D) :=
  if s.holder b ≠ some p then none
  else if (s.buf b).synced then none
  else if (s.buf b).dev ≠ 0 ∧ !havedisk1 then none
  else do
    let pp ← lastCell (Function.update s.link (some b) none) (Fintype.card B + 1) none
    let s := { s with link := appendLink s.link pp b, arrived := s.arrived ++ [b], pc := Function.update s.pc p (some b) }
    if s.link none = some b then s.idestart b else some s

/-- `ideintr`, after the device has raised its interrupt. -/
def ideintr (s : Ide P B D) : Option (Ide P B D) :=
  match s.link none with
  | none => some s
  | some b =>
    match s.device with
    | .done err data =>
      let x := s.buf b
      let s := { s with link := popLink s.link b, device := .idle, finished := s.finished ++ [b]
                        failed := Function.update s.failed b err }
      let s := s.setBuf b { x with data := if !x.dirty && !err then data else x.data, valid := true, dirty := false }
      match s.link none with
      | none => some s
      | some c => s.idestart c
    | _ => none

/-- The device is done, with or without an error. After a failed write the block holds anything. -/
def finish (s : Ide P B D) (err : Bool) (data : D) : Option (Ide P B D) :=
  match s.device with
  | .busy block none => some { s with device := .done err (if err then data else s.disk block) }
  | .busy block (some d) =>
    some { s with device := .done err data, disk := Function.update s.disk block (if err then data else d) }
  | _ => none

def step [Fintype B] [Inhabited D] (havedisk1 : Bool) (s : Ide P B D) : IdeAct P B D → Option (Ide P B D)
  | .acquire p b => if s.holder b = none then some { s with holder := Function.update s.holder b (some p) } else none
  | .release p b =>
    if s.holder b = some p ∧ s.pc p = none then some { s with holder := Function.update s.holder b none } else none
  | .edit p b valid dirty data =>
    if s.holder b = some p ∧ s.pc p = none then some (s.setBuf b { s.buf b with valid, dirty, data }) else none
  | .assign b dev blockno =>
    if s.holder b = none then some (s.setBuf b { s.buf b with dev, blockno, valid := false, dirty := false }) else none
  | .iderw p b => if s.pc p = none then s.iderw havedisk1 p b else none
  | .complete => s.finish false default
  | .fail data => s.finish true data
  | .ideintr => s.ideintr
  | .ret p => (s.pc p).bind fun b => if (s.buf b).synced then some { s with pc := Function.update s.pc p none } else none

end

/-- The buffer cache keeps at most one buffer in use for a block. -/
def Alone (s : Ide P B D) : IdeAct P B D → Prop
  | .iderw _ b => ∀ p c, s.pc p = some c → (s.buf c).block = (s.buf b).block → c = b
  | _ => True

/-- The device has the request of the first buffer of the queue, or is done with it: without an
error the disk then holds what was to be written, or the device what is on the disk. -/
def Serves (s : Ide P B D) : List B → Prop
  | [] => s.device = .idle
  | b :: _ => s.device = (s.buf b).request ∨ ∃ err data, s.device = .done err data ∧
      (err = false → (if (s.buf b).dirty then (s.buf b).data else data) = s.disk (s.buf b).block)

/-- The queue `q` and what it stands for. -/
structure Queued (s : Ide P B D) (q : List B) : Prop where
  chain : Chain s.link none q
  nodup : q.Nodup
  order : s.arrived = s.finished ++ q
  own : ∀ p b, s.pc p = some b → s.holder b = some p
  alone : ∀ p p' b c, s.pc p = some b → s.pc p' = some c → (s.buf c).block = (s.buf b).block → c = b
  waiting : ∀ b ∈ q, ∃ p, s.pc p = some b
  pending : ∀ b ∈ q, (s.buf b).synced = false
  settled : ∀ p b, s.pc p = some b → b ∉ q →
    (s.buf b).synced = true ∧ (s.failed b = false → (s.buf b).data = s.disk (s.buf b).block)
  device : s.Serves q

namespace Queued

variable {s u : Ide P B D} {q : List B} {p : P} {b : B}

theorem idestart {s : Ide P B D} (hs : s.idestart b = some u) : u = { s with device := (s.buf b).request } := by
  unfold Ide.idestart at hs
  split at hs
  · cases hs
  · split at hs
    · cases hs
    · exact (Option.some.inj hs).symm

theorem not_mem (h : Queued s q) (hb : ∀ p, s.pc p ≠ some b) : b ∉ q := by
  intro hm
  obtain ⟨p, hp⟩ := h.waiting b hm
  exact hb p hp

/-- A process outside `iderw` holds a buffer that nobody is in `iderw` for. -/
theorem outside (h : Queued s q) (hb : s.holder b = some p) (hp : s.pc p = none) (p' : P) : s.pc p' ≠ some b := by
  intro hp'
  obtain rfl : p = p' := Option.some.inj (hb.symm.trans (h.own p' b hp'))
  rw [hp] at hp'
  cases hp'

/-- The device finishes the request of the first buffer; a write changes its block only. -/
theorem finish {err : Bool} {data : D} (h : Queued s q) (hs : s.finish err data = some u) : Queued u q := by
  cases q with
  | nil =>
    have hdev : s.device = .idle := h.device
    rw [Ide.finish, hdev] at hs
    cases hs
  | cons b q =>
    rcases h.device with hdev | ⟨err', data', hdev, -⟩
    · rw [Ide.finish, hdev, IdeBuf.request] at hs
      by_cases hdirty : (s.buf b).dirty
      · rw [if_pos hdirty] at hs
        obtain rfl := Option.some.inj hs
        refine { h with settled := fun p c hp hc => ⟨(h.settled p c hp hc).1, fun hf => ?_⟩, device := .inr ?_ }
        · obtain ⟨p', hp'⟩ := h.waiting b List.mem_cons_self
          have hne : (s.buf c).block ≠ (s.buf b).block := fun he => hc (h.alone p' p b c hp' hp he ▸ List.mem_cons_self)
          exact ((h.settled p c hp hc).2 hf).trans (Function.update_of_ne hne ..).symm
        · refine ⟨err, data, rfl, fun herr => ?_⟩
          simp only [hdirty, if_true, herr, Function.update_self]
          rfl
      · rw [if_neg hdirty] at hs
        obtain rfl := Option.some.inj hs
        refine { h with device := .inr ⟨err, _, rfl, fun herr => ?_⟩ }
        simp only [hdirty, herr]
        rfl
    · rw [Ide.finish, hdev] at hs
      cases hs

theorem ret [DecidableEq P] (h : Queued s q) (hp : s.pc p = some b) (hsync : (s.buf b).synced = true) :
    Queued { s with pc := Function.update s.pc p none } q := by
  have hpc : ∀ p' c, Function.update s.pc p none p' = some c → s.pc p' = some c := by
    intro p' c hc
    by_cases hpp : p' = p
    · rw [hpp, Function.update_self] at hc
      cases hc
    · rwa [Function.update_of_ne hpp] at hc
  have hbq : b ∉ q := fun hm => by simp [h.pending b hm] at hsync
  refine { h with own := fun p' c hc => h.own p' c (hpc p' c hc), alone := ?_, waiting := ?_, settled := ?_ }
  · exact fun p₁ p₂ c d hc hd => h.alone p₁ p₂ c d (hpc p₁ c hc) (hpc p₂ d hd)
  · intro c hc
    obtain ⟨p', hp'⟩ := h.waiting c hc
    have hne : p' ≠ p := by
      rintro rfl
      exact hbq (Option.some.inj (hp.symm.trans hp') ▸ hc)
    exact ⟨p', (Function.update_of_ne hne ..).trans hp'⟩
  · exact fun p' c hc => h.settled p' c (hpc p' c hc)

variable [DecidableEq B]

/-- Only buffers outside `iderw` are changed there. -/
theorem setBuf (h : Queued s q) (hb : ∀ p, s.pc p ≠ some b) (x : IdeBuf D) : Queued (s.setBuf b x) q := by
  have hother : ∀ c, (∃ p, s.pc p = some c) → Function.update s.buf b x c = s.buf c := by
    rintro c ⟨p, hp⟩
    have hne : c ≠ b := by
      rintro rfl
      exact hb p hp
    exact Function.update_of_ne hne ..
  have hq : ∀ c ∈ q, Function.update s.buf b x c = s.buf c := fun c hc => hother c (h.waiting c hc)
  refine ⟨h.chain, h.nodup, h.order, h.own, ?_, h.waiting, ?_, ?_, ?_⟩
  · intro p p' c d hp hp' hblock
    simp only [Ide.setBuf, hother c ⟨p, hp⟩, hother d ⟨p', hp'⟩] at hblock
    exact h.alone p p' c d hp hp' hblock
  · intro c hc
    simp only [Ide.setBuf, hq c hc]
    exact h.pending c hc
  · intro p c hp hc
    simp only [Ide.setBuf, hother c ⟨p, hp⟩]
    exact h.settled p c hp hc
  · cases q with
    | nil => exact h.device
    | cons c q =>
      simp only [Serves, Ide.setBuf, hq c List.mem_cons_self]
      exact h.device

theorem acquire (h : Queued s q) (hb : s.holder b = none) :
    Queued { s with holder := Function.update s.holder b (some p) } q := by
  refine { h with own := fun p' c hp => ?_ }
  have hc := h.own p' c hp
  have hne : c ≠ b := by
    rintro rfl
    rw [hb] at hc
    cases hc
  exact (Function.update_of_ne hne ..).trans hc

theorem release (h : Queued s q) (hb : s.holder b = some p) (hp : s.pc p = none) :
    Queued { s with holder := Function.update s.holder b none } q := by
  refine { h with own := fun p' c hp' => ?_ }
  have hne : c ≠ b := fun he => h.outside hb hp p' (he ▸ hp')
  exact (Function.update_of_ne hne ..).trans (h.own p' c hp')

/-- A request is put behind the others. -/
theorem push [DecidableEq P] (h : Queued s q) (hb : s.holder b = some p) (hp : s.pc p = none)
    (hsync : (s.buf b).synced = false)
    (halone : ∀ p c, s.pc p = some c → (s.buf c).block = (s.buf b).block → c = b) (device : Device D)
    (hdev : Serves { s with device } (q ++ [b])) :
    Queued { s with link := appendLink s.link q.getLast? b, arrived := s.arrived ++ [b]
                    pc := Function.update s.pc p (some b), device } (q ++ [b]) := by
  have hbq : b ∉ q := h.not_mem (h.outside hb hp)
  have hpc : ∀ p' c, Function.update s.pc p (some b) p' = some c → (p' = p ∧ c = b) ∨ s.pc p' = some c := by
    intro p' c hc
    by_cases hpp : p' = p
    · subst hpp
      rw [Function.update_self] at hc
      exact .inl ⟨rfl, (Option.some.inj hc).symm⟩
    · rw [Function.update_of_ne hpp] at hc
      exact .inr hc
  refine ⟨?_, ?_, ?_, ?_, ?_, ?_, ?_, ?_, hdev⟩
  · have := h.chain.append h.nodup hbq nofun nofun
    rwa [Option.or_none] at this
  · exact List.nodup_append.2 ⟨h.nodup, List.nodup_singleton b, by
      intro c hc d hd
      rw [List.mem_singleton.1 hd]
      exact fun he => hbq (he ▸ hc)⟩
  · change s.arrived ++ [b] = _
    rw [h.order, List.append_assoc]
  · intro p' c hc
    rcases hpc p' c hc with ⟨rfl, rfl⟩ | hc
    · exact hb
    · exact h.own p' c hc
  · intro p₁ p₂ c d hc hd hblock
    rcases hpc p₁ c hc with ⟨rfl, rfl⟩ | hc' <;> rcases hpc p₂ d hd with ⟨rfl, rfl⟩ | hd'
    · rfl
    · exact halone p₂ d hd' hblock
    · exact (halone p₁ c hc' hblock.symm).symm
    · exact h.alone p₁ p₂ c d hc' hd' hblock
  · intro c hc
    rcases List.mem_append.1 hc with hc | hc
    · obtain ⟨p', hp'⟩ := h.waiting c hc
      have hne : p' ≠ p := by
        rintro rfl
        rw [hp] at hp'
        cases hp'
      exact ⟨p', (Function.update_of_ne hne ..).trans hp'⟩
    · rw [List.mem_singleton.1 hc]
      exact ⟨p, Function.update_self ..⟩
  · intro c hc
    rcases List.mem_append.1 hc with hc | hc
    · exact h.pending c hc
    · rw [List.mem_singleton.1 hc]
      exact hsync
  · intro p' c hc hcq
    rw [List.mem_append, List.mem_singleton, not_or] at hcq
    rcases hpc p' c hc with ⟨rfl, rfl⟩ | hc
    · exact absurd rfl hcq.2
    · exact h.settled p' c hc hcq.1

theorem lastCell [Fintype B] (h : Queued s q) (hb : b ∉ q) :
    Xv6.lastCell (Function.update s.link (some b) none) (Fintype.card B + 1) none = some q.getLast? := by
  have hchain : Chain (Function.update s.link (some b) none) none q := by
    refine h.chain.congr ?_
    rintro x (rfl | ⟨c, hc, rfl⟩)
    · exact Function.update_of_ne (Option.some_ne_none b).symm ..
    · have hne : c ≠ b := fun he => hb (he ▸ hc)
      exact Function.update_of_ne (fun he => hne (Option.some.inj he)) ..
  have := hchain.lastCell_card h.nodup
  rwa [Option.or_none] at this

theorem append_head (h : Queued s q) (hb : b ∉ q) : appendLink s.link q.getLast? b none = (q ++ [b]).head? := by
  have := (h.chain.append h.nodup hb nofun nofun).head
  rwa [Option.or_none] at this

theorem iderw [DecidableEq P] [Fintype B] {havedisk1 : Bool} (h : Queued s q) (hp : s.pc p = none)
    (halone : s.Alone (.iderw p b)) (hs : s.iderw havedisk1 p b = some u) : ∃ q', Queued u q' := by
  unfold Ide.iderw at hs
  split at hs
  · cases hs
  next hb =>
  rw [not_not] at hb
  split at hs
  · cases hs
  next hsync =>
  split at hs
  · cases hs
  have hbq : b ∉ q := h.not_mem (h.outside hb hp)
  have hpush := h.push hb hp (Bool.eq_false_iff.2 hsync) halone
  rw [h.lastCell hbq] at hs
  refine ⟨q ++ [b], ?_⟩
  cases q with
  | nil =>
    obtain rfl := idestart (by simpa [appendLink] using hs)
    exact hpush _ (.inl rfl)
  | cons c q =>
    have hcb : c ≠ b := fun he => hbq (he ▸ List.mem_cons_self)
    simp only [Option.bind_eq_bind, Option.bind_some, h.append_head hbq, List.cons_append, List.head?_cons,
      Option.some.injEq, hcb, if_false] at hs
    subst hs
    exact hpush _ h.device

/-- The first request leaves the queue. -/
theorem pull {err : Bool} {data : D} (h : Queued s (b :: q)) (hdev : s.device = .done err data) (device : Device D)
    {x : IdeBuf D} (hx : x = { s.buf b with
      data := if !(s.buf b).dirty && !err then data else (s.buf b).data, valid := true, dirty := false })
    (hnext : Serves { s with device } q) :
    Queued { s with link := popLink s.link b, device, finished := s.finished ++ [b]
                    failed := Function.update s.failed b err, buf := Function.update s.buf b x } q := by
  obtain ⟨hbq, hq⟩ := List.nodup_cons.1 h.nodup
  have hblock : ∀ c, (Function.update s.buf b x c).block = (s.buf c).block := by
    intro c
    by_cases hc : c = b
    · rw [hc, Function.update_self, hx]
      rfl
    · rw [Function.update_of_ne hc]
  have hother : ∀ c ∈ q, Function.update s.buf b x c = s.buf c := by
    intro c hc
    have hne : c ≠ b := fun he => hbq (he ▸ hc)
    exact Function.update_of_ne hne ..
  refine ⟨h.chain.pop, hq, ?_, h.own, ?_, fun c hc => h.waiting c (List.mem_cons_of_mem _ hc), ?_, ?_, ?_⟩
  · change s.arrived = _
    rw [h.order, List.append_assoc]
    rfl
  · intro p p' c d hp hp' hd
    rw [hblock, hblock] at hd
    exact h.alone p p' c d hp hp' hd
  · intro c hc
    simp only [hother c hc]
    exact h.pending c (List.mem_cons_of_mem _ hc)
  · intro p c hp hc
    by_cases hcb : c = b
    · subst hcb
      have hxb : x.block = (s.buf c).block := by rw [hx]; rfl
      simp only [Function.update_self]
      refine ⟨by rw [hx]; rfl, ?_⟩
      rintro rfl
      rcases h.device with hreq | ⟨err', data', hdone, hok⟩
      · rw [hdev] at hreq
        cases hreq
      · obtain ⟨rfl, rfl⟩ := Device.done.inj (hdev.symm.trans hdone)
        rw [hxb, ← hok rfl, hx]
        cases (s.buf c).dirty <;> rfl
    · simp only [Function.update_of_ne hcb]
      exact h.settled p c hp (by simp [hcb, hc])
  · cases q with
    | nil => exact hnext
    | cons c q =>
      simp only [Serves, hother c List.mem_cons_self]
      exact hnext

theorem ideintr (h : Queued s q) (hs : s.ideintr = some u) : ∃ q', Queued u q' := by
  unfold Ide.ideintr at hs
  rw [h.chain.head] at hs
  cases q with
  | nil =>
    cases hs
    exact ⟨[], h⟩
  | cons b q =>
    simp only [List.head?_cons] at hs
    split at hs
    · next err data hdev =>
      have hhead : popLink s.link b none = q.head? := h.chain.pop.head
      refine ⟨q, ?_⟩
      simp only [Ide.setBuf, hhead] at hs
      cases q with
      | nil =>
        cases hs
        exact h.pull hdev .idle rfl rfl
      | cons c q =>
        have hcb : c ≠ b := fun he => (List.nodup_cons.1 h.nodup).1 (he ▸ List.mem_cons_self)
        obtain rfl := idestart hs
        simp only [Function.update_of_ne hcb]
        exact h.pull hdev _ rfl (.inl rfl)
    · cases hs

end Queued

/-- The driver after boot, with any buffers and any disk. -/
def boot (buf : B → IdeBuf D) (disk : Nat × Nat → D) : Ide P B D :=
  ⟨fun _ => none, buf, fun _ => none, fun _ => none, .idle, disk, [], [], fun _ => false⟩

theorem boot_queued (buf : B → IdeBuf D) (disk : Nat × Nat → D) : (boot buf disk : Ide P B D).Queued [] :=
  ⟨rfl, List.nodup_nil, rfl, nofun, nofun, nofun, nofun, nofun, rfl⟩

section
variable [DecidableEq P] [DecidableEq B] [Fintype B] [Inhabited D] {havedisk1 : Bool}

theorem queued_step (s : Ide P B D) (l : IdeAct P B D) (u : Ide P B D) (h : ∃ q, s.Queued q) (hl : s.Alone l)
    (hs : s.step havedisk1 l = some u) : ∃ q, u.Queued q := by
  obtain ⟨q, h⟩ := h
  cases l with
  | acquire p b =>
    obtain ⟨hb, rfl⟩ : s.holder b = none ∧ _ = u := by simpa [step] using hs
    exact ⟨q, h.acquire hb⟩
  | release p b =>
    obtain ⟨⟨hb, hp⟩, rfl⟩ : (s.holder b = some p ∧ s.pc p = none) ∧ _ = u := by simpa [step] using hs
    exact ⟨q, h.release hb hp⟩
  | edit p b valid dirty data =>
    obtain ⟨⟨hb, hp⟩, rfl⟩ : (s.holder b = some p ∧ s.pc p = none) ∧ _ = u := by simpa [step] using hs
    exact ⟨q, h.setBuf (h.outside hb hp) _⟩
  | assign b dev blockno =>
    obtain ⟨hb, rfl⟩ : s.holder b = none ∧ _ = u := by simpa [step] using hs
    refine ⟨q, h.setBuf (fun p hp => ?_) _⟩
    have := h.own p b hp
    rw [hb] at this
    cases this
  | iderw p b =>
    obtain ⟨hp, hs⟩ : s.pc p = none ∧ s.iderw havedisk1 p b = some u := by simpa [step] using hs
    exact h.iderw hp hl hs
  | complete => exact ⟨q, h.finish hs⟩
  | fail data => exact ⟨q, h.finish hs⟩
  | ideintr => exact h.ideintr hs
  | ret p =>
    obtain ⟨b, hp, hs⟩ := Option.bind_eq_some_iff.1 hs
    obtain ⟨hsync, rfl⟩ : (s.buf b).synced = true ∧ _ = u := by simpa using hs
    exact ⟨q, h.ret hp hsync⟩

/-- A call whose checks pass goes to sleep: the loop over the queue ends and the device is
free where it is started. -/
theorem Queued.iderw_isSome {s : Ide P B D} {q : List B} {p : P} {b : B} (h : Queued s q) (hb : s.holder b = some p)
    (hp : s.pc p = none) (hsync : (s.buf b).synced = false) (hdev : (s.buf b).dev = 0 ∨ havedisk1 = true)
    (hno : (s.buf b).blockno < FSSIZE) : (s.step havedisk1 (.iderw p b)).isSome := by
  have hbq : b ∉ q := h.not_mem (h.outside hb hp)
  have hdev' : ¬((s.buf b).dev ≠ 0 ∧ (!havedisk1) = true) := by
    rintro ⟨h0, h1⟩
    rcases hdev with hd | hd
    · exact h0 hd
    · simp [hd] at h1
  simp only [step, Ide.iderw, hp, if_true, hb, hsync, hdev', h.lastCell hbq, h.append_head hbq, ne_eq, not_true,
    Option.bind_eq_bind, Option.bind_some, Bool.false_eq_true, if_false]
  cases q with
  | nil =>
    have hidle : s.device = .idle := h.device
    simp [Ide.idestart, hidle, Nat.not_le.2 hno]
  | cons c q =>
    have hcb : c ≠ b := fun he => hbq (he ▸ List.mem_cons_self)
    simp [hcb]

/-- In every run the queue is a list without repetitions of the requests that are pending, in
the order they were made, and the device has the first of them; a call goes to sleep and
returns only once its request was taken off the queue, and if the device completed that
request without an error the buffer then holds what its block does. -/
theorem iderw_returns_synced {buf : B → IdeBuf D} {disk : Nat × Nat → D} {s : Ide P B D}
    (h : Run (step havedisk1) Alone (boot buf disk) s) :
    ∃ q, Chain s.link none q ∧ q.Nodup ∧ s.arrived = s.finished ++ q ∧
      (∀ b, b ∈ q ↔ ∃ p, s.pc p = some b ∧ (s.buf b).synced = false) ∧ s.Serves q ∧
      (∀ p b, s.holder b = some p → s.pc p = none → (s.buf b).synced = false →
        (s.buf b).dev = 0 ∨ havedisk1 = true → (s.buf b).blockno < FSSIZE → (s.step havedisk1 (.iderw p b)).isSome) ∧
      ∀ p u, s.step havedisk1 (.ret p) = some u → ∃ b, s.pc p = some b ∧ b ∉ q ∧ (s.buf b).synced = true ∧
        (s.failed b = false → (s.buf b).data = s.disk (s.buf b).block) := by
  obtain ⟨q, hq⟩ := h.inv (fun s => ∃ q, s.Queued q) queued_step ⟨[], boot_queued buf disk⟩
  refine ⟨q, hq.chain, hq.nodup, hq.order, fun b => ⟨fun hb => ?_, ?_⟩, hq.device,
    fun p b => hq.iderw_isSome, fun p u hs => ?_⟩
  · obtain ⟨p, hp⟩ := hq.waiting b hb
    exact ⟨p, hp, hq.pending b hb⟩
  · rintro ⟨p, hp, hsync⟩
    by_contra hb
    rw [(hq.settled p b hp hb).1] at hsync
    cases hsync
  · obtain ⟨b, hp, hs⟩ := Option.bind_eq_some_iff.1 hs
    obtain ⟨hsync, -⟩ : (s.buf b).synced = true ∧ _ = u := by simpa using hs
    have hb : b ∉ q := fun hb => by simp [hq.pending b hb] at hsync
    exact ⟨b, hp, hb, hsync, (hq.settled p b hp hb).2⟩

end

/-- A buffer for block 5 that holds `false`; the disk holds `true`. -/
def stale : Ide Unit Unit Bool := boot (fun _ => ⟨0, 5, false, false, false⟩) fun _ => true

/-- A read that the device completes. -/
theorem read_returns_synced :
    ∃ s, Run (step false) Alone stale s ∧ (s.step false (.ret ())).isSome ∧ (s.buf ()).data = s.disk (0, 5) := by
  have hrun : (exec (checked (step false) fun _ _ => true) stale [.acquire () (), .iderw () (), .complete, .ideintr]).map
      (fun s => ((s.step false (.ret ())).isSome, s.failed (), (s.buf ()).block)) = some (true, false, (0, 5)) := by
    decide
  obtain ⟨s, hs, heq⟩ := Option.map_eq_some_iff.1 hrun
  obtain ⟨hret, hfailed, hblock⟩ : (s.step false (.ret ())).isSome = true ∧ s.failed () = false ∧ (s.buf ()).block = (0, 5) := by
    simpa using heq
  have halone : ∀ (s : Ide Unit Unit Bool) l, true = true → s.Alone l := by
    intro s l _
    cases l <;> first | exact trivial | exact fun _ _ _ _ => rfl
  have hr := run_of_checked halone hs
  obtain ⟨u, hu⟩ := Option.isSome_iff_exists.1 hret
  obtain ⟨q, -, -, -, -, -, -, hall⟩ := iderw_returns_synced hr
  obtain ⟨b, -, -, -, hdata⟩ := hall () u hu
  exact ⟨s, hr, hret, hblock ▸ hdata hfailed⟩

/-- A read for which the device reports an error returns too, with a valid buffer that does not
hold what the block does. -/
theorem read_error_returns_stale :
    (exec (step false) stale [.acquire () (), .iderw () (), .fail true, .ideintr]).map
      (fun s => ((s.step false (.ret ())).isSome, (s.buf ()).synced, (s.buf ()).data, s.disk (s.buf ()).block)) =
      some (true, true, false, true) := by
  decide

end Ide
end Xv6
