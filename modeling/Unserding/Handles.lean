import Unserding.Foundation.Ledger
import Unserding.Foundation.System

/-!
# Making and closing sockets

`ud_socket` and `ud_close` of `unserding.c`, with the descriptors and mappings
of the process in ledgers of their own.  What the system answers is an input;
calls that neither open nor close a descriptor are left out unless their result
is looked at.
-/

namespace Unserding

open Foundation

/-! ## Options -/

/-- The bits of `mode` in `struct ud_sockopt_s`. -/
inductive Mode where
  | none
  | pub
  | sub
  | pubsub
  deriving DecidableEq, Repr

def Mode.subp : Mode → Bool
  | .sub | .pubsub => true
  | .none | .pub => false

def Mode.pubp : Mode → Bool
  | .pub | .pubsub => true
  | .none | .sub => false

theorem Mode.both_iff (m : Mode) : m.subp ∧ m.pubp ↔ m = .pubsub := by
  cases m <;> decide

structure SockOpt where
  mode : Mode
  addr : Option String
  port : Nat
  deriving DecidableEq

def udMcast6SiteLocal : String := "ff05::134"

def udNetworkService : Nat := 8364

def SockOpt.complete (opt : SockOpt) : SockOpt :=
  { opt with
    addr := some (opt.addr.getD udMcast6SiteLocal)
    port := if opt.port = 0 then udNetworkService else opt.port }

/-! ## The process -/

/-- What `ud_close` reads of the memory behind a handle. -/
structure SockConf where
  fd : Int
  fdSend : Int
  opt : SockOpt

structure Process where
  fds : Ledger Int
  maps : Ledger Nat
  mem : Nat → Option SockConf

def Process.init : Process := ⟨Ledger.empty, Ledger.empty, fun _ => none⟩

def Process.socket (s : Int) (k : Process) : Process :=
  { k with fds := k.fds.take s }

def Process.close (s : Int) (k : Process) : Process :=
  { k with fds := k.fds.giveBack s }

def Process.mmap (res : Nat) (conf : SockConf) (k : Process) : Process :=
  { k with
    maps := k.maps.take res
    mem := Function.update k.mem res (some conf) }

def Process.munmap (res : Nat) (k : Process) : Process :=
  { k with
    maps := k.maps.giveBack res
    mem := Function.update k.mem res none }

@[simp] theorem Process.socket_fds (s : Int) (k : Process) :
    (k.socket s).fds = k.fds.take s := rfl

@[simp] theorem Process.close_fds (s : Int) (k : Process) :
    (k.close s).fds = k.fds.giveBack s := rfl

/-! ## `ud_socket` -/

/-- What the system returns to the calls `ud_socket` makes, if it makes them. -/
structure SockCalls where
  socket : Int
  socket2 : Int
  bindSub : Int
  bindPub : Int
  mmap : Option Nat
  inetPton : Int
  joinGroup : Int

/-- The group cannot be joined without a destination. -/
def mc6JoinGroup (c : SockCalls) : Int :=
  if c.inetPton < 0 then -1 else c.joinGroup

def closOut (s : Int) (k : Process) : Process := k.close s

def clos2Out (s s2 : Int) (k : Process) : Process :=
  closOut s (if s ≠ s2 ∧ s2 ≥ 0 then k.close s2 else k)

def munmOut (res : Nat) (s s2 : Int) (k : Process) : Process :=
  clos2Out s s2 (k.munmap res)

/-- `ud_socket` once it has its sockets. -/
def setUpSocket (opt : SockOpt) (c : SockCalls) (s s2 : Int) (k : Process) :
    Option Nat × Process :=
  if opt.mode.subp ∧ c.bindSub < 0 then (none, clos2Out s s2 k)
  else if opt.mode.pubp ∧ c.bindPub < 0 then (none, clos2Out s s2 k)
  else
    match c.mmap with
    | none => (none, clos2Out s s2 k)
    | some res =>
        let k := k.mmap res ⟨s, s2, opt⟩
        if opt.mode.subp ∧ mc6JoinGroup c < 0 then (none, munmOut res s s2 k)
        else (some res, k)

def udSocket (opt : SockOpt) (c : SockCalls) (k : Process) :
    Option Nat × Process :=
  if opt.mode = .none then (none, k)
  else
    let opt := opt.complete
    let s := c.socket
    if s < 0 then (none, k)
    else
      let k := k.socket s
      if opt.mode.subp ∧ opt.mode.pubp then
        let s2 := c.socket2
        if s2 < 0 then (none, closOut s k)
        else setUpSocket opt c s s2 (k.socket s2)
      else setUpSocket opt c s s k

/-! ## `ud_close` -/

def udClose (us : Nat) (k : Process) : Process :=
  match k.mem us with
  | none => k
  | some conf =>
      let k :=
        match conf.opt.mode with
        | .pubsub => k.close conf.fdSend
        | .sub | .pub | .none => k
      (k.munmap us).close conf.fd

/-! ## Runs -/

structure Handles where
  proc : Process
  -- what `ud_socket` returned and `ud_close` was not called for, and the mode
  -- it was asked for
  live : Finset Nat
  mode : Nat → Mode

def Handles.init : Handles := ⟨Process.init, ∅, fun _ => .none⟩

inductive HandleCall where
  | udSocket (opt : SockOpt) (c : SockCalls)
  | udClose (s : Nat)

def HandleCall.step (h : Handles) : HandleCall → Handles × Option Nat
  | .udSocket opt c =>
      let r := Unserding.udSocket opt c h.proc
      match r.1 with
      | none => ({ h with proc := r.2 }, none)
      | some s =>
          (⟨r.2, insert s h.live, Function.update h.mode s opt.mode⟩, some s)
  | .udClose s =>
      ({ h with proc := Unserding.udClose s h.proc, live := h.live.erase s },
        none)

def handling : System Handles HandleCall (Option Nat) := ⟨HandleCall.step⟩

/-- The system hands out what is not held. -/
structure SockCalls.Fresh (c : SockCalls) (k : Process) : Prop where
  socket : 0 ≤ c.socket → c.socket ∉ k.fds.held
  socket2 : 0 ≤ c.socket2 → c.socket2 ∉ insert c.socket k.fds.held
  mmap : ∀ res, c.mmap = some res → res ∉ k.maps.held

/-- Only live handles are closed. -/
def Permitted (h : Handles) : HandleCall → Prop
  | .udSocket _ c => c.Fresh h.proc
  | .udClose s => s ∈ h.live

/-! ## What a call makes -/

def SockConf.descriptors (conf : SockConf) : Finset Int :=
  {conf.fd, conf.fdSend}

structure SockConf.Sound (conf : SockConf) : Prop where
  mode : conf.opt.mode ≠ .none
  fd : conf.fd = conf.fdSend ↔ conf.opt.mode ≠ .pubsub

/--
A call of `ud_socket` leaves the ledgers as they were, or a handle with its own
descriptors behind.
-/
inductive Made (opt : SockOpt) (k : Process) : Option Nat × Process → Prop where
  | failed {k' : Process} (fds : k.fds.Beyond k'.fds ∅)
      (maps : k.maps.Beyond k'.maps ∅)
      (mem : ∀ p ∈ k.maps.held, k'.mem p = k.mem p) : Made opt k (none, k')
  | made {k' : Process} {s : Nat} {conf : SockConf} (sound : conf.Sound)
      (asked : conf.opt = opt.complete)
      (fds : k.fds.Beyond k'.fds conf.descriptors)
      (maps : k.maps.Beyond k'.maps {s})
      (mem : k'.mem = Function.update k.mem s (some conf)) :
      Made opt k (some s, k')

theorem clos2Out_fds {L : Ledger Int} {k : Process} {s s2 : Int}
    (h : L.Beyond k.fds {s, s2}) (hs2 : 0 ≤ s2) :
    L.Beyond (clos2Out s s2 k).fds ∅ := by
  rw [clos2Out]
  by_cases hs : s = s2
  · rw [if_neg fun h => h.1 hs]
    have hclose := h.giveBack (Finset.mem_insert_self s {s2})
    simpa [hs, closOut] using hclose
  · rw [if_pos ⟨hs, hs2⟩]
    have hsend : s2 ∈ ({s, s2} : Finset Int) := by simp
    have hclose := h.giveBack hsend
    have hrest : ({s, s2} : Finset Int).erase s2 = {s} := by
      ext x
      simp only [Finset.mem_erase, Finset.mem_insert, Finset.mem_singleton]
      grind
    rw [hrest] at hclose
    simpa [closOut] using hclose.giveBack (Finset.mem_singleton_self s)

@[simp] theorem clos2Out_maps (s s2 : Int) (k : Process) :
    (clos2Out s s2 k).maps = k.maps := by
  unfold clos2Out
  split <;> rfl

@[simp] theorem clos2Out_mem (s s2 : Int) (k : Process) :
    (clos2Out s s2 k).mem = k.mem := by
  unfold clos2Out
  split <;> rfl

section SetUp

variable {k₀ k : Process} {opt : SockOpt} {c : SockCalls} {s s2 : Int}
  (hfds : k₀.fds.Beyond k.fds {s, s2}) (hmaps : k.maps = k₀.maps)
  (hmem : k.mem = k₀.mem) (hs2 : 0 ≤ s2)

include hfds hmaps hmem hs2

theorem clos2Out_made : Made opt k₀ (none, clos2Out s s2 k) := by
  refine .failed (clos2Out_fds hfds hs2) ?_ fun p _ => ?_
  · rw [clos2Out_maps, hmaps]
    exact Ledger.Beyond.refl _
  · rw [clos2Out_mem, hmem]

theorem munmOut_made {res : Nat} (hres : res ∉ k₀.maps.held)
    (conf : SockConf) :
    Made opt k₀ (none, munmOut res s s2 (k.mmap res conf)) := by
  have htake := (Ledger.Beyond.refl k₀.maps).take hres
  have hback := htake.giveBack (Finset.mem_insert_self res ∅)
  refine .failed (clos2Out_fds hfds hs2) ?_ fun p hp => ?_
  · rw [munmOut, clos2Out_maps, Process.munmap, Process.mmap, hmaps]
    simpa using hback
  · have hne : p ≠ res := fun h => hres (h ▸ hp)
    rw [munmOut, clos2Out_mem, Process.munmap, Process.mmap, hmem]
    simp [hne]

theorem setUpSocket_made (hconf : (⟨s, s2, opt.complete⟩ : SockConf).Sound)
    (hfresh : ∀ res, c.mmap = some res → res ∉ k₀.maps.held) :
    Made opt k₀ (setUpSocket opt.complete c s s2 k) := by
  rw [setUpSocket]
  split
  · exact clos2Out_made hfds hmaps hmem hs2
  · split
    · exact clos2Out_made hfds hmaps hmem hs2
    · cases hmmap : c.mmap with
      | none => exact clos2Out_made hfds hmaps hmem hs2
      | some res =>
          have hres := hfresh res hmmap
          by_cases hjoin : opt.complete.mode.subp ∧ mc6JoinGroup c < 0
          · simp only [if_pos hjoin]
            exact munmOut_made hfds hmaps hmem hs2 hres _
          · simp only [if_neg hjoin]
            have htake := (Ledger.Beyond.refl k₀.maps).take hres
            refine .made hconf rfl hfds ?_ (by rw [Process.mmap, hmem])
            rw [Process.mmap, hmaps]
            simpa using htake

end SetUp

theorem udSocket_made (opt : SockOpt) {c : SockCalls} {k : Process}
    (hfresh : c.Fresh k) : Made opt k (udSocket opt c k) := by
  have hsame : Made opt k (none, k) :=
    .failed (.refl _) (.refl _) fun _ _ => rfl
  rw [udSocket]
  by_cases hmode : opt.mode = .none
  · rw [if_pos hmode]
    exact hsame
  · rw [if_neg hmode]
    by_cases hs : c.socket < 0
    · simp only [if_pos hs]
      exact hsame
    · simp only [if_neg hs]
      have hfirst := (Ledger.Beyond.refl k.fds).take
        (hfresh.socket (Int.not_lt.mp hs))
      by_cases hboth : opt.complete.mode.subp ∧ opt.complete.mode.pubp
      · rw [if_pos hboth]
        by_cases hs2 : c.socket2 < 0
        · simp only [if_pos hs2]
          have hback := hfirst.giveBack (Finset.mem_insert_self _ _)
          exact .failed (by simpa [closOut] using hback) (.refl _)
            fun _ _ => rfl
        · simp only [if_neg hs2]
          have hnew := hfresh.socket2 (Int.not_lt.mp hs2)
          have hsecond := hfirst.take hnew
          rw [Finset.insert_comm] at hsecond
          refine setUpSocket_made (by simpa using hsecond) rfl rfl
            (Int.not_lt.mp hs2) ⟨hmode, ?_⟩ hfresh.mmap
          have hne : c.socket ≠ c.socket2 := by
            rintro heq
            exact hnew (heq ▸ Finset.mem_insert_self _ _)
          simp [hne, (Mode.both_iff _).mp hboth]
      · rw [if_neg hboth]
        refine setUpSocket_made (by simpa using hfirst) rfl rfl
          (Int.not_lt.mp hs) ⟨hmode, ?_⟩ hfresh.mmap
        have hone : opt.complete.mode ≠ .pubsub :=
          (Mode.both_iff _).not.mp hboth
        simp [hone]

structure Closed (k : Process) (us : Nat) (conf : SockConf) (k' : Process) :
    Prop where
  fds : k'.fds.held = k.fds.held \ conf.descriptors
  clean : k.fds.Clean → k'.fds.Clean
  maps : k'.maps = k.maps.giveBack us
  mem : k'.mem = Function.update k.mem us none

theorem udClose_closed {k : Process} {us : Nat} {conf : SockConf}
    (hmem : k.mem us = some conf) (hsound : conf.Sound)
    (hheld : conf.descriptors ⊆ k.fds.held) : Closed k us conf (udClose us k) := by
  have hfd : conf.fd ∈ k.fds.held := hheld (Finset.mem_insert_self _ _)
  have hsend : conf.fdSend ∈ k.fds.held := hheld (by simp [SockConf.descriptors])
  simp only [udClose, hmem]
  by_cases hpubsub : conf.opt.mode = .pubsub
  · have hne : conf.fd ≠ conf.fdSend := fun h => hsound.fd.mp h hpubsub
    simp only [hpubsub]
    refine ⟨?_, fun hclean => ?_, rfl, rfl⟩
    · ext x
      simp [SockConf.descriptors, Process.munmap]
      grind
    · simp [Process.munmap, hclean, hfd, hsend, hne]
  · have heq : conf.fd = conf.fdSend := hsound.fd.mpr hpubsub
    have hone : ((k.munmap us).close conf.fd).fds.held =
        k.fds.held \ conf.descriptors := by
      ext x
      simp [SockConf.descriptors, Process.munmap, ← heq]
      grind
    have hclean (h : k.fds.Clean) :
        ((k.munmap us).close conf.fd).fds.Clean := by
      simp [Process.munmap, h, hfd]
    cases hmode : conf.opt.mode with
    | pubsub => exact absurd hmode hpubsub
    | none | pub | sub => exact ⟨hone, hclean, rfl, rfl⟩

/-! ## The handles account for the process -/

structure Handles.Refines (h : Handles) (A : Accounts Nat Int) : Prop where
  owners : A.owners = h.live
  share : ∀ s ∈ h.live, ∃ conf, h.proc.mem s = some conf ∧ conf.Sound ∧
    conf.opt.mode = h.mode s ∧ A.share s = conf.descriptors
  fds : h.proc.fds.held = A.total
  maps : h.proc.maps.held = h.live
  fds_clean : h.proc.fds.Clean
  maps_clean : h.proc.maps.Clean

theorem Handles.init_refines : Handles.init.Refines Accounts.empty where
  owners := rfl
  share _ hs := by contradiction
  fds := rfl
  maps := rfl
  fds_clean := Ledger.clean_empty
  maps_clean := Ledger.clean_empty

section Refinement

variable {h : Handles} {A : Accounts Nat Int} (hA : h.Refines A)

include hA

theorem udSocket_refines (opt : SockOpt) {c : SockCalls}
    (hc : c.Fresh h.proc) :
    ∃ A', (HandleCall.step h (.udSocket opt c)).1.Refines A' := by
  have hmade := udSocket_made opt hc
  rw [HandleCall.step]
  generalize udSocket opt c h.proc = r at hmade
  cases hmade with
  | failed fds maps mem =>
      refine ⟨A, hA.owners, fun s hs => ?_, ?_, ?_, fds.clean hA.fds_clean,
        maps.clean hA.maps_clean⟩
      · rw [mem s (hA.maps ▸ hs)]
        exact hA.share s hs
      · exact fds.held_eq.trans hA.fds
      · exact maps.held_eq.trans hA.maps
  | @made k' s conf sound asked fds maps mem =>
      have hnew : s ∉ h.live := by
        rw [← hA.maps]
        exact Finset.disjoint_singleton_left.mp maps.disjoint
      have howner : s ∉ A.owners := hA.owners ▸ hnew
      have hfds : Disjoint conf.descriptors A.total := hA.fds ▸ fds.disjoint
      refine ⟨A.enrol s conf.descriptors howner hfds,
        congrArg (insert s) hA.owners, fun t ht => ?_, ?_, ?_,
        fds.clean hA.fds_clean, maps.clean hA.maps_clean⟩
      · change ∃ conf', k'.mem t = some conf' ∧ conf'.Sound ∧
          conf'.opt.mode = Function.update h.mode s opt.mode t ∧
          Function.update A.share s conf.descriptors t = _
        rw [mem]
        by_cases hts : t = s
        · rw [hts]
          exact ⟨conf, by simp, sound, by simp [asked, SockOpt.complete],
            by simp⟩
        · have hold := (Finset.mem_insert.mp ht).resolve_left hts
          simpa [hts] using hA.share t hold
      · rw [Accounts.total_enrol, ← hA.fds]
        exact fds.held
      · rw [maps.held, hA.maps]
        rfl

theorem udClose_refines {s : Nat} (hs : s ∈ h.live) :
    ∃ A', (HandleCall.step h (.udClose s)).1.Refines A' := by
  obtain ⟨conf, hmem, hsound, -, hshare⟩ := hA.share s hs
  have howner : s ∈ A.owners := hA.owners ▸ hs
  have hheld : conf.descriptors ⊆ h.proc.fds.held := by
    rw [hA.fds, ← hshare]
    exact A.share_subset_total howner
  have hclosed := udClose_closed hmem hsound hheld
  refine ⟨A.dismiss s, congrArg (Finset.erase · s) hA.owners, fun t ht => ?_,
    ?_, ?_, hclosed.clean hA.fds_clean, ?_⟩
  · obtain ⟨hts, hlive⟩ := Finset.mem_erase.mp ht
    change ∃ conf', (udClose s h.proc).mem t = some conf' ∧ _
    rw [hclosed.mem, Function.update_of_ne hts]
    exact hA.share t hlive
  · rw [Accounts.total_dismiss howner, hshare, ← hA.fds]
    exact hclosed.fds
  · change (udClose s h.proc).maps.held = _
    rw [hclosed.maps, Ledger.held_giveBack, hA.maps]
    rfl
  · change (udClose s h.proc).maps.Clean
    rw [hclosed.maps, Ledger.clean_giveBack, hA.maps]
    exact ⟨hA.maps_clean, hs⟩

theorem handleCall_refines {c : HandleCall} (hc : Permitted h c) :
    ∃ A', (c.step h).1.Refines A' := by
  cases c with
  | udSocket opt c => exact udSocket_refines hA opt hc
  | udClose s => exact udClose_refines hA hc

end Refinement

def Handles.descriptors (h : Handles) (s : Nat) : Finset Int :=
  match h.proc.mem s with
  | none => ∅
  | some conf => conf.descriptors

theorem Handles.Refines.descriptors_eq {h : Handles} {A : Accounts Nat Int}
    (hA : h.Refines A) {s : Nat} (hs : s ∈ h.live) :
    h.descriptors s = A.share s := by
  obtain ⟨conf, hmem, -, -, hshare⟩ := hA.share s hs
  rw [Handles.descriptors, hmem, hshare]

theorem SockConf.Sound.card {conf : SockConf} (h : conf.Sound) :
    conf.descriptors.card = if conf.opt.mode = .pubsub then 2 else 1 := by
  by_cases hmode : conf.opt.mode = .pubsub
  · have hne : conf.fd ≠ conf.fdSend := fun heq => h.fd.mp heq hmode
    rw [if_pos hmode]
    exact Finset.card_pair hne
  · have heq : conf.fd = conf.fdSend := h.fd.mpr hmode
    rw [if_neg hmode, SockConf.descriptors, heq]
    simp

theorem handling_refines (calls : List HandleCall)
    (hcalls : ∀ ev ∈ handling.events Handles.init calls,
      Permitted ev.pre ev.input) :
    ∃ A, (handling.run Handles.init calls).Refines A :=
  System.history (S := handling) (G := Permitted)
    (H := fun _ h => ∃ A, h.Refines A)
    (fun _ _ _ h hc => h.elim fun _ hA => handleCall_refines hA hc)
    ⟨_, Handles.init_refines⟩ calls hcalls

theorem udSocket_null {h : Handles} {opt : SockOpt} {c : SockCalls}
    (hc : c.Fresh h.proc)
    (hnull : (handling.event h (.udSocket opt c)).output = none) :
    let k := (handling.event h (.udSocket opt c)).post.proc
    k.fds.held = h.proc.fds.held ∧ k.maps.held = h.proc.maps.held := by
  have hmade := udSocket_made opt hc
  simp only [System.event, handling, HandleCall.step] at hnull ⊢
  generalize udSocket opt c h.proc = r at hmade hnull
  cases hmade with
  | failed fds maps mem => exact ⟨fds.held_eq, maps.held_eq⟩
  | made sound asked fds maps mem => contradiction

/--
Making and closing sockets balances in every run: what is open are the
descriptors of the live handles, one for a publisher or a subscriber and two for
both at once, each descriptor in one handle, what is mapped are the handles, a
call that returns NULL leaves nothing behind and nothing is closed or unmapped
that is not open or mapped.
-/
theorem handles_balance (calls : List HandleCall)
    (hcalls : ∀ ev ∈ handling.events Handles.init calls,
      Permitted ev.pre ev.input) :
    let h := handling.run Handles.init calls
    h.proc.fds.held = h.live.biUnion h.descriptors ∧
    (h.live : Set Nat).PairwiseDisjoint h.descriptors ∧
    (∀ s ∈ h.live, h.mode s ≠ .none ∧
      (h.descriptors s).card = if h.mode s = .pubsub then 2 else 1) ∧
    h.proc.maps.held = h.live ∧
    (∀ ev ∈ handling.events Handles.init calls, ∀ opt c,
      ev.input = .udSocket opt c → ev.output = none →
      ev.post.proc.fds.held = ev.pre.proc.fds.held ∧
      ev.post.proc.maps.held = ev.pre.proc.maps.held) ∧
    h.proc.fds.Clean ∧ h.proc.maps.Clean := by
  intro h
  obtain ⟨A, hA⟩ := handling_refines calls hcalls
  refine ⟨?_, ?_, fun s hs => ?_, hA.maps, fun ev hev opt c hin hnull => ?_,
    hA.fds_clean, hA.maps_clean⟩
  · rw [hA.fds, Accounts.total, hA.owners]
    exact Finset.biUnion_congr rfl fun s hs => (hA.descriptors_eq hs).symm
  · intro s hs t ht hst
    change Disjoint (h.descriptors s) (h.descriptors t)
    rw [hA.descriptors_eq hs, hA.descriptors_eq ht]
    exact A.disjoint (hA.owners ▸ hs) (hA.owners ▸ ht) hst
  · obtain ⟨conf, hmem, hsound, hmode, -⟩ := hA.share s hs
    rw [Handles.descriptors, hmem, ← hmode]
    exact ⟨hsound.mode, hsound.card⟩
  · have hpermitted := hcalls ev hev
    rw [System.eq_event_of_mem _ hev, hin] at hnull ⊢
    rw [hin] at hpermitted
    exact udSocket_null hpermitted hnull

theorem handles_balance_witness :
    (handling.run Handles.init
      [.udSocket ⟨.pubsub, none, 0⟩ ⟨3, 4, 0, 0, some 1, 0, 0⟩,
        .udSocket ⟨.sub, none, 9000⟩ ⟨5, -1, -1, 0, none, 0, 0⟩,
        .udClose 1]).proc.fds.Clean :=
  (handles_balance _ (by
    intro ev hev
    simp only [System.events_cons, System.events_nil, List.mem_cons,
      List.not_mem_nil, or_false] at hev
    rcases hev with rfl | rfl | rfl
    · exact ⟨fun _ => by decide, fun _ => by decide,
        fun _ _ => Finset.notMem_empty _⟩
    · exact ⟨fun _ => by decide, fun h => by contradiction,
        fun _ h => by contradiction⟩
    · exact Finset.mem_insert_self 1 ∅)).2.2.2.2.2.1

end Unserding
