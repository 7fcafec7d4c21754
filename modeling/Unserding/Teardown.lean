import Unserding.Handles
import Mathlib.Data.List.ReduceOption

/-!
# The sockets of the monitor

How `main` of `unsermon.c` fills its list of watchers, one for the default
channel and one for each beef channel, and how it goes through that list before
it exits.  A socket is what `ud_socket` returned, `none` where that is NULL.
-/

namespace Unserding

open Foundation

/-! ## Set-up -/

/-- The `data` of the watchers, and the index of the last one to detach. -/
structure Beefs where
  beef : List (Option Nat)
  nbeef : Nat

/-- The loop over the beef channels, `j` of which are attached. -/
def attachBeefs : List (Option Nat) → Nat → Beefs → Beefs
  | [], _, b => b
  | none :: chans, j, b => attachBeefs chans j b
  | some s :: chans, j, b =>
      attachBeefs chans (j + 1) ⟨b.beef.set (j + 1) (some s), j + 1⟩

/-- `deflt` and `chans` are what `ud_socket` returns, channel by channel. -/
def setUpBeefs (deflt : Option Nat) (chans : List (Option Nat)) : Beefs :=
  let nbeef := chans.length
  let beef := List.replicate (nbeef + 1) none
  match deflt with
  | none => attachBeefs chans 0 ⟨beef, nbeef⟩
  | some s => attachBeefs chans 0 ⟨beef.set 0 (some s), nbeef⟩

/-! ## Teardown -/

inductive Detach where
  | logDergstr (s : Option Nat)
  | udClose (s : Option Nat)
  deriving DecidableEq

/--
The loop that detaches the slots listed.  `ud_socket_addr` makes an address out
of NULL that `log_dergstr` takes for good, and with it the loop ends.
-/
def detachBeefs (beef : List (Option Nat)) : List Nat → List Detach
  | [] => []
  | i :: is =>
      match beef.getD i none with
      | none => [.logDergstr none]
      | some s =>
          .logDergstr (some s) :: .udClose (some s) :: detachBeefs beef is

def teardown (b : Beefs) : List Detach :=
  detachBeefs b.beef (List.range (b.nbeef + 1))

def Detach.Opened : Detach → Prop
  | .logDergstr s | .udClose s => s ≠ none

def Detach.closed : Detach → Option Nat
  | .logDergstr _ => none
  | .udClose s => s

/-- Nothing but opened sockets is met, and each of them is closed once. -/
def Balances (ds : List Detach) (opened : List Nat) : Prop :=
  (∀ d ∈ ds, d.Opened) ∧ ds.filterMap Detach.closed = opened

/-! ## The slots -/

theorem attachBeefs_spec (chans : List (Option Nat)) (beef : List (Option Nat))
    {spare j nbeef : Nat} (hj : beef.length = j + 1)
    (hspare : chans.length ≤ spare) :
    attachBeefs chans j ⟨beef ++ List.replicate spare none, nbeef⟩ =
      ⟨beef ++ (chans.reduceOption.map some ++
          List.replicate (spare - chans.reduceOption.length) none),
        if chans.reduceOption = [] then nbeef
        else j + chans.reduceOption.length⟩ := by
  induction chans generalizing beef spare j nbeef with
  | nil => rfl
  | cons chan chans ih =>
      rw [List.length_cons] at hspare
      cases chan with
      | none =>
          rw [List.reduceOption_cons_of_none]
          exact ih beef hj (by omega)
      | some s =>
          obtain ⟨spare, rfl⟩ : ∃ n, spare = n + 1 := ⟨spare - 1, by omega⟩
          have hset : (beef ++ List.replicate (spare + 1) none).set (j + 1)
              (some s) = (beef ++ [some s]) ++ List.replicate spare none := by
            rw [List.set_append_right _ _ hj.le, hj, Nat.sub_self,
              List.replicate_succ, List.set_cons_zero, List.append_assoc]
            rfl
          have hnext := @ih (beef ++ [some s]) spare (j + 1) (j + 1)
            (by simp [hj]) (Nat.le_of_succ_le_succ hspare)
          have hlast : (if chans.reduceOption = [] then j + 1
              else j + 1 + chans.reduceOption.length) =
                j + (chans.reduceOption.length + 1) := by
            split
            · simp [*]
            · omega
          rw [attachBeefs, hset, hnext, hlast, List.reduceOption_cons_of_some]
          simp

theorem setUpBeefs_eq (deflt : Option Nat) (chans : List (Option Nat)) :
    setUpBeefs deflt chans =
      ⟨deflt :: (chans.reduceOption.map some ++
          List.replicate (chans.length - chans.reduceOption.length) none),
        if chans.reduceOption = [] then chans.length
        else chans.reduceOption.length⟩ := by
  have hspec := @attachBeefs_spec chans [deflt] chans.length 0 chans.length
    rfl le_rfl
  simp only [Nat.zero_add] at hspec
  cases deflt with
  | none => exact hspec
  | some s => exact hspec

/-! ## The detach loop -/

section Loop

variable (beef : List (Option Nat)) (is : List Nat)

theorem detachBeefs_opened_iff :
    (∀ d ∈ detachBeefs beef is, d.Opened) ↔
      ∀ i ∈ is, beef.getD i none ≠ none := by
  induction is with
  | nil => simp [detachBeefs]
  | cons i is ih =>
      rw [detachBeefs, List.forall_mem_cons, ← ih]
      cases hslot : beef.getD i none with
      | none => simp [Detach.Opened]
      | some s => simp [Detach.Opened]

theorem detachBeefs_closed (h : ∀ i ∈ is, beef.getD i none ≠ none) :
    (detachBeefs beef is).filterMap Detach.closed =
      (is.map (beef.getD · none)).reduceOption := by
  induction is with
  | nil => rfl
  | cons i is ih =>
      obtain ⟨hi, his⟩ := List.forall_mem_cons.mp h
      obtain ⟨s, hslot⟩ := Option.ne_none_iff_exists'.mp hi
      rw [List.map_cons, hslot, List.reduceOption_cons_of_some, ← ih his,
        detachBeefs, hslot]
      rfl

end Loop

theorem teardown_balances (opened : List Nat) (rest : List (Option Nat))
    {n : Nat} (hn : n + 1 = opened.length) :
    Balances (teardown ⟨opened.map some ++ rest, n⟩) opened := by
  have hslots : (List.range (n + 1)).map
      ((opened.map some ++ rest).getD · none) = opened.map some := by
    apply List.ext_getElem
    · simp [hn]
    · intro i hi hi'
      rw [List.length_map] at hi'
      simp [List.getElem?_append_left, hi']
  have hfull : ∀ i ∈ List.range (n + 1),
      (opened.map some ++ rest).getD i none ≠ none := by
    intro i hi
    have hmem := List.mem_map_of_mem (f := ((opened.map some ++ rest).getD · none)) hi
    rw [hslots] at hmem
    obtain ⟨s, -, hs⟩ := List.mem_map.mp hmem
    rw [← hs]
    exact Option.some_ne_none s
  refine ⟨(detachBeefs_opened_iff _ _).mpr hfull, ?_⟩
  rw [teardown, detachBeefs_closed _ _ hfull, hslots]
  simp [List.reduceOption]

theorem not_balances_of_empty {b : Beefs} {opened : List Nat} {i : Nat}
    (hi : i ≤ b.nbeef) (hempty : b.beef.getD i none = none) :
    ¬ Balances (teardown b) opened := by
  rintro ⟨hopened, -⟩
  rw [teardown, detachBeefs_opened_iff] at hopened
  exact hopened i (List.mem_range.mpr (Nat.lt_succ_of_le hi)) hempty

def openedSocks (deflt : Option Nat) (chans : List (Option Nat)) : List Nat :=
  (deflt :: chans).reduceOption

/--
The loop closes every socket that was opened, each once, and meets no other if
and only if the default channel was opened and, where there are beef channels,
one of them.
-/
theorem teardown_balances_iff (deflt : Option Nat)
    (chans : List (Option Nat)) :
    Balances (teardown (setUpBeefs deflt chans)) (openedSocks deflt chans) ↔
      deflt ≠ none ∧ (chans = [] ∨ ∃ s, some s ∈ chans) := by
  have hsome : (∃ s, some s ∈ chans) ↔ chans.reduceOption ≠ [] := by
    simp [← List.reduceOption_mem_iff, List.eq_nil_iff_forall_not_mem]
  rw [setUpBeefs_eq, hsome]
  cases deflt with
  | none =>
      refine iff_of_false (not_balances_of_empty (i := 0) (Nat.zero_le _) rfl) ?_
      exact fun h => h.1 rfl
  | some s =>
      by_cases hnone : chans.reduceOption = []
      · by_cases hchans : chans = []
        · subst hchans
          exact iff_of_true (teardown_balances [s] [] rfl)
            ⟨Option.some_ne_none s, .inl rfl⟩
        · have hlen : 0 < chans.length := List.length_pos_iff.mpr hchans
          refine iff_of_false (not_balances_of_empty (i := 1) ?_ ?_) ?_
          · rw [if_pos hnone]
            exact hlen
          · simp [hnone, hlen]
          · simp [hnone, hchans]
      · refine iff_of_true ?_ ⟨Option.some_ne_none s, .inr hnone⟩
        rw [if_neg hnone, openedSocks, List.reduceOption_cons_of_some]
        exact teardown_balances (s :: chans.reduceOption) _ rfl

/-- The only beef channel fails to open, and its empty slot is detached. -/
theorem not_teardown_balances :
    ¬ ∀ (deflt : Option Nat) (chans : List (Option Nat)),
      Balances (teardown (setUpBeefs deflt chans)) (openedSocks deflt chans) := by
  intro h
  obtain ⟨hopened, -⟩ := h (some 1) [none]
  exact hopened (.logDergstr none) (by decide) rfl

/-! ## What the monitor gives back -/

def socketCalls (chans : List (SockOpt × SockCalls)) : List HandleCall :=
  chans.map fun chan => .udSocket chan.1 chan.2

theorem socketCalls_cons (chan : SockOpt × SockCalls)
    (chans : List (SockOpt × SockCalls)) :
    socketCalls (chan :: chans) =
      .udSocket chan.1 chan.2 :: socketCalls chans := rfl

theorem udSocket_live {h : Handles} {A : Accounts Nat Int} (hA : h.Refines A)
    (opt : SockOpt) {c : SockCalls} (hc : c.Fresh h.proc) :
    let r := handling.step h (.udSocket opt c)
    (r.2 = none ∧ r.1.live = h.live) ∨
      ∃ s, r.2 = some s ∧ s ∉ h.live ∧ r.1.live = insert s h.live := by
  have hmade := udSocket_made opt hc
  simp only [handling, HandleCall.step]
  generalize udSocket opt c h.proc = r at hmade
  cases hmade with
  | failed fds maps mem => exact .inl ⟨rfl, rfl⟩
  | @made k' s conf sound asked fds maps mem =>
      refine .inr ⟨s, rfl, ?_, rfl⟩
      rw [← hA.maps]
      exact Finset.disjoint_singleton_left.mp maps.disjoint

theorem sockets_live (chans : List (SockOpt × SockCalls)) {h : Handles}
    (hA : ∃ A, h.Refines A)
    (hcalls : ∀ ev ∈ handling.events h (socketCalls chans),
      Permitted ev.pre ev.input) :
    let socks := (handling.outputs h (socketCalls chans)).reduceOption
    socks.Nodup ∧ (∀ s ∈ socks, s ∉ h.live) ∧
      (handling.run h (socketCalls chans)).live = h.live ∪ socks.toFinset := by
  induction chans generalizing h with
  | nil => simp [socketCalls]
  | cons chan chans ih =>
      obtain ⟨A, hA⟩ := hA
      rw [socketCalls_cons, System.events_cons, List.forall_mem_cons] at hcalls
      obtain ⟨hfresh, hcalls⟩ := hcalls
      have hnext : ∃ A', (handling.step h
          (.udSocket chan.1 chan.2)).1.Refines A' :=
        udSocket_refines hA chan.1 hfresh
      obtain ⟨hnodup, hnew, hrun⟩ := ih hnext hcalls
      have hlive := udSocket_live hA chan.1 hfresh
      rw [socketCalls_cons, System.outputs_cons, System.run_cons]
      rcases hlive with ⟨hnull, hlive⟩ | ⟨s, hsome, hs, hlive⟩
      · rw [hlive] at hnew hrun
        rw [hnull, List.reduceOption_cons_of_none]
        exact ⟨hnodup, hnew, hrun⟩
      · rw [hlive] at hnew hrun
        rw [hsome, List.reduceOption_cons_of_some]
        have hfirst := fun hmem => hnew s hmem (Finset.mem_insert_self s _)
        refine ⟨List.nodup_cons.mpr ⟨hfirst, hnodup⟩, ?_, hrun.trans ?_⟩
        · refine List.forall_mem_cons.mpr ⟨hs, fun t ht htlive => ?_⟩
          exact hnew t ht (Finset.mem_insert_of_mem htlive)
        · rw [List.toFinset_cons, Finset.insert_union, Finset.union_insert]

theorem closes_live (socks : List Nat) {h : Handles} (hnodup : socks.Nodup)
    (hlive : ∀ s ∈ socks, s ∈ h.live) :
    (∀ ev ∈ handling.events h (socks.map .udClose),
      Permitted ev.pre ev.input) ∧
    (handling.run h (socks.map .udClose)).live = h.live \ socks.toFinset := by
  induction socks generalizing h with
  | nil => simp
  | cons s socks ih =>
      obtain ⟨hs, hnodup⟩ := List.nodup_cons.mp hnodup
      obtain ⟨hlive, hrest⟩ := List.forall_mem_cons.mp hlive
      have hkept : ∀ t ∈ socks, t ∈ h.live.erase s := by
        intro t ht
        have hne : t ≠ s := fun heq => hs (heq ▸ ht)
        exact Finset.mem_erase.mpr ⟨hne, hrest t ht⟩
      obtain ⟨hpermitted, hrun⟩ :=
        @ih (HandleCall.step h (.udClose s)).1 hnodup hkept
      simp only [List.map_cons, System.events_cons, System.run_cons,
        List.forall_mem_cons]
      refine ⟨⟨hlive, hpermitted⟩, hrun.trans ?_⟩
      change h.live.erase s \ socks.toFinset = _
      rw [List.toFinset_cons, Finset.sdiff_insert, Finset.erase_sdiff_comm]

/-- The calls of `ud_close` in the loop that detaches the channels. -/
def monitorCloses (deflt : Option Nat) (socks : List (Option Nat)) :
    List HandleCall :=
  ((teardown (setUpBeefs deflt socks)).filterMap Detach.closed).map .udClose

/--
Where the loop balances what was set up, every call of `ud_close` is made on a
live handle, and after the last one no descriptor is open and nothing mapped.
-/
theorem monitor_gives_back (chans : List (SockOpt × SockCalls))
    (hcalls : ∀ ev ∈ handling.events Handles.init (socketCalls chans),
      Permitted ev.pre ev.input)
    {deflt : Option Nat} {socks : List (Option Nat)}
    (hsocks : handling.outputs Handles.init (socketCalls chans) = deflt :: socks)
    (hbalance : Balances (teardown (setUpBeefs deflt socks))
      (openedSocks deflt socks)) :
    let calls := socketCalls chans ++ monitorCloses deflt socks
    (∀ ev ∈ handling.events Handles.init calls, Permitted ev.pre ev.input) ∧
      (handling.run Handles.init calls).proc.fds.held = ∅ ∧
      (handling.run Handles.init calls).proc.maps.held = ∅ := by
  intro calls
  obtain ⟨hnodup, -, hlive⟩ :=
    sockets_live chans ⟨_, Handles.init_refines⟩ hcalls
  rw [hsocks] at hnodup hlive
  rw [show Handles.init.live = ∅ from rfl, Finset.empty_union] at hlive
  have hcloses : monitorCloses deflt socks =
      (deflt :: socks).reduceOption.map .udClose :=
    congrArg (List.map HandleCall.udClose) hbalance.2
  obtain ⟨hpermitted, hrest⟩ := closes_live _ hnodup
    (fun s hs => hlive ▸ List.mem_toFinset.mpr hs)
  have hall : ∀ ev ∈ handling.events Handles.init calls,
      Permitted ev.pre ev.input := by
    intro ev hev
    rw [System.events_append, hcloses, List.mem_append] at hev
    exact hev.elim (hcalls ev) (hpermitted ev)
  have hrun : (handling.run Handles.init calls).live = ∅ := by
    rw [System.run_append, hcloses, hrest, hlive, Finset.sdiff_self]
  obtain ⟨A, hA⟩ := handling_refines calls hall
  refine ⟨hall, ?_, by rw [hA.maps, hrun]⟩
  rw [hA.fds, Accounts.total, hA.owners, hrun, Finset.biUnion_empty]

end Unserding
