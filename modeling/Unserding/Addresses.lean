import Unserding.Router
import Unserding.Foundation.Ledger

/-!
# Trying addresses

The loops of `try_connect` and `try_bind`, which are one loop but for the call
they make on a socket, with the descriptors in a ledger; and what becomes of the
list of addresses.
-/

namespace Unserding

open Foundation

/-- What `socket` returns for an address, and then `connect` or `bind`. -/
structure Attempt where
  socket : Int
  attach : Int

def Attempt.Opens (a : Attempt) : Prop := a.socket ≥ 0 ∧ a.attach ≥ 0

instance (a : Attempt) : Decidable a.Opens :=
  inferInstanceAs (Decidable (_ ∧ _))

def openFd (s : Int) (L : Ledger Int) : Ledger Int :=
  if s ≥ 0 then L.take s else L

/-- `close` fails where `s` is no descriptor. -/
def closeFd (s : Int) (L : Ledger Int) : Ledger Int :=
  if s ≥ 0 then L.giveBack s else L

/-! ## The loop -/

structure Tried (A : Type*) where
  s : Int
  aires : List A
  fds : Ledger Int

section Loop

variable {A : Type*} (attempt : A → Attempt)

def tryEach : List A → Ledger Int → Option (Int × List A) × Ledger Int
  | [], L => (none, L)
  | ai :: rest, L =>
      let s := (attempt ai).socket
      let L := openFd s L
      if (attempt ai).Opens then (some (s, ai :: rest), L)
      else tryEach rest (closeFd s L)

def tryAddrs (aires : List A) (L : Ledger Int) : Tried A :=
  match tryEach attempt aires L with
  | (some (s, ai), L) => ⟨s, ai, L⟩
  | (none, L) => ⟨-1, aires, L⟩

inductive Picks (aires : List A) : Option (Int × List A) → Prop where
  | nothing (fail : ∀ ai ∈ aires, ¬ (attempt ai).Opens) : Picks aires none
  | first {before after : List A} {ai : A} (eq : aires = before ++ ai :: after)
      (fail : ∀ b ∈ before, ¬ (attempt b).Opens) (opens : (attempt ai).Opens) :
      Picks aires (some ((attempt ai).socket, ai :: after))

theorem tryEach_picks (aires : List A) (L : Ledger Int) :
    Picks attempt aires (tryEach attempt aires L).1 := by
  induction aires generalizing L with
  | nil => exact .nothing fun ai hai => by contradiction
  | cons ai rest ih =>
      rw [tryEach]
      by_cases hopens : (attempt ai).Opens
      · rw [if_pos hopens]
        exact @Picks.first A attempt _ [] rest ai rfl
          (fun b hb => by contradiction) hopens
      · rw [if_neg hopens]
        have hrest := ih (closeFd (attempt ai).socket
          (openFd (attempt ai).socket L))
        generalize (tryEach attempt rest _).1 = found at hrest ⊢
        cases hrest with
        | nothing fail =>
            exact .nothing (List.forall_mem_cons.mpr ⟨hopens, fail⟩)
        | @first before after ai' eq fail opens =>
            have hsplit : ai :: rest = (ai :: before) ++ ai' :: after :=
              congrArg (ai :: ·) eq
            exact .first hsplit (List.forall_mem_cons.mpr ⟨hopens, fail⟩) opens

/-- `socket` returns descriptors that are not open. -/
def Fresh (aires : List A) (L : Ledger Int) : Prop :=
  ∀ ai ∈ aires, 0 ≤ (attempt ai).socket → (attempt ai).socket ∉ L.held

theorem tryEach_beyond {aires : List A} {L : Ledger Int}
    (h : Fresh attempt aires L) :
    L.Beyond (tryEach attempt aires L).2
      (match (tryEach attempt aires L).1 with
        | none => ∅
        | some (s, _) => {s}) := by
  induction aires generalizing L with
  | nil => exact .refl L
  | cons ai rest ih =>
      obtain ⟨hai, hrest⟩ := List.forall_mem_cons.mp h
      rw [tryEach]
      by_cases hopens : (attempt ai).Opens
      · simp only [if_pos hopens, openFd, if_pos hopens.1]
        exact (Ledger.Beyond.refl L).take (hai hopens.1)
      · simp only [if_neg hopens]
        have hclosed : L.Beyond (closeFd (attempt ai).socket
            (openFd (attempt ai).socket L)) ∅ := by
          by_cases hs : (attempt ai).socket ≥ 0
          · have htake := (Ledger.Beyond.refl L).take (hai hs)
            have hback := htake.giveBack (Finset.mem_insert_self _ ∅)
            simpa [closeFd, openFd, hs] using hback
          · simpa [closeFd, openFd, hs] using Ledger.Beyond.refl L
        refine hclosed.of_same (ih fun b hb hs => ?_)
        rw [hclosed.held_eq]
        exact hrest b hb hs

end Loop

/-! ## `try_connect` and `try_bind` -/

def Candidate.attempt (ai : Candidate) : Attempt := ⟨ai.socket, ai.connect⟩

def Candidate.tryConnect (aires : List Candidate) (L : Ledger Int) :
    Tried Candidate :=
  tryAddrs Candidate.attempt aires L

inductive Socktype where
  | dgram
  | stream
  deriving DecidableEq, Repr

structure BindAddr where
  socktype : Socktype
  socket : Int
  bind : Int

def BindAddr.attempt (ai : BindAddr) : Attempt := ⟨ai.socket, ai.bind⟩

def tryBind (aires : List BindAddr) (L : Ledger Int) : Tried BindAddr :=
  tryAddrs BindAddr.attempt aires L

structure DealerSocketRes where
  s : Int
  -- what `freeaddrinfo` gets; `none` is a pointer that was never set
  freed : Option (List BindAddr)
  fds : Ledger Int

/-- `gai` is `none` where `getaddrinfo` returns a negative value. -/
def udDealerSocket (gai : Option (List BindAddr)) (listen : Int)
    (L : Ledger Int) : DealerSocketRes :=
  let s : Int := -1
  match gai with
  | none => ⟨s, none, L⟩
  | some aires =>
      let r := tryBind aires L
      if r.s < 0 then ⟨r.s, some r.aires, r.fds⟩
      else if r.aires.head?.map BindAddr.socktype = some .dgram then
        ⟨r.s, some r.aires, r.fds⟩
      else if listen < 0 then ⟨-1, some r.aires, closeFd r.s r.fds⟩
      else ⟨r.s, some r.aires, r.fds⟩

/-! ## What is left open -/

/--
A function that tries addresses returns -1 for a reason and leaves nothing open,
or it returns the descriptor of the first address that opens and leaves that one
open; it closes what it opened and nothing else.
-/
structure Settles {A : Type*} (attempt : A → Attempt) (aires : List A)
    (failed : Prop) (L L' : Ledger Int) (s : Int) : Prop where
  result : (failed ∧ s = -1 ∧ L'.held = L.held) ∨
    ∃ before ai after, aires = before ++ ai :: after ∧
      (∀ b ∈ before, ¬ (attempt b).Opens) ∧ (attempt ai).Opens ∧
      s = (attempt ai).socket ∧ s ∉ L.held ∧ L'.held = insert s L.held
  clean : L.Clean → L'.Clean

theorem tryAddrs_settles {A : Type*} {attempt : A → Attempt} {aires : List A}
    {L : Ledger Int} (h : Fresh attempt aires L) :
    let r := tryAddrs attempt aires L
    Settles attempt aires (∀ ai ∈ aires, ¬ (attempt ai).Opens) L r.fds r.s := by
  have hpicks := tryEach_picks attempt aires L
  have hbeyond := tryEach_beyond attempt h
  unfold tryAddrs
  generalize tryEach attempt aires L = found at hpicks hbeyond
  obtain ⟨picked, L'⟩ := found
  cases hpicks with
  | nothing fail => exact ⟨.inl ⟨fail, rfl, hbeyond.held_eq⟩, hbeyond.clean⟩
  | @first before after ai eq fail opens =>
      refine ⟨.inr ⟨before, ai, after, eq, fail, opens, rfl, ?_, ?_⟩,
        hbeyond.clean⟩
      · exact Finset.disjoint_singleton_left.mp hbeyond.disjoint
      · exact hbeyond.held

section Settled

variable {A : Type*} {attempt : A → Attempt} {aires : List A}
  {failed failed' : Prop} {L L' : Ledger Int} {s : Int}
  (h : Settles attempt aires failed L L' s)

include h

theorem Settles.imp (hfailed : failed → failed') :
    Settles attempt aires failed' L L' s where
  result := h.result.imp_left fun ⟨hf, hrest⟩ => ⟨hfailed hf, hrest⟩
  clean := h.clean

theorem Settles.close (hs : 0 ≤ s) (hfailed : failed') :
    Settles attempt aires failed' L (closeFd s L') (-1) := by
  rcases h.result with ⟨-, rfl, -⟩ |
    ⟨before, ai, after, -, -, -, -, hnew, hheld⟩
  · contradiction
  · rw [closeFd, if_pos hs]
    refine ⟨.inl ⟨hfailed, rfl, ?_⟩, fun hclean => ?_⟩
    · rw [Ledger.held_giveBack, hheld, Finset.erase_insert hnew]
    · rw [Ledger.clean_giveBack, hheld]
      exact ⟨h.clean hclean, Finset.mem_insert_self s _⟩

end Settled

theorem udDealerSocket_settles {aires : List BindAddr} {L : Ledger Int}
    (h : Fresh BindAddr.attempt aires L) (listen : Int) :
    let r := udDealerSocket (some aires) listen L
    Settles BindAddr.attempt aires
      ((∀ ai ∈ aires, ¬ (BindAddr.attempt ai).Opens) ∨ listen < 0) L r.fds
      r.s := by
  have hbound : Settles BindAddr.attempt aires
      ((∀ ai ∈ aires, ¬ (BindAddr.attempt ai).Opens) ∨ listen < 0) L
      (tryBind aires L).fds (tryBind aires L).s :=
    (tryAddrs_settles h).imp .inl
  simp only [udDealerSocket]
  split
  · exact hbound
  · rename_i hs
    split
    · exact hbound
    · split
      · rename_i hlisten
        exact hbound.close (Int.not_lt.mp hs) (.inr hlisten)
      · exact hbound

/--
Trying addresses leaks no descriptor: to connect, to bind, or to bind and listen
leaves open what is returned, that of the first address that opens, or nothing,
and nothing is closed that is not open.
-/
theorem addresses_settle (L : Ledger Int) (conns : List Candidate)
    (binds : List BindAddr) (listen : Int)
    (hconns : Fresh Candidate.attempt conns L)
    (hbinds : Fresh BindAddr.attempt binds L) :
    Settles Candidate.attempt conns
      (∀ ai ∈ conns, ¬ (Candidate.attempt ai).Opens) L
      (Candidate.tryConnect conns L).fds (Candidate.tryConnect conns L).s ∧
    Settles BindAddr.attempt binds
      (∀ ai ∈ binds, ¬ (BindAddr.attempt ai).Opens) L
      (tryBind binds L).fds (tryBind binds L).s ∧
    Settles BindAddr.attempt binds
      ((∀ ai ∈ binds, ¬ (BindAddr.attempt ai).Opens) ∨ listen < 0) L
      (udDealerSocket (some binds) listen L).fds
      (udDealerSocket (some binds) listen L).s :=
  ⟨tryAddrs_settles hconns, tryAddrs_settles hbinds,
    udDealerSocket_settles hbinds listen⟩

theorem addresses_settle_witness :
    (Candidate.tryConnect [⟨-1, -1⟩, ⟨3, -1⟩, ⟨3, 0⟩] Ledger.empty).fds.Clean :=
  (addresses_settle Ledger.empty [⟨-1, -1⟩, ⟨3, -1⟩, ⟨3, 0⟩]
    [⟨.stream, 4, 0⟩] (-1) (fun _ _ _ => Finset.notMem_empty _)
    fun _ _ _ => Finset.notMem_empty _).1.clean Ledger.clean_empty

/-! ## The router's descriptors -/

theorem tryFrom_fst (aires : List Candidate) (k : Descriptors)
    (L : Ledger Int) :
    (tryFrom aires k).1 = (tryEach Candidate.attempt aires L).1 := by
  induction aires generalizing k L with
  | nil => rfl
  | cons ai rest ih =>
      rw [tryFrom, tryEach]
      by_cases hopens : (Candidate.attempt ai).Opens
      · rw [if_pos hopens]
        exact congrArg Prod.fst (if_pos hopens)
      · rw [if_neg hopens]
        exact (congrArg Prod.fst (if_neg hopens)).trans (ih _ _)

theorem tryFrom_opened {aires : List Candidate} {k : Descriptors}
    {L : Ledger Int} (h : k.opened = L.held) (hL : ∀ fd ∈ L.held, 0 ≤ fd) :
    (tryFrom aires k).2.opened = (tryEach Candidate.attempt aires L).2.held := by
  induction aires generalizing k L with
  | nil => exact h
  | cons ai rest ih =>
      have hsocket : (k.socket ai.socket).opened =
          (openFd ai.socket L).held := by
        unfold Descriptors.socket openFd
        split <;> simp [h]
      simp only [tryFrom, tryEach]
      by_cases hopens : ai.socket ≥ 0 ∧ ai.connect ≥ 0
      · rw [if_pos hopens, if_pos (show ai.attempt.Opens from hopens)]
        exact hsocket
      · rw [if_neg hopens, if_neg (show ¬ ai.attempt.Opens from hopens)]
        have hclosed : (closeFd ai.socket (openFd ai.socket L)).held =
            ((k.socket ai.socket).close ai.socket).opened := by
          change _ = (k.socket ai.socket).opened.erase ai.socket
          rw [hsocket]
          unfold closeFd openFd
          by_cases hs : ai.socket ≥ 0
          · simp [hs]
          · have hnone : ai.socket ∉ L.held := fun hmem => hs (hL _ hmem)
            simp [hs, hnone]
        refine ih hclosed.symm fun fd hfd => ?_
        change fd ∈ (closeFd ai.socket (openFd ai.socket L)).held at hfd
        rw [hclosed] at hfd
        have hmem := Finset.mem_of_mem_erase hfd
        rw [hsocket, openFd] at hmem
        split at hmem
        · rename_i hs
          rcases Finset.mem_insert.mp hmem with rfl | hold
          · exact hs
          · exact hL fd hold
        · exact hL fd hmem

theorem tryConnect_fst (aires : List Candidate) (k : Descriptors)
    (L : Ledger Int) :
    (tryConnect aires k).s = (Candidate.tryConnect aires L).s ∧
      (tryConnect aires k).aires = (Candidate.tryConnect aires L).aires := by
  have hfst := tryFrom_fst aires k L
  unfold tryConnect Candidate.tryConnect tryAddrs
  generalize tryFrom aires k = found at *
  generalize tryEach Candidate.attempt aires L = found' at *
  obtain ⟨picked, fds⟩ := found
  obtain ⟨picked', fds'⟩ := found'
  obtain rfl : picked = picked' := hfst
  cases picked with
  | none => exact ⟨rfl, rfl⟩
  | some p => exact ⟨rfl, rfl⟩

/-- The router's `try_connect` and the one with a ledger are the same. -/
theorem tryConnect_opened {aires : List Candidate} {k : Descriptors}
    {L : Ledger Int} (h : k.opened = L.held) (hL : ∀ fd ∈ L.held, 0 ≤ fd) :
    (tryConnect aires k).fds.opened =
      (Candidate.tryConnect aires L).fds.held := by
  have hopened := @tryFrom_opened aires _ _ h hL
  have hk : (tryConnect aires k).fds = (tryFrom aires k).2 := by
    unfold tryConnect
    split <;> simp [*]
  have hkL : (Candidate.tryConnect aires L).fds =
      (tryEach Candidate.attempt aires L).2 := by
    unfold Candidate.tryConnect tryAddrs
    split <;> simp [*]
  rw [hk, hkL, hopened]

/-! ## What is freed -/

/--
`freeaddrinfo` is called on the list that `getaddrinfo` returned, once, and not
at all where it returned none.
-/
def ReleasesWhole {A : Type*} (gai : Option (List A))
    (calls : List (Option (List A))) : Prop :=
  calls = gai.toList.map some

def FirstIfAny {A : Type*} (attempt : A → Attempt) (aires : List A) : Prop :=
  (∃ ai ∈ aires, (attempt ai).Opens) →
    ∃ first ∈ aires.head?, (attempt first).Opens

theorem tryAddrs_aires_iff {A : Type*} (attempt : A → Attempt)
    (aires : List A) (L : Ledger Int) :
    (tryAddrs attempt aires L).aires = aires ↔ FirstIfAny attempt aires := by
  have hpicks := tryEach_picks attempt aires L
  unfold tryAddrs
  generalize tryEach attempt aires L = found at hpicks
  obtain ⟨picked, L'⟩ := found
  cases hpicks with
  | nothing fail =>
      exact iff_of_true rfl fun ⟨ai, hai, hopens⟩ => absurd hopens (fail ai hai)
  | @first before after ai eq fail opens =>
      subst eq
      cases before with
      | nil => exact iff_of_true rfl fun _ => ⟨ai, rfl, opens⟩
      | cons b before =>
          refine iff_of_false (fun heq => ?_) fun hfirst => ?_
          · have hlen := congrArg List.length heq
            simp at hlen
            omega
          · obtain ⟨first, hhead, hopens⟩ := hfirst ⟨ai, by simp, opens⟩
            cases hhead
            exact fail b List.mem_cons_self hopens

theorem releasesWhole_some_iff {A : Type*} {aires freed : List A} :
    ReleasesWhole (some aires) [some freed] ↔ freed = aires := by
  simp [ReleasesWhole]

theorem udRouterSocket_freed (aires : List Candidate) (k : Descriptors) :
    (udRouterSocket (some aires) k).freed =
      some (Candidate.tryConnect aires Ledger.empty).aires :=
  congrArg some (tryConnect_fst aires k Ledger.empty).2

theorem udDealerSocket_freed (aires : List BindAddr) (listen : Int)
    (L : Ledger Int) :
    (udDealerSocket (some aires) listen L).freed =
      some (tryBind aires L).aires := by
  simp only [udDealerSocket]
  split
  · rfl
  · split
    · rfl
    · split <;> rfl

/--
Both programs release what the resolver returned, once and whole, if and only if
it returned a list and the address that is taken from it, if one is, is its
first.
-/
theorem releases_whole_iff (conns : Option (List Candidate)) (k : Descriptors)
    (binds : Option (List BindAddr)) (listen : Int) (L : Ledger Int) :
    (ReleasesWhole conns [(udRouterSocket conns k).freed] ↔
      ∃ aires, conns = some aires ∧ FirstIfAny Candidate.attempt aires) ∧
    (ReleasesWhole binds [(udDealerSocket binds listen L).freed] ↔
      ∃ aires, binds = some aires ∧ FirstIfAny BindAddr.attempt aires) := by
  constructor
  · cases conns with
    | none => simp [ReleasesWhole]
    | some aires =>
        rw [udRouterSocket_freed, releasesWhole_some_iff]
        exact (tryAddrs_aires_iff _ _ _).trans (by simp)
  · cases binds with
    | none => simp [ReleasesWhole]
    | some aires =>
        rw [udDealerSocket_freed, releasesWhole_some_iff]
        exact (tryAddrs_aires_iff _ _ _).trans (by simp)

/-- The second address connects, and the first node is never freed. -/
theorem not_releases_whole :
    ¬ ∀ (gai : Option (List Candidate)) (k : Descriptors),
      ReleasesWhole gai [(udRouterSocket gai k).freed] := by
  intro h
  have hwhole := h (some [⟨-1, -1⟩, ⟨3, 0⟩]) ⟨∅, ∅⟩
  rw [udRouterSocket_freed, releasesWhole_some_iff] at hwhole
  exact absurd (congrArg List.length hwhole) (by decide)

end Unserding
