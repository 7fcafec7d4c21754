import Unserding.Wire
import Unserding.Foundation.Paged
import Unserding.Foundation.System

/-!
# The decoders of the monitor

`unsermon.c` keeps its decoders in tables of 512 entries, one for every two
channels, which it allocates when the first decoder of a table is registered.
A decoder is a value of some type, `none` where the source has NULL.
-/

namespace Unserding

open Foundation

variable {β : Type*}

abbrev Decmap (β : Type*) := Pages Nat Nat β

def decmapIdx (svc : UInt16) : Nat := (udChn svc).toNat / 2

def dmIdx (svc : UInt16) : Nat := svc.toNat &&& ((1 <<< 9) - 1)

inductive Access where
  | decmap (i : Nat)
  | dm (i : Nat)

def Access.InBounds : Access → Prop
  | .decmap i => i < 128
  | .dm i => i < 512

structure DecRes (β : Type*) where
  ret : Int
  decmap : Decmap β
  accesses : List Access

/-- `mmap` says whether a table can be allocated. -/
def udMondecReg (svc : UInt16) (cb : Option β) (mmap : Bool)
    (decmap : Decmap β) : DecRes β :=
  match decmap (decmapIdx svc) with
  | none =>
      if mmap then
        let decmap := decmap.alloc (decmapIdx svc)
        ⟨0, decmap.put (decmapIdx svc) (fun _ => none) (dmIdx svc) cb,
          [.decmap (decmapIdx svc), .decmap (decmapIdx svc), .dm (dmIdx svc)]⟩
      else ⟨-1, decmap, [.decmap (decmapIdx svc)]⟩
  | some dm =>
      ⟨0, decmap.put (decmapIdx svc) dm (dmIdx svc) cb,
        [.decmap (decmapIdx svc), .dm (dmIdx svc)]⟩

def udMondecDereg (svc : UInt16) (decmap : Decmap β) : DecRes β :=
  match decmap (decmapIdx svc) with
  | none => ⟨-1, decmap, [.decmap (decmapIdx svc)]⟩
  | some dm =>
      match dm (dmIdx svc) with
      | none => ⟨-1, decmap, [.decmap (decmapIdx svc), .dm (dmIdx svc)]⟩
      | some _ =>
          ⟨0, decmap.put (decmapIdx svc) dm (dmIdx svc) none,
            [.decmap (decmapIdx svc), .dm (dmIdx svc), .dm (dmIdx svc)]⟩

def mondec (svc : UInt16) (decmap : Decmap β) : Option β × List Access :=
  match decmap (decmapIdx svc) with
  | none => (none, [.decmap (decmapIdx svc)])
  | some dm =>
      (dm (dmIdx svc), [.decmap (decmapIdx svc), .dm (dmIdx svc)])

/-! ## Runs -/

/-- What is registered is not NULL. -/
inductive DecCall (β : Type*) where
  | udMondecReg (svc : UInt16) (cb : β) (mmap : Bool)
  | udMondecDereg (svc : UInt16)

def DecCall.res (decmap : Decmap β) : DecCall β → DecRes β
  | .udMondecReg svc cb mmap => Unserding.udMondecReg svc (some cb) mmap decmap
  | .udMondecDereg svc => Unserding.udMondecDereg svc decmap

def DecCall.step (decmap : Decmap β) (c : DecCall β) :
    Decmap β × Int × List Access :=
  let r := c.res decmap
  (r.decmap, r.ret, r.accesses)

def registry : System (Decmap β) (DecCall β) (Int × List Access) :=
  ⟨DecCall.step⟩

def afterCall (svc : UInt16) (cb : Option β)
    (ev : Event (Decmap β) (DecCall β) (Int × List Access)) : Option β :=
  if ev.output.1 = 0 then
    match ev.input with
    | .udMondecReg svc' cb' _ => if svc' = svc then some cb' else cb
    | .udMondecDereg svc' => if svc' = svc then none else cb
  else cb

def lastRegistered (svc : UInt16)
    (evs : List (Event (Decmap β) (DecCall β) (Int × List Access))) :
    Option β :=
  evs.foldl (afterCall svc) none

/-! ## One map behind the tables -/

theorem decmapIdx_eq (svc : UInt16) : decmapIdx svc = svc.toNat / 512 := by
  rw [decmapIdx, udChn, UInt16.toNat_div]
  change svc.toNat / 256 / 2 = _
  rw [Nat.div_div_eq_div_mul]

theorem dmIdx_eq (svc : UInt16) : dmIdx svc = svc.toNat % 512 := by
  exact Nat.and_two_pow_sub_one_eq_mod svc.toNat 9

def splitSvc (svc : UInt16) : Nat × Nat := (decmapIdx svc, dmIdx svc)

theorem splitSvc_injective : Function.Injective splitSvc := by
  intro svc svc' h
  obtain ⟨htable, hentry⟩ := Prod.mk.inj h
  rw [decmapIdx_eq, decmapIdx_eq] at htable
  rw [dmIdx_eq, dmIdx_eq] at hentry
  apply UInt16.toNat_inj.mp
  omega

def decoders (decmap : Decmap β) : UInt16 → Option β := decmap.map splitSvc

theorem mondec_fst (svc : UInt16) (decmap : Decmap β) :
    (mondec svc decmap).1 = decoders decmap svc := by
  rw [mondec, decoders, Pages.map, splitSvc]
  cases decmap (decmapIdx svc) with
  | none => rfl
  | some dm => rfl

theorem udMondecReg_decoders (svc : UInt16) (cb : Option β) (mmap : Bool)
    (decmap : Decmap β) :
    let r := udMondecReg svc cb mmap decmap
    (r.ret = 0 ∧
      decoders r.decmap = Function.update (decoders decmap) svc cb) ∨
    (r.ret = -1 ∧ r.decmap = decmap) := by
  unfold udMondecReg
  cases htable : decmap (decmapIdx svc) with
  | none =>
      cases mmap with
      | false => exact .inr ⟨rfl, rfl⟩
      | true =>
          refine .inl ⟨rfl, ?_⟩
          have hpage : decmap.alloc (decmapIdx svc) (decmapIdx svc) =
              some fun _ => none := Function.update_self ..
          have hput := Pages.map_put splitSvc_injective (k := svc) hpage cb
          exact hput.trans (by rw [Pages.map_alloc htable]; rfl)
  | some dm =>
      exact .inl ⟨rfl, Pages.map_put splitSvc_injective (k := svc) htable cb⟩

theorem udMondecReg_fails_iff (svc : UInt16) (cb : Option β) (mmap : Bool)
    (decmap : Decmap β) :
    (udMondecReg svc cb mmap decmap).ret = -1 ↔
      decmap (decmapIdx svc) = none ∧ mmap = false := by
  unfold udMondecReg
  cases decmap (decmapIdx svc) with
  | none => cases mmap <;> simp
  | some dm => simp

theorem udMondecReg_mmap (svc : UInt16) (cb : Option β) (decmap : Decmap β) :
    decoders (udMondecReg svc cb true decmap).decmap =
      Function.update (decoders decmap) svc cb := by
  rcases udMondecReg_decoders svc cb true decmap with ⟨-, h⟩ | ⟨hret, -⟩
  · exact h
  · have hfails := (udMondecReg_fails_iff svc cb true decmap).mp hret
    exact absurd hfails.2.symm Bool.false_ne_true

theorem udMondecDereg_decoders (svc : UInt16) (decmap : Decmap β) :
    let r := udMondecDereg svc decmap
    (r.ret = 0 ∧ decoders decmap svc ≠ none ∧
      decoders r.decmap = Function.update (decoders decmap) svc none) ∨
    (r.ret = -1 ∧ decoders decmap svc = none ∧ r.decmap = decmap) := by
  rw [← mondec_fst]
  unfold udMondecDereg mondec
  cases htable : decmap (decmapIdx svc) with
  | none => exact .inr ⟨rfl, rfl, rfl⟩
  | some dm =>
      have hput := Pages.map_put splitSvc_injective (k := svc) htable none
      dsimp only
      cases dm (dmIdx svc) with
      | none => exact .inr ⟨rfl, rfl, rfl⟩
      | some cb => exact .inl ⟨rfl, Option.some_ne_none cb, hput⟩

theorem decmapIdx_lt (svc : UInt16) : decmapIdx svc < 128 := by
  have hsvc := svc.toNat_lt
  rw [decmapIdx_eq]
  omega

theorem dmIdx_lt (svc : UInt16) : dmIdx svc < 512 := by
  rw [dmIdx_eq]
  omega

theorem accesses_inBounds (c : DecCall β) (decmap : Decmap β) :
    ∀ a ∈ (c.res decmap).accesses, a.InBounds := by
  have htable (svc : UInt16) : (Access.decmap (decmapIdx svc)).InBounds :=
    decmapIdx_lt svc
  have hentry (svc : UInt16) : (Access.dm (dmIdx svc)).InBounds := dmIdx_lt svc
  cases c with
  | udMondecReg svc cb mmap =>
      simp only [DecCall.res, udMondecReg]
      split
      · split <;> simp [htable, hentry]
      · simp [htable, hentry]
  | udMondecDereg svc =>
      simp only [DecCall.res, udMondecDereg]
      split
      · simp [htable]
      · split <;> simp [htable, hentry]

theorem mondec_inBounds (svc : UInt16) (decmap : Decmap β) :
    ∀ a ∈ (mondec svc decmap).2, a.InBounds := by
  have htable : (Access.decmap (decmapIdx svc)).InBounds := decmapIdx_lt svc
  have hentry : (Access.dm (dmIdx svc)).InBounds := dmIdx_lt svc
  unfold mondec
  split <;> simp [htable, hentry]

theorem decCall_ret (c : DecCall β) (decmap : Decmap β) :
    (c.res decmap).ret = 0 ∨
      (c.res decmap).ret = -1 ∧ (c.res decmap).decmap = decmap := by
  cases c with
  | udMondecReg svc cb mmap =>
      exact (udMondecReg_decoders svc (some cb) mmap decmap).imp_left And.left
  | udMondecDereg svc =>
      exact (udMondecDereg_decoders svc decmap).imp And.left fun h => ⟨h.1, h.2.2⟩

theorem decoders_afterCall (svc : UInt16) (decmap : Decmap β) (c : DecCall β) :
    decoders (c.res decmap).decmap svc =
      afterCall svc (decoders decmap svc) (registry.event decmap c) := by
  change _ = if (c.res decmap).ret = 0 then _ else _
  cases c with
  | udMondecReg svc' cb mmap =>
      rcases udMondecReg_decoders svc' (some cb) mmap decmap with
        ⟨hret, hmap⟩ | ⟨hret, hmap⟩
      · rw [DecCall.res, hret, if_pos rfl, hmap, Function.update_apply]
        simp only [System.event, eq_comm]
      · rw [DecCall.res, hret, hmap]
        rfl
  | udMondecDereg svc' =>
      rcases udMondecDereg_decoders svc' decmap with
        ⟨hret, -, hmap⟩ | ⟨hret, -, hmap⟩
      · rw [DecCall.res, hret, if_pos rfl, hmap, Function.update_apply]
        simp only [System.event, eq_comm]
      · rw [DecCall.res, hret, hmap]
        rfl

theorem registry_decoders (calls : List (DecCall β)) (svc : UInt16) :
    decoders (registry.run Pages.empty calls) svc =
      lastRegistered svc (registry.events Pages.empty calls) := by
  refine System.history (S := registry)
    (H := fun evs decmap => decoders decmap svc = lastRegistered svc evs)
    (G := fun _ _ => True) (fun evs decmap c h _ => ?_) rfl calls
    fun _ _ => trivial
  rw [lastRegistered, List.foldl_concat]
  change decoders (c.res decmap).decmap svc = _
  rw [decoders_afterCall, h]
  rfl

/--
The tables are a map from services to decoders: what is found for a service is
what was registered last for it, a registration fails just when there is no table
and none to be had, a deregistration succeeds just when there is such a decoder, a
call that fails leaves all lookups as they were, and no table is read or written
out of its bounds.
-/
theorem registry_is_map (calls : List (DecCall β)) :
    let evs := registry.events Pages.empty calls
    let decmap := registry.run Pages.empty calls
    (∀ svc, (mondec svc decmap).1 = lastRegistered svc evs) ∧
    (∀ svc cb mmap, (udMondecReg svc (some cb) mmap decmap).ret = -1 ↔
      decmap (decmapIdx svc) = none ∧ mmap = false) ∧
    (∀ svc, (udMondecDereg svc decmap).ret = 0 ↔
      lastRegistered svc evs ≠ none) ∧
    (∀ ev ∈ evs, ev.output.1 ≠ 0 → ev.output.1 = -1 ∧
      ∀ svc, (mondec svc ev.post).1 = (mondec svc ev.pre).1) ∧
    (∀ ev ∈ evs, ∀ a ∈ ev.output.2, a.InBounds) ∧
    ∀ svc, ∀ a ∈ (mondec svc decmap).2, a.InBounds := by
  intro evs decmap
  refine ⟨fun svc => ?_, fun svc cb mmap => ?_, fun svc => ?_,
    fun ev hev hret => ?_, fun ev hev => ?_, fun svc => mondec_inBounds svc decmap⟩
  · rw [mondec_fst]
    exact registry_decoders calls svc
  · exact udMondecReg_fails_iff svc (some cb) mmap decmap
  · rw [← registry_decoders calls svc]
    rcases udMondecDereg_decoders svc decmap with
      ⟨hret, hsome, -⟩ | ⟨hret, hnone, -⟩
    · exact iff_of_true hret hsome
    · exact iff_of_false (by simp [hret]) (not_not.mpr hnone)
  · rw [System.eq_event_of_mem _ hev] at hret ⊢
    obtain ⟨hfail, hsame⟩ := (decCall_ret ev.input ev.pre).resolve_left hret
    refine ⟨hfail, fun svc => ?_⟩
    change (mondec svc (ev.input.res ev.pre).decmap).1 = _
    rw [hsame]
    rfl
  · rw [System.eq_event_of_mem _ hev]
    exact accesses_inBounds ev.input ev.pre

end Unserding
