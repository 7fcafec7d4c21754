import Unserding.Foundation.Throttle

/-!
# Activity of the networks

`mon_beef_actvty` of `unsermon.c` reports that a network shows activity, but not
whenever there is something to read.  All networks share the two times it
remembers.
-/

namespace Unserding

open Foundation

/-- The static variables of `mon_beef_actvty`. -/
structure Activity where
  lastAct : Int
  lastRpt : Int

def Activity.init : Activity := ⟨0, 0⟩

/-- The network "shows activity" or "(still) shows activity", as the log has it. -/
inductive Report (κ : Type*) where
  | shows (s : κ)
  | still (s : κ)

/-- Something to read from the socket `s`, and what `time` returns. -/
structure Beef (κ : Type*) where
  s : κ
  thisAct : Int

variable {κ : Type*}

def monBeefActvty (s : κ) (thisAct : Int) (a : Activity) :
    Activity × Option (Report κ) :=
  if a.lastRpt + 60 > thisAct ∨ a.lastAct + 1 > thisAct then
    ({ a with lastAct := thisAct }, none)
  else if a.lastAct + 1 < thisAct then (⟨thisAct, thisAct⟩, some (.shows s))
  else if a.lastRpt + 60 < thisAct then (⟨thisAct, thisAct⟩, some (.still s))
  else ({ a with lastAct := thisAct }, none)

def watching (κ : Type*) : System Activity (Beef κ) (Option (Report κ)) :=
  ⟨fun a b => monBeefActvty b.s b.thisAct a⟩

def Activity.reports (a : Activity) (b : Beef κ) : Option Int :=
  (monBeefActvty b.s b.thisAct a).2.map fun _ => b.thisAct

def reportTimes (beefs : List (Beef κ)) : List Int :=
  (watching κ).acts Activity.reports Activity.init beefs

/-! ## One call -/

theorem monBeefActvty_some {a : Activity} {b : Beef κ} {t : Int}
    (h : a.reports b = some t) :
    t = b.thisAct ∧ a.lastRpt + 60 ≤ t ∧ a.lastAct < t ∧
      (monBeefActvty b.s b.thisAct a).1 = ⟨t, t⟩ := by
  obtain ⟨r, hr, rfl⟩ := Option.map_eq_some_iff.mp h
  unfold monBeefActvty at hr ⊢
  split at hr
  · contradiction
  · rename_i hpast
    rw [if_neg hpast]
    split at hr
    · rename_i hquiet
      rw [if_pos hquiet]
      exact ⟨rfl, by omega, by omega, rfl⟩
    · rename_i hbusy
      rw [if_neg hbusy]
      split at hr
      · rename_i hlong
        rw [if_pos hlong]
        exact ⟨rfl, by omega, by omega, rfl⟩
      · contradiction

theorem monBeefActvty_none {a : Activity} {b : Beef κ} (h : a.reports b = none) :
    (monBeefActvty b.s b.thisAct a).1 = { a with lastAct := b.thisAct } ∧
      (b.thisAct < a.lastRpt + 60 ∨ b.thisAct ≤ a.lastAct ∨
        b.thisAct = a.lastAct + 1 ∧ b.thisAct = a.lastRpt + 60) := by
  have hr := Option.map_eq_none_iff.mp h
  unfold monBeefActvty at hr ⊢
  split at hr
  · rename_i hpast
    rw [if_pos hpast]
    exact ⟨rfl, by omega⟩
  · rename_i hpast
    rw [if_neg hpast]
    split at hr
    · contradiction
    · rename_i hbusy
      rw [if_neg hbusy]
      split at hr
      · contradiction
      · rename_i hlong
        rw [if_neg hlong]
        exact ⟨rfl, by omega⟩

/-! ## Runs -/

theorem reportTimes_spaced (beefs : List (Beef κ)) :
    Spaced 60 (reportTimes beefs) := by
  have hact : ∀ (a : Activity) (b : Beef κ) t, a.reports b = some t →
      a.lastRpt + 60 ≤ t ∧ (monBeefActvty b.s b.thisAct a).1.lastRpt = t := by
    intro a b t h
    obtain ⟨-, hlast, -, hnext⟩ := monBeefActvty_some h
    exact ⟨hlast, by rw [hnext]⟩
  have hkeep : ∀ (a : Activity) (b : Beef κ), a.reports b = none →
      (monBeefActvty b.s b.thisAct a).1.lastRpt = a.lastRpt := by
    intro a b h
    rw [(monBeefActvty_none h).1]
  exact ((watching κ).acts_spaced Activity.reports (by decide) hact hkeep
    Activity.init beefs).1

theorem watching_snoc (beefs : List (Beef κ)) (b : Beef κ) :
    let a := (watching κ).run Activity.init beefs
    (watching κ).run Activity.init (beefs ++ [b]) =
        (monBeefActvty b.s b.thisAct a).1 ∧
      reportTimes (beefs ++ [b]) = reportTimes beefs ++ (a.reports b).toList := by
  refine ⟨System.run_append .., ?_⟩
  rw [reportTimes, System.acts_append, System.acts_cons]
  simp [System.acts, reportTimes]

structure Activity.Told (a : Activity) (beefs : List (Beef κ)) : Prop where
  lastAct : a.lastAct = (beefs.getLast?.map Beef.thisAct).getD 0
  lastRpt : a.lastRpt ∈ reportTimes beefs ∨ a.lastRpt = 0 ∧ beefs = []
  rpt_le : a.lastRpt ≤ a.lastAct
  act_le : a.lastAct ≤ a.lastRpt + 60

theorem Activity.Told.step {a : Activity} {beefs : List (Beef κ)} {b : Beef κ}
    (h : a.Told beefs) (hstate : (watching κ).run Activity.init beefs = a)
    (hstart : 60 ≤ b.thisAct) (hclock : ∀ b' ∈ beefs, b'.thisAct ≤ b.thisAct) :
    (monBeefActvty b.s b.thisAct a).1.Told (beefs ++ [b]) := by
  have htimes := (watching_snoc beefs b).2
  rw [hstate] at htimes
  have hpast : a.lastAct ≤ b.thisAct := by
    rw [h.lastAct]
    cases hlast : beefs.getLast? with
    | none =>
        change (0 : Int) ≤ b.thisAct
        omega
    | some b' => exact hclock b' (List.mem_of_getLast? hlast)
  have hrpt := h.rpt_le
  have hact := h.act_le
  cases hreport : a.reports b with
  | some t =>
      obtain ⟨rfl, -, -, hnext⟩ := monBeefActvty_some hreport
      rw [hnext]
      rw [hreport] at htimes
      refine ⟨by simp, .inl (by simp [htimes]), le_rfl, ?_⟩
      change b.thisAct ≤ b.thisAct + 60
      omega
  | none =>
      obtain ⟨hnext, hwhy⟩ := monBeefActvty_none hreport
      rw [hnext]
      rw [hreport] at htimes
      refine ⟨by simp, ?_, hrpt.trans hpast, ?_⟩
      · rcases h.lastRpt with hmem | ⟨hzero, rfl⟩
        · exact .inl (by simpa [htimes] using hmem)
        · have hidle : a.lastAct = 0 := h.lastAct
          omega
      · change b.thisAct ≤ a.lastRpt + 60
        omega

/-- The induction takes the last call off; the clock never goes back. -/
theorem watching_told {beefs : List (Beef κ)}
    (hclock : (beefs.map Beef.thisAct).Pairwise (· ≤ ·))
    (hstart : ∀ b ∈ beefs, 60 ≤ b.thisAct) :
    ((watching κ).run Activity.init beefs).Told beefs := by
  induction beefs using List.reverseRecOn with
  | nil => exact ⟨rfl, .inr ⟨rfl, rfl⟩, le_rfl, Int.zero_le_ofNat 60⟩
  | append_singleton beefs b ih =>
      rw [List.map_append, List.pairwise_append] at hclock
      obtain ⟨hbefore, -, hlast⟩ := hclock
      have h := ih hbefore fun b' hb' => hstart b' (List.mem_append_left _ hb')
      rw [(watching_snoc beefs b).1]
      apply h.step rfl (hstart b (by simp))
      intro b' hb'
      exact hlast _ (List.mem_map_of_mem hb') _ (by simp)

/--
Reports are at least a minute apart, whatever the clock does.  Where it never goes
back, nothing comes to be read more than a minute after a report.
-/
theorem activity_reported (beefs : List (Beef κ)) :
    Spaced 60 (reportTimes beefs) ∧
      ((beefs.map Beef.thisAct).Pairwise (· ≤ ·) → (∀ b ∈ beefs, 60 ≤ b.thisAct) →
        ∀ before b, before ++ [b] <+: beefs →
          ∃ t ∈ reportTimes (before ++ [b]), t ≤ b.thisAct ∧ b.thisAct ≤ t + 60) := by
  refine ⟨reportTimes_spaced beefs, fun hclock hstart before b hfront => ?_⟩
  have h := watching_told
    (List.Pairwise.sublist (hfront.sublist.map Beef.thisAct) hclock)
    fun b' hb' => hstart b' (hfront.subset hb')
  have hlast := h.lastAct
  simp only [List.getLast?_append, List.getLast?_singleton, Option.some_or,
    Option.map_some, Option.getD_some] at hlast
  refine ⟨_, h.lastRpt.resolve_right (by simp), ?_, ?_⟩
  · exact h.rpt_le.trans_eq hlast
  · exact hlast ▸ h.act_le

theorem activity_reported_witness :
    ∃ t ∈ reportTimes
        [⟨true, 100⟩, ⟨false, 101⟩, ⟨true, 159⟩, (⟨true, 160⟩ : Beef Bool)],
      t ≤ 160 ∧ 160 ≤ t + 60 :=
  (activity_reported [⟨true, 100⟩, ⟨false, 101⟩, ⟨true, 159⟩, ⟨true, 160⟩]).2
    (by decide) (by decide) [⟨true, 100⟩, ⟨false, 101⟩, ⟨true, 159⟩] ⟨true, 160⟩
    (List.prefix_refl _)

end Unserding
