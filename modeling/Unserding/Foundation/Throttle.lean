import Unserding.Foundation.System

/-!
# Machines that hold back

A machine that remembers when it last acted and acts again only when the clock
has moved on by some distance.  Over a whole run its acts are that far apart,
whatever the clock does, and few fall into an interval.
-/

namespace Foundation

variable {σ ι ο : Type*}

/-! ## Times that are apart -/

/-- Every time is at least `d` after those before it. -/
def Spaced (d : Int) (times : List Int) : Prop :=
  times.Pairwise fun t t' => t + d ≤ t'

theorem Spaced.cons {d t : Int} {times : List Int}
    (h : ∀ t' ∈ times, t + d ≤ t') (hrest : Spaced d times) :
    Spaced d (t :: times) :=
  List.pairwise_cons.mpr ⟨h, hrest⟩

theorem Spaced.length_le {d a b : Int} {times : List Int} (h : Spaced d times)
    (hab : a ≤ b + d) (hmem : ∀ t ∈ times, a ≤ t ∧ t ≤ b) :
    times.length * d ≤ b - a + d := by
  induction times generalizing a with
  | nil =>
      simp
      omega
  | cons t times ih =>
      obtain ⟨hlater, hrest⟩ := List.pairwise_cons.mp h
      obtain ⟨hlow, hhigh⟩ := hmem t List.mem_cons_self
      have htail := @ih (t + d) hrest (by omega) fun t' ht' =>
        ⟨hlater t' ht', (hmem t' (List.mem_cons_of_mem t ht')).2⟩
      have hcount : ((t :: times).length : Int) * d = times.length * d + d := by
        rw [List.length_cons, Nat.cast_add_one, Int.add_mul, Int.one_mul]
      omega

theorem Spaced.within {d a b : Int} {times : List Int} (h : Spaced d times)
    (hab : a ≤ b + d) :
    (times.filter fun t => a ≤ t ∧ t ≤ b).length * d ≤ b - a + d := by
  apply Spaced.length_le (List.Pairwise.filter _ h) hab
  intro t ht
  simpa using (List.mem_filter.mp ht).2

/-! ## Acts -/

namespace System

variable (S : System σ ι ο) (act : σ → ι → Option Int)

/-- When the machine acts over a run; `act` says whether an input makes it. -/
def acts (s : σ) (is : List ι) : List Int :=
  (S.events s is).filterMap fun e => act e.pre e.input

theorem acts_cons (s : σ) (i : ι) (is : List ι) :
    S.acts act s (i :: is) =
      (act s i).toList ++ S.acts act (S.step s i).1 is := by
  cases hact : act s i <;> simp [acts, event, hact]

theorem acts_append (s : σ) (is js : List ι) :
    S.acts act s (is ++ js) = S.acts act s is ++ S.acts act (S.run s is) js := by
  rw [acts, events_append, List.filterMap_append, acts, acts]

theorem acts_spaced {last : σ → Int} {d : Int} (hd : 0 ≤ d)
    (hact : ∀ s i t, act s i = some t →
      last s + d ≤ t ∧ last (S.step s i).1 = t)
    (hkeep : ∀ s i, act s i = none → last (S.step s i).1 = last s)
    (s : σ) (is : List ι) :
    Spaced d (S.acts act s is) ∧ ∀ t ∈ S.acts act s is, last s + d ≤ t := by
  induction is generalizing s with
  | nil => simp [acts, Spaced]
  | cons i is ih =>
      obtain ⟨hspaced, hlater⟩ := ih (S.step s i).1
      rw [acts_cons]
      cases hdid : act s i with
      | none =>
          rw [hkeep s i hdid] at hlater
          exact ⟨hspaced, hlater⟩
      | some t =>
          obtain ⟨hlast, hnext⟩ := hact s i t hdid
          rw [hnext] at hlater
          refine ⟨hspaced.cons hlater, List.forall_mem_cons.mpr ⟨hlast, ?_⟩⟩
          intro t' ht'
          have hapart : t + d ≤ t' := hlater t' ht'
          change last s + d ≤ t'
          omega

end System

end Foundation
