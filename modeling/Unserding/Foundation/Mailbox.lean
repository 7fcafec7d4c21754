import Unserding.Foundation.System
import Mathlib.Data.List.ReduceOption

/-!
# Mailboxes read batch by batch

Batches of messages arrive in a mailbox and are polled one message at a time.
A poll finds nothing when the mailbox is empty, and once at the end of each
batch.  What was polled is a prefix of what arrived, and it is all of it when
two polls in a row found nothing.
-/

namespace Foundation

structure Mailbox (μ : Type*) where
  queue : List (List μ)
  current : Option (List μ)

inductive Post (μ : Type*) where
  | arrive (batch : List μ)
  | poll

namespace Mailbox

variable {μ : Type*}

def empty : Mailbox μ := ⟨[], none⟩

def poll : Mailbox μ → Mailbox μ × Option μ
  | ⟨queue, some (msg :: rest)⟩ => (⟨queue, some rest⟩, some msg)
  | ⟨queue, some []⟩ => (⟨queue, none⟩, none)
  | ⟨(msg :: rest) :: queue, none⟩ => (⟨queue, some rest⟩, some msg)
  | ⟨[] :: queue, none⟩ => (⟨queue, none⟩, none)
  | ⟨[], none⟩ => (⟨[], none⟩, none)

def system : System (Mailbox μ) (Post μ) (Option μ) where
  step m
    | .arrive batch => ({ m with queue := m.queue ++ [batch] }, none)
    | .poll => m.poll

def arrived (posts : List (Post μ)) : List (List μ) :=
  posts.filterMap fun
    | .arrive batch => some batch
    | .poll => none

def left (m : Mailbox μ) : List μ := m.current.getD [] ++ m.queue.flatten

theorem poll_left (m : Mailbox μ) : m.poll.2.toList ++ m.poll.1.left = m.left := by
  rcases m with ⟨queue, current⟩
  cases current with
  | some rest => cases rest <;> rfl
  | none =>
      cases queue with
      | nil => rfl
      | cons batch queue => cases batch <;> rfl

theorem reduceOption_cons (o : Option μ) (os : List (Option μ)) :
    (o :: os).reduceOption = o.toList ++ os.reduceOption := by
  cases o <;> rfl

/-- Messages are neither lost nor duplicated nor reordered. -/
theorem polled_left (m : Mailbox μ) (posts : List (Post μ)) :
    (system.outputs m posts).reduceOption ++ (system.run m posts).left =
      m.left ++ (arrived posts).flatten := by
  induction posts generalizing m with
  | nil => simp [arrived, List.reduceOption]
  | cons post posts ih =>
      have htail := ih (system.step m post).1
      rw [System.outputs_cons, System.run_cons, reduceOption_cons,
        List.append_assoc, htail, ← List.append_assoc]
      cases post with
      | arrive batch => simp [system, left, arrived]
      | poll => exact congrArg (· ++ (arrived posts).flatten) m.poll_left

def Filled (m : Mailbox μ) : Prop := ∀ batch ∈ m.queue, batch ≠ []

theorem Filled.poll {m : Mailbox μ} (h : m.Filled) : m.poll.1.Filled := by
  rcases m with ⟨queue, current⟩
  cases current with
  | some rest => cases rest <;> exact h
  | none =>
      cases queue with
      | nil => exact h
      | cons batch queue =>
          have htail : ∀ batch ∈ queue, batch ≠ [] :=
            fun other hother => h other (List.mem_cons_of_mem _ hother)
          cases batch <;> exact htail

theorem Filled.run {m : Mailbox μ} (h : m.Filled) {posts : List (Post μ)}
    (harrived : ∀ batch ∈ arrived posts, batch ≠ []) :
    (system.run m posts).Filled := by
  induction posts generalizing m with
  | nil => exact h
  | cons post posts ih =>
      cases post with
      | poll => exact ih h.poll harrived
      | arrive batch =>
          refine ih ?_ fun other hother =>
            harrived other (List.mem_cons_of_mem _ hother)
          intro other hother
          rcases List.mem_append.mp hother with hold | hnew
          · exact h other hold
          · rw [List.mem_singleton.mp hnew]
            exact harrived batch List.mem_cons_self

theorem Filled.left_eq_nil {m : Mailbox μ} (h : m.Filled)
    (hfirst : m.poll.2 = none) (hsecond : m.poll.1.poll.2 = none) :
    m.left = [] := by
  have hempty : ∀ queue : List (List μ), (∀ batch ∈ queue, batch ≠ []) →
      (Mailbox.mk queue none).poll.2 = none → queue = [] := by
    intro queue hqueue hnone
    cases queue with
    | nil => rfl
    | cons batch queue =>
        cases batch with
        | nil => exact absurd rfl (hqueue [] List.mem_cons_self)
        | cons msg rest => contradiction
  rcases m with ⟨queue, current⟩
  cases current with
  | none => rw [hempty queue h hfirst]; rfl
  | some rest =>
      cases rest with
      | cons msg rest => contradiction
      | nil => rw [hempty queue h hsecond]; rfl

theorem polled_isPrefix (posts : List (Post μ)) :
    (system.outputs empty posts).reduceOption <+: (arrived posts).flatten :=
  ⟨_, polled_left empty posts⟩

theorem polled_all {posts : List (Post μ)}
    (harrived : ∀ batch ∈ arrived posts, batch ≠ [])
    (hnone : system.outputs empty (posts ++ [.poll, .poll]) =
      system.outputs empty posts ++ [none, none]) :
    (system.outputs empty posts).reduceOption = (arrived posts).flatten := by
  have hfilled : (system.run empty posts).Filled :=
    Filled.run (by simp [Filled, empty]) harrived
  rw [System.outputs_append, List.append_cancel_left_eq] at hnone
  obtain ⟨hfirst, hsecond⟩ := List.cons.inj hnone
  have hleft := hfilled.left_eq_nil hfirst (List.cons.inj hsecond).1
  have hall := polled_left empty posts
  rw [hleft, List.append_nil] at hall
  exact hall

end Mailbox

end Foundation
