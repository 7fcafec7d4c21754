import Unserding.Foundation.System

/-!
# Batching senders

An `Outbox` collects messages into a batch that is labelled with the key of its
messages and leaves as one parcel.  Parcels are numbered in the order they
leave, and single messages may bypass the batch.  The outbox forgets its key,
going back to `idle`, whenever its batch is gone.
-/

namespace Foundation

inductive Parcel (κ μ : Type*) where
  | batch (seq : Nat) (key : κ) (msgs : List μ)
  | single (seq : Nat) (msg : μ)

namespace Parcel

variable {κ μ : Type*}

def seq : Parcel κ μ → Nat
  | .batch seq _ _ | .single seq _ => seq

def batched : List (Parcel κ μ) → List (List μ)
  | [] => []
  | .batch _ _ msgs :: rest => msgs :: batched rest
  | .single _ _ :: rest => batched rest

theorem mem_batched {parcels : List (Parcel κ μ)} {seq : Nat} {key : κ}
    {msgs : List μ} (h : .batch seq key msgs ∈ parcels) :
    msgs ∈ batched parcels := by
  induction parcels with
  | nil => simp at h
  | cons parcel rest ih =>
      rcases List.mem_cons.mp h with rfl | hrest
      · exact List.mem_cons_self
      · cases parcel with
        | batch => exact List.mem_cons_of_mem _ (ih hrest)
        | single => exact ih hrest

end Parcel

structure Outbox (κ μ : Type*) where
  seq : Nat
  key : κ
  pending : List μ

inductive Act (μ : Type*) where
  | clear
  | ship
  | append (msg : μ)
  | bypass (msg : μ)

namespace Outbox

variable {κ μ : Type*} (keyOf : μ → κ) (idle : κ)

def system : System (Outbox κ μ) (Act μ) (List (Parcel κ μ)) where
  step o
    | .clear => ({ o with key := idle }, [])
    | .ship => (⟨o.seq + 1, idle, []⟩, [.batch o.seq o.key o.pending])
    | .append msg =>
        ({ o with key := keyOf msg, pending := o.pending ++ [msg] }, [])
    | .bypass msg => ({ o with seq := o.seq + 1 }, [.single o.seq msg])

/--
When an act may be taken.  A message joins an empty batch or a batch of its own
key; a `loose` outbox also lets it join a batch whose key reads `idle`.
-/
def Guard (loose : Prop) (o : Outbox κ μ) : Act μ → Prop
  | .clear => o.pending = []
  | .ship => o.pending ≠ []
  | .append msg =>
      o.pending = [] ∨ o.key = keyOf msg ∨ (loose ∧ o.key = idle)
  | .bypass _ => True

def accepted : List (Act μ) → List μ
  | [] => []
  | .append msg :: rest => msg :: accepted rest
  | .clear :: rest | .ship :: rest | .bypass _ :: rest => accepted rest

@[simp] theorem accepted_append (first second : List (Act μ)) :
    accepted (first ++ second) = accepted first ++ accepted second := by
  induction first with
  | nil => rfl
  | cons act rest ih => cases act <;> simp [accepted, ih]

def parcels (o : Outbox κ μ) (acts : List (Act μ)) : List (Parcel κ μ) :=
  ((system keyOf idle).events o acts).flatMap Event.output

@[simp] theorem parcels_nil (o : Outbox κ μ) :
    parcels keyOf idle o [] = [] := rfl

theorem parcels_cons (o : Outbox κ μ) (act : Act μ) (acts : List (Act μ)) :
    parcels keyOf idle o (act :: acts) =
      ((system keyOf idle).step o act).2 ++
        parcels keyOf idle ((system keyOf idle).step o act).1 acts := rfl

theorem parcels_append (o : Outbox κ μ) (first second : List (Act μ)) :
    parcels keyOf idle o (first ++ second) =
      parcels keyOf idle o first ++
        parcels keyOf idle ((system keyOf idle).run o first) second := by
  simp [parcels, System.events_append]

theorem parcels_seq (o : Outbox κ μ) (acts : List (Act μ)) :
    (parcels keyOf idle o acts).map Parcel.seq =
        List.range' o.seq (parcels keyOf idle o acts).length ∧
      ((system keyOf idle).run o acts).seq =
        o.seq + (parcels keyOf idle o acts).length := by
  induction acts generalizing o with
  | nil => simp
  | cons act acts ih =>
      obtain ⟨hseq, hrun⟩ := ih ((system keyOf idle).step o act).1
      rw [parcels_cons, System.run_cons]
      cases act with
      | clear | append =>
          simp only [system, List.nil_append] at hseq hrun ⊢
          exact ⟨hseq, hrun⟩
      | ship | bypass =>
          simp only [system, List.singleton_append, List.map_cons,
            List.length_cons, List.range'_succ] at hseq hrun ⊢
          refine ⟨?_, by omega⟩
          rw [hseq]
          rfl

theorem batched_flatten (o : Outbox κ μ) (acts : List (Act μ)) :
    (Parcel.batched (parcels keyOf idle o acts)).flatten ++
        ((system keyOf idle).run o acts).pending =
      o.pending ++ accepted acts := by
  induction acts generalizing o with
  | nil => simp [Parcel.batched, accepted]
  | cons act acts ih =>
      have htail := ih ((system keyOf idle).step o act).1
      rw [parcels_cons, System.run_cons]
      cases act with
      | clear | bypass =>
          simpa [system, Parcel.batched, accepted] using htail
      | ship =>
          simp only [system, List.nil_append] at htail
          simp [system, Parcel.batched, accepted, htail]
      | append msg =>
          simpa [system, Parcel.batched, accepted] using htail

theorem batched_ne_nil {loose : Prop} {o : Outbox κ μ} {acts : List (Act μ)}
    (hguard : ∀ e ∈ (system keyOf idle).events o acts,
      Guard keyOf idle loose e.pre e.input) :
    ∀ msgs ∈ Parcel.batched (parcels keyOf idle o acts), msgs ≠ [] := by
  induction acts generalizing o with
  | nil => simp [Parcel.batched]
  | cons act acts ih =>
      have hhead : Guard keyOf idle loose o act :=
        hguard _ List.mem_cons_self
      have htail := ih fun e he => hguard e (List.mem_cons_of_mem _ he)
      rw [parcels_cons]
      cases act with
      | clear | append | bypass =>
          simpa [system, Parcel.batched] using htail
      | ship =>
          simp only [system, List.singleton_append, Parcel.batched,
            List.forall_mem_cons]
          exact ⟨hhead, htail⟩

theorem batch_keyed {o : Outbox κ μ} {acts : List (Act μ)}
    (hguard : ∀ e ∈ (system keyOf idle).events o acts,
      Guard keyOf idle False e.pre e.input)
    (hpending : ∀ msg ∈ o.pending, keyOf msg = o.key) :
    ∀ seq key msgs, .batch seq key msgs ∈ parcels keyOf idle o acts →
      ∀ msg ∈ msgs, keyOf msg = key := by
  induction acts generalizing o with
  | nil => simp
  | cons act acts ih =>
      have hhead : Guard keyOf idle False o act :=
        hguard _ List.mem_cons_self
      have htail := @ih _ fun e he => hguard e (List.mem_cons_of_mem _ he)
      intro seq key msgs hmem
      rw [parcels_cons] at hmem
      cases act with
      | clear =>
          have hempty : o.pending = [] := hhead
          exact htail (by simp [system, hempty]) seq key msgs hmem
      | ship =>
          rcases List.mem_append.mp hmem with hnow | hlater
          · simp only [system, List.mem_singleton, Parcel.batch.injEq] at hnow
            obtain ⟨-, rfl, rfl⟩ := hnow
            exact hpending
          · exact htail (by simp [system]) seq key msgs hlater
      | append msg =>
          refine htail ?_ seq key msgs hmem
          intro other hother
          rcases List.mem_append.mp hother with hold | hnew
          · rcases hhead with hempty | hkey | ⟨hfalse, -⟩
            · simp [hempty] at hold
            · exact (hpending other hold).trans hkey
            · exact hfalse.elim
          · rw [List.mem_singleton.mp hnew]
            rfl
      | bypass msg =>
          rcases List.mem_append.mp hmem with hnow | hlater
          · simp [system] at hnow
          · exact htail hpending seq key msgs hlater

end Outbox

end Foundation
