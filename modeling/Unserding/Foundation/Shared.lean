import Unserding.Foundation.System
import Mathlib.Logic.Function.Basic

/-!
# Components that share a state

The components of a process step one at a time.  Each has a state of its own,
and all of them work on a common one.  When neither what a component does to its
own state nor what it shows depends on the common state, as long as that is
good, every component behaves in a run of the process as it would alone.
-/

namespace Foundation

variable {κ γ σ ι ο ω : Type*}

structure Component (γ σ ι ο : Type*) where
  step : γ → σ → ι → γ × σ × ο

structure Housing (κ γ σ : Type*) where
  common : γ
  own : κ → σ

namespace Component

variable (C : Component γ σ ι ο)

def alone : System (γ × σ) ι ο where
  step s i :=
    let r := C.step s.1 s.2 i
    ((r.1, r.2.1), r.2.2)

def process [DecidableEq κ] : System (Housing κ γ σ) (κ × ι) ο where
  step p i :=
    let r := C.step p.common (p.own i.1) i.2
    (⟨r.1, Function.update p.own i.1 r.2.1⟩, r.2.2)

def inputsOf [DecidableEq κ] (k : κ) (is : List (κ × ι)) : List ι :=
  is.filterMap fun i => if i.1 = k then some i.2 else none

variable (obs : ο → ω)

def shown (es : List (Event (γ × σ) ι ο)) : List ω :=
  es.map fun e => obs e.output

def shownBy [DecidableEq κ] (k : κ)
    (es : List (Event (Housing κ γ σ) (κ × ι) ο)) : List ω :=
  es.filterMap fun e =>
    if e.input.1 = k then some (obs e.output) else none

/--
Good common states stay good, and which of them it is makes no difference to a
component.
-/
structure Separate (G : γ → Prop) (I : σ → Prop) (A : ι → Prop) : Prop where
  common : ∀ g s i, G g → I s → A i → G (C.step g s i).1
  own : ∀ g s i, G g → I s → A i → I (C.step g s i).2.1
  same : ∀ g g' s i, G g → G g' → I s → A i →
    (C.step g s i).2.1 = (C.step g' s i).2.1 ∧
      obs (C.step g s i).2.2 = obs (C.step g' s i).2.2

variable {C obs} [DecidableEq κ] {G : γ → Prop} {I : σ → Prop} {A : ι → Prop}

theorem Separate.run_alone (h : C.Separate obs G I A) {p : Housing κ γ σ} {g : γ}
    (hp : G p.common) (hown : ∀ k, I (p.own k)) (hg : G g) {is : List (κ × ι)}
    (hA : ∀ i ∈ is, A i.2) (k : κ) :
    (C.process.run p is).own k = (C.alone.run (g, p.own k) (inputsOf k is)).2 ∧
      shownBy obs k (C.process.events p is) =
        shown obs (C.alone.events (g, p.own k) (inputsOf k is)) := by
  induction is generalizing p g with
  | nil => exact ⟨rfl, rfl⟩
  | cons i is ih =>
      obtain ⟨hi, hrest⟩ := List.forall_mem_cons.mp hA
      have hcommon := h.common _ _ _ hp (hown i.1) hi
      have hstep := h.own _ _ _ hp (hown i.1) hi
      have hown' : ∀ j, I ((C.process.step p i).1.own j) := by
        intro j
        by_cases hj : j = i.1
        · subst hj
          simpa [process] using hstep
        · simpa [process, hj] using hown j
      by_cases hk : i.1 = k
      · subst hk
        obtain ⟨hsame, hobs⟩ := h.same _ g _ _ hp hg (hown i.1) hi
        have htail := ih hcommon hown' (h.common _ _ _ hg (hown i.1) hi) hrest
        simp only [process, Function.update_self, hsame] at htail
        refine ⟨?_, ?_⟩
        · simpa [process, inputsOf, alone, hsame] using htail.1
        · simpa [process, inputsOf, alone, shown, shownBy, System.event, hobs,
            hsame] using htail.2
      · have htail := ih hcommon hown' hg hrest
        simp only [process, Function.update_of_ne (Ne.symm hk)] at htail
        refine ⟨?_, ?_⟩
        · simpa [process, inputsOf, hk] using htail.1
        · simpa [process, inputsOf, hk, shown, shownBy, System.event] using htail.2

end Component

end Foundation
