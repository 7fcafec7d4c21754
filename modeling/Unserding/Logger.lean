import Unserding.Wire
import Unserding.Foundation.CString
import Unserding.Foundation.System

/-!
# The log

`ud-logger.c` with its two globals: the name of the log file and the stream that
is logged to.  What `fopen` returns is an input.
-/

namespace Unserding

open Foundation

abbrev Path := CString (0 : UInt8)

inductive Stream where
  /-- What `fopen` returned for a name, `none` where that is NULL. -/
  | file (logfn : Option Path)
  | devNull
  | stderr

structure Log where
  glogfn : Option Path
  logout : Option Stream
  opened : List (Option Path)

def Log.init : Log := ⟨none, none, []⟩

structure Fopen where
  append : Option Path → Bool
  devNull : Bool

/-! ## The functions -/

def openLogout (logfn : Option Path) (f : Fopen) (l : Log) : Int × Log :=
  let l := { l with opened := l.opened ++ [logfn] }
  if f.append logfn then (0, { l with logout := some (.file logfn) })
  else
    (-1, { l with logout := if f.devNull then some .devNull else none })

def closeLogout (l : Log) : Log := { l with glogfn := none, logout := none }

def Path.isDash (logfn : Path) : Prop :=
  logfn.charAt 0 = 0x2d ∧ logfn.charAt 1 = 0

instance (logfn : Path) : Decidable logfn.isDash :=
  inferInstanceAs (Decidable (_ ∧ _))

def udOpenlog (logfn : Option Path) (f : Fopen) (l : Log) : Int × Log :=
  match logfn with
  | none => (0, l)
  | some path =>
      if path.isDash then (0, { l with logout := some .stderr })
      else
        let r := openLogout logfn f l
        if r.1 ≥ 0 then (0, { r.2 with glogfn := logfn }) else (-1, r.2)

def udRotlog (f : Fopen) (l : Log) : Log :=
  match l.glogfn with
  | none => l
  | some _ =>
      let l := closeLogout l
      (openLogout l.glogfn f l).2

inductive Sink where
  | syslog
  | stream (out : Stream)

structure Logged where
  sink : Sink
  text : Bytes

/-- `msg` is printed, and what `strerror` says where an error number is given. -/
def udLogout (msg : Bytes) (err : Option Bytes) (l : Log) : List Logged :=
  match l.logout with
  | none => ⟨.syslog, msg⟩ :: (err.map (Logged.mk .syslog)).toList
  | some out =>
      let msg :=
        match err with
        | none => msg
        | some err => msg ++ [0x3a, 0x20] ++ err
      [⟨.stream out, msg ++ [0x0a]⟩]

inductive LogCall where
  | udRotlog (f : Fopen)
  | udLogout (msg : Bytes) (err : Option Bytes)

def LogCall.step (l : Log) : LogCall → Log × List Logged
  | .udRotlog f => (Unserding.udRotlog f l, [])
  | .udLogout msg err => (l, Unserding.udLogout msg err l)

def logging : System Log LogCall (List Logged) := ⟨LogCall.step⟩

/-! ## Keeping the log -/

structure Log.Keeps (l : Log) (path : Path) : Prop where
  glogfn : l.glogfn = some path
  logout : l.logout = some (.file (some path))
  opened : none ∉ l.opened

def LogCall.Rotates : LogCall → Prop
  | .udRotlog _ => True
  | .udLogout _ _ => False

def LogsTo (path : Path) (ev : Event Log LogCall (List Logged)) : Prop :=
  ev.post.Keeps path ∧
    ∀ out ∈ ev.output, out.sink = .stream (.file (some path))

theorem openLogout_glogfn (logfn : Option Path) (f : Fopen) (l : Log) :
    (openLogout logfn f l).2.glogfn = l.glogfn := by
  unfold openLogout
  split <;> rfl

section Steps

variable {l : Log} {path : Path}

theorem udOpenlog_keeps_iff {f : Fopen}
    (h : (udOpenlog (some path) f Log.init).1 = 0) :
    (udOpenlog (some path) f Log.init).2.Keeps path ↔ ¬ path.isDash := by
  unfold udOpenlog openLogout at *
  by_cases hdash : path.isDash
  · simp only [if_pos hdash]
    refine iff_of_false (fun hkeeps => ?_) (not_not.mpr hdash)
    have hname := hkeeps.glogfn
    contradiction
  · simp only [if_neg hdash] at h ⊢
    by_cases hopen : f.append (some path) = true
    · simp only [if_pos hopen] at h ⊢
      exact iff_of_true ⟨rfl, rfl, by simp [Log.init]⟩ hdash
    · simp [hopen] at h

theorem udRotlog_loses (h : l.Keeps path) (f : Fopen) :
    ¬ (udRotlog f l).Keeps path := by
  intro hkeeps
  have hname := hkeeps.glogfn
  rw [udRotlog, h.glogfn] at hname
  change (openLogout none f (closeLogout l)).2.glogfn = some path at hname
  rw [openLogout_glogfn] at hname
  contradiction

theorem logCall_keeps (h : l.Keeps path) {c : LogCall} (hc : ¬ c.Rotates) :
    (c.step l).1.Keeps path := by
  cases c with
  | udRotlog f => exact absurd trivial hc
  | udLogout msg err => exact h

theorem logCall_loses (h : l.Keeps path) {c : LogCall} (hc : c.Rotates) :
    ¬ (c.step l).1.Keeps path := by
  cases c with
  | udRotlog f => exact udRotlog_loses h f
  | udLogout msg err => exact absurd hc id

theorem logCall_logsTo (h : l.Keeps path) (c : LogCall) :
    ∀ out ∈ (c.step l).2, out.sink = .stream (.file (some path)) := by
  cases c with
  | udRotlog f => exact fun out hout => by contradiction
  | udLogout msg err =>
      intro out hout
      simp only [LogCall.step, udLogout, h.logout, List.mem_singleton] at hout
      rw [hout]

end Steps

/--
After a log was opened, it is kept in every state and everything logged goes to
its file if and only if the name is that of a file, not the dash that stands for
`stderr`, and the log is never rotated.
-/
theorem log_kept_iff (path : Path) (f : Fopen) (calls : List LogCall)
    (hopen : (udOpenlog (some path) f Log.init).1 = 0) :
    let l := (udOpenlog (some path) f Log.init).2
    (l.Keeps path ∧ ∀ ev ∈ logging.events l calls, LogsTo path ev) ↔
      ¬ path.isDash ∧ ∀ c ∈ calls, ¬ c.Rotates := by
  intro l
  have hcalls : (∀ c ∈ calls, ¬ c.Rotates) ↔
      ∀ ev ∈ logging.events l calls, ¬ ev.input.Rotates := by
    conv_lhs => rw [← System.events_input logging l calls]
    exact List.forall_mem_map
  rw [hcalls, ← udOpenlog_keeps_iff hopen]
  refine and_congr_right fun hkeeps => ?_
  have hposts := System.posts_iff (S := logging) (J := fun l => l.Keeps path)
    (B := fun _ c => c.Rotates) (fun _ h => h)
    (fun _ _ h hc => logCall_keeps h hc) (fun _ _ h hc => logCall_loses h hc)
    hkeeps calls
  constructor
  · exact fun h => hposts.mp fun ev hev => (h ev hev).1
  · intro hrot ev hev
    have hpre := System.invariant_pre (S := logging)
      (J := fun l => l.Keeps path) (G := fun _ c => ¬ c.Rotates)
      (fun _ _ h hc => logCall_keeps h hc) hkeeps calls hrot ev hev
    refine ⟨hposts.mpr hrot ev hev, ?_⟩
    rw [System.eq_event_of_mem _ hev]
    exact logCall_logsTo hpre ev.input

def logfile : Path := ⟨[0x6c, 0x6f, 0x67], by decide⟩

def fopenNames : Fopen := ⟨fun logfn => logfn.isSome, true⟩

theorem log_kept_witness :
    ((udOpenlog (some logfile) fopenNames Log.init).2.Keeps logfile ∧
      ∀ ev ∈ logging.events (udOpenlog (some logfile) fopenNames Log.init).2
        [.udLogout [0x68] none], LogsTo logfile ev) ↔
    ¬ logfile.isDash ∧
      ∀ c ∈ [LogCall.udLogout [0x68] none], ¬ c.Rotates :=
  log_kept_iff logfile fopenNames _ (by decide)

/-- One rotation, and NULL is opened in place of the file. -/
theorem not_log_kept :
    ¬ ∀ (path : Path) (f : Fopen) (calls : List LogCall),
      f.append (some path) = true →
      (∀ g, .udRotlog g ∈ calls → g.append (some path) = true) →
      (udOpenlog (some path) f Log.init).1 = 0 →
      ∀ ev ∈ logging.events (udOpenlog (some path) f Log.init).2 calls,
        ev.post.Keeps path := by
  intro h
  have hkeeps : (udOpenlog (some logfile) fopenNames Log.init).2.Keeps
      logfile := (udOpenlog_keeps_iff (by decide)).mpr (by decide)
  refine udRotlog_loses hkeeps fopenNames
    (h logfile fopenNames [.udRotlog fopenNames] rfl ?_ (by decide) _
      List.mem_cons_self)
  intro g hg
  cases List.mem_singleton.mp hg
  rfl

end Unserding
